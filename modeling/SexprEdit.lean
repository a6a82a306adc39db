import SexprEdit.Text.Space
import SexprEdit.Text.CaseFold
import SexprEdit.Reader.Basic
import SexprEdit.Json.Reader
import SexprEdit.Json.Printer
import SexprEdit.Cursor.Edit
import SexprEdit.Edit.Mutation
import SexprEdit.Store.Path
import SexprEdit.Edit.Codec
import SexprEdit.Session.Registry
import SexprEdit.Command.Run
import SexprEdit.Main
import SexprEdit.Proofs.Token.Scan
import SexprEdit.Proofs.Token.Adjacent
import SexprEdit.Proofs.Node.Grammar
import SexprEdit.Proofs.Reader.Grammar
import SexprEdit.Proofs.Reader.RoundTrip
import SexprEdit.Proofs.Node.Shape
import SexprEdit.Proofs.Reader.Shape
import SexprEdit.Proofs.Node.Spacing
import SexprEdit.Proofs.Cursor.Walk
import SexprEdit.Proofs.Cursor.Whole
import SexprEdit.Proofs.Node.Seams
import SexprEdit.Proofs.Node.Edited
import SexprEdit.Proofs.Node.Structure
import SexprEdit.Proofs.Cursor.Context
import SexprEdit.Proofs.Cursor.Inversion
import SexprEdit.Proofs.Cursor.Recast
import SexprEdit.Proofs.Cursor.Operation
import SexprEdit.Proofs.Cursor.Edits
import SexprEdit.Proofs.Cursor.Replace
import SexprEdit.Proofs.Edit.Kept
import SexprEdit.Proofs.Edit.Thread
import SexprEdit.Proofs.Edit.Extract
import SexprEdit.Proofs.Edit.ReadBack
import SexprEdit.Proofs.Cursor.Outline
import SexprEdit.Proofs.Cursor.Coherence
import SexprEdit.Proofs.Edit.Runs
import SexprEdit.Proofs.Session.Reachable
import SexprEdit.Proofs.Session.Moves
import SexprEdit.Proofs.Text.Position
import SexprEdit.Proofs.Cursor.Offset
import SexprEdit.Proofs.Reader.Excerpt
import SexprEdit.Proofs.Edit.Errors
import SexprEdit.Proofs.Session.Request
import SexprEdit.Proofs.Session.Isolation
import SexprEdit.Proofs.Cursor.Identity
import SexprEdit.Proofs.Session.Timeline
import SexprEdit.Proofs.Node.Places
import SexprEdit.Proofs.Cursor.Order
import SexprEdit.Proofs.Cursor.Tour
import SexprEdit.Proofs.Search.Matches
import SexprEdit.Proofs.Search.Cycle
import SexprEdit.Proofs.Edit.Rename
import SexprEdit.Proofs.Reader.Failure
import SexprEdit.Proofs.Edit.Drafts
import SexprEdit.Proofs.Edit.Pipeline
import SexprEdit.Proofs.Edit.Scope
import SexprEdit.Proofs.Edit.Binding
import SexprEdit.Proofs.Edit.Clearance
import SexprEdit.Proofs.Edit.SelfReplacement
import SexprEdit.Proofs.Atom.Spelling
import SexprEdit.Proofs.Search.Keyword
import SexprEdit.Proofs.Edit.Reversal
import SexprEdit.Proofs.Token.Pattern
import SexprEdit.Proofs.Token.Tiling
import SexprEdit.Proofs.Session.Batch
import SexprEdit.Proofs.Node.Junction
import SexprEdit.Proofs.Cursor.Sharing
import SexprEdit.Proofs.Command.Effects
import SexprEdit.Proofs.Command.Refinement
import SexprEdit.Proofs.Atom.Hint
import SexprEdit.Proofs.Text.Boundary
