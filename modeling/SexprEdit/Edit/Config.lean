import SexprEdit.Text.Basic

/-!
# Configuration

What can be set about editing.
-/

namespace SexprEdit

/-- The settings that all sessions share. -/
structure Config where
  /-- After so many seconds without use a session may be dropped. -/
  idleTimeout : Option Nat := none
  /-- How many steps can be undone; zero means any number. -/
  historyLimit : Nat := 100
  /-- The greatest width of a preview. -/
  summaryWidth : Nat := 60
  /-- The heads of lists that introduce bindings. -/
  bindingForms : List Text := ["let".toList, "let*".toList]
deriving DecidableEq, Repr

namespace Config

/-- Whether a list with this head introduces bindings. -/
def isBindingForm (config : Config) (head : Text) : Bool :=
  config.bindingForms.contains head

/-- The head of a new binding form: the first that is set. -/
def bindingHead (config : Config) : Text :=
  config.bindingForms.head?.getD "let".toList

end Config

end SexprEdit
