import SexprEdit.Proofs.Edit.Rename
import SexprEdit.Proofs.Search.Keyword

/-!
# Renaming back

Where names are compared as a whole and with regard to case, the atoms that a symbol's name matches are the symbol and the
keywords of that name (`Atom.Named`), and renaming puts another name behind the same colons. If nothing in the document had
the new name, the atoms that have it afterwards are those that were renamed, so renaming back finds them and no others, and
gives each of them its old text (`Matcher.takesBack_of_symbols`).
-/

namespace SexprEdit

open Node

namespace Text

theorem beginsWith_eq_iff {same : Char → Char → Bool} (hsame : ∀ c d, same c d = true ↔ c = d) (query t : Text) :
    beginsWith same query t = true ↔ query <+: t := by
  induction query generalizing t with
  | nil => simp [beginsWith]
  | cons q query ih =>
    cases t with
    | nil => simp [beginsWith]
    | cons c t => rw [beginsWith, Bool.and_eq_true, hsame, ih, List.cons_prefix_cons]

theorem agrees_eq_iff {same : Char → Char → Bool} (hsame : ∀ c d, same c d = true ↔ c = d) (query t : Text) :
    agrees same query t = true ↔ query = t := by
  rw [agrees, Bool.and_eq_true, beq_iff_eq, beginsWith_eq_iff hsame]
  constructor
  · rintro ⟨hlength, hbegins⟩
    exact hbegins.eq_of_length hlength
  · rintro rfl
    exact ⟨rfl, List.prefix_rfl⟩

end Text

/-- An atom is the symbol of a name, or a keyword of it with some colons in front. -/
inductive Atom.Named (name : Text) : Atom → Text → Prop where
  | symbol : Named name ⟨.symbol, name⟩ []
  | keyword {colons : Text} (hhead : colons.head? = some ':') (hcolons : colons.takeWhile Atom.isColon = colons) :
      Named name ⟨.keyword, colons ++ name⟩ colons

namespace Atom

variable {a b : Atom} {name other colons : Text}

theorem Named.text (h : Named name a colons) : a.text = colons ++ name := by
  cases h <;> rfl

theorem named_of_symbol (hkind : a.kind = .symbol) (htext : a.text = name) : Named name a [] := by
  obtain ⟨kind, text⟩ := a
  obtain rfl : kind = .symbol := hkind
  obtain rfl : text = name := htext
  exact .symbol

theorem named_of_keyword (hkind : a.kind = .keyword) (htext : a.text = colons ++ name) (hhead : colons.head? = some ':')
    (hcolons : colons.takeWhile isColon = colons) : Named name a colons := by
  obtain ⟨kind, text⟩ := a
  obtain rfl : kind = .keyword := hkind
  obtain rfl : text = colons ++ name := htext
  exact .keyword hhead hcolons

theorem head?_of_symbol (h : Atom.read name = .ok a) (ha : a.kind = .symbol) : name.head? ≠ some ':' := by
  intro hhead
  rw [(keyword_iff h).mpr hhead] at ha
  cases ha

theorem keyword_parts (hcolons : colons.takeWhile isColon = colons) (hname : name.head? ≠ some ':') :
    (Atom.mk .keyword (colons ++ name)).sigil? = some colons ∧
      (Atom.mk .keyword (colons ++ name)).keywordName? = some name := by
  have hfront := colons_append hcolons hname
  have hsplit := List.takeWhile_append_dropWhile (p := isColon) (l := colons ++ name)
  rw [hfront] at hsplit
  exact ⟨congrArg some hfront, congrArg some (List.append_cancel_left hsplit)⟩

theorem Named.rename (h : Named name a colons) {s : Atom} (hother : Atom.read other = .ok s) (hs : s.kind = .symbol)
    (hb : Atom.read (colons ++ other) = .ok b) : Named other b colons := by
  obtain ⟨htext, -, -⟩ := read_spec hb
  cases h with
  | symbol =>
    obtain rfl := Except.ok.inj (hother.symm.trans hb)
    exact named_of_symbol hs htext
  | keyword hhead hcolons =>
    have hkind : b.kind = .keyword := (keyword_iff hb).mpr (by rw [List.head?_append, hhead]; rfl)
    exact named_of_keyword hkind htext hhead hcolons

end Atom

namespace Matcher

variable {m m' : Matcher} {a : Atom} {name colons replacement : Text}

/-- One renaming takes back another at an atom: it finds what the other left if the other found the atom, can read the
old text, and leads back to the atom. -/
structure TakesBack (m' : Matcher) (old : Text) (m : Matcher) (new : Text) (a : Atom) : Prop where
  matches_iff : m'.matchesAtom (m.respelled new a) = m.matchesAtom a
  respells : m'.Respells old (m.respelled new a)
  respelled_eq : m'.respelled old (m.respelled new a) = a

theorem hits_iff (hm : m.options = {}) : m.hits name = true ↔ m.query = name := by
  have hexact : m.options.exact = true := by rw [hm]
  have hsame : ∀ c d, m.same c d = true ↔ c = d := by simp [same, hm]
  rw [hits, if_pos hexact, Text.agrees_eq_iff hsame]

theorem matchesAtom_iff (hm : m.options = {}) (hquery : m.query.head? ≠ some ':') (ha : Atom.read a.text = .ok a) :
    m.matchesAtom a = true ↔ ∃ colons, a.Named m.query colons := by
  constructor
  · intro hmatch
    cases hkind : a.kind with
    | symbol =>
      have hhits : m.hits a.text = true := by simpa only [matchesAtom, hkind] using hmatch
      exact ⟨[], Atom.named_of_symbol hkind ((hits_iff hm).mp hhits).symm⟩
    | keyword =>
      obtain ⟨sigil, name, htext, -, hname, hhead, hcolons, hfront⟩ := Atom.exists_sigil ha hkind
      simp only [matchesAtom, hkind, hname, Option.any_some, Bool.or_eq_true, hits_iff hm] at hmatch
      rcases hmatch with hwhole | rfl
      · -- the text of a keyword begins with a colon, and the query does not
        rw [hwhole, htext, List.head?_append, hhead] at hquery
        exact absurd rfl hquery
      · exact ⟨sigil, Atom.named_of_keyword hkind htext hhead hcolons⟩
    | _ => simp [matchesAtom, hkind] at hmatch
  · rintro ⟨colons, hnamed⟩
    cases hnamed with
    | symbol => exact (hits_iff hm).mpr rfl
    | keyword hhead hcolons =>
      obtain ⟨-, hname⟩ := Atom.keyword_parts hcolons hquery
      simp [matchesAtom, hname, (hits_iff hm).mpr]

theorem renamed_of_named (hm : m.options = {}) (h : a.Named name colons) (hname : name.head? ≠ some ':')
    (hreplacement : replacement.head? ≠ some ':') : m.renamed replacement a = colons ++ replacement := by
  cases h with
  | symbol => simp [renamed, Atom.sigil?, hm]
  | keyword hhead hcolons =>
    obtain ⟨hsigil, hkeyword⟩ := Atom.keyword_parts hcolons hname
    rw [renamed_keyword hsigil hkeyword, hm, if_pos rfl, withSigil, if_neg hreplacement]

/-- Renaming to the name of a symbol that an atom does not have is taken back at the atom by renaming back. -/
theorem takesBack_of_symbols {s s' : Atom} (hm : m.options = {}) (hm' : m'.options = {}) (hs : Atom.read m.query = .ok s)
    (hsymbol : s.kind = .symbol) (hs' : Atom.read m'.query = .ok s') (hsymbol' : s'.kind = .symbol)
    (ha : Atom.read a.text = .ok a) (hfree : m'.matchesAtom a = false) (hreads : m.Respells m'.query a) :
    m'.TakesBack m.query m m'.query a := by
  have hquery := Atom.head?_of_symbol hs hsymbol
  have hquery' := Atom.head?_of_symbol hs' hsymbol'
  cases hmatch : m.matchesAtom a with
  | true =>
    obtain ⟨colons, hnamed⟩ := (matchesAtom_iff hm hquery ha).mp hmatch
    have hrenamed : m.renamed m'.query a = colons ++ m'.query := renamed_of_named hm hnamed hquery hquery'
    have hne : m.renamed m'.query a ≠ a.text := by
      rw [hrenamed, hnamed.text]
      intro hsame
      have hnamed' : ∃ colons, a.Named m'.query colons := ⟨colons, List.append_cancel_left hsame ▸ hnamed⟩
      rw [(matchesAtom_iff hm' hquery' ha).mpr hnamed'] at hfree
      cases hfree
    obtain ⟨b, hb⟩ := hreads hmatch hne
    have hnamed' : b.Named m'.query colons := hnamed.rename hs' hsymbol' (hrenamed ▸ hb)
    have hback : m'.renamed m.query b = a.text :=
      (renamed_of_named hm' hnamed' hquery' hquery).trans hnamed.text.symm
    obtain ⟨htext, -, -⟩ := Atom.read_spec hb
    have hmatch' : m'.matchesAtom b = true :=
      (matchesAtom_iff hm' hquery' (htext ▸ hb)).mpr ⟨colons, hnamed'⟩
    have hne' : m'.renamed m.query b ≠ b.text := by
      rw [hback, htext]
      exact hne.symm
    have hread : Atom.read (m'.renamed m.query b) = .ok a := by rw [hback, ha]
    have hleft : m.respelled m'.query a = b := Cursor.respelled_eq hmatch hne hb
    refine ⟨?_, ?_, ?_⟩
    · rw [hleft, hmatch', hmatch]
    · rw [hleft]
      exact fun _ _ => ⟨a, hread⟩
    · rw [hleft]
      exact Cursor.respelled_eq hmatch' hne' hread
  | false =>
    have hself : m.respelled m'.query a = a := Cursor.respelled_eq_self fun h => by simp [hmatch] at h
    have hnone : ¬ m'.matchesAtom a = true := by simp [hfree]
    refine ⟨?_, ?_, ?_⟩
    · rw [hself, hfree, hmatch]
    · rw [hself]
      exact fun hmatch' => absurd hmatch' hnone
    · rw [hself]
      exact Cursor.respelled_eq_self fun hmatch' => hnone hmatch'.1

theorem ofQuery_eq_ok {query : Text} {options : MatchOptions} (h : ofQuery query options = .ok m) :
    m.query = query ∧ m.options = options := by
  rw [ofQuery] at h
  split_ifs at h
  obtain rfl := Except.ok.inj h
  exact ⟨rfl, rfl⟩

end Matcher

namespace Cursor

variable {c d : Cursor} {source : Text} {t : Tree} {m m' : Matcher} {replacement : Text} {count : Nat}

theorem Within.respells (hc : c.Within t) (hroot : c.tree.isRoot = true) (h : c.rename m replacement = .ok (d, count)) :
    ∀ a ∈ c.tree.atoms, m.Respells replacement a := by
  intro a ha
  by_contra hbad
  obtain ⟨err, herr⟩ := hc.rename_error hroot ⟨a, ha, hbad⟩
  rw [herr] at h
  cases h

theorem Within.rename_spec (hc : c.Within t) (hroot : c.tree.isRoot = true) (h : c.rename m replacement = .ok (d, count)) :
    d.Within d.tree.plain ∧ d.path = c.path ∧ count = c.tree.atoms.countP m.matchesAtom ∧
      Node.Respelled (m.respelled replacement) c.tree.plain d.tree.plain := by
  obtain ⟨d', hrename, hpath, hrespelled, -⟩ := hc.rename_ok hroot (hc.respells hroot h)
  obtain ⟨rfl, rfl⟩ := Prod.mk.inj (Except.ok.inj (h.symm.trans hrename))
  obtain ⟨start, s, hruns⟩ := hc.reached
  exact ⟨⟨⟨start, s, hruns.trans (edits_rename h).runs⟩, rfl⟩, hpath, m.length_findAll _, hrespelled⟩

/-- A renaming that is taken back at every atom is taken back as a whole. -/
theorem Within.rename_back {old new : Text} (hc : c.Within t) (hroot : c.tree.isRoot = true)
    (hrename : c.rename m new = .ok (d, count)) (hback : ∀ a ∈ c.tree.atoms, m'.TakesBack old m new a) :
    ∃ e, d.rename m' old = .ok (e, count) ∧ e.tree.shape = c.tree.shape ∧ e.path = c.path := by
  obtain ⟨hd, hpath, rfl, hrespelled⟩ := hc.rename_spec hroot hrename
  have hatoms : d.tree.atoms = c.tree.atoms.map (m.respelled new) := by
    rw [← atoms_plain, hrespelled.atoms, atoms_plain]
  have hroot' : d.tree.isRoot = true := by
    rw [← isRoot_plain, hrespelled.isRoot, isRoot_plain, hroot]
  have hreads : ∀ a ∈ d.tree.atoms, m'.Respells old a := by
    rw [hatoms]
    exact List.forall_mem_map.mpr fun a ha => (hback a ha).respells
  obtain ⟨e, hrename', hpath', hrespelled', -⟩ := hd.rename_ok hroot' hreads
  -- the atoms that match now are those that matched before
  have hcount : (m'.findAll d.tree).length = c.tree.atoms.countP m.matchesAtom := by
    rw [m'.length_findAll, hatoms, List.countP_map]
    refine List.countP_congr fun a ha => ?_
    rw [Function.comp_apply, (hback a ha).matches_iff]
  refine ⟨e, by rw [hrename', hcount], ?_, hpath'.trans hpath⟩
  · have hshape := hrespelled.shape
    have hshape' := hrespelled'.shape
    rw [shape_plain, shape_plain] at hshape hshape'
    rw [hshape', hshape]
    refine mapAtoms_mapAtoms_eq_self fun a ha => ?_
    rw [atoms_shape] at ha
    exact (hback a ha).respelled_eq

theorem apply_rename_eq_ok_iff {config : Config} {query : Text} {options : MatchOptions} :
    Mutation.apply config c (.rename query replacement options) = .ok ⟨d, some count⟩ ↔
      ∃ m, Matcher.ofQuery query options = .ok m ∧ c.rename m replacement = .ok (d, count) := by
  constructor
  · intro h
    obtain ⟨m, hm, h⟩ := Except.exists_ok_of_bind h
    obtain ⟨⟨cursor, count'⟩, hrename, h⟩ := Except.exists_ok_of_bind h
    cases h
    exact ⟨m, hm, hrename⟩
  · rintro ⟨m, hm, hrename⟩
    simp only [Mutation.apply, hm, hrename, bind, Except.bind]
    rfl

/-- Renaming a symbol's name to one that nothing in the document has can be taken back by renaming. The second rename
succeeds, counts the same atoms as the first, and leaves the cursor at its path and the document as it was but for
trivia. -/
theorem rename_reversible (config : Config) {query replacement : Text} {s s' : Atom} (h : Tree.read source = .ok t)
    (hc : c.Within t) (hs : Atom.read query = .ok s) (hsymbol : s.kind = .symbol) (hs' : Atom.read replacement = .ok s')
    (hsymbol' : s'.kind = .symbol) (hm' : Matcher.ofQuery replacement {} = .ok m')
    (hfree : ∀ a ∈ t.atoms, m'.matchesAtom a = false)
    (happly : Mutation.apply config c (.rename query replacement {}) = .ok ⟨d, some count⟩) :
    ∃ e, Mutation.apply config d (.rename replacement query {}) = .ok ⟨e, some count⟩ ∧ e.tree.shape = t.shape ∧
      e.path = c.path := by
  obtain ⟨m, hm, hrename⟩ := apply_rename_eq_ok_iff.mp happly
  obtain ⟨rfl, hoptions⟩ := Matcher.ofQuery_eq_ok hm
  obtain ⟨rfl, hoptions'⟩ := Matcher.ofQuery_eq_ok hm'
  obtain ⟨hroot, -, -⟩ := Tree.sound_of_read h
  obtain rfl := hc.tree
  rw [isRoot_plain] at hroot
  have hback : ∀ a ∈ c.tree.atoms, m'.TakesBack m.query m m'.query a := by
    intro a ha
    have hmem : a ∈ c.tree.plain.atoms := by rwa [atoms_plain]
    exact Matcher.takesBack_of_symbols hoptions hoptions' hs hsymbol hs' hsymbol' (Atom.read_of_mem_atoms h hmem)
      (hfree a hmem) (hc.respells hroot hrename a ha)
  obtain ⟨e, hrename', hshape, hpath⟩ := hc.rename_back hroot hrename hback
  exact ⟨e, apply_rename_eq_ok_iff.mpr ⟨m', hm', hrename'⟩, by rw [hshape, shape_plain], hpath⟩

/-- A symbol and keywords with one and two colons, among a string and a longer name that stay. The new name needs a blank
after the character before it. -/
theorem rename_reversible_blank :
    ∃ t c d e, Tree.read "[\\n+ :+;c\n::+ \"+\" ++]".toList = .ok t ∧ c.Within t ∧ c.path = [0, 2] ∧
      Mutation.apply {} c (.rename ['+'] "ewline".toList {}) = .ok ⟨d, some 3⟩ ∧
        d.source = "[\\n ewline :ewline;c\n::ewline \"+\" ++]".toList ∧
          Mutation.apply {} d (.rename "ewline".toList ['+'] {}) = .ok ⟨e, some 3⟩ ∧ e.tree.shape = t.shape ∧
            e.path = [0, 2] := by
  obtain ⟨t, c, hread, hgoto, hview⟩ := Tree.exists_of_goto (Supply.outside 0).first
    "[\\n+ :+;c\n::+ \"+\" ++]".toList [0, 2]
    (fun c => (c.path, c.tree.atoms.all fun a => !(Matcher.mk "ewline".toList {} (by decide)).matchesAtom a,
      (Mutation.apply {} c (.rename ['+'] "ewline".toList {})).toOption.map fun r => (r.cursor.source, r.replacements)))
    ([0, 2], true, some ("[\\n ewline :ewline;c\n::ewline \"+\" ++]".toList, some 3)) (by decide +kernel)
  obtain ⟨hpath, hview⟩ := Prod.mk.inj hview
  obtain ⟨hfree, hrenamed⟩ := Prod.mk.inj hview
  obtain ⟨⟨d, replacements⟩, happly, hd⟩ := Option.map_eq_some_iff.mp hrenamed
  obtain ⟨hsource, rfl⟩ := Prod.mk.inj hd
  have hc : c.Within t := (within_ofTree _ t).goto hgoto
  have hfree : ∀ a ∈ t.atoms, (Matcher.mk "ewline".toList {} (by decide)).matchesAtom a = false := by
    rw [← hc.tree, atoms_plain]
    simpa using hfree
  have happly := Except.ok_of_toOption happly
  have hplus : Atom.read ['+'] = .ok ⟨.symbol, ['+']⟩ := rfl
  have hewline : Atom.read "ewline".toList = .ok ⟨.symbol, "ewline".toList⟩ := rfl
  obtain ⟨e, hback, hshape, hpath'⟩ := rename_reversible {} hread hc hplus rfl hewline rfl rfl hfree happly
  exact ⟨t, c, d, e, hread, hc, hpath, happly, hsource, hback, hshape, hpath'.trans hpath⟩

end Cursor

end SexprEdit
