import Mathlib.Data.List.Find
import Mathlib.Data.List.TakeWhile
import Mathlib.Tactic.SplitIfs
import SexprEdit.Atom.Number

/-!
# What the scanner reads

A piece at the front of a text is a non-empty initial part of it, so the pieces of a text put together are the text.
Whether a token is read off the front of a text depends on two things only: the token is read when it stands alone,
and what follows does not prolong it (`Token.stopsBefore`). Only a few characters of what follows matter, and never
more than the first token there (`Token.stopsBefore_append`).
-/

namespace SexprEdit

def front? : Text → Option Lexeme
  | [] => none
  | c :: cs => some (scan c cs)

/-- The lexical grammar: the form that the text of a token has. -/
def Token.Genuine : Token → Prop
  | .whitespace text => text ≠ [] ∧ text.all isBlank = true
  | .comment text => ∃ body, (text = ';' :: body ∨ text = '#' :: '!' :: body) ∧ '\n' ∉ body
  | .opening (.namespacedMap space) => ∃ word, space = '#' :: ':' :: word ∧ word.all (!isStop ·) = true
  | .mark (.tag text) => ∃ c word, text = '#' :: c :: word ∧ isTagStart c = true ∧ word.all (!isStop ·) = true
  | .string text => ∃ body, text = '\x22' :: body ∧ scanQuoted body = (body, true)
  | .regex text => ∃ body, text = '#' :: '\x22' :: body ∧ scanQuoted body = (body, true)
  | .character text => ∃ body, text = '\\' :: body ∧ scanCharacter body = some body
  | .symbolic text => ∃ name ∈ symbolicNames, text = '#' :: '#' :: name
  | .bare text => ∃ c word, text = c :: word ∧ isBareStart c = true ∧ word.all isBareInner = true
  | _ => True

/-- Whether a text that follows a token leaves it as it is. -/
def Token.stopsBefore : Token → Text → Bool
  | .whitespace _, rest => rest.head?.all (!isBlank ·)
  | .comment _, rest => rest.head?.all (· == '\n')
  | .mark .unquote, rest => rest.head? != some '@'
  | .mark (.tag _), rest => rest.head?.all isStop
  | .character text, rest => scanCharacter (text.drop 1 ++ rest) == some (text.drop 1)
  | .bare _, rest => rest.head?.all (!isBareInner ·)
  | _, _ => true

/-! ## Runs of characters -/

theorem takeWhile_prefix_rest (p : Char → Bool) (cs : Text) : ∃ rest, cs = cs.takeWhile p ++ rest :=
  ⟨cs.dropWhile p, (List.takeWhile_append_dropWhile).symm⟩

theorem takeWhile_append_eq_left_iff (p : Char → Bool) (xs ys : Text) :
    (xs ++ ys).takeWhile p = xs ↔ xs.takeWhile p = xs ∧ ys.head?.all (!p ·) = true := by
  induction xs with
  | nil =>
    cases ys with
    | nil => simp
    | cons y ys =>
      by_cases hy : p y = true
      · simp [hy]
      · simp [hy]
  | cons x xs ih =>
    by_cases hx : p x = true
    · simp only [List.cons_append, List.takeWhile_cons, hx, if_true, List.cons.injEq, true_and, ih]
    · simp [hx]

theorem takeWhile_append_of_stop (p : Char → Bool) (xs ys : Text)
    (h : xs.any (!p ·) = true ∨ ys.head?.all (!p ·) = true) : (xs ++ ys).takeWhile p = xs.takeWhile p := by
  induction xs with
  | nil =>
    cases ys with
    | nil => rfl
    | cons y ys => simp_all
  | cons x xs ih =>
    by_cases hx : p x = true
    · have hrest : xs.any (!p ·) = true ∨ ys.head?.all (!p ·) = true := by simpa [hx] using h
      simp only [List.cons_append, List.takeWhile_cons, hx, if_true, ih hrest]
    · simp [hx]

/-! ## Quoted literals -/

theorem scanQuoted_quote {c : Char} (hc : (c == '\x22') = true) (cs : Text) : scanQuoted (c :: cs) = ([c], true) := by
  rw [scanQuoted.eq_def]
  simp only [if_pos hc]

theorem scanQuoted_escape {c : Char} (hc : ¬(c == '\x22') = true) (hb : (c == '\\') = true) (d : Char) (ds : Text) :
    scanQuoted (c :: d :: ds) = (c :: d :: (scanQuoted ds).1, (scanQuoted ds).2) := by
  rw [scanQuoted.eq_def]
  simp only [if_neg hc, if_pos hb]

theorem scanQuoted_escape_end {c : Char} (hc : ¬(c == '\x22') = true) (hb : (c == '\\') = true) :
    scanQuoted [c] = ([], false) := by
  rw [scanQuoted.eq_def]
  simp only [if_neg hc, if_pos hb]

theorem scanQuoted_plain {c : Char} (hc : ¬(c == '\x22') = true) (hb : ¬(c == '\\') = true) (cs : Text) :
    scanQuoted (c :: cs) = (c :: (scanQuoted cs).1, (scanQuoted cs).2) := by
  rw [scanQuoted.eq_def]
  simp only [if_neg hc, if_neg hb]

theorem scanQuoted_prefix (cs : Text) : ∃ rest, cs = (scanQuoted cs).1 ++ rest := by
  fun_induction scanQuoted cs with
  | case1 => exact ⟨[], rfl⟩
  | case2 c cs hc => exact ⟨cs, rfl⟩
  | case3 c hc hb => exact ⟨[c], rfl⟩
  | case4 c hc hb d ds body ih =>
    obtain ⟨rest, hrest⟩ := ih
    exact ⟨rest, by rw [List.cons_append, List.cons_append, ← hrest]⟩
  | case5 c cs hc hb body ih =>
    obtain ⟨rest, hrest⟩ := ih
    exact ⟨rest, by rw [List.cons_append, ← hrest]⟩

theorem scanQuoted_append (cs rest : Text) (h : (scanQuoted cs).2 = true) :
    scanQuoted (cs ++ rest) = scanQuoted cs := by
  fun_induction scanQuoted cs with
  | case1 => simp at h
  | case2 c cs hc => rw [List.cons_append, scanQuoted_quote hc]
  | case3 c hc hb => simp at h
  | case4 c hc hb d ds body ih =>
    rw [List.cons_append, List.cons_append, scanQuoted_escape hc hb, ih h]
  | case5 c cs hc hb body ih => rw [List.cons_append, scanQuoted_plain hc hb, ih h]

theorem scanQuoted_of_append (cs rest : Text) (h : scanQuoted (cs ++ rest) = (cs, true)) :
    scanQuoted cs = (cs, true) := by
  fun_induction scanQuoted cs with
  | case1 =>
    -- nothing is read from `rest`, so no closing quote was found there
    cases rest with
    | nil => simp [scanQuoted] at h
    | cons c rest =>
      by_cases hc : (c == '\x22') = true
      · simp [scanQuoted_quote hc] at h
      · by_cases hb : (c == '\\') = true
        · cases rest with
          | nil => simp [scanQuoted_escape_end hc hb] at h
          | cons d rest => simp [scanQuoted_escape hc hb] at h
        · simp [scanQuoted_plain hc hb] at h
  | case2 c cs hc =>
    rw [List.cons_append, scanQuoted_quote hc] at h
    exact h
  | case3 c hc hb =>
    cases rest with
    | nil => simp [scanQuoted_escape_end hc hb] at h
    | cons d rest => simp [scanQuoted_escape hc hb] at h
  | case4 c hc hb d ds body ih =>
    rw [List.cons_append, List.cons_append, scanQuoted_escape hc hb] at h
    simp only [Prod.mk.injEq, List.cons.injEq, true_and] at h
    rw [show body = (ds, true) from ih (Prod.ext h.1 h.2)]
  | case5 c cs hc hb body ih =>
    rw [List.cons_append, scanQuoted_plain hc hb] at h
    simp only [Prod.mk.injEq, List.cons.injEq, true_and] at h
    rw [show body = (cs, true) from ih (Prod.ext h.1 h.2)]

/-! ## Characters -/

theorem find?_characterNames_self {name : Text} (h : name ∈ characterNames) :
    characterNames.find? (·.isPrefixOf name) = some name := by
  revert name
  decide

theorem find?_characterNames_of_append {cs rest : Text}
    (h : characterNames.find? (·.isPrefixOf (cs ++ rest)) = none) :
    characterNames.find? (·.isPrefixOf cs) = none := by
  rw [List.find?_eq_none] at h ⊢
  intro name hname hprefix
  refine h name hname ?_
  rw [List.isPrefixOf_iff_prefix] at hprefix ⊢
  exact hprefix.trans (List.prefix_append cs rest)

theorem scanCharacter_prefix {cs body : Text} (h : scanCharacter cs = some body) : ∃ rest, cs = body ++ rest := by
  rw [scanCharacter.eq_def] at h
  split at h
  · rename_i name hname
    have hprefix := List.find?_some hname
    obtain ⟨rest, hrest⟩ := List.isPrefixOf_iff_prefix.mp hprefix
    exact ⟨rest, by rw [← Option.some.inj h, hrest]⟩
  · cases cs with
    | nil => simp at h
    | cons c cs =>
      simp only at h
      split_ifs at h
      · exact ⟨cs.drop 4, by rw [← Option.some.inj h, List.cons_append, List.take_append_drop]⟩
      · obtain ⟨rest, hrest⟩ := takeWhile_prefix_rest isOctalDigit (cs.take 3)
        refine ⟨rest ++ cs.drop 3, ?_⟩
        rw [← Option.some.inj h, List.cons_append, ← List.append_assoc, ← hrest, List.take_append_drop]
      · exact ⟨cs, by rw [← Option.some.inj h, List.cons_append, List.nil_append]⟩

theorem scanCharacter_of_append {cs rest : Text} (h : scanCharacter (cs ++ rest) = some cs) :
    scanCharacter cs = some cs := by
  rw [scanCharacter.eq_def] at h
  split at h
  · rename_i name hname
    obtain rfl := Option.some.inj h
    rw [scanCharacter.eq_def, find?_characterNames_self (List.mem_of_find?_eq_some hname)]
  · rename_i hnone
    rw [scanCharacter.eq_def, find?_characterNames_of_append hnone]
    cases cs with
    | nil =>
      cases rest with
      | nil => simp at h
      | cons c rest =>
        simp only [List.nil_append] at h
        split_ifs at h <;> simp at h
    | cons c cs =>
      simp only [List.cons_append] at h ⊢
      split_ifs at h with hu ho hn
      · -- four digits fill the text, so nothing of `rest` was looked at
        have hcs : (cs ++ rest).take 4 = cs := (List.cons.inj (Option.some.inj h)).2
        have hlen : cs.length ≤ 4 := by rw [← hcs]; exact List.length_take_le 4 _
        have htake : cs.take 4 = cs := List.take_of_length_le hlen
        rw [hcs] at hu
        rw [htake, if_pos hu]
      · have hcs : ((cs ++ rest).take 3).takeWhile isOctalDigit = cs := (List.cons.inj (Option.some.inj h)).2
        have hlen : cs.length ≤ 3 := by
          calc cs.length = (((cs ++ rest).take 3).takeWhile isOctalDigit).length := by rw [hcs]
            _ ≤ ((cs ++ rest).take 3).length := (List.takeWhile_prefix _).length_le
            _ ≤ 3 := List.length_take_le 3 _
        have hdigits : cs.takeWhile isOctalDigit = cs := by
          rw [← hcs, List.takeWhile_idem]
        have hc : c = 'o' := by simpa using ho
        subst hc
        rw [if_neg (by simp), if_pos (by simp), List.take_of_length_le hlen, hdigits]
      · obtain rfl : cs = [] := by simpa using h.symm
        rw [if_neg (by simp), if_neg ho, if_neg hn]

theorem isPrefixOf_takeWhile {p : Char → Bool} {name : Text} (h : name.all p = true) (cs : Text) :
    name.isPrefixOf cs = name.isPrefixOf (cs.takeWhile p) := by
  induction name generalizing cs with
  | nil => rfl
  | cons d name ih =>
    simp only [List.all_cons, Bool.and_eq_true] at h
    cases cs with
    | nil => rfl
    | cons c cs =>
      by_cases hdc : d = c
      · subst hdc
        simp only [List.takeWhile_cons, h.1, if_true, List.isPrefixOf, ih h.2 cs]
      · have hne : (d == c) = false := by simpa using hdc
        by_cases hc : p c = true
        · simp [hc, List.isPrefixOf, hne]
        · simp [hc, List.isPrefixOf, hne]

theorem isAlphanumeric_iff {c : Char} :
    Number.isAlphanumeric c = true ↔
      (65 ≤ c.toNat ∧ c.toNat ≤ 90) ∨ (97 ≤ c.toNat ∧ c.toNat ≤ 122) ∨ (48 ≤ c.toNat ∧ c.toNat ≤ 57) := by
  have hword : Number.isAlphanumeric c =
      (decide (c.val ≥ 'A'.val ∧ c.val ≤ 'Z'.val) || (decide (c.val ≥ 'a'.val) && decide (c.val ≤ 'z'.val)) ||
        (decide (c.val ≥ '0'.val) && decide (c.val ≤ '9'.val))) := rfl
  rw [hword]
  simp only [Bool.or_eq_true, Bool.and_eq_true, decide_eq_true_eq, ge_iff_le, UInt32.le_iff_toNat_le, or_assoc]
  rfl

theorem isAlphanumeric_of_isHexDigit {c : Char} (h : isHexDigit c = true) : Number.isAlphanumeric c = true := by
  rw [isAlphanumeric_iff]
  simp only [isHexDigit, Char.isDigit, Char.le_def, Bool.or_eq_true, Bool.and_eq_true, decide_eq_true_eq,
    UInt32.le_iff_toNat_le] at h
  simp at h
  omega

theorem isAlphanumeric_of_isOctalDigit {c : Char} (h : isOctalDigit c = true) : Number.isAlphanumeric c = true := by
  rw [isAlphanumeric_iff]
  simp only [isOctalDigit, Char.le_def, Bool.and_eq_true, decide_eq_true_eq, UInt32.le_iff_toNat_le] at h
  simp at h
  omega

theorem takeWhile_of_subset {p q : Char → Bool} (h : ∀ c, p c = true → q c = true) (cs : Text) :
    (cs.takeWhile q).takeWhile p = cs.takeWhile p := by
  rw [List.takeWhile_takeWhile]
  congr 1
  funext c
  by_cases hc : p c = true
  · simp [hc, h c hc]
  · simp [hc]

theorem scanCharacter_cons (c : Char) (cs : Text) :
    scanCharacter (c :: cs) = scanCharacter (c :: cs.takeWhile Number.isAlphanumeric) := by
  have hnames : characterNames.find? (·.isPrefixOf (c :: cs)) =
      characterNames.find? (·.isPrefixOf (c :: cs.takeWhile Number.isAlphanumeric)) := by
    refine List.find?_congr fun name hname => ?_
    cases name with
    | nil => rfl
    | cons d name =>
      have hall : name.all Number.isAlphanumeric = true := by
        have : ∀ name ∈ characterNames, name.tail.all Number.isAlphanumeric = true := by decide
        exact this _ hname
      simp only [List.isPrefixOf, isPrefixOf_takeWhile hall cs]
  have hhex : ((cs.takeWhile Number.isAlphanumeric).take 4).takeWhile isHexDigit = (cs.take 4).takeWhile isHexDigit := by
    rw [← List.take_takeWhile, ← List.take_takeWhile, takeWhile_of_subset fun _ => isAlphanumeric_of_isHexDigit]
  have hoctal :
      ((cs.takeWhile Number.isAlphanumeric).take 3).takeWhile isOctalDigit = (cs.take 3).takeWhile isOctalDigit := by
    rw [← List.take_takeWhile, ← List.take_takeWhile, takeWhile_of_subset fun _ => isAlphanumeric_of_isOctalDigit]
  rw [scanCharacter.eq_def, scanCharacter.eq_def (c :: List.takeWhile _ _), hnames]
  split
  · rfl
  · simp only [hhex, hoctal]
    split_ifs with hu
    · simp only [Bool.and_eq_true, decide_eq_true_eq] at hu
      have hfull : ∀ ds : Text, 4 ≤ ((ds.take 4).takeWhile isHexDigit).length →
          (ds.take 4).takeWhile isHexDigit = ds.take 4 := fun ds hds =>
        (List.takeWhile_prefix _).eq_of_length_le (le_trans (List.length_take_le 4 ds) hds)
      have hrun := hfull (cs.takeWhile Number.isAlphanumeric) (by rw [hhex]; exact hu.2)
      rw [← hfull cs hu.2, ← hrun, hhex]
    all_goals rfl

/-! ## Tokens -/

theorem find?_symbolicNames_append {name : Text} (h : name ∈ symbolicNames) (rest : Text) :
    symbolicNames.find? (·.isPrefixOf (name ++ rest)) = some name := by
  simp only [symbolicNames, List.mem_cons, List.not_mem_nil, or_false] at h
  rcases h with rfl | rfl | rfl
  · simp [symbolicNames, List.isPrefixOf]
  · simp [symbolicNames, List.isPrefixOf]
  · simp [symbolicNames, List.isPrefixOf]

theorem scanWord_split (cs : Text) : cs = scanWord cs ++ cs.dropWhile (!isStop ·) :=
  (List.takeWhile_append_dropWhile).symm

theorem head?_dropWhile (p : Char → Bool) (cs : Text) : (cs.dropWhile p).head?.all (!p ·) = true := by
  induction cs with
  | nil => rfl
  | cons c cs ih =>
    by_cases hc : p c = true
    · rw [List.dropWhile_cons, if_pos hc]
      exact ih
    · rw [List.dropWhile_cons, if_neg hc]
      simpa using hc

theorem isStop_of_isAlphanumeric {c : Char} (h : Number.isAlphanumeric c = true) : isStop c = false := by
  rw [isAlphanumeric_iff] at h
  simp only [isStop, isSpace, ← Char.toNat_inj, Bool.or_eq_false_iff, Bool.and_eq_false_iff, beq_eq_false_iff_ne, ne_eq]
  simp
  omega

theorem isStop_of_isTagStart {c : Char} (h : isTagStart c = true) : isStop c = false :=
  isStop_of_isAlphanumeric (by rw [Number.isAlphanumeric, show c.isAlpha = true from h, Bool.true_or])

/-- The piece is right for the front of a text: a token stands there, is one of the grammar, and is not prolonged by what
follows. -/
def Lexeme.Sound : Lexeme → Text → Prop
  | .token t, s => ∃ rest, s = t.text ++ rest ∧ t.Genuine ∧ t.stopsBefore rest = true
  | .stray _, _ => True

section Sound

variable {s cs : Text} {c d : Char} {piece other : Lexeme} {u : Token}

theorem sound_ite {b : Bool} (hpiece : b = true → piece.Sound s) (hother : other.Sound s) :
    (if b then piece else other).Sound s := by
  split_ifs with hb
  · exact hpiece hb
  · exact hother

theorem sound_ite_eq (hpiece : c = d → piece.Sound s) (hother : other.Sound s) :
    (if c == d then piece else other).Sound s :=
  sound_ite (fun hc => hpiece (eq_of_beq hc)) hother

/-- A token of fixed text is read where the last character of that text is found. -/
theorem sound_ite_fixed (lead : Text) (htext : u.text = lead ++ [d]) (hu : u.Genuine)
    (hrest : u.stopsBefore cs = true) (hother : other.Sound (lead ++ c :: cs)) :
    (if c == d then .token u else other).Sound (lead ++ c :: cs) := by
  refine sound_ite_eq (fun hc => ?_) hother
  subst hc
  exact ⟨cs, by rw [htext, List.append_cons], hu, hrest⟩

theorem sound_ite_front (lead : Text) {front : Text} (htext : u.text = lead ++ front) (hu : u.Genuine)
    (hrest : ∀ rest, u.stopsBefore rest = true) (hother : other.Sound (lead ++ cs)) :
    (if front.isPrefixOf cs then .token u else other).Sound (lead ++ cs) := by
  refine sound_ite (fun hfront => ?_) hother
  obtain ⟨rest, rfl⟩ := List.isPrefixOf_iff_prefix.mp hfront
  exact ⟨rest, by rw [htext, List.append_assoc], hu, hrest rest⟩

theorem sound_comment {lead : Text} (hlead : lead = [';'] ∨ lead = ['#', '!']) (cs : Text) :
    (Lexeme.token (.comment (lead ++ cs.takeWhile (· != '\n')))).Sound (lead ++ cs) := by
  refine ⟨cs.dropWhile (· != '\n'), ?_, ⟨cs.takeWhile (· != '\n'), ?_, ?_⟩, ?_⟩
  · rw [Token.text, List.append_assoc, List.takeWhile_append_dropWhile]
  · rcases hlead with rfl | rfl
    · exact .inl rfl
    · exact .inr rfl
  · intro hmem
    simpa using List.mem_takeWhile_imp hmem
  · simpa [Token.stopsBefore, bne] using head?_dropWhile (· != '\n') cs

theorem sound_quoted (lead : Text) (htext : u.text = lead ++ (scanQuoted cs).1)
    (hu : scanQuoted (scanQuoted cs).1 = ((scanQuoted cs).1, true) → u.Genuine)
    (hrest : ∀ rest, u.stopsBefore rest = true) (hother : other.Sound (lead ++ cs)) :
    (if (scanQuoted cs).2 then .token u else other).Sound (lead ++ cs) := by
  refine sound_ite (fun hclosed => ?_) hother
  obtain ⟨rest, hsplit⟩ := scanQuoted_prefix cs
  refine ⟨rest, by rw [htext, List.append_assoc, ← hsplit], hu ?_, hrest rest⟩
  exact scanQuoted_of_append _ rest (by rw [← hsplit]; exact Prod.ext rfl hclosed)

theorem sound_namespacedMap (cs : Text) :
    (if (cs.dropWhile (!isStop ·)).head? == some '\x7b' then
        .token (.opening (.namespacedMap ('#' :: ':' :: scanWord cs)))
      else .stray ('#' :: ':' :: scanWord cs) : Lexeme).Sound ('#' :: ':' :: cs) := by
  refine sound_ite (fun hbrace => ?_) trivial
  obtain ⟨rest, hrest⟩ := List.head?_eq_some_iff.mp (eq_of_beq hbrace)
  refine ⟨rest, ?_, ⟨scanWord cs, rfl, List.all_takeWhile⟩, rfl⟩
  conv_lhs => rw [scanWord_split cs, hrest]
  simp [Token.text, Bracket.opener]

theorem sound_tag (hc : isTagStart c = true) (cs : Text) :
    (Lexeme.token (.mark (.tag ('#' :: scanWord (c :: cs))))).Sound ('#' :: c :: cs) := by
  have hword : scanWord (c :: cs) = c :: scanWord cs := by
    rw [scanWord, List.takeWhile_cons, if_pos (by rw [isStop_of_isTagStart hc]; rfl), scanWord]
  refine ⟨cs.dropWhile (!isStop ·), ?_, ⟨c, scanWord cs, by rw [hword], hc, List.all_takeWhile⟩, ?_⟩
  · rw [Token.text, Mark.text, hword, List.cons_append, List.cons_append, ← scanWord_split]
  · simpa [Token.stopsBefore] using head?_dropWhile (!isStop ·) cs

theorem scanHash_sound (cs : Text) : (scanHash cs).Sound ('#' :: cs) := by
  cases cs with
  | nil => trivial
  | cons c cs =>
    rw [scanHash.eq_def]
    simp only
    refine sound_ite_eq (fun hc => ?_) ?_
    · subst hc
      exact sound_comment (.inr rfl) cs
    iterate 4 refine sound_ite_fixed ['#'] rfl trivial rfl ?_
    refine sound_ite_eq (fun hc => ?_) ?_
    · subst hc
      refine sound_ite_front ['#', '?'] rfl trivial (fun _ => rfl) ?_
      exact sound_ite_front ['#', '?'] rfl trivial (fun _ => rfl) trivial
    refine sound_ite_eq (fun hc => ?_) ?_
    · subst hc
      exact sound_namespacedMap cs
    refine sound_ite_eq (fun hc => ?_) ?_
    · subst hc
      exact sound_quoted ['#', '\x22'] rfl (fun hbody => ⟨_, rfl, hbody⟩) (fun _ => rfl) trivial
    refine sound_ite_eq (fun hc => ?_) ?_
    · subst hc
      split
      · next name hname =>
        have hfront := List.find?_some hname
        obtain ⟨rest, rfl⟩ := List.isPrefixOf_iff_prefix.mp hfront
        exact ⟨rest, rfl, ⟨name, List.mem_of_find?_eq_some hname, rfl⟩, rfl⟩
      · trivial
    exact sound_ite (fun hc => sound_tag hc cs) trivial

theorem sound_unquote (cs : Text) :
    (Lexeme.token (.mark (if cs.head? == some '@' then .unquoteSplicing else .unquote))).Sound ('~' :: cs) := by
  split_ifs with hat
  · obtain ⟨rest, rfl⟩ := List.head?_eq_some_iff.mp (eq_of_beq hat)
    exact ⟨rest, rfl, trivial, rfl⟩
  · exact ⟨cs, rfl, trivial, by simpa [Token.stopsBefore] using hat⟩

/-- What is read off the front of a text is a token of the grammar, and what follows does not prolong it. -/
theorem scan_sound (c : Char) (cs : Text) : (scan c cs).Sound (c :: cs) := by
  rw [scan.eq_def]
  refine sound_ite (fun hc => ?_) ?_
  · refine ⟨cs.dropWhile isBlank, by simp [Token.text], ⟨by simp, ?_⟩, head?_dropWhile isBlank cs⟩
    rw [List.all_cons, hc, Bool.true_and]
    exact List.all_takeWhile
  refine sound_ite_eq (fun hc => ?_) ?_
  · subst hc
    exact sound_comment (.inl rfl) cs
  -- the brackets, and the marks up to the one that may have a second character
  iterate 8 refine sound_ite_fixed [] rfl trivial rfl ?_
  refine sound_ite_eq (fun hc => ?_) ?_
  · subst hc
    exact sound_unquote cs
  iterate 2 refine sound_ite_fixed [] rfl trivial rfl ?_
  refine sound_ite_eq (fun hc => ?_) ?_
  · subst hc
    exact sound_quoted ['\x22'] rfl (fun hbody => ⟨_, rfl, hbody⟩) (fun _ => rfl) trivial
  refine sound_ite_eq (fun hc => ?_) ?_
  · subst hc
    split
    · next body hbody =>
      obtain ⟨rest, rfl⟩ := scanCharacter_prefix hbody
      exact ⟨rest, rfl, ⟨body, rfl, scanCharacter_of_append hbody⟩, by simpa [Token.stopsBefore] using hbody⟩
    · trivial
  refine sound_ite_eq (fun hc => ?_) ?_
  · subst hc
    exact scanHash_sound cs
  refine sound_ite (fun hc => ?_) trivial
  exact ⟨cs.dropWhile isBareInner, by simp [Token.text], ⟨c, _, rfl, hc, List.all_takeWhile⟩,
    head?_dropWhile isBareInner cs⟩

end Sound

theorem scan_hash (cs : Text) : scan '#' cs = scanHash cs := by
  simp [scan, isBlank]

theorem scanHash_tag {c : Char} (h : isTagStart c = true) (cs : Text) :
    scanHash (c :: cs) = .token (.mark (.tag ('#' :: scanWord (c :: cs)))) := by
  have hne : ∀ d : Char, isTagStart d = false → (c == d) = false := by
    intro d hd
    rw [beq_eq_false_iff_ne]
    rintro rfl
    rw [h] at hd
    exact absurd hd (by simp)
  rw [scanHash.eq_def]
  simp [hne '!' (by decide), hne '\x7b' (by decide), hne '(' (by decide), hne '\x27' (by decide), hne '_' (by decide),
    hne '?' (by decide), hne ':' (by decide), hne '\x22' (by decide), hne '#' (by decide), h]

theorem isStop_of_isBlank {c : Char} (h : isBlank c = true) : isStop c = true := by
  simp only [isBlank, Bool.or_eq_true, beq_iff_eq] at h
  rcases h with ((((rfl | rfl) | rfl) | rfl) | rfl) | rfl <;> decide

theorem scan_bare {c : Char} (h : isBareStart c = true) (cs : Text) :
    scan c cs = .token (.bare (c :: cs.takeWhile isBareInner)) := by
  have hblank : isBlank c = false := by
    by_contra hblank
    rw [Bool.not_eq_false] at hblank
    simp [isBareStart, isBareInner, isStop_of_isBlank hblank] at h
  have hne := h
  simp only [isBareStart, isBareInner, isStop, Bool.and_eq_true, Bool.not_eq_true', Bool.or_eq_false_iff,
    bne_iff_ne, ne_eq] at hne
  simp [scan, hblank, h, hne]

theorem front?_append {t : Token} {rest : Text} (ht : t.Genuine) (hrest : t.stopsBefore rest = true) :
    front? (t.text ++ rest) = some (.token t) := by
  cases t with
  | whitespace text =>
    obtain ⟨hne, hall⟩ := ht
    cases text with
    | nil => exact absurd rfl hne
    | cons c text =>
      simp only [List.all_cons, Bool.and_eq_true] at hall
      have hrun : (text ++ rest).takeWhile isBlank = text :=
        (takeWhile_append_eq_left_iff isBlank text rest).mpr ⟨by simpa using hall.2, hrest⟩
      simp only [Token.text, List.cons_append, front?, scan, hall.1, if_true, hrun]
  | comment text =>
    obtain ⟨body, hbody, hline⟩ := ht
    have hrun : (body ++ rest).takeWhile (· != '\n') = body := by
      refine (takeWhile_append_eq_left_iff _ body rest).mpr ⟨?_, by simpa [Token.stopsBefore, bne] using hrest⟩
      rw [List.takeWhile_eq_self_iff]
      intro c hc
      simpa using fun h : c = '\n' => hline (h ▸ hc)
    rcases hbody with rfl | rfl
    · simp only [Token.text, List.cons_append, front?]
      rw [scan.eq_def, if_neg (by decide), if_pos (by decide), hrun]
    · simp only [Token.text, List.cons_append, front?, scan_hash]
      rw [scanHash.eq_def]
      simp only [beq_self_eq_true, if_true, hrun]
  | opening bracket =>
    cases bracket with
    | namespacedMap space =>
      obtain ⟨word, rfl, hword⟩ := ht
      have hrun : (word ++ '\x7b' :: rest).takeWhile (!isStop ·) = word :=
        (takeWhile_append_eq_left_iff _ word _).mpr ⟨by simpa using hword, rfl⟩
      have hdrop : (word ++ '\x7b' :: rest).dropWhile (!isStop ·) = '\x7b' :: rest := by
        have hsplit := List.takeWhile_append_dropWhile (p := (!isStop ·)) (l := word ++ '\x7b' :: rest)
        rw [hrun] at hsplit
        exact List.append_cancel_left hsplit
      simp only [Token.text, Bracket.opener, List.cons_append, List.append_assoc, List.nil_append, front?, scan_hash]
      rw [scanHash.eq_def]
      simp [scanWord, hrun, hdrop]
    | _ => simp [Token.text, Bracket.opener, front?, scan, scanHash, isBlank]
  | closing closer => cases closer <;> simp [Token.text, Closer.text, front?, scan, isBlank]
  | mark mark =>
    cases mark with
    | tag text =>
      obtain ⟨c, word, rfl, hc, hword⟩ := ht
      have hrun : scanWord (c :: (word ++ rest)) = c :: word := by
        have hall : (c :: word).all (!isStop ·) = true := by
          rw [List.all_cons, isStop_of_isTagStart hc, hword]
          rfl
        exact (takeWhile_append_eq_left_iff _ (c :: word) rest).mpr
          ⟨by simpa using hall, by simpa [Token.stopsBefore] using hrest⟩
      simp only [Token.text, Mark.text, List.cons_append, front?, scan_hash, scanHash_tag hc, hrun]
    | unquote =>
      have hat : ¬(rest.head? == some '@') = true := by simpa [Token.stopsBefore] using hrest
      simp only [Token.text, Mark.text, List.cons_append, List.nil_append, front?]
      simp [scan, isBlank, hat]
    | _ => simp [Token.text, Mark.text, front?, scan, scanHash, isBlank]
  | string text =>
    obtain ⟨body, rfl, hbody⟩ := ht
    have hclosed : scanQuoted (body ++ rest) = (body, true) := by
      rw [scanQuoted_append body rest (by rw [hbody]), hbody]
    simp [Token.text, front?, scan, isBlank, hclosed]
  | regex text =>
    obtain ⟨body, rfl, hbody⟩ := ht
    have hclosed : scanQuoted (body ++ rest) = (body, true) := by
      rw [scanQuoted_append body rest (by rw [hbody]), hbody]
    simp [Token.text, front?, scan, scanHash, isBlank, hclosed]
  | character text =>
    obtain ⟨body, rfl, hbody⟩ := ht
    have hstop : scanCharacter (body ++ rest) = some body := by simpa [Token.stopsBefore] using hrest
    simp [Token.text, front?, scan, isBlank, hstop]
  | symbolic text =>
    obtain ⟨name, hname, rfl⟩ := ht
    simp [Token.text, front?, scan, scanHash, isBlank, find?_symbolicNames_append hname]
  | bare text =>
    obtain ⟨c, word, rfl, hc, hword⟩ := ht
    have hrun : (word ++ rest).takeWhile isBareInner = word :=
      (takeWhile_append_eq_left_iff isBareInner word rest).mpr ⟨by simpa using hword, hrest⟩
    simp only [Token.text, List.cons_append, front?, scan_bare hc, hrun]

/-- A token is at the front of a text exactly if it is one of the grammar and what follows does not prolong it. -/
theorem front?_eq_token_iff {s : Text} {t : Token} :
    front? s = some (.token t) ↔ ∃ rest, s = t.text ++ rest ∧ t.Genuine ∧ t.stopsBefore rest = true := by
  constructor
  · intro h
    cases s with
    | nil => simp [front?] at h
    | cons c cs =>
      have hsound := scan_sound c cs
      rwa [Option.some.inj h] at hsound
  · rintro ⟨rest, rfl, ht, hrest⟩
    exact front?_append ht hrest

/-! ## Looking ahead -/

theorem isBareInner_of_isAlphanumeric {c : Char} (h : Number.isAlphanumeric c = true) : isBareInner c = true := by
  have hne : ∀ d : Char, Number.isAlphanumeric d = false → (c == d) = false := by
    intro d hd
    rw [beq_eq_false_iff_ne]
    rintro rfl
    rw [h] at hd
    exact absurd hd (by simp)
  simp [isBareInner, isStop_of_isAlphanumeric h, hne '\x60' (by decide), hne '~' (by decide), hne '@' (by decide),
    hne '^' (by decide), hne '\\' (by decide)]

theorem Token.Genuine.any_or_bare {t : Token} (ht : t.Genuine) :
    t.text.any (!Number.isAlphanumeric ·) = true ∨ ∃ word, t = .bare word := by
  cases t with
  | whitespace text =>
    obtain ⟨hne, hall⟩ := ht
    cases text with
    | nil => exact absurd rfl hne
    | cons c text =>
      left
      simp only [List.all_cons, Bool.and_eq_true] at hall
      have hc : Number.isAlphanumeric c = false := by
        by_contra hc
        rw [Bool.not_eq_false] at hc
        exact absurd (isStop_of_isBlank hall.1) (by simp [isStop_of_isAlphanumeric hc])
      simp [Token.text, hc]
  | comment text =>
    obtain ⟨body, rfl | rfl, -⟩ := ht
    · exact .inl rfl
    · exact .inl rfl
  | opening bracket =>
    cases bracket with
    | namespacedMap space =>
      obtain ⟨word, rfl, -⟩ := ht
      exact .inl rfl
    | _ => exact .inl rfl
  | closing closer => cases closer <;> exact .inl rfl
  | mark mark =>
    cases mark with
    | tag text =>
      obtain ⟨c, word, rfl, -⟩ := ht
      exact .inl rfl
    | _ => exact .inl rfl
  | string text =>
    obtain ⟨body, rfl, -⟩ := ht
    exact .inl rfl
  | regex text =>
    obtain ⟨body, rfl, -⟩ := ht
    exact .inl rfl
  | character text =>
    obtain ⟨body, rfl, -⟩ := ht
    exact .inl rfl
  | symbolic text =>
    obtain ⟨name, -, rfl⟩ := ht
    exact .inl rfl
  | bare text => exact .inr ⟨text, rfl⟩

theorem Token.Genuine.text_ne_nil {t : Token} (ht : t.Genuine) : t.text ≠ [] := by
  rcases ht.any_or_bare with h | ⟨word, rfl⟩
  · intro hnil
    simp [hnil] at h
  · obtain ⟨c, word, rfl, -⟩ := ht
    simp [Token.text]

theorem scanCharacter_ne_nil (cs : Text) : scanCharacter cs ≠ some [] := by
  intro h
  rw [scanCharacter.eq_def] at h
  split at h
  · next name hname =>
    have hne : ∀ name ∈ characterNames, name ≠ [] := by decide
    exact hne name (List.mem_of_find?_eq_some hname) (Option.some.inj h)
  · cases cs with
    | nil => simp at h
    | cons c cs =>
      simp only at h
      split_ifs at h <;> simp at h

theorem Token.stopsBefore_append_text (t : Token) {u : Text} (v : Text) (hu : u ≠ [])
    (h : u.any (!Number.isAlphanumeric ·) = true ∨ v.head?.all (!Number.isAlphanumeric ·) = true) :
    t.stopsBefore (u ++ v) = t.stopsBefore u := by
  obtain ⟨d, u, rfl⟩ := List.exists_cons_of_ne_nil hu
  cases t with
  | character text =>
    cases hbody : text.drop 1 with
    | nil =>
      simp only [Token.stopsBefore, hbody, List.nil_append]
      rw [beq_eq_false_iff_ne.mpr (scanCharacter_ne_nil _), beq_eq_false_iff_ne.mpr (scanCharacter_ne_nil _)]
    | cons c body =>
      have hrun : (body ++ (d :: u ++ v)).takeWhile Number.isAlphanumeric =
          (body ++ d :: u).takeWhile Number.isAlphanumeric := by
        rw [← List.append_assoc]
        refine takeWhile_append_of_stop _ _ v (h.imp_left fun h => ?_)
        rw [List.any_append, h, Bool.or_true]
      simp only [Token.stopsBefore, hbody]
      rw [List.cons_append, scanCharacter_cons, hrun, ← scanCharacter_cons, ← List.cons_append]
  | mark mark => cases mark <;> rfl
  | _ => rfl

/-- A token does not look past the first token that follows it. -/
theorem Token.stopsBefore_append (t : Token) {u : Token} {v : Text} (hu : u.Genuine) (huv : u.stopsBefore v = true) :
    t.stopsBefore (u.text ++ v) = t.stopsBefore u.text := by
  refine t.stopsBefore_append_text v hu.text_ne_nil (hu.any_or_bare.imp_right ?_)
  rintro ⟨word, rfl⟩
  cases v with
  | nil => rfl
  | cons c v =>
    have hc : isBareInner c = false := by simpa [Token.stopsBefore] using huv
    by_contra hne
    rw [isBareInner_of_isAlphanumeric (by simpa using hne)] at hc
    exact absurd hc (by simp)

end SexprEdit
