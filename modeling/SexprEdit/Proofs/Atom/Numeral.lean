import SexprEdit.Atom.Basic
import SexprEdit.Proofs.Token.Pattern

/-!
# The grammar of numbers

A number is an optional sign and then one of five alternatives, each of which begins with digits. A word is accepted as a
number if and only if it matches this grammar (`Number.accepts_iff`). What comes right behind the first digits tells the
alternatives apart, so no number matches two of them (`Number.Form.eq_of_mem`).
-/

namespace SexprEdit

open Computability

namespace Number

open Pattern (oneOf mem_oneOf mem_oneOf_mul mem_kstar_oneOf mem_pow_oneOf)

/-! ## The grammar -/

def anyOf (chars : List Char) : Language Char :=
  oneOf chars.contains

def run (p : Char → Bool) : Language Char :=
  oneOf p * (oneOf p)∗

def sign : Language Char :=
  1 + anyOf ['+', '-']

def fraction : Language Char :=
  anyOf ['.'] * (oneOf Char.isDigit)∗

def exponent : Language Char :=
  anyOf ['e', 'E'] * (sign * run Char.isDigit)

/-- The alternatives of the grammar. -/
inductive Form where
  | hex
  | radix
  | ratio
  | big
  | decimal
deriving DecidableEq, Repr

namespace Form

def front : Form → Language Char
  | hex => anyOf ['0']
  | radix => oneOf Char.isDigit + oneOf Char.isDigit ^ 2
  | ratio | big | decimal => run Char.isDigit

def rest : Form → Language Char
  | hex => anyOf ['x', 'X'] * (run Pattern.isHex * (1 + anyOf ['N']))
  | radix => anyOf ['r', 'R'] * run fun c => c.isDigit || Pattern.isLetter c
  | ratio => anyOf ['/'] * run Char.isDigit
  | big => anyOf ['N']
  | decimal => (1 + fraction) * ((1 + exponent) * (1 + anyOf ['M']))

def language (f : Form) : Language Char :=
  f.front * f.rest

/-- The characters that the rest can begin with. -/
def marks : Form → List Char
  | hex => ['x', 'X']
  | radix => ['r', 'R']
  | ratio => ['/']
  | big => ['N']
  | decimal => ['.', 'e', 'E', 'M']

end Form

def unsignedLanguage : Language Char :=
  Form.hex.language + Form.radix.language + Form.ratio.language + Form.big.language + Form.decimal.language

def language : Language Char :=
  sign * unsignedLanguage

variable {p : Char → Bool} {L M : Language Char} {chars : List Char} {c : Char} {f g : Form} {s t u v w : Text}

theorem mem_anyOf : w ∈ anyOf chars ↔ ∃ c ∈ chars, w = [c] := by
  simp only [anyOf, mem_oneOf, List.contains_iff_mem]

theorem cons_mem_anyOf_mul : c :: w ∈ anyOf chars * L ↔ c ∈ chars ∧ w ∈ L := by
  rw [anyOf, mem_oneOf_mul]
  simp only [List.contains_iff_mem, List.cons.injEq]
  constructor
  · rintro ⟨d, v, hd, hv, rfl, rfl⟩
    exact ⟨hd, hv⟩
  · intro ⟨hc, hw⟩
    exact ⟨c, w, hc, hw, rfl, rfl⟩

theorem nil_notMem_anyOf_mul : [] ∉ anyOf chars * L := by
  intro h
  obtain ⟨c, v, -, -, hnil⟩ := mem_oneOf_mul.mp h
  cases hnil

theorem exists_cons_of_mem_anyOf_mul (h : w ∈ anyOf chars * L) : ∃ c v, w = c :: v ∧ c ∈ chars ∧ v ∈ L := by
  cases w with
  | nil => exact absurd h nil_notMem_anyOf_mul
  | cons c v => exact ⟨c, v, rfl, cons_mem_anyOf_mul.mp h⟩

theorem mem_optional : w ∈ 1 + anyOf [c] ↔ w = [] ∨ w = [c] := by
  rw [Language.mem_add, Language.mem_one, mem_anyOf]
  simp

theorem mem_run : w ∈ run p ↔ w ≠ [] ∧ w.all p = true := by
  rw [run, mem_oneOf_mul]
  cases w with
  | nil => simp
  | cons c w => simp [mem_kstar_oneOf, and_comm]

theorem isRun_iff : isRun p w = true ↔ w ∈ run p := by
  simp [mem_run, isRun]

theorem mem_front_radix : w ∈ Form.radix.front ↔ (w.length = 1 ∨ w.length = 2) ∧ w.all Char.isDigit = true := by
  have hone : oneOf Char.isDigit = oneOf Char.isDigit ^ 1 := (pow_one _).symm
  rw [Form.front, Language.mem_add, hone, mem_pow_oneOf, ← hone, mem_pow_oneOf, ← or_and_right]

theorem mem_run_of_front (h : w ∈ f.front) : w ∈ run Char.isDigit := by
  cases f with
  | hex =>
    obtain ⟨c, hc, rfl⟩ := mem_anyOf.mp h
    obtain rfl : c = '0' := List.mem_singleton.mp hc
    exact mem_run.mpr ⟨List.cons_ne_nil _ _, rfl⟩
  | radix =>
    obtain ⟨hlength, hall⟩ := mem_front_radix.mp h
    refine mem_run.mpr ⟨?_, hall⟩
    rintro rfl
    simp at hlength
  | ratio | big | decimal => exact h

/-! ## How texts begin -/

/-- Every text of the language that is not empty begins with a character of the class. -/
def Opens (p : Char → Bool) (L : Language Char) : Prop :=
  ∀ w ∈ L, w.head?.all p = true

theorem opens_one : Opens p 1 := by
  intro w hw
  rw [(Language.mem_one w).mp hw]
  rfl

theorem Opens.add (hL : Opens p L) (hM : Opens p M) : Opens p (L + M) := by
  intro w hw
  rcases (Language.mem_add _ _ _).mp hw with hw | hw
  · exact hL w hw
  · exact hM w hw

theorem Opens.mul (hL : Opens p L) (hM : Opens p M) : Opens p (L * M) := by
  intro w hw
  obtain ⟨a, ha, b, hb, rfl⟩ := Language.mem_mul.mp hw
  cases a with
  | nil => exact hM b hb
  | cons c a => exact hL (c :: a) ha

theorem opens_anyOf_mul (h : chars.all p = true) : Opens p (anyOf chars * L) := by
  intro w hw
  obtain ⟨c, v, rfl, hc, -⟩ := exists_cons_of_mem_anyOf_mul hw
  exact List.all_eq_true.mp h c hc

theorem opens_anyOf (h : chars.all p = true) : Opens p (anyOf chars) := by
  rw [← mul_one (anyOf chars)]
  exact opens_anyOf_mul h

/-- If the first language has runs of a class only and the second never prolongs one, a text of both falls apart where
its first run ends. -/
theorem mem_mul_iff_split (hL : ∀ w ∈ L, w.all p = true) (hM : Opens (!p ·) M) :
    u ∈ L * M ↔ u.takeWhile p ∈ L ∧ u.dropWhile p ∈ M := by
  rw [Language.mem_mul]
  constructor
  · intro ⟨a, ha, b, hb, hab⟩
    have htake : u.takeWhile p = a := by
      rw [← hab, takeWhile_append_eq_left_iff]
      exact ⟨List.takeWhile_eq_self_iff.mpr (List.all_eq_true.mp (hL a ha)), hM b hb⟩
    have hdrop : u.dropWhile p = b := by
      refine List.append_cancel_left (?_ : u.takeWhile p ++ u.dropWhile p = u.takeWhile p ++ b)
      rw [List.takeWhile_append_dropWhile, htake, hab]
    rw [htake, hdrop]
    exact ⟨ha, hb⟩
  · intro ⟨htake, hdrop⟩
    exact ⟨_, htake, _, hdrop, List.takeWhile_append_dropWhile⟩

theorem mem_run_mul (hM : Opens (!p ·) M) : u ∈ run p * M ↔ u.takeWhile p ≠ [] ∧ u.dropWhile p ∈ M := by
  rw [mem_mul_iff_split (fun w hw => (mem_run.mp hw).2) hM, mem_run, and_iff_left List.all_takeWhile]

theorem mem_kstar_mul (hM : Opens (!p ·) M) : u ∈ (oneOf p)∗ * M ↔ u.dropWhile p ∈ M := by
  rw [mem_mul_iff_split (fun w => mem_kstar_oneOf.mp) hM, mem_kstar_oneOf, and_iff_right List.all_takeWhile]

/-! ## One form for each number -/

theorem Form.opens_rest : Opens f.marks.contains f.rest := by
  cases f with
  | hex | radix | ratio => exact opens_anyOf_mul (by decide)
  | big => exact opens_anyOf (by decide)
  | decimal =>
    have hexponent : Opens Form.decimal.marks.contains (1 + exponent) := opens_one.add (opens_anyOf_mul (by decide))
    have hsuffix : Opens Form.decimal.marks.contains (1 + anyOf ['M']) := opens_one.add (opens_anyOf (by decide))
    exact (opens_one.add (opens_anyOf_mul (by decide))).mul (hexponent.mul hsuffix)

theorem Form.rest_not_digit : Opens (!Char.isDigit ·) f.rest := by
  have hmarks : f.marks.all (!Char.isDigit ·) = true := by
    cases f <;> decide
  intro w hw
  have hopens := opens_rest w hw
  cases w with
  | nil => rfl
  | cons c w => exact List.all_eq_true.mp hmarks c (List.contains_iff_mem.mp hopens)

theorem Form.eq_decimal_of_nil_mem_rest (h : [] ∈ f.rest) : f = .decimal := by
  cases f with
  | hex | radix | ratio => exact absurd h nil_notMem_anyOf_mul
  | big =>
    obtain ⟨c, -, hnil⟩ := mem_anyOf.mp h
    cases hnil
  | decimal => rfl

/-- A text has a form if its first digits are a front of that form and what follows them is a rest of it. -/
theorem Form.mem_language_iff : u ∈ f.language ↔ u.takeWhile Char.isDigit ∈ f.front ∧ u.dropWhile Char.isDigit ∈ f.rest :=
  mem_mul_iff_split (fun _ hw => (mem_run.mp (mem_run_of_front hw)).2) rest_not_digit

theorem Form.eq_of_mem_marks (hf : c ∈ f.marks) (hg : c ∈ g.marks) : f = g := by
  have hapart : (decide (f = g) || f.marks.all (!g.marks.contains ·)) = true := by
    cases f <;> cases g <;> decide
  rcases (Bool.or_eq_true _ _).mp hapart with hsame | hapart
  · exact of_decide_eq_true hsame
  · have hnot := List.all_eq_true.mp hapart c hf
    rw [List.contains_iff_mem.mpr hg] at hnot
    cases hnot

/-- No number has two forms. -/
theorem Form.eq_of_mem (hf : u ∈ f.language) (hg : u ∈ g.language) : f = g := by
  have hfrest := (mem_language_iff.mp hf).2
  have hgrest := (mem_language_iff.mp hg).2
  cases hrest : u.dropWhile Char.isDigit with
  | nil =>
    -- digits alone
    rw [hrest] at hfrest hgrest
    rw [eq_decimal_of_nil_mem_rest hfrest, eq_decimal_of_nil_mem_rest hgrest]
  | cons c v =>
    have hfmark := opens_rest _ hfrest
    have hgmark := opens_rest _ hgrest
    rw [hrest] at hfmark hgmark
    exact eq_of_mem_marks (List.contains_iff_mem.mp hfmark) (List.contains_iff_mem.mp hgmark)

/-! ## Signs -/

theorem exists_cons_of_mem_run_mul (h : u ∈ run p * M) : ∃ c v, u = c :: v ∧ p c = true := by
  rw [run, mul_assoc] at h
  obtain ⟨c, v, hc, -, rfl⟩ := mem_oneOf_mul.mp h
  exact ⟨c, v, rfl, hc⟩

theorem Form.exists_digit (h : u ∈ f.language) : ∃ c v, u = c :: v ∧ c.isDigit = true := by
  obtain ⟨digits, hdigits, rest, hrest, rfl⟩ := Language.mem_mul.mp h
  exact exists_cons_of_mem_run_mul (Language.mem_mul.mpr ⟨digits, mem_run_of_front hdigits, rest, hrest, rfl⟩)

theorem mem_pair {a b : Char} : c ∈ [a, b] ↔ (c == a || c == b) = true := by
  simp

theorem unsigned_of_isDigit (hc : c.isDigit = true) : unsigned (c :: v) = c :: v := by
  refine if_neg fun hsign => ?_
  have hsigns : ['+', '-'].all (!Char.isDigit ·) = true := by decide
  have hnot := List.all_eq_true.mp hsigns c (mem_pair.mpr hsign)
  rw [hc] at hnot
  cases hnot

theorem unsigned_append (hs : s ∈ sign) (hc : c.isDigit = true) : unsigned (s ++ c :: v) = c :: v := by
  rcases (Language.mem_add _ _ _).mp hs with hs | hs
  · rw [(Language.mem_one s).mp hs]
    exact unsigned_of_isDigit hc
  · obtain ⟨d, hd, rfl⟩ := mem_anyOf.mp hs
    exact if_pos (mem_pair.mp hd)

theorem exists_sign (t : Text) : ∃ s ∈ sign, s ++ unsigned t = t := by
  cases t with
  | nil => exact ⟨[], .inl rfl, rfl⟩
  | cons c v =>
    rw [unsigned]
    by_cases hsign : (c == '+' || c == '-') = true
    · rw [if_pos hsign]
      exact ⟨[c], .inr (mem_anyOf.mpr ⟨c, mem_pair.mpr hsign, rfl⟩), rfl⟩
    · rw [if_neg hsign]
      exact ⟨[], .inl rfl, rfl⟩

theorem mem_sign_mul (hM : ∀ w ∈ M, ∃ c v, w = c :: v ∧ c.isDigit = true) : t ∈ sign * M ↔ unsigned t ∈ M := by
  rw [Language.mem_mul]
  constructor
  · rintro ⟨s, hs, w, hw, rfl⟩
    obtain ⟨c, v, rfl, hc⟩ := hM w hw
    rwa [unsigned_append hs hc]
  · intro ht
    obtain ⟨s, hs, heq⟩ := exists_sign t
    exact ⟨s, hs, unsigned t, ht, heq⟩

theorem Form.mem_sign_mul_language : t ∈ sign * f.language ↔ unsigned t ∈ f.language :=
  mem_sign_mul fun _ => exists_digit

/-! ## Recognizing the forms -/

theorem not_isEmpty_iff : (!t.isEmpty) = true ↔ t ≠ [] := by
  rw [Bool.not_eq_true', List.isEmpty_eq_false_iff]

theorem mem_run_optional (hc : p c = false) : u ∈ run p * (1 + anyOf [c]) ↔
    (!(u.takeWhile p).isEmpty && (u.dropWhile p == [] || u.dropWhile p == [c])) = true := by
  have hopens : Opens (!p ·) (1 + anyOf [c]) := opens_one.add (opens_anyOf (by simp [hc]))
  rw [mem_run_mul hopens, mem_optional, Bool.and_eq_true, not_isEmpty_iff, Bool.or_eq_true, beq_iff_eq, beq_iff_eq]

theorem isHex_iff : isHex u = true ↔ u ∈ Form.hex.language := by
  rw [Form.language, Form.front, Form.rest]
  unfold isHex
  split
  · next x digits =>
    rw [cons_mem_anyOf_mul, cons_mem_anyOf_mul, mem_run_optional (by decide), Bool.and_assoc, Bool.and_eq_true, mem_pair]
    exact (and_iff_right List.mem_cons_self).symm
  · next hshape =>
    refine iff_of_false Bool.false_ne_true fun h => ?_
    obtain ⟨c, v, rfl, hc, hv⟩ := exists_cons_of_mem_anyOf_mul h
    obtain ⟨x, digits, rfl, -, -⟩ := exists_cons_of_mem_anyOf_mul hv
    exact hshape x digits (by rw [List.mem_singleton.mp hc])

theorem isRadix_iff : isRadix u = true ↔ u ∈ Form.radix.language := by
  have hclass : (fun c => c.isDigit || Pattern.isLetter c) = isAlphanumeric := by
    funext c
    rw [Pattern.isLetter_eq, Bool.or_comm]
    rfl
  rw [Form.mem_language_iff, mem_front_radix, and_iff_left List.all_takeWhile, isRadix, Bool.and_eq_true, Bool.or_eq_true,
    beq_iff_eq, beq_iff_eq, Form.rest, hclass]
  refine and_congr Iff.rfl ?_
  cases u.dropWhile Char.isDigit with
  | nil => exact iff_of_false Bool.false_ne_true nil_notMem_anyOf_mul
  | cons c rest => rw [cons_mem_anyOf_mul, mem_pair, ← isRun_iff, Bool.and_eq_true]

theorem takeWhile_mem_run : u.takeWhile p ∈ run p ↔ (!(u.takeWhile p).isEmpty) = true := by
  rw [mem_run, and_iff_left List.all_takeWhile, not_isEmpty_iff]

theorem isRatio_iff : isRatio u = true ↔ u ∈ Form.ratio.language := by
  rw [Form.mem_language_iff, isRatio, Bool.and_eq_true, Form.front, takeWhile_mem_run]
  refine and_congr Iff.rfl ?_
  rw [Form.rest]
  cases u.dropWhile Char.isDigit with
  | nil => exact iff_of_false Bool.false_ne_true nil_notMem_anyOf_mul
  | cons c rest => rw [cons_mem_anyOf_mul, List.mem_singleton, ← isRun_iff, Bool.and_eq_true, beq_iff_eq]

theorem isBig_iff : isBig u = true ↔ u ∈ Form.big.language := by
  rw [Form.mem_language_iff, isBig, Bool.and_eq_true, Form.front, takeWhile_mem_run, beq_iff_eq]
  refine and_congr Iff.rfl ?_
  simp [Form.rest, mem_anyOf]

theorem isDecimalTail_iff : isDecimalTail u = true ↔ u ∈ (1 + exponent) * (1 + anyOf ['M']) := by
  rw [add_mul, one_mul, Language.mem_add, mem_optional, exponent, mul_assoc, mul_assoc]
  cases u with
  | nil => exact iff_of_true rfl (.inl (.inl rfl))
  | cons c cs =>
    rw [isDecimalTail, cons_mem_anyOf_mul, mem_sign_mul (fun w => exists_cons_of_mem_run_mul), mem_run_optional (by decide),
      mem_pair]
    by_cases hc : (c == 'e' || c == 'E') = true
    · -- an exponent is no suffix
      have hM : ¬(c :: cs = [] ∨ c :: cs = ['M']) := by
        rintro (h | h)
        · cases h
        · cases h
          cases hc
      rw [if_pos hc, or_iff_right hM, and_iff_right hc]
    · rw [if_neg hc, or_iff_left fun h => hc h.1]
      simp

theorem isDecimal_iff : isDecimal u = true ↔ u ∈ Form.decimal.language := by
  have hopens : Opens (!Char.isDigit ·) ((1 + exponent) * (1 + anyOf ['M'])) :=
    (opens_one.add (opens_anyOf_mul (by decide))).mul (opens_one.add (opens_anyOf (by decide)))
  rw [Form.mem_language_iff, isDecimal, Bool.and_eq_true, Form.front, takeWhile_mem_run]
  refine and_congr Iff.rfl ?_
  rw [Form.rest, add_mul, one_mul, Language.mem_add, fraction, mul_assoc, ← isDecimalTail_iff]
  split
  · next digits heq =>
    -- a point belongs to the fraction, since neither exponent nor suffix begins with one
    have hpoint : isDecimalTail ('.' :: digits) ≠ true := Bool.false_ne_true
    rw [heq, cons_mem_anyOf_mul, mem_kstar_mul hopens, ← isDecimalTail_iff, or_iff_right hpoint]
    exact (and_iff_right List.mem_cons_self).symm
  · next hpoint =>
    refine (or_iff_left fun h => ?_).symm
    obtain ⟨c, v, hcv, hc, -⟩ := exists_cons_of_mem_anyOf_mul h
    exact hpoint v (by rw [hcv, List.mem_singleton.mp hc])

theorem mem_unsignedLanguage : u ∈ unsignedLanguage ↔ ∃ f : Form, u ∈ f.language := by
  simp only [unsignedLanguage, Language.mem_add]
  constructor
  · rintro ((((h | h) | h) | h) | h)
    · exact ⟨.hex, h⟩
    · exact ⟨.radix, h⟩
    · exact ⟨.ratio, h⟩
    · exact ⟨.big, h⟩
    · exact ⟨.decimal, h⟩
  · intro ⟨f, h⟩
    cases f with
    | hex => exact .inl (.inl (.inl (.inl h)))
    | radix => exact .inl (.inl (.inl (.inr h)))
    | ratio => exact .inl (.inl (.inr h))
    | big => exact .inl (.inr h)
    | decimal => exact .inr h

theorem mem_language_iff : t ∈ language ↔ ∃ f : Form, unsigned t ∈ f.language := by
  have hdigit : ∀ w ∈ unsignedLanguage, ∃ c v, w = c :: v ∧ c.isDigit = true := by
    intro w hw
    obtain ⟨f, hf⟩ := mem_unsignedLanguage.mp hw
    exact Form.exists_digit hf
  rw [language, mem_sign_mul hdigit, mem_unsignedLanguage]

/-- A word is accepted as a number if and only if it matches the grammar. -/
theorem accepts_iff : accepts t = true ↔ t ∈ language := by
  rw [mem_language_iff, ← mem_unsignedLanguage]
  simp only [accepts, Bool.or_eq_true, unsignedLanguage, Language.mem_add, isHex_iff, isRadix_iff, isRatio_iff, isBig_iff,
    isDecimal_iff]

end Number

end SexprEdit
