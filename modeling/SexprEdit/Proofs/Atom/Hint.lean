import Mathlib.Data.Nat.Digits.Defs
import SexprEdit.Proofs.Atom.Numeral

/-!
# The hint of a number

The hint is found by looking for telling characters one after the other, though most of them are plain digits in some other
form: an `e` may belong to a hexadecimal number, and `x`, `e`, `M` and `N` may be digits in a high base. For each form it is
known which characters it avoids (`Avoids`), and with that the search stops at the right place
(`hint_hex`, `hint_radix`, `hint_ratio`, `hint_big`, `hint_float`, `hint_digits`).
-/

namespace SexprEdit

open Computability

namespace Number

open Pattern (oneOf mem_kstar_oneOf)

def value (digits : Text) : Nat :=
  Nat.ofDigits 10 (digits.reverse.map fun c => c.toNat - '0'.toNat)

/-- The hint that goes with each form. A decimal is split into its digits, its fraction, its exponent and its suffix, of
which the last three may be empty. -/
inductive Hinted : Form → Text → NumberHint → Prop
  | hex {u : Text} (hu : u ∈ Form.hex.language) : Hinted .hex u .hex
  | radix {digits rest : Text} (hbase : digits ∈ Form.radix.front) (hrest : rest ∈ Form.radix.rest) :
    Hinted .radix (digits ++ rest) (.radix (value digits))
  | ratio {u : Text} (hu : u ∈ Form.ratio.language) : Hinted .ratio u .ratio
  | big {u : Text} (hu : u ∈ Form.big.language) : Hinted .big u .decimal
  | float {digits point power suffix : Text} (hdigits : digits ∈ run Char.isDigit) (hpoint : point ∈ 1 + fraction)
    (hpower : power ∈ 1 + exponent) (hsuffix : suffix ∈ 1 + anyOf ['M'])
    (hmark : point ≠ [] ∨ power ≠ [] ∨ suffix ≠ []) : Hinted .decimal (digits ++ (point ++ (power ++ suffix))) .float
  | octal {digits : Text} (hdigits : digits ∈ run Char.isDigit) (hlong : 1 < digits.length)
    (hzero : digits.head? = some '0') : Hinted .decimal digits .octal
  | decimal {digits : Text} (hdigits : digits ∈ run Char.isDigit)
    (hplain : ¬(1 < digits.length ∧ digits.head? = some '0')) : Hinted .decimal digits .decimal

variable {p : Char → Bool} {L M : Language Char} {chars cs : List Char} {c : Char} {f : Form} {k : NumberHint}
  {s t u w digits rest : Text}

/-! ## Characters that do not occur -/

/-- No text of the language has one of the characters. -/
def Avoids (chars : List Char) (L : Language Char) : Prop :=
  ∀ w ∈ L, mentions chars w = false

theorem mentions_append (chars : List Char) (u w : Text) :
    mentions chars (u ++ w) = (mentions chars u || mentions chars w) :=
  List.any_append

theorem mentions_cons (chars : List Char) (c : Char) (w : Text) :
    mentions chars (c :: w) = (chars.contains c || mentions chars w) :=
  List.any_cons

theorem mentions_of_all (hw : w.all p = true) (hchars : chars.all (!p ·) = true) : mentions chars w = false := by
  rw [mentions, List.any_eq_false]
  intro c hc hmem
  have hp := List.all_eq_true.mp hw c hc
  have hnot := List.all_eq_true.mp hchars c (List.contains_iff_mem.mp hmem)
  rw [hp] at hnot
  cases hnot

theorem avoids_one : Avoids chars 1 := by
  intro w hw
  rw [(Language.mem_one w).mp hw]
  rfl

theorem Avoids.add (hL : Avoids chars L) (hM : Avoids chars M) : Avoids chars (L + M) := by
  intro w hw
  rcases (Language.mem_add _ _ _).mp hw with hw | hw
  · exact hL w hw
  · exact hM w hw

theorem Avoids.mul (hL : Avoids chars L) (hM : Avoids chars M) : Avoids chars (L * M) := by
  intro w hw
  obtain ⟨a, ha, b, hb, rfl⟩ := Language.mem_mul.mp hw
  rw [mentions_append, hL a ha, hM b hb]
  rfl

theorem avoids_kstar (h : chars.all (!p ·) = true) : Avoids chars (oneOf p)∗ := by
  intro w hw
  exact mentions_of_all (mem_kstar_oneOf.mp hw) h

theorem avoids_run (h : chars.all (!p ·) = true) : Avoids chars (run p) := by
  intro w hw
  exact mentions_of_all (mem_run.mp hw).2 h

theorem avoids_anyOf (h : chars.all (!cs.contains ·) = true) : Avoids chars (anyOf cs) := by
  intro w hw
  obtain ⟨c, hc, rfl⟩ := mem_anyOf.mp hw
  refine mentions_of_all ?_ h
  simpa using hc

theorem mentions_mono (hsub : cs ⊆ chars) (h : mentions chars w = false) : mentions cs w = false := by
  rw [mentions, List.any_eq_false] at h ⊢
  intro c hc hmem
  exact h c hc (List.contains_iff_mem.mpr (hsub (List.contains_iff_mem.mp hmem)))

theorem Avoids.mono (hsub : cs ⊆ chars) (hL : Avoids chars L) : Avoids cs L := by
  intro w hw
  exact mentions_mono hsub (hL w hw)

theorem avoids_decimal : Avoids ['x', 'X', 'r', 'R', '/'] Form.decimal.rest := by
  have hfraction : Avoids ['x', 'X', 'r', 'R', '/'] fraction := (avoids_anyOf (by decide)).mul (avoids_kstar (by decide))
  have hsign : Avoids ['x', 'X', 'r', 'R', '/'] sign := avoids_one.add (avoids_anyOf (by decide))
  have hexponent : Avoids ['x', 'X', 'r', 'R', '/'] exponent :=
    (avoids_anyOf (by decide)).mul (hsign.mul (avoids_run (by decide)))
  have hsuffix : Avoids ['x', 'X', 'r', 'R', '/'] (1 + anyOf ['M']) := avoids_one.add (avoids_anyOf (by decide))
  exact (avoids_one.add hfraction).mul ((avoids_one.add hexponent).mul hsuffix)

theorem avoids_ratio : Avoids ['x', 'X', 'r', 'R'] Form.ratio.rest :=
  (avoids_anyOf (by decide)).mul (avoids_run (by decide))

theorem avoids_r (hf : f ≠ .radix) : Avoids ['r', 'R'] f.language := by
  have hfront : Avoids ['r', 'R'] f.front := fun w hw => avoids_run (by decide) w (mem_run_of_front hw)
  refine hfront.mul ?_
  cases f with
  | hex =>
    have hsuffix : Avoids ['r', 'R'] (1 + anyOf ['N']) := avoids_one.add (avoids_anyOf (by decide))
    exact (avoids_anyOf (by decide)).mul ((avoids_run (by decide)).mul hsuffix)
  | radix => exact absurd rfl hf
  | ratio => exact avoids_ratio.mono (by decide)
  | big => exact avoids_anyOf (by decide)
  | decimal => exact avoids_decimal.mono (by decide)

/-! ## The value of a base -/

theorem decimalValue_eq (digits : Text) : decimalValue digits = value digits := by
  induction digits using List.reverseRecOn with
  | nil => rfl
  | append_singleton digits c ih =>
    have hstep : decimalValue (digits ++ [c]) = 10 * decimalValue digits + (c.toNat - '0'.toNat) := List.foldl_append
    have hlast : value (digits ++ [c]) = (c.toNat - '0'.toNat) + 10 * value digits := by
      rw [value, List.reverse_append]
      exact Nat.ofDigits_cons
    rw [hstep, hlast, ih, Nat.add_comm]

theorem value_lt (hdigits : digits.all Char.isDigit = true) : value digits < 10 ^ digits.length := by
  have hlt : ∀ n ∈ digits.reverse.map fun c => c.toNat - '0'.toNat, n < 10 := by
    intro n hn
    obtain ⟨c, hc, rfl⟩ := List.mem_map.mp hn
    have hdigit : c.isDigit = true := List.all_eq_true.mp hdigits c (List.mem_reverse.mp hc)
    have hbounds : (decide ('0'.val ≤ c.val) && decide (c.val ≤ '9'.val)) = true := hdigit
    rw [Bool.and_eq_true, decide_eq_true_eq, decide_eq_true_eq, UInt32.le_iff_toNat_le, UInt32.le_iff_toNat_le] at hbounds
    have hzero : '0'.val.toNat = 48 := rfl
    have hnine : '9'.val.toNat = 57 := rfl
    show c.val.toNat - '0'.val.toNat < 10
    omega
  have hbound := Nat.ofDigits_lt_base_pow_length (by norm_num) hlt
  rwa [List.length_map, List.length_reverse] at hbound

theorem base?_eq (hbase : digits ∈ Form.radix.front) : base? digits = some (value digits) := by
  obtain ⟨hlength, hall⟩ := mem_front_radix.mp hbase
  have hsmall : decimalValue digits < 256 := by
    have hlt := value_lt hall
    rw [← decimalValue_eq] at hlt
    rcases hlength with hlength | hlength
    · rw [hlength] at hlt
      omega
    · rw [hlength] at hlt
      omega
  have hrun : isRun Char.isDigit digits = true := isRun_iff.mpr (mem_run_of_front hbase)
  rw [base?, hrun, decide_eq_true hsmall, decimalValue_eq]
  rfl

theorem takeWhile_base {r : Char} (hdigits : digits ∈ run Char.isDigit) (hr : r ∈ ['r', 'R']) :
    (digits ++ r :: w).takeWhile (fun c => c != 'r' && c != 'R') = digits := by
  rw [takeWhile_append_eq_left_iff, List.takeWhile_eq_self_iff]
  constructor
  · intro c hc
    have hmention := avoids_run (by decide : ['r', 'R'].all (!Char.isDigit ·) = true) digits hdigits
    rw [mentions, List.any_eq_false] at hmention
    simpa using hmention c hc
  · have hstop : ['r', 'R'].all (fun r => !(r != 'r' && r != 'R')) = true := by decide
    exact List.all_eq_true.mp hstop r hr

/-! ## The hint of each form -/

theorem unsigned_digits (hdigits : digits ∈ run Char.isDigit) : unsigned (digits ++ rest) = digits ++ rest := by
  obtain ⟨hne, hall⟩ := mem_run.mp hdigits
  cases digits with
  | nil => exact absurd rfl hne
  | cons c digits => exact unsigned_of_isDigit (List.all_eq_true.mp hall c List.mem_cons_self)

theorem not_hex_front (hdigits : digits ∈ run Char.isDigit) (hrest : rest.head?.all (fun c => c != 'x' && c != 'X') = true) :
    (['0', 'x'].isPrefixOf (digits ++ rest) || ['0', 'X'].isPrefixOf (digits ++ rest)) = false := by
  obtain ⟨hne, hall⟩ := mem_run.mp hdigits
  cases digits with
  | nil => exact absurd rfl hne
  | cons c digits =>
    -- the second character is one more digit or the first of the rest
    have hsecond : (digits ++ rest).head?.all (fun c => c != 'x' && c != 'X') = true := by
      cases digits with
      | nil => exact hrest
      | cons d digits =>
        have hdigit : d.isDigit = true := List.all_eq_true.mp hall d (List.mem_cons_of_mem _ List.mem_cons_self)
        rw [List.cons_append, List.head?_cons, Option.all_some, Bool.and_eq_true, bne_iff_ne, bne_iff_ne]
        constructor
        · rintro rfl
          cases hdigit
        · rintro rfl
          cases hdigit
    rw [List.cons_append]
    cases hafter : digits ++ rest with
    | nil => simp [List.isPrefixOf]
    | cons d after =>
      rw [hafter, List.head?_cons, Option.all_some, Bool.and_eq_true, bne_iff_ne, bne_iff_ne] at hsecond
      simp [List.isPrefixOf, hsecond.1.symm, hsecond.2.symm]

theorem hint_hex (hu : u ∈ Form.hex.language) : hint u = .hex := by
  obtain ⟨c, v, rfl, hc, hv⟩ := exists_cons_of_mem_anyOf_mul hu
  obtain ⟨x, w, rfl, hx, -⟩ := exists_cons_of_mem_anyOf_mul hv
  obtain rfl : c = '0' := List.mem_singleton.mp hc
  have hfront : (['0', 'x'].isPrefixOf ('0' :: x :: w) || ['0', 'X'].isPrefixOf ('0' :: x :: w)) = true := by
    rcases List.mem_cons.mp hx with rfl | hx
    · rfl
    · obtain rfl := List.mem_singleton.mp hx
      rfl
  rw [hint, unsigned_of_isDigit rfl, if_pos hfront]

theorem hint_radix (hbase : digits ∈ Form.radix.front) (hrest : rest ∈ Form.radix.rest) :
    hint (digits ++ rest) = .radix (value digits) := by
  have hdigits := mem_run_of_front hbase
  obtain ⟨r, w, rfl, hr, -⟩ := exists_cons_of_mem_anyOf_mul hrest
  have hmarks : ['r', 'R'].all (fun c => c != 'x' && c != 'X') = true := by decide
  have hx : (r :: w).head?.all (fun c => c != 'x' && c != 'X') = true := List.all_eq_true.mp hmarks r hr
  have hmention : mentions ['r', 'R'] (digits ++ r :: w) = true := by
    rw [mentions_append, mentions_cons, List.contains_iff_mem.mpr hr, Bool.true_or, Bool.or_true]
  rw [hint, unsigned_digits hdigits, not_hex_front hdigits hx, if_neg Bool.false_ne_true, if_pos hmention,
    takeWhile_base hdigits hr, base?_eq hbase]

theorem hint_plain (hdigits : digits ∈ run Char.isDigit) (hrest : mentions ['x', 'X', 'r', 'R'] rest = false) :
    hint (digits ++ rest) =
      if mentions ['/'] rest then .ratio
      else if mentions ['.', 'e', 'E', 'M'] rest then .float
      else if 1 < (digits ++ rest).length && (digits ++ rest).head? == some '0' && (digits ++ rest).getLast? != some 'N'
      then .octal
      else .decimal := by
  have hx : rest.head?.all (fun c => c != 'x' && c != 'X') = true := by
    cases rest with
    | nil => rfl
    | cons c rest =>
      rw [mentions_cons, Bool.or_eq_false_iff] at hrest
      have hc : c ≠ 'x' ∧ c ≠ 'X' ∧ c ≠ 'r' ∧ c ≠ 'R' := by simpa using hrest.1
      rw [List.head?_cons, Option.all_some, Bool.and_eq_true, bne_iff_ne, bne_iff_ne]
      exact ⟨hc.1, hc.2.1⟩
  have hmention : ∀ chars : List Char, chars.all (!Char.isDigit ·) = true →
      mentions chars (digits ++ rest) = mentions chars rest := by
    intro chars hchars
    rw [mentions_append, avoids_run hchars digits hdigits, Bool.false_or]
  rw [hint, unsigned_digits hdigits, not_hex_front hdigits hx, if_neg Bool.false_ne_true, hmention ['r', 'R'] (by decide),
    mentions_mono (by decide) hrest, if_neg Bool.false_ne_true, hmention ['/'] (by decide),
    hmention ['.', 'e', 'E', 'M'] (by decide)]

theorem hint_ratio (hu : u ∈ Form.ratio.language) : hint u = .ratio := by
  obtain ⟨digits, hdigits, rest, hrest, rfl⟩ := Language.mem_mul.mp hu
  obtain ⟨c, w, rfl, hc, -⟩ := exists_cons_of_mem_anyOf_mul hrest
  have hslash : mentions ['/'] (c :: w) = true := by
    rw [mentions_cons, List.contains_iff_mem.mpr hc, Bool.true_or]
  rw [hint_plain hdigits (avoids_ratio _ hrest), if_pos hslash]

theorem hint_big (hu : u ∈ Form.big.language) : hint u = .decimal := by
  obtain ⟨digits, hdigits, rest, hrest, rfl⟩ := Language.mem_mul.mp hu
  obtain ⟨c, hc, rfl⟩ := mem_anyOf.mp hrest
  obtain rfl := List.mem_singleton.mp hc
  have hlast : (digits ++ ['N']).getLast? = some 'N' := List.getLast?_concat
  rw [hint_plain hdigits rfl, if_neg (by decide), if_neg (by decide), hlast, bne_self_eq_false, Bool.and_false,
    if_neg Bool.false_ne_true]

theorem mentions_of_mem_optional (hw : w ∈ 1 + anyOf cs * L) (hne : w ≠ []) (hsub : cs ⊆ chars) :
    mentions chars w = true := by
  rcases (Language.mem_add _ _ _).mp hw with hw | hw
  · exact absurd ((Language.mem_one w).mp hw) hne
  · obtain ⟨c, v, rfl, hc, -⟩ := exists_cons_of_mem_anyOf_mul hw
    rw [mentions_cons, List.contains_iff_mem.mpr (hsub hc), Bool.true_or]

theorem hint_float {point power suffix : Text} (hdigits : digits ∈ run Char.isDigit) (hpoint : point ∈ 1 + fraction)
    (hpower : power ∈ 1 + exponent) (hsuffix : suffix ∈ 1 + anyOf ['M'])
    (hmark : point ≠ [] ∨ power ≠ [] ∨ suffix ≠ []) : hint (digits ++ (point ++ (power ++ suffix))) = .float := by
  have hrest : point ++ (power ++ suffix) ∈ Form.decimal.rest :=
    Language.mem_mul.mpr ⟨_, hpoint, _, Language.mem_mul.mpr ⟨_, hpower, _, hsuffix, rfl⟩, rfl⟩
  have hfloat : mentions ['.', 'e', 'E', 'M'] (point ++ (power ++ suffix)) = true := by
    rw [mentions_append, mentions_append, Bool.or_eq_true, Bool.or_eq_true]
    rcases hmark with hne | hne | hne
    · exact .inl (mentions_of_mem_optional hpoint hne (by decide))
    · exact .inr (.inl (mentions_of_mem_optional hpower hne (by decide)))
    · rw [← mul_one (anyOf _)] at hsuffix
      exact .inr (.inr (mentions_of_mem_optional hsuffix hne (by decide)))
  have havoid := avoids_decimal _ hrest
  rw [hint_plain hdigits (mentions_mono (by decide) havoid), mentions_mono (by decide) havoid,
    if_neg Bool.false_ne_true, if_pos hfloat]

theorem hint_digits (hdigits : digits ∈ run Char.isDigit) :
    hint digits = if 1 < digits.length ∧ digits.head? = some '0' then .octal else .decimal := by
  have hlast : digits.getLast? ≠ some 'N' := by
    intro hlast
    have hdigit := List.all_eq_true.mp (mem_run.mp hdigits).2 'N' (List.mem_of_getLast? hlast)
    cases hdigit
  have hplain := hint_plain hdigits (rfl : mentions ['x', 'X', 'r', 'R'] [] = false)
  rw [List.append_nil, if_neg (by decide), if_neg (by decide), bne_iff_ne.mpr hlast, Bool.and_true] at hplain
  rw [hplain]
  simp

/-! ## Hints by form -/

theorem hint_of_hinted (hu : Hinted f u k) : hint u = k := by
  cases hu with
  | hex hu => exact hint_hex hu
  | radix hbase hrest => exact hint_radix hbase hrest
  | ratio hu => exact hint_ratio hu
  | big hu => exact hint_big hu
  | float hdigits hpoint hpower hsuffix hmark => exact hint_float hdigits hpoint hpower hsuffix hmark
  | octal hdigits hlong hzero => rw [hint_digits hdigits, if_pos ⟨hlong, hzero⟩]
  | decimal hdigits hplain => rw [hint_digits hdigits, if_neg hplain]

theorem exists_hinted (hu : u ∈ f.language) : ∃ k, Hinted f u k := by
  cases f with
  | hex => exact ⟨_, .hex hu⟩
  | radix =>
    obtain ⟨digits, hbase, rest, hrest, rfl⟩ := Language.mem_mul.mp hu
    exact ⟨_, .radix hbase hrest⟩
  | ratio => exact ⟨_, .ratio hu⟩
  | big => exact ⟨_, .big hu⟩
  | decimal =>
    obtain ⟨digits, hdigits, rest, hrest, rfl⟩ := Language.mem_mul.mp hu
    obtain ⟨point, hpoint, tail, htail, rfl⟩ := Language.mem_mul.mp hrest
    obtain ⟨power, hpower, suffix, hsuffix, rfl⟩ := Language.mem_mul.mp htail
    by_cases hmark : point ≠ [] ∨ power ≠ [] ∨ suffix ≠ []
    · exact ⟨_, .float hdigits hpoint hpower hsuffix hmark⟩
    · simp only [not_or, not_not] at hmark
      obtain ⟨rfl, rfl, rfl⟩ := hmark
      rw [List.append_nil, List.append_nil, List.append_nil]
      by_cases hzero : 1 < digits.length ∧ digits.head? = some '0'
      · exact ⟨_, .octal hdigits hzero.1 hzero.2⟩
      · exact ⟨_, .decimal hdigits hzero⟩

theorem hinted_iff (hu : u ∈ f.language) : Hinted f u k ↔ hint u = k := by
  constructor
  · exact hint_of_hinted
  · intro hk
    obtain ⟨answer, hanswer⟩ := exists_hinted hu
    rw [← hk, hint_of_hinted hanswer]
    exact hanswer

/-- A sign never changes the hint. -/
theorem hint_sign (hs : s ∈ sign) (hu : u ∈ f.language) : hint (s ++ u) = hint u := by
  obtain ⟨c, v, rfl, hc⟩ := Form.exists_digit hu
  rw [hint, hint, unsigned_append hs hc, unsigned_of_isDigit hc]

/-- Wherever an `r` is looked for and found, a base stands before it. -/
theorem base?_of_mentions (ht : t ∈ language) (hr : mentions ['r', 'R'] (unsigned t) = true) :
    ∃ n, base? ((unsigned t).takeWhile fun c => c != 'r' && c != 'R') = some n ∧ hint t = .radix n := by
  obtain ⟨f, hf⟩ := mem_language_iff.mp ht
  obtain rfl : f = .radix := by
    by_contra hne
    rw [avoids_r hne _ hf] at hr
    cases hr
  obtain ⟨s, hs, hsplit⟩ := exists_sign t
  have hhint : hint t = hint (unsigned t) := by
    rw [← hint_sign hs hf, hsplit]
  obtain ⟨digits, hbase, rest, hrest, heq⟩ := Language.mem_mul.mp hf
  rw [hhint, ← heq, hint_radix hbase hrest]
  obtain ⟨r, w, rfl, hmark, -⟩ := exists_cons_of_mem_anyOf_mul hrest
  exact ⟨value digits, by rw [takeWhile_base (mem_run_of_front hbase) hmark, base?_eq hbase], rfl⟩

theorem ofBare_number (ht : t ∈ language) : Atom.ofBare t = .ok ⟨.number (some (hint t)), t⟩ := by
  obtain ⟨f, hf⟩ := mem_language_iff.mp ht
  obtain ⟨c, v, hcons, hc⟩ := Form.exists_digit hf
  have hnumeric : looksNumeric t = true := by
    rw [looksNumeric, hcons]
    exact hc
  have hcolon : (t.head? == some ':') = false := by
    rw [beq_eq_false_iff_ne]
    intro hcolon
    obtain ⟨w, rfl⟩ := List.head?_eq_some_iff.mp hcolon
    obtain rfl : ':' = c := (List.cons.inj hcons).1
    cases hc
  rw [Atom.ofBare, hcolon, hnumeric, accepts_iff.mpr ht]
  rfl

/-- The numbers are the words that match the grammar. A number matches exactly one of the alternatives, and its hint is the
one that goes with this alternative, with or without a sign. Where an `r` makes it look for a base, it finds one. -/
theorem hint_by_form (t : Text) :
    (accepts t = true ↔ t ∈ language) ∧
      (t ∈ language → Atom.ofBare t = .ok ⟨.number (some (hint t)), t⟩ ∧ ∃! f : Form, t ∈ sign * f.language) ∧
        (∀ f, ∀ s ∈ sign, ∀ u ∈ f.language, t = s ++ u → hint t = hint u ∧ ∀ k, Hinted f u k ↔ hint t = k) ∧
          (t ∈ language → mentions ['r', 'R'] (unsigned t) = true →
            ∃ n, base? ((unsigned t).takeWhile fun c => c != 'r' && c != 'R') = some n ∧ hint t = .radix n) := by
  refine ⟨accepts_iff, ?_, ?_, base?_of_mentions⟩
  · intro ht
    obtain ⟨f, hf⟩ := mem_language_iff.mp ht
    refine ⟨ofBare_number ht, f, Form.mem_sign_mul_language.mpr hf, ?_⟩
    intro g hg
    exact Form.eq_of_mem (Form.mem_sign_mul_language.mp hg) hf
  · intro f s hs u hu heq
    have hsign : hint t = hint u := by
      rw [heq, hint_sign hs hu]
    refine ⟨hsign, fun k => ?_⟩
    rw [hsign]
    exact hinted_iff hu

example :
    ["-0xe5N", "36rx0N", "+22/7", "007N", "0e-5", "3.", "42M", "-017", "0", "0xr"].map (fun t => (accepts t.toList, hint t.toList)) =
      [(true, .hex), (true, .radix 36), (true, .ratio), (true, .decimal), (true, .float), (true, .float), (true, .float),
        (true, .octal), (true, .decimal), (false, .hex)] := by decide

end Number

end SexprEdit
