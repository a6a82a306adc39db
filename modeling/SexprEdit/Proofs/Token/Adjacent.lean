import Mathlib.Data.List.Chain
import SexprEdit.Node.Gap
import SexprEdit.Proofs.Token.Scan

/-!
# Tokens side by side

A text lexes to given tokens exactly if it is their texts put together and each of them stops before the next one
(`lex_eq_tokens_iff`). So whether tokens run together is decided by neighbours alone, and the test on two texts that
`fuses` makes is the test on the tokens (`fuses_eq`).
-/

namespace SexprEdit

def Token.texts (ts : List Token) : Text :=
  ts.flatMap Token.text

@[simp] theorem Token.texts_nil : Token.texts [] = [] := rfl

@[simp] theorem Token.texts_cons (t : Token) (ts : List Token) : Token.texts (t :: ts) = t.text ++ Token.texts ts := rfl

@[simp] theorem Token.texts_append (ts us : List Token) :
    Token.texts (ts ++ us) = Token.texts ts ++ Token.texts us := List.flatMap_append

/-- Tokens of the grammar of which each stops before the next one. -/
def Token.Separate (ts : List Token) : Prop :=
  (∀ t ∈ ts, t.Genuine) ∧ ts.IsChain fun t u => t.stopsBefore u.text = true

/-! ## Whole texts -/

theorem lexAfter_eq (n : Nat) (s : Text) : lexAfter n s = lex (s.drop n) := by
  induction s generalizing n with
  | nil => simp [lexAfter, lex]
  | cons c cs ih =>
    cases n with
    | zero => rfl
    | succ n => rw [lexAfter, ih, List.drop_succ_cons]

@[simp] theorem lex_nil : lex [] = [] := rfl

theorem lex_cons (c : Char) (cs : Text) :
    lex (c :: cs) = scan c cs :: lex (cs.drop ((scan c cs).text.length - 1)) := by
  rw [lex, lexAfter, lexAfter_eq]

theorem lex_eq_nil_iff {s : Text} : lex s = [] ↔ s = [] := by
  cases s with
  | nil => simp
  | cons c cs => simp [lex_cons]

theorem head?_lex (s : Text) : (lex s).head? = front? s := by
  cases s with
  | nil => rfl
  | cons c cs => rw [lex_cons, List.head?_cons, front?]

theorem lex_append {t : Token} {rest : Text} (ht : t.Genuine) (hrest : t.stopsBefore rest = true) :
    lex (t.text ++ rest) = .token t :: lex rest := by
  have hfront := front?_append ht hrest
  obtain ⟨c, body, hbody⟩ := List.exists_cons_of_ne_nil ht.text_ne_nil
  rw [hbody, List.cons_append] at hfront ⊢
  have hscan : scan c (body ++ rest) = .token t := Option.some.inj hfront
  rw [lex_cons, hscan, Lexeme.text, hbody, List.length_cons, Nat.add_sub_cancel, List.drop_left]

theorem lex_eq_cons_iff {s : Text} {t : Token} {pieces : List Lexeme} :
    lex s = .token t :: pieces ↔
      ∃ rest, s = t.text ++ rest ∧ t.Genuine ∧ t.stopsBefore rest = true ∧ lex rest = pieces := by
  constructor
  · intro h
    have hfront : front? s = some (.token t) := by rw [← head?_lex, h, List.head?_cons]
    obtain ⟨rest, rfl, ht, hrest⟩ := front?_eq_token_iff.mp hfront
    rw [lex_append ht hrest] at h
    exact ⟨rest, rfl, ht, hrest, (List.cons.inj h).2⟩
  · rintro ⟨rest, rfl, ht, hrest, rfl⟩
    exact lex_append ht hrest

theorem Token.Genuine.stopsBefore_nil {t : Token} (ht : t.Genuine) : t.stopsBefore [] = true := by
  cases t with
  | character text =>
    obtain ⟨body, rfl, hbody⟩ := ht
    simpa [Token.stopsBefore] using hbody
  | mark mark => cases mark <;> rfl
  | _ => rfl

theorem Token.Genuine.stopsBefore_stop {t : Token} (ht : t.Genuine) (htrivia : t.isTrivia = false) {c : Char}
    (hc : isStop c = true) (rest : Text) : t.stopsBefore (c :: rest) = true := by
  cases t with
  | whitespace text | comment text => simp [Token.isTrivia] at htrivia
  | character text =>
    obtain ⟨body, rfl, hbody⟩ := ht
    have hword : Number.isAlphanumeric c = false := by
      by_contra h
      rw [isStop_of_isAlphanumeric (by simpa using h)] at hc
      exact absurd hc (by simp)
    cases body with
    | nil => exact absurd hbody (scanCharacter_ne_nil [])
    | cons d body =>
      have hrun := takeWhile_append_of_stop Number.isAlphanumeric body (c :: rest) (.inr (by simp [hword]))
      have hsame : scanCharacter (d :: (body ++ c :: rest)) = some (d :: body) := by
        rw [scanCharacter_cons, hrun, ← scanCharacter_cons, hbody]
      simp [Token.stopsBefore, hsame]
  | mark mark =>
    cases mark with
    | unquote =>
      have hat : c ≠ '@' := by
        rintro rfl
        exact absurd hc (by decide)
      simpa [Token.stopsBefore] using hat
    | tag text => simpa [Token.stopsBefore] using hc
    | _ => rfl
  | bare text => simp [Token.stopsBefore, isBareInner, hc]
  | _ => rfl

theorem Token.separate_cons {t : Token} {ts : List Token} :
    Token.Separate (t :: ts) ↔
      t.Genuine ∧ (∀ u ∈ ts.head?, t.stopsBefore u.text = true) ∧ Token.Separate ts := by
  simp only [Token.Separate, List.mem_cons, forall_eq_or_imp, List.isChain_cons]
  tauto

theorem Token.stopsBefore_texts {t : Token} {ts : List Token} (ht : t.Genuine) (hts : Token.Separate ts) :
    t.stopsBefore (Token.texts ts) = true ↔ ∀ u ∈ ts.head?, t.stopsBefore u.text = true := by
  induction ts generalizing t with
  | nil => simp [ht.stopsBefore_nil]
  | cons u us ih =>
    obtain ⟨hu, hnext, hus⟩ := Token.separate_cons.mp hts
    have hstop : u.stopsBefore (Token.texts us) = true := (ih hu hus).mpr hnext
    rw [Token.texts_cons, t.stopsBefore_append hu hstop]
    simp

/-- The tokens of a text: its texts put together, each token stopping before the next. -/
theorem lex_eq_tokens_iff {s : Text} {ts : List Token} :
    lex s = ts.map .token ↔ s = Token.texts ts ∧ Token.Separate ts := by
  induction ts generalizing s with
  | nil => simp [lex_eq_nil_iff, Token.Separate]
  | cons t ts ih =>
    rw [List.map_cons, lex_eq_cons_iff, Token.separate_cons, Token.texts_cons]
    constructor
    · rintro ⟨rest, rfl, ht, hrest, hlex⟩
      obtain ⟨rfl, hts⟩ := ih.mp hlex
      exact ⟨rfl, ht, (Token.stopsBefore_texts ht hts).mp hrest, hts⟩
    · rintro ⟨rfl, ht, hnext, hts⟩
      exact ⟨_, rfl, ht, (Token.stopsBefore_texts ht hts).mpr hnext, ih.mpr ⟨rfl, hts⟩⟩

/-! ## The test for a gap -/

theorem tokensOf_eq_iff {s : Text} {ts : List Token} : tokensOf s = ts.map some ↔ lex s = ts.map .token := by
  rw [tokensOf]
  generalize lex s = pieces
  induction pieces generalizing ts with
  | nil => cases ts <;> simp
  | cons piece pieces ih =>
    cases ts with
    | nil => simp
    | cons t ts =>
      cases piece with
      | token u => simp [Lexeme.token?, ih]
      | stray text => simp [Lexeme.token?]

theorem Token.Genuine.tokensOf_text {t : Token} (ht : t.Genuine) : tokensOf t.text = [some t] := by
  have hlex : lex t.text = [t].map .token :=
    lex_eq_tokens_iff.mpr ⟨by simp, by simpa [Token.Separate] using ht⟩
  exact tokensOf_eq_iff.mpr hlex

/-- Two tokens run together exactly if the first does not stop before the second. -/
theorem fuses_eq {t u : Token} (ht : t.Genuine) (hu : u.Genuine) : fuses t.text u.text = !t.stopsBefore u.text := by
  have hpair : tokensOf (t.text ++ u.text) = [t, u].map some ↔ t.stopsBefore u.text = true := by
    rw [tokensOf_eq_iff, lex_eq_tokens_iff]
    simp [ht, hu, Token.Separate]
  rw [fuses, ht.tokensOf_text, hu.tokensOf_text]
  have htne : t.text.isEmpty = false := by simpa using ht.text_ne_nil
  have hune : u.text.isEmpty = false := by simpa using hu.text_ne_nil
  rw [htne, hune, Bool.eq_iff_iff]
  simp only [List.map_cons, List.map_nil] at hpair
  simp [hpair]

end SexprEdit
