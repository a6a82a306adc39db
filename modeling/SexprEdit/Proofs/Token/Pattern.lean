import Mathlib.Computability.Language
import SexprEdit.Proofs.Token.Adjacent

/-!
# The lexical grammar as patterns

Each kind of token has a pattern, a regular language of texts, and says which token it makes of a text that matches. The
patterns give exactly the tokens of the lexical grammar (`Pattern.mem_language_iff`), and no
text matches two of them (`Pattern.eq_of_mem_language`).
-/

namespace SexprEdit

open Computability

/-- The declared patterns. -/
inductive Pattern where
  | whitespace
  | comment
  | hashComment
  | lparen
  | rparen
  | lbracket
  | rbracket
  | lbrace
  | rbrace
  | setOpen
  | fnOpen
  | readerConditional
  | readerConditionalSplicing
  | namespacedMap
  | quote
  | syntaxQuote
  | unquote
  | unquoteSplicing
  | deref
  | metadata
  | var
  | discard
  | tag
  | string
  | regex
  | character
  | symbolic
  | bare
deriving DecidableEq, Repr

namespace Pattern

/-! ## Languages -/

def oneOf (p : Char → Bool) : Language Char :=
  {w | ∃ c, p c = true ∧ w = [c]}

def exactly (text : String) : Language Char :=
  {text.toList}

/-- Neither white space nor one of some characters. -/
def noneOf (excluded : String) (c : Char) : Bool :=
  !isSpace c && !excluded.toList.contains c

/-- The characters of tags and of the names before a map. -/
def isWord : Char → Bool :=
  noneOf ",()[]\x7b\x7d\x22;"

/-- Decimal digits and the letters up to F, in either case. -/
def isHex (c : Char) : Bool :=
  ('0' ≤ c && c ≤ '9') || ('a' ≤ c && c ≤ 'f') || ('A' ≤ c && c ≤ 'F')

def isLetter (c : Char) : Bool :=
  ('a' ≤ c && c ≤ 'z') || ('A' ≤ c && c ≤ 'Z')

/-- What stands between quotes: a backslash takes the next character with it. -/
def quotedPart : Language Char :=
  oneOf (fun c => c != '\x22' && c != '\\') + exactly "\\" * (oneOf (· != '\n') + exactly "\n")

def quoted : Language Char :=
  exactly "\x22" * (quotedPart∗ * exactly "\x22")

/-- A character literal after its backslash. -/
def characterBody : Language Char :=
  exactly "newline" + exactly "space" + exactly "tab" + exactly "backspace" + exactly "formfeed" + exactly "return" +
    exactly "u" * oneOf isHex ^ 4 +
      exactly "o" * (oneOf isOctalDigit + oneOf isOctalDigit ^ 2 + oneOf isOctalDigit ^ 3) + oneOf (· != '\n')

def language : Pattern → Language Char
  | whitespace => oneOf (" \t\r\n\x0c,".toList.contains ·) * (oneOf (" \t\r\n\x0c,".toList.contains ·))∗
  | comment => exactly ";" * (oneOf (· != '\n'))∗
  | hashComment => exactly "#!" * (oneOf (· != '\n'))∗
  | lparen => exactly "("
  | rparen => exactly ")"
  | lbracket => exactly "["
  | rbracket => exactly "]"
  | lbrace => exactly "\x7b"
  | rbrace => exactly "\x7d"
  | setOpen => exactly "#\x7b"
  | fnOpen => exactly "#("
  | readerConditional => exactly "#?("
  | readerConditionalSplicing => exactly "#?@("
  | namespacedMap => exactly "#:" * ((1 + exactly ":") * ((oneOf isWord)∗ * exactly "\x7b"))
  | quote => exactly "\x27"
  | syntaxQuote => exactly "\x60"
  | unquote => exactly "~"
  | unquoteSplicing => exactly "~@"
  | deref => exactly "@"
  | metadata => exactly "^"
  | var => exactly "#\x27"
  | discard => exactly "#_"
  | tag => exactly "#" * (oneOf isLetter * (oneOf isWord)∗)
  | string => quoted
  | regex => exactly "#" * quoted
  | character => exactly "\\" * characterBody
  | symbolic => exactly "##" * (exactly "Inf" + exactly "-Inf" + exactly "NaN")
  | bare => oneOf (noneOf ",()[]\x7b\x7d\x22;\x27\x60~@^\\#") * (oneOf (noneOf ",()[]\x7b\x7d\x22;\x60~@^\\"))∗

/-- The token of a text that matches a pattern. A namespaced map leaves out the brace at the end. -/
def token : Pattern → Text → Token
  | whitespace, text => .whitespace text
  | comment, text => .comment text
  | hashComment, text => .comment text
  | lparen, _ => .opening .list
  | rparen, _ => .closing .paren
  | lbracket, _ => .opening .vector
  | rbracket, _ => .closing .square
  | lbrace, _ => .opening .map
  | rbrace, _ => .closing .curly
  | setOpen, _ => .opening .set
  | fnOpen, _ => .opening .fn
  | readerConditional, _ => .opening .readerConditional
  | readerConditionalSplicing, _ => .opening .readerConditionalSplicing
  | namespacedMap, text => .opening (.namespacedMap text.dropLast)
  | quote, _ => .mark .quote
  | syntaxQuote, _ => .mark .syntaxQuote
  | unquote, _ => .mark .unquote
  | unquoteSplicing, _ => .mark .unquoteSplicing
  | deref, _ => .mark .deref
  | metadata, _ => .mark .metadata
  | var, _ => .mark .var
  | discard, _ => .mark .discard
  | tag, text => .mark (.tag text)
  | string, text => .string text
  | regex, text => .regex text
  | character, text => .character text
  | symbolic, text => .symbolic text
  | bare, text => .bare text

variable {p q : Pattern} {text w : Text} {L M : Language Char} {f : Char → Bool}

theorem mem_exactly {s : String} : w ∈ exactly s ↔ w = s.toList := Iff.rfl

theorem mem_oneOf : w ∈ oneOf f ↔ ∃ c, f c = true ∧ w = [c] := Iff.rfl

theorem mem_exactly_mul {s : String} : w ∈ exactly s * L ↔ ∃ v ∈ L, w = s.toList ++ v := by
  rw [Language.mem_mul]
  constructor
  · rintro ⟨u, rfl, v, hv, rfl⟩
    exact ⟨v, hv, rfl⟩
  · rintro ⟨v, hv, rfl⟩
    exact ⟨_, rfl, v, hv, rfl⟩

theorem mem_mul_exactly {s : String} : w ∈ L * exactly s ↔ ∃ v ∈ L, w = v ++ s.toList := by
  rw [Language.mem_mul]
  constructor
  · rintro ⟨v, hv, u, rfl, rfl⟩
    exact ⟨v, hv, rfl⟩
  · rintro ⟨v, hv, rfl⟩
    exact ⟨v, hv, _, rfl, rfl⟩

theorem mem_oneOf_mul : w ∈ oneOf f * L ↔ ∃ c v, f c = true ∧ v ∈ L ∧ w = c :: v := by
  rw [Language.mem_mul]
  constructor
  · rintro ⟨u, ⟨c, hc, rfl⟩, v, hv, rfl⟩
    exact ⟨c, v, hc, hv, rfl⟩
  · rintro ⟨c, v, hc, hv, rfl⟩
    exact ⟨[c], ⟨c, hc, rfl⟩, v, hv, rfl⟩

theorem mem_kstar_oneOf : w ∈ (oneOf f)∗ ↔ w.all f = true := by
  rw [Language.mem_kstar]
  constructor
  · rintro ⟨ws, rfl, hws⟩
    refine List.all_eq_true.mpr fun c hc => ?_
    obtain ⟨u, hu, hc⟩ := List.mem_flatten.mp hc
    obtain ⟨d, hd, rfl⟩ := hws u hu
    rwa [List.mem_singleton.mp hc]
  · intro hall
    refine ⟨w.map ([·]), by rw [← List.flatMap_def, List.flatMap_singleton'], fun u hu => ?_⟩
    obtain ⟨c, hc, rfl⟩ := List.mem_map.mp hu
    exact ⟨c, List.all_eq_true.mp hall c hc, rfl⟩

theorem mem_pow_oneOf {n : Nat} : w ∈ oneOf f ^ n ↔ w.length = n ∧ w.all f = true := by
  induction n generalizing w with
  | zero =>
    rw [pow_zero, Language.mem_one, List.length_eq_zero_iff]
    constructor
    · rintro rfl
      exact ⟨rfl, rfl⟩
    · exact And.left
  | succ n ih =>
    rw [pow_succ', mem_oneOf_mul]
    constructor
    · rintro ⟨c, v, hc, hv, rfl⟩
      obtain ⟨hlength, hall⟩ := ih.mp hv
      exact ⟨by rw [List.length_cons, hlength], by rw [List.all_cons, hc, hall]; rfl⟩
    · rintro ⟨hlength, hall⟩
      obtain ⟨c, v, rfl⟩ := List.exists_cons_of_length_eq_add_one hlength
      rw [List.all_cons, Bool.and_eq_true] at hall
      exact ⟨c, v, hall.1, ih.mpr ⟨Nat.succ.inj hlength, hall.2⟩, rfl⟩

/-! ## Classes of characters -/

theorem contains_blanks : (" \t\r\n\x0c,".toList.contains ·) = isBlank := by
  funext c
  rw [Bool.eq_iff_iff]
  simp [isBlank, or_assoc]

theorem isWord_eq : isWord = (!isStop ·) := by
  funext c
  rw [Bool.eq_iff_iff]
  simp [isWord, noneOf, isStop, and_assoc]

theorem noneOf_bareInner : noneOf ",()[]\x7b\x7d\x22;\x60~@^\\" = isBareInner := by
  funext c
  rw [Bool.eq_iff_iff]
  simp [noneOf, isBareInner, isStop, and_assoc]

theorem noneOf_bareStart : noneOf ",()[]\x7b\x7d\x22;\x27\x60~@^\\#" = isBareStart := by
  funext c
  rw [Bool.eq_iff_iff]
  simp [noneOf, isBareStart, isBareInner, isStop]
  tauto

theorem isLetter_eq : isLetter = isTagStart := by
  funext c
  have hletter : isTagStart c =
      (decide (c.val ≥ 'A'.val ∧ c.val ≤ 'Z'.val) || (decide (c.val ≥ 'a'.val) && decide (c.val ≤ 'z'.val))) := rfl
  rw [hletter, isLetter, Bool.eq_iff_iff]
  simp only [Bool.or_eq_true, Bool.and_eq_true, decide_eq_true_eq, Char.le_def, ge_iff_le]
  exact or_comm

/-! ## Quoted literals and characters -/

theorem append_mem_kstar_mul {u v : Text} (hu : u ∈ L) (hv : v ∈ L∗ * M) : u ++ v ∈ L∗ * M := by
  obtain ⟨_, ⟨ws, rfl, hws⟩, m, hm, rfl⟩ := Language.mem_mul.mp hv
  refine Language.mem_mul.mpr ⟨(u :: ws).flatten, ⟨u :: ws, rfl, List.forall_mem_cons.mpr ⟨hu, hws⟩⟩, m, hm, ?_⟩
  simp

theorem mem_quotedPart : w ∈ quotedPart ↔ (∃ c, (c ≠ '\x22' ∧ c ≠ '\\') ∧ w = [c]) ∨ ∃ d, w = ['\\', d] := by
  rw [quotedPart, Language.mem_add, mem_exactly_mul, mem_oneOf]
  refine or_congr (by simp) ⟨?_, ?_⟩
  · rintro ⟨v, ⟨d, -, rfl⟩ | rfl, rfl⟩
    · exact ⟨d, rfl⟩
    · exact ⟨'\n', rfl⟩
  · rintro ⟨d, rfl⟩
    refine ⟨[d], ?_, rfl⟩
    by_cases hd : d = '\n'
    · exact .inr (by rw [hd]; rfl)
    · exact .inl ⟨d, by simpa using hd, rfl⟩

theorem scanQuoted_of_mem {ws : List Text} (hws : ∀ u ∈ ws, u ∈ quotedPart) :
    scanQuoted (ws.flatten ++ ['\x22']) = (ws.flatten ++ ['\x22'], true) := by
  induction ws with
  | nil => rfl
  | cons u ws ih =>
    obtain ⟨hu, hrest⟩ := List.forall_mem_cons.mp hws
    obtain ⟨c, ⟨hquote, hbackslash⟩, rfl⟩ | ⟨d, rfl⟩ := mem_quotedPart.mp hu
    · simp [scanQuoted_plain, hquote, hbackslash, ih hrest]
    · simp [scanQuoted_escape, ih hrest]

theorem mem_of_scanQuoted (h : scanQuoted w = (w, true)) : w ∈ quotedPart∗ * exactly "\x22" := by
  fun_induction scanQuoted w with
  | case1 => cases h
  | case2 c cs hc =>
    obtain rfl := eq_of_beq hc
    obtain rfl : [] = cs := (List.cons.inj (Prod.mk.inj h).1).2
    exact mem_mul_exactly.mpr ⟨[], Language.nil_mem_kstar _, rfl⟩
  | case3 c hc hb => cases h
  | case4 c hc hb d ds body ih =>
    obtain rfl := eq_of_beq hb
    simp only [Prod.mk.injEq, List.cons.injEq, true_and] at h
    exact append_mem_kstar_mul (mem_quotedPart.mpr (.inr ⟨d, rfl⟩)) (ih (Prod.ext h.1 h.2))
  | case5 c cs hc hb body ih =>
    simp only [Prod.mk.injEq, List.cons.injEq, true_and] at h
    exact append_mem_kstar_mul (mem_quotedPart.mpr (.inl ⟨c, ⟨by simpa using hc, by simpa using hb⟩, rfl⟩))
      (ih (Prod.ext h.1 h.2))

theorem mem_quoted_iff : w ∈ quoted ↔ ∃ body, w = '\x22' :: body ∧ scanQuoted body = (body, true) := by
  rw [quoted, mem_exactly_mul]
  constructor
  · rintro ⟨body, hbody, rfl⟩
    obtain ⟨_, ⟨ws, rfl, hws⟩, rfl⟩ := mem_mul_exactly.mp hbody
    exact ⟨_, rfl, scanQuoted_of_mem hws⟩
  · rintro ⟨body, rfl, hbody⟩
    exact ⟨body, mem_of_scanQuoted hbody, rfl⟩

theorem mem_unicode : w ∈ exactly "u" * oneOf isHex ^ 4 ↔
    ∃ digits, w = 'u' :: digits ∧ digits.length = 4 ∧ digits.all isHexDigit = true := by
  rw [mem_exactly_mul]
  constructor
  · rintro ⟨digits, hdigits, rfl⟩
    exact ⟨digits, rfl, mem_pow_oneOf.mp hdigits⟩
  · rintro ⟨digits, rfl, hdigits⟩
    exact ⟨digits, mem_pow_oneOf.mpr hdigits, rfl⟩

theorem mem_octal : w ∈ exactly "o" * (oneOf isOctalDigit + oneOf isOctalDigit ^ 2 + oneOf isOctalDigit ^ 3) ↔
    ∃ digits, w = 'o' :: digits ∧ (0 < digits.length ∧ digits.length ≤ 3) ∧ digits.all isOctalDigit = true := by
  rw [mem_exactly_mul]
  have hone : oneOf isOctalDigit = oneOf isOctalDigit ^ 1 := (pow_one _).symm
  constructor
  · rintro ⟨digits, (hdigits | hdigits) | hdigits, rfl⟩
    · rw [hone] at hdigits
      obtain ⟨hlength, hall⟩ := mem_pow_oneOf.mp hdigits
      exact ⟨digits, rfl, by omega, hall⟩
    · obtain ⟨hlength, hall⟩ := mem_pow_oneOf.mp hdigits
      exact ⟨digits, rfl, by omega, hall⟩
    · obtain ⟨hlength, hall⟩ := mem_pow_oneOf.mp hdigits
      exact ⟨digits, rfl, by omega, hall⟩
  · rintro ⟨digits, rfl, hlength, hall⟩
    refine ⟨digits, ?_, rfl⟩
    obtain hlength | hlength | hlength : digits.length = 1 ∨ digits.length = 2 ∨ digits.length = 3 := by omega
    · exact .inl (.inl (hone ▸ mem_pow_oneOf.mpr ⟨hlength, hall⟩))
    · exact .inl (.inr (mem_pow_oneOf.mpr ⟨hlength, hall⟩))
    · exact .inr (mem_pow_oneOf.mpr ⟨hlength, hall⟩)

theorem mem_characterBody : w ∈ characterBody ↔ w ∈ characterNames ∨
    (∃ digits, w = 'u' :: digits ∧ digits.length = 4 ∧ digits.all isHexDigit = true) ∨
      (∃ digits, w = 'o' :: digits ∧ (0 < digits.length ∧ digits.length ≤ 3) ∧ digits.all isOctalDigit = true) ∨
        ∃ c, c ≠ '\n' ∧ w = [c] := by
  simp only [characterBody, Language.mem_add, mem_unicode, mem_octal, mem_exactly, mem_oneOf, bne_iff_ne, characterNames,
    List.mem_cons, List.not_mem_nil, or_false, or_assoc]

theorem find?_characterNames_of_digits {c : Char} (hc : c = 'u' ∨ c = 'o') (cs : Text) :
    characterNames.find? (·.isPrefixOf (c :: cs)) = none := by
  rcases hc with rfl | rfl
  · simp [characterNames, List.isPrefixOf]
  · simp [characterNames, List.isPrefixOf]

theorem find?_characterNames_single (c : Char) : characterNames.find? (·.isPrefixOf [c]) = none := by
  simp [characterNames, List.isPrefixOf]

theorem mem_characterBody_iff : w ∈ characterBody ↔ scanCharacter w = some w := by
  rw [mem_characterBody]
  constructor
  · rintro (hname | ⟨digits, rfl, hlength, hall⟩ | ⟨digits, rfl, hlength, hall⟩ | ⟨c, hc, rfl⟩)
    · rw [scanCharacter.eq_def, find?_characterNames_self hname]
    · have htake : digits.take 4 = digits := List.take_of_length_le hlength.le
      have hrun : digits.takeWhile isHexDigit = digits := by simpa using hall
      rw [scanCharacter.eq_def, find?_characterNames_of_digits (.inl rfl)]
      simp [htake, hrun, hlength]
    · have htake : digits.take 3 = digits := List.take_of_length_le hlength.2
      have hrun : digits.takeWhile isOctalDigit = digits := by simpa using hall
      rw [scanCharacter.eq_def, find?_characterNames_of_digits (.inr rfl)]
      simp [htake, hrun]
    · rw [scanCharacter.eq_def, find?_characterNames_single]
      by_cases ho : c = 'o'
      · simp [ho]
      · simp [ho, hc]
  · intro h
    rw [scanCharacter.eq_def] at h
    split at h
    · next name hname =>
      obtain rfl := Option.some.inj h
      exact .inl (List.mem_of_find?_eq_some hname)
    · cases w with
      | nil => cases h
      | cons c rest =>
        simp only at h
        split_ifs at h with hu ho hn
        · have hrest : rest.take 4 = rest := (List.cons.inj (Option.some.inj h)).2
          obtain ⟨rfl, hlong⟩ : c = 'u' ∧ 4 ≤ (rest.takeWhile isHexDigit).length := by simpa [hrest] using hu
          have hlength : rest.length ≤ 4 := by
            rw [← hrest]
            exact List.length_take_le 4 rest
          have hrun : rest.takeWhile isHexDigit = rest :=
            (List.takeWhile_prefix _).eq_of_length_le (hlength.trans hlong)
          rw [hrun] at hlong
          exact .inr (.inl ⟨rest, rfl, le_antisymm hlength hlong, by simpa using hrun⟩)
        · have hrest : (rest.take 3).takeWhile isOctalDigit = rest := (List.cons.inj (Option.some.inj h)).2
          obtain rfl : c = 'o' := eq_of_beq ho
          have hlength : rest.length ≤ 3 := by
            rw [← hrest]
            exact (List.takeWhile_prefix _).length_le.trans (List.length_take_le 3 rest)
          have hall : rest.all isOctalDigit = true := by
            rw [← hrest]
            exact List.all_takeWhile
          cases rest with
          | nil => exact .inr (.inr (.inr ⟨'o', by decide, rfl⟩))
          | cons d rest => exact .inr (.inr (.inl ⟨d :: rest, rfl, ⟨Nat.succ_pos _, hlength⟩, hall⟩))
        · obtain rfl : [] = rest := (List.cons.inj (Option.some.inj h)).2
          exact .inr (.inr (.inr ⟨c, by simpa using hn, rfl⟩))

end Pattern

/-! ## The tokens of the grammar -/

/-- The pattern that a token is declared by. -/
def Token.pattern : Token → Pattern
  | .whitespace _ => .whitespace
  | .comment text => if text.head? = some ';' then .comment else .hashComment
  | .opening .list => .lparen
  | .opening .vector => .lbracket
  | .opening .map => .lbrace
  | .opening .set => .setOpen
  | .opening .fn => .fnOpen
  | .opening .readerConditional => .readerConditional
  | .opening .readerConditionalSplicing => .readerConditionalSplicing
  | .opening (.namespacedMap _) => .namespacedMap
  | .closing .paren => .rparen
  | .closing .square => .rbracket
  | .closing .curly => .rbrace
  | .mark .quote => .quote
  | .mark .syntaxQuote => .syntaxQuote
  | .mark .unquote => .unquote
  | .mark .unquoteSplicing => .unquoteSplicing
  | .mark .deref => .deref
  | .mark .metadata => .metadata
  | .mark .var => .var
  | .mark .discard => .discard
  | .mark (.tag _) => .tag
  | .string _ => .string
  | .regex _ => .regex
  | .character _ => .character
  | .symbolic _ => .symbolic
  | .bare _ => .bare

namespace Pattern

variable {p q : Pattern} {text : Text}

theorem mem_line {v : Text} : v ∈ (oneOf (· != '\n'))∗ ↔ '\n' ∉ v := by
  rw [mem_kstar_oneOf, List.all_eq_true]
  constructor
  · intro hall hmem
    simpa using hall '\n' hmem
  · intro hline c hc
    simpa using fun h : c = '\n' => hline (h ▸ hc)

theorem mem_mapWord {v : Text} : v ∈ (1 + exactly ":") * ((oneOf isWord)∗ * exactly "\x7b") ↔
    ∃ word, word.all (!isStop ·) = true ∧ v = word ++ ['\x7b'] := by
  rw [isWord_eq, Language.mem_mul]
  constructor
  · rintro ⟨colon, hcolon, rest, hrest, rfl⟩
    obtain ⟨word, hword, rfl⟩ := mem_mul_exactly.mp hrest
    refine ⟨colon ++ word, ?_, (List.append_assoc _ _ _).symm⟩
    rw [List.all_append, mem_kstar_oneOf.mp hword, Bool.and_true]
    obtain rfl | rfl := hcolon
    · rfl
    · rfl
  · rintro ⟨word, hword, rfl⟩
    exact ⟨[], .inl rfl, _, mem_mul_exactly.mpr ⟨word, mem_kstar_oneOf.mpr hword, rfl⟩, rfl⟩

theorem mem_symbolicName {v : Text} : v ∈ exactly "Inf" + exactly "-Inf" + exactly "NaN" ↔ v ∈ symbolicNames := by
  simp only [Language.mem_add, mem_exactly, symbolicNames, List.mem_cons, List.not_mem_nil, or_false, or_assoc]

/-- A text matches a pattern if and only if it is the text of a token of the grammar that is declared by the pattern. -/
theorem mem_language_iff :
    text ∈ p.language ↔ (p.token text).Genuine ∧ (p.token text).text = text ∧ (p.token text).pattern = p := by
  cases p with
  | whitespace =>
    rw [language, contains_blanks, mem_oneOf_mul]
    constructor
    · rintro ⟨c, v, hc, hv, rfl⟩
      exact ⟨⟨List.cons_ne_nil c v, by rw [List.all_cons, hc, mem_kstar_oneOf.mp hv]; rfl⟩, rfl, rfl⟩
    · rintro ⟨⟨hne, hall⟩, -, -⟩
      obtain ⟨c, v, rfl⟩ := List.exists_cons_of_ne_nil hne
      rw [List.all_cons, Bool.and_eq_true] at hall
      exact ⟨c, v, hall.1, mem_kstar_oneOf.mpr hall.2, rfl⟩
  | comment =>
    rw [language, mem_exactly_mul]
    constructor
    · rintro ⟨body, hbody, rfl⟩
      exact ⟨⟨body, .inl rfl, mem_line.mp hbody⟩, rfl, rfl⟩
    · rintro ⟨⟨body, rfl | rfl, hbody⟩, -, hpattern⟩
      · exact ⟨body, mem_line.mpr hbody, rfl⟩
      · cases hpattern
  | hashComment =>
    rw [language, mem_exactly_mul]
    constructor
    · rintro ⟨body, hbody, rfl⟩
      exact ⟨⟨body, .inr rfl, mem_line.mp hbody⟩, rfl, rfl⟩
    · rintro ⟨⟨body, rfl | rfl, hbody⟩, -, hpattern⟩
      · cases hpattern
      · exact ⟨body, mem_line.mpr hbody, rfl⟩
  | namespacedMap =>
    rw [language, mem_exactly_mul]
    constructor
    · rintro ⟨_, hrest, rfl⟩
      obtain ⟨word, hword, rfl⟩ := mem_mapWord.mp hrest
      have hspace : ('#' :: ':' :: word ++ ['\x7b']).dropLast = '#' :: ':' :: word := List.dropLast_concat
      exact ⟨⟨word, hspace, hword⟩, congrArg (· ++ ['\x7b']) hspace, rfl⟩
    · rintro ⟨⟨word, hspace, hword⟩, htext, -⟩
      have hwhole : text.dropLast ++ ['\x7b'] = text := htext
      rw [hspace] at hwhole
      exact ⟨word ++ ['\x7b'], mem_mapWord.mpr ⟨word, hword, rfl⟩, hwhole.symm⟩
  | tag =>
    rw [language, isLetter_eq, isWord_eq, mem_exactly_mul]
    constructor
    · rintro ⟨_, hrest, rfl⟩
      obtain ⟨c, word, hc, hword, rfl⟩ := mem_oneOf_mul.mp hrest
      exact ⟨⟨c, word, rfl, hc, mem_kstar_oneOf.mp hword⟩, rfl, rfl⟩
    · rintro ⟨⟨c, word, rfl, hc, hword⟩, -, -⟩
      exact ⟨c :: word, mem_oneOf_mul.mpr ⟨c, word, hc, mem_kstar_oneOf.mpr hword, rfl⟩, rfl⟩
  | string => exact mem_quoted_iff.trans (and_iff_left ⟨rfl, rfl⟩).symm
  | regex =>
    rw [language, mem_exactly_mul]
    constructor
    · rintro ⟨_, hquoted, rfl⟩
      obtain ⟨body, rfl, hbody⟩ := mem_quoted_iff.mp hquoted
      exact ⟨⟨body, rfl, hbody⟩, rfl, rfl⟩
    · rintro ⟨⟨body, rfl, hbody⟩, -, -⟩
      exact ⟨_, mem_quoted_iff.mpr ⟨body, rfl, hbody⟩, rfl⟩
  | character =>
    rw [language, mem_exactly_mul]
    constructor
    · rintro ⟨body, hbody, rfl⟩
      exact ⟨⟨body, rfl, mem_characterBody_iff.mp hbody⟩, rfl, rfl⟩
    · rintro ⟨⟨body, rfl, hbody⟩, -, -⟩
      exact ⟨body, mem_characterBody_iff.mpr hbody, rfl⟩
  | symbolic =>
    rw [language, mem_exactly_mul]
    constructor
    · rintro ⟨name, hname, rfl⟩
      exact ⟨⟨name, mem_symbolicName.mp hname, rfl⟩, rfl, rfl⟩
    · rintro ⟨⟨name, hname, rfl⟩, -, -⟩
      exact ⟨name, mem_symbolicName.mpr hname, rfl⟩
  | bare =>
    rw [language, noneOf_bareStart, noneOf_bareInner, mem_oneOf_mul]
    constructor
    · rintro ⟨c, word, hc, hword, rfl⟩
      exact ⟨⟨c, word, rfl, hc, mem_kstar_oneOf.mp hword⟩, rfl, rfl⟩
    · rintro ⟨⟨c, word, rfl, hc, hword⟩, -, -⟩
      exact ⟨c, word, hc, mem_kstar_oneOf.mpr hword, rfl⟩
  | _ => exact ⟨fun h => ⟨trivial, h.symm, rfl⟩, fun h => h.2.1.symm⟩

theorem token_pattern (t : Token) : t.pattern.token t.text = t := by
  cases t with
  | comment text =>
    rw [Token.pattern]
    split_ifs <;> rfl
  | opening bracket =>
    cases bracket with
    | namespacedMap space => exact congrArg (Token.opening ∘ Bracket.namespacedMap) List.dropLast_concat
    | _ => rfl
  | closing closer => cases closer <;> rfl
  | mark mark => cases mark <;> rfl
  | _ => rfl

theorem mem_language_of_genuine {t : Token} (ht : t.Genuine) : t.text ∈ t.pattern.language := by
  rw [mem_language_iff, token_pattern]
  exact ⟨ht, rfl, rfl⟩

/-- No text matches two patterns. -/
theorem eq_of_mem_language (hp : text ∈ p.language) (hq : text ∈ q.language) : p = q := by
  obtain ⟨hgenuine, htext, hpattern⟩ := mem_language_iff.mp hp
  obtain ⟨hgenuine', htext', hpattern'⟩ := mem_language_iff.mp hq
  -- a text that is one token is read as that token
  have hfront := front?_append hgenuine hgenuine.stopsBefore_nil
  have hfront' := front?_append hgenuine' hgenuine'.stopsBefore_nil
  rw [htext] at hfront
  rw [htext'] at hfront'
  have hsame : p.token text = q.token text := Lexeme.token.inj (Option.some.inj (hfront.symm.trans hfront'))
  rw [← hpattern, hsame, hpattern']

end Pattern

end SexprEdit
