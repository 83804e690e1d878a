import SingleFile.Json.Value
import SingleFile.Text.Scan

/-!
# Tokens of JSON text

JSON text is read as a sequence of tokens: brackets, separators and scalars. Two
scalars that touch are two tokens; no value has them side by side, so such a text
is refused when the tokens are put together.
-/

namespace SingleFile.Json

open SingleFile.Text

/-- A piece of JSON text. -/
inductive Token where
  | openArray
  | closeArray
  | openObject
  | closeObject
  | comma
  | colon
  | scalar (value : Value)

/-- The blanks of JSON. -/
def isBlank (c : Char) : Bool := c = ' ' || c = '\t' || c = '\n' || c = '\r'

/-- The value of a hexadecimal digit. -/
def hexValue? (c : Char) : Option Nat :=
  if c.isDigit then some (c.toNat - '0'.toNat)
  else if 'a' ≤ c && c ≤ 'f' then some (c.toNat - 'a'.toNat + 10)
  else if 'A' ≤ c && c ≤ 'F' then some (c.toNat - 'A'.toNat + 10)
  else none

/-- Four hexadecimal digits. -/
def hexUnit? : List Char → Option (Nat × List Char)
  | a :: b :: c :: d :: rest => do
    let high := (← hexValue? a) * 16 + (← hexValue? b)
    let low := (← hexValue? c) * 16 + (← hexValue? d)
    return (high * 256 + low, rest)
  | _ => none

/-- The character that four hexadecimal digits stand for. A high surrogate needs a low
one after it, in the same notation, and the two are one character. -/
def unicodeEscape? (text : List Char) : Option (Char × List Char) := do
  let (unit, rest) ← hexUnit? text
  if 0xdc00 ≤ unit && unit < 0xe000 then none
  else if 0xd800 ≤ unit && unit < 0xdc00 then
    let (low, tail) ← hexUnit? (← after? ['\\', 'u'] rest)
    if 0xdc00 ≤ low && low < 0xe000 then
      return (Char.ofNat (0x10000 + (unit - 0xd800) * 0x400 + (low - 0xdc00)), tail)
    else none
  else return (Char.ofNat unit, rest)

/-- The character that is written by what follows a backslash. -/
def escape? : List Char → Option (Char × List Char)
  | '"' :: rest => some ('"', rest)
  | '\\' :: rest => some ('\\', rest)
  | '/' :: rest => some ('/', rest)
  | 'b' :: rest => some ('\x08', rest)
  | 'f' :: rest => some ('\x0c', rest)
  | 'n' :: rest => some ('\n', rest)
  | 'r' :: rest => some ('\r', rest)
  | 't' :: rest => some ('\t', rest)
  | 'u' :: rest => unicodeEscape? rest
  | _ => none

theorem length_le_of_hexUnit? {text rest : List Char} {unit : Nat}
    (read : hexUnit? text = some (unit, rest)) : rest.length ≤ text.length := by
  unfold hexUnit? at read
  split at read
  next =>
    simp only [Option.bind_eq_bind, Option.bind_eq_some_iff, Option.pure_def] at read
    obtain ⟨_, _, _, _, _, _, _, _, equal⟩ := read
    cases equal
    simp only [List.length_cons]
    omega
  next => simp at read

theorem length_le_of_unicodeEscape? {text rest : List Char} {c : Char}
    (read : unicodeEscape? text = some (c, rest)) : rest.length ≤ text.length := by
  simp only [unicodeEscape?, Option.bind_eq_bind, Option.bind_eq_some_iff] at read
  obtain ⟨⟨unit, tail⟩, first, read⟩ := read
  have bound := length_le_of_hexUnit? first
  dsimp only at read
  split at read
  next => simp at read
  next =>
    split at read
    next =>
      simp only [Option.bind_eq_some_iff] at read
      obtain ⟨marked, mark, ⟨low, last⟩, second, read⟩ := read
      have total := congrArg List.length (after?_eq_some_iff.1 mark)
      have later := length_le_of_hexUnit? second
      simp only [List.length_append] at total
      dsimp only at read
      split at read
      next =>
        simp only [Option.pure_def, Option.some.injEq, Prod.mk.injEq] at read
        obtain ⟨-, rfl⟩ := read
        omega
      next => simp at read
    next =>
      simp only [Option.pure_def, Option.some.injEq, Prod.mk.injEq] at read
      obtain ⟨-, rfl⟩ := read
      exact bound

theorem length_lt_of_escape? {text rest : List Char} {c : Char}
    (read : escape? text = some (c, rest)) : rest.length < text.length := by
  unfold escape? at read
  split at read
  case h_9 => exact Nat.lt_succ_of_le (length_le_of_unicodeEscape? read)
  case h_10 => simp at read
  all_goals
    cases read
    exact Nat.lt_succ_self _

/-- The characters of a string and the text after its closing quote. -/
def readString? : List Char → Option (List Char × List Char)
  | [] => none
  | '"' :: rest => some ([], rest)
  | '\\' :: rest =>
    match _escape : escape? rest with
    | some (c, tail) => (readString? tail).map fun found => (c :: found.1, found.2)
    | none => none
  | c :: rest =>
    if c.toNat < 0x20 then none
    else (readString? rest).map fun found => (c :: found.1, found.2)
termination_by text => text.length
decreasing_by
  · exact Nat.lt_succ_of_lt (length_lt_of_escape? _escape)
  · exact Nat.lt_succ_self _

theorem length_lt_of_readString? {text content rest : List Char}
    (read : readString? text = some (content, rest)) : rest.length < text.length := by
  fun_induction readString? text generalizing content with
  | case1 => simp at read
  | case2 tail =>
      cases read
      exact Nat.lt_succ_self _
  | case3 tail c after escape ih =>
      obtain ⟨found, inner, equal⟩ := Option.map_eq_some_iff.1 read
      cases equal
      exact Nat.lt_succ_of_lt (Nat.lt_trans (ih inner) (length_lt_of_escape? escape))
  | case4 => simp at read
  | case5 => simp at read
  | case6 c tail _ _ _ ih =>
      obtain ⟨found, inner, equal⟩ := Option.map_eq_some_iff.1 read
      cases equal
      exact Nat.lt_succ_of_lt (ih inner)

/-- The digits at the start of the text, as numbers. -/
def digits (text : List Char) : List Nat :=
  (text.takeWhile Char.isDigit).map fun c => c.toNat - '0'.toNat

/-- The text after the digits at its start. -/
def afterDigits (text : List Char) : List Char := text.dropWhile Char.isDigit

/-- A point and at least one digit, if a point follows. -/
def readFraction? : List Char → Option (Option (List Nat) × List Char)
  | '.' :: rest => if digits rest = [] then none else some (some (digits rest), afterDigits rest)
  | text => some (none, text)

/-- The sign of an exponent, which may be left out. -/
def readSign : List Char → Bool × List Char
  | '-' :: rest => (true, rest)
  | '+' :: rest => (false, rest)
  | text => (false, text)

/-- An exponent with at least one digit, if its mark follows. -/
def readExponent? : List Char → Option (Option Int × List Char)
  | c :: rest =>
    if c = 'e' || c = 'E' then
      let (negative, tail) := readSign rest
      let value : Int := (digits tail).foldl (fun value digit => value * 10 + (digit : Nat)) 0
      if digits tail = [] then none
      else some (some (if negative then -value else value), afterDigits tail)
    else some (none, c :: rest)
  | [] => some (none, [])

/-- A number without its sign. A zero before the point stands alone. -/
def readUnsigned? (negative : Bool) (text : List Char) : Option (Number × List Char) :=
  if digits text = [] || ((digits text).head? = some 0 && (digits text).length ≠ 1) then none
  else do
    let (fraction, rest) ← readFraction? (afterDigits text)
    let (exponent, tail) ← readExponent? rest
    let number ← Number.ofWritten? ⟨negative, digits text, fraction, exponent⟩
    return (number, tail)

/-- A number. -/
def readNumber? : List Char → Option (Number × List Char)
  | '-' :: rest => readUnsigned? true rest
  | text => readUnsigned? false text

theorem length_afterDigits_le (text : List Char) : (afterDigits text).length ≤ text.length :=
  length_dropWhile_le _ text

theorem length_afterDigits_lt {text : List Char} (some : digits text ≠ []) :
    (afterDigits text).length < text.length := by
  cases text with
  | nil => simp [digits] at some
  | cons c rest =>
      by_cases digit : c.isDigit
      · have := length_dropWhile_le Char.isDigit rest
        simp only [afterDigits, List.dropWhile_cons, digit, List.length_cons, if_true]
        omega
      · simp [digits, digit] at some

theorem length_le_of_readFraction? {text rest : List Char} {fraction : Option (List Nat)}
    (read : readFraction? text = some (fraction, rest)) : rest.length ≤ text.length := by
  unfold readFraction? at read
  split at read
  next tail =>
    split at read
    next => simp at read
    next =>
      cases read
      exact Nat.le_succ_of_le (length_afterDigits_le tail)
  next =>
    cases read
    exact Nat.le_refl _

theorem length_readSign_le (text : List Char) : (readSign text).2.length ≤ text.length := by
  unfold readSign
  split <;> simp

theorem length_le_of_readExponent? {text rest : List Char} {exponent : Option Int}
    (read : readExponent? text = some (exponent, rest)) : rest.length ≤ text.length := by
  unfold readExponent? at read
  split at read
  next c tail =>
    split at read
    next =>
      dsimp only at read
      split at read
      next => simp at read
      next =>
        cases read
        exact Nat.le_succ_of_le
          (Nat.le_trans (length_afterDigits_le _) (length_readSign_le tail))
    next =>
      cases read
      exact Nat.le_refl _
  next =>
    cases read
    exact Nat.le_refl _

theorem length_lt_of_readUnsigned? {negative : Bool} {text rest : List Char} {number : Number}
    (read : readUnsigned? negative text = some (number, rest)) : rest.length < text.length := by
  unfold readUnsigned? at read
  split at read
  next => simp at read
  next shape =>
    simp only [Option.bind_eq_bind, Option.bind_eq_some_iff] at read
    obtain ⟨⟨fraction, middle⟩, first, ⟨exponent, tail⟩, second, found, -, equal⟩ := read
    cases equal
    have whole : digits text ≠ [] := by
      intro empty
      simp [empty] at shape
    have := length_afterDigits_lt whole
    have := length_le_of_readFraction? first
    have := length_le_of_readExponent? second
    dsimp only at *
    omega

theorem length_lt_of_readNumber? {text rest : List Char} {number : Number}
    (read : readNumber? text = some (number, rest)) : rest.length < text.length := by
  unfold readNumber? at read
  split at read
  next => exact Nat.lt_succ_of_lt (length_lt_of_readUnsigned? read)
  next => exact length_lt_of_readUnsigned? read

/-- A fixed word that stands for a value. -/
def readWord? (text : List Char) : Option (Value × List Char) :=
  ((after? "true".toList text).map fun tail => (.bool true, tail)) <|>
  ((after? "false".toList text).map fun tail => (.bool false, tail)) <|>
  ((after? "null".toList text).map fun tail => (.null, tail))

theorem length_lt_of_readWord? {text rest : List Char} {value : Value}
    (read : readWord? text = some (value, rest)) : rest.length < text.length := by
  simp only [readWord?, Option.orElse_eq_orElse, Option.orElse_eq_or, Option.or_eq_some_iff,
    Option.map_eq_some_iff] at read
  rcases read with ⟨tail, word, equal⟩ | ⟨-, ⟨tail, word, equal⟩ | ⟨-, ⟨tail, word, equal⟩⟩⟩ <;>
  · cases equal
    have total := congrArg List.length (after?_eq_some_iff.1 word)
    have marks : 0 < "true".toList.length ∧ 0 < "false".toList.length ∧
        0 < "null".toList.length := by decide
    rw [List.length_append] at total
    omega

namespace Token

/-- The brackets and separators, each one character. -/
def punctuation? (c : Char) : Option Token :=
  if c = '[' then some .openArray
  else if c = ']' then some .closeArray
  else if c = '\x7b' then some .openObject
  else if c = '\x7d' then some .closeObject
  else if c = ',' then some .comma
  else if c = ':' then some .colon
  else none

/-- The token that begins with `c`, before the text `rest`. -/
def next? (c : Char) (rest : List Char) : Option (Token × List Char) :=
  match punctuation? c with
  | some token => some (token, rest)
  | none =>
    if c = '"' then
      (readString? rest).map fun found => (.scalar (.string (String.ofList found.1)), found.2)
    else if c = '-' || c.isDigit then
      (readNumber? (c :: rest)).map fun found => (.scalar (.number found.1), found.2)
    else (readWord? (c :: rest)).map fun found => (.scalar found.1, found.2)

theorem length_le_of_next? {c : Char} {rest tail : List Char} {token : Token}
    (read : next? c rest = some (token, tail)) : tail.length ≤ rest.length := by
  unfold next? at read
  split at read
  next =>
    cases read
    exact Nat.le_refl _
  next =>
    split at read
    next =>
      obtain ⟨found, inner, equal⟩ := Option.map_eq_some_iff.1 read
      cases equal
      exact Nat.le_of_lt (length_lt_of_readString? inner)
    next =>
      split at read
      next =>
        obtain ⟨found, inner, equal⟩ := Option.map_eq_some_iff.1 read
        cases equal
        exact Nat.le_of_lt_succ (length_lt_of_readNumber? inner)
      next =>
        obtain ⟨found, inner, equal⟩ := Option.map_eq_some_iff.1 read
        cases equal
        exact Nat.le_of_lt_succ (length_lt_of_readWord? inner)

/-- All tokens of the text. -/
def scan? (text : List Char) : Option (List Token) :=
  match _shape : text.dropWhile isBlank with
  | [] => some []
  | c :: rest =>
    match _read : next? c rest with
    | some (token, tail) => (scan? tail).map (token :: ·)
    | none => none
termination_by text.length
decreasing_by
  have bound := length_dropWhile_le isBlank text
  have := length_le_of_next? _read
  simp only [_shape, List.length_cons] at bound
  omega

end Token

end SingleFile.Json
