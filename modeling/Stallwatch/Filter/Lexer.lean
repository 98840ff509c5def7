import Stallwatch.Base.Decimal
import Stallwatch.Base.Utf8
import Stallwatch.Filter.Syntax

/-! The lexer as the source writes it: an index walks the bytes, each byte is cast to a
character to classify it, and tokens are slices of the input. -/
namespace Stallwatch.Filter

open Text Utf8

/-- Alphabetic among the characters up to U+00FF. -/
def isAlphabetic (c : Char) : Bool :=
  let n := c.toNat
  c.isAlpha || n == 0xAA || n == 0xB5 || n == 0xBA || (0xC0 ≤ n && n ≤ 0xD6) ||
    (0xD8 ≤ n && n ≤ 0xF6) || (0xF8 ≤ n && n ≤ 0xFF)

/-- Alphabetic or numeric among the characters up to U+00FF. -/
def isAlphanumeric (c : Char) : Bool :=
  let n := c.toNat
  isAlphabetic c || c.isDigit || n == 0xB2 || n == 0xB3 || n == 0xB9 || (0xBC ≤ n && n ≤ 0xBE)

/-- Suffixes accepted on numbers. The longest that matches counts. -/
def suffixTable : List (List Char × ℚ≥0) :=
  [("ms".toList, 1), ("s".toList, 1000), ("m".toList, 60000), ("KiB".toList, 1024),
    ("MiB".toList, 1024 * 1024), ("GiB".toList, 1024 * 1024 * 1024), ("K".toList, 1000),
    ("M".toList, 1000000), ("G".toList, 1000000000), ("%".toList, 1)]

def suffixScale (s : List Char) : Option (ℚ≥0 × ℕ) :=
  suffixTable.foldl (fun best entry =>
    if entry.1.isPrefixOf s && best.all fun b => b.2 < entry.1.length then
      some (entry.2, entry.1.length)
    else best) none

def twoOp (two : List Char) : Option Op :=
  if two = "==".toList then some .eq
  else if two = "!=".toList then some .ne
  else if two = ">=".toList then some .ge
  else if two = "<=".toList then some .le
  else none

/-- A single `=` is taken for `==`. -/
def oneOp (c : Char) : Option Op :=
  if c = '>' then some .gt
  else if c = '<' then some .lt
  else if c = '~' then some .match
  else if c = '=' then some .eq
  else none

def isNumberByte (b : UInt8) : Bool := (asChar b).isDigit || b == 0x2E

def isWordByte (b : UInt8) : Bool :=
  let ch := asChar b
  isAlphanumeric ch || ch == '_' || ch == '.' || ch == '-'

def notANumber (start : ℕ) (text : List Char) : ParseError := ⟨start, quoted "" text " is not a number"⟩

/-- One turn of the loop at byte `i`: a token or none, and the index after it. -/
def step (f : Rounding) (input : List Char) (i : ℕ) : Outcome ParseError (Option Token × ℕ) :=
  let b := bytes input
  match b[i]? with
  | none => .panic
  | some byte =>
    let c := asChar byte
    if isWhitespace c then .ok (none, i + 1)
    else if c = '"' ∨ c = '\'' then
      let j := scanWhile (fun x => asChar x ≠ c) b (i + 1)
      if b.length ≤ j then .err ⟨i, "unterminated string"⟩
      else do
        let text ← slice input (i + 1) j
        return (some ⟨text, .str, i⟩, j + 1)
    else
      let two := (get? input i (i + 2)).getD []
      match twoOp two, oneOp c with
      | some op, _ => .ok (some ⟨two, .op op, i⟩, i + 2)
      | none, some op => .ok (some ⟨[c], .op op, i⟩, i + 1)
      | none, none =>
        if c = '(' then .ok (some ⟨[c], .lParen, i⟩, i + 1)
        else if c = ')' then .ok (some ⟨[c], .rParen, i⟩, i + 1)
        else if c.isDigit then do
          let j := scanWhile isNumberByte b i
          let digits ← slice input i j
          match F64.parse f digits with
          | none => .err (notANumber i digits)
          | some n => do
            let rest ← sliceFrom input j
            match suffixScale rest with
            | some (scale, len) => do
              let text ← slice input i (j + len)
              return (some ⟨text, .num (F64.mul f n (.finite false scale)), i⟩, j + len)
            | none => do
              let text ← slice input i j
              return (some ⟨text, .num n, i⟩, j)
        else if isAlphabetic c ∨ c = '_' then do
          let j := scanWhile isWordByte b i
          let text ← slice input i j
          return (some ⟨text, .word, i⟩, j)
        else .err ⟨i, quoted "" [c] " cannot start a term"⟩

/-- The loop. Every turn moves the index, so the bytes that are left bound its turns. -/
def lexFrom (f : Rounding) (input : List Char) : ℕ → ℕ → Outcome ParseError (List Token)
  | 0, _ => .panic
  | turns + 1, i =>
    if i < (bytes input).length then do
      let (token, j) ← step f input i
      let rest ← lexFrom f input turns j
      return token.toList ++ rest
    else .ok []

def lex (f : Rounding) (input : List Char) : Outcome ParseError (List Token) :=
  lexFrom f input ((bytes input).length + 1) 0

end Stallwatch.Filter
