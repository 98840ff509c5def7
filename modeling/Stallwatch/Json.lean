import Stallwatch.Base.Decimal
import Stallwatch.Base.Utf8

/-! The JSON reader. It walks bytes; the position is the list of the bytes that are left.
`fuel` bounds the nesting and the loops, and `parse` gives more than the input can use. -/
namespace Stallwatch

inductive Json where
  | null
  | bool (b : Bool)
  | num (n : F64)
  | str (s : List Char)
  | arr (v : List Json)
  | obj (m : List (List Char × Json))

namespace Json

open Utf8 Text

/-- The latest value under a key replaces an earlier one. -/
def insert (k : List Char) (v : Json) (m : List (List Char × Json)) : List (List Char × Json) :=
  (k, v) :: m.filter (·.1 ≠ k)

def get (key : List Char) : Json → Option Json
  | obj m => m.lookup key
  | _ => none

def asStr : Json → Option (List Char)
  | str s => some s
  | _ => none

def asF64 : Json → Option F64
  | num n => some n
  | _ => none

def asU64 : Json → Option UInt64
  | num n => if n.atLeast (.finite false 0) && n.isFinite then some n.asU64 else none
  | _ => none

def asArray : Json → Option (List Json)
  | arr v => some v
  | _ => none

def asBool : Json → Option Bool
  | bool b => some b
  | _ => none

abbrev Reader (α : Type) := List UInt8 → Outcome String (α × List UInt8)

def skipWs (b : List UInt8) : List UInt8 :=
  b.dropWhile fun c => asChar c ∈ [' ', '\t', '\n', '\r']

def lit (want : List Char) (out : Json) (b : List UInt8) : Outcome String (Json × List UInt8) :=
  if (bytes want).isPrefixOf b then .ok (out, b.drop (bytes want).length) else .err "bad literal"

def utf8Len (first : UInt8) : ℕ :=
  let n := first.toNat
  if n ≤ 0x7F then 1
  else if 0xC0 ≤ n ∧ n ≤ 0xDF then 2
  else if 0xE0 ≤ n ∧ n ≤ 0xEF then 3
  else 4

def fromU32 (n : ℕ) : Option Char := if n.isValidChar then some (Char.ofNat n) else none

/-- What follows `\u`: four hexadecimal digits. -/
def unicode (b : List UInt8) : Outcome String (Char × List UInt8) :=
  if b.length < 4 then .err "truncated \\u escape"
  else match (fromUtf8 (b.take 4)).bind (parseHex 32) with
    | none => .err "bad \\u escape"
    | some n => match fromU32 n with
      | none => .err "unsupported \\u codepoint"
      | some c => .ok (c, b.drop 4)

/-- What follows a backslash. -/
def escape : Reader Char
  | [] => .err "bad escape"
  | c :: b =>
    match asChar c with
    | '"' => .ok ('"', b)
    | '\\' => .ok ('\\', b)
    | '/' => .ok ('/', b)
    | 'n' => .ok ('\n', b)
    | 't' => .ok ('\t', b)
    | 'r' => .ok ('\r', b)
    | 'b' => .ok ('\x08', b)
    | 'f' => .ok ('\x0c', b)
    | 'u' => unicode b
    | _ => .err "bad escape"

/-- One turn of the string loop: the text pushed, or none at the closing quote. -/
def piece : Reader (Option (List Char))
  | [] => .err "unterminated string"
  | c :: b =>
    match asChar c with
    | '"' => .ok (none, b)
    | '\\' => do
      let (c, b) ← escape b
      return (some [c], b)
    | _ =>
      if (c :: b).length < utf8Len c then .err "truncated UTF-8"
      else match fromUtf8 ((c :: b).take (utf8Len c)) with
        | none => .err "bad UTF-8"
        | some cs => .ok (some cs, (c :: b).drop (utf8Len c))

/-- The rest of a string, after `s`. -/
def stringFrom : ℕ → List Char → Reader (List Char)
  | 0, _, _ => .panic
  | fuel + 1, s, b => do
    let (pushed, b) ← piece b
    match pushed with
    | none => return (s, b)
    | some cs => stringFrom fuel (s ++ cs) b

/-- At the opening quote. -/
def string (b : List UInt8) : Outcome String (List Char × List UInt8) :=
  stringFrom b.length [] b.tail

def isNumberByte (c : UInt8) : Bool := (asChar c).isDigit || asChar c ∈ ['.', 'e', 'E', '+', '-']

def number (f : Rounding) (b : List UInt8) : Outcome String (Json × List UInt8) :=
  let sign := if b.head?.map asChar = some '-' then b.take 1 else []
  let digits := (b.drop sign.length).takeWhile isNumberByte
  match (fromUtf8 (sign ++ digits)).bind (F64.parse f) with
  | none => .err "bad number"
  | some n => .ok (num n, b.drop (sign.length + digits.length))

mutual

def value (f : Rounding) : ℕ → Reader Json
  | 0, _ => .panic
  | fuel + 1, b =>
    match skipWs b with
    | [] => .err "unexpected end of input"
    | c :: b =>
      match asChar c with
      | '{' => object f fuel b
      | '[' => array f fuel b
      | '"' => do
        let (s, b) ← string (c :: b)
        return (str s, b)
      | 't' => lit ['t', 'r', 'u', 'e'] (bool true) (c :: b)
      | 'f' => lit ['f', 'a', 'l', 's', 'e'] (bool false) (c :: b)
      | 'n' => lit ['n', 'u', 'l', 'l'] null (c :: b)
      | _ => number f (c :: b)

/-- After the brace. -/
def object (f : Rounding) : ℕ → Reader Json
  | 0, _ => .panic
  | fuel + 1, b =>
    let b := skipWs b
    if b.head?.map asChar = some '}' then .ok (obj [], b.tail) else members f fuel [] b

/-- The loop over the members, after `m`. -/
def members (f : Rounding) : ℕ → List (List Char × Json) → Reader Json
  | 0, _, _ => .panic
  | fuel + 1, m, b =>
    let b := skipWs b
    if b.head?.map asChar = some '"' then do
      let (k, b) ← string b
      let b := skipWs b
      if b.head?.map asChar = some ':' then do
        let (v, b) ← value f fuel b.tail
        let m := insert k v m
        let b := skipWs b
        match b.head?.map asChar with
        | some ',' => members f fuel m b.tail
        | some '}' => return (obj m, b.tail)
        | _ => .err "expected ',' or '\x7d'"
      else .err "expected ':' after object key"
    else .err "object key must be a string"

/-- After the bracket. -/
def array (f : Rounding) : ℕ → Reader Json
  | 0, _ => .panic
  | fuel + 1, b =>
    let b := skipWs b
    if b.head?.map asChar = some ']' then .ok (arr [], b.tail) else elements f fuel [] b

/-- The loop over the elements, after `v`. -/
def elements (f : Rounding) : ℕ → List Json → Reader Json
  | 0, _, _ => .panic
  | fuel + 1, v, b => do
    let (x, b) ← value f fuel b
    let b := skipWs b
    match b.head?.map asChar with
    | some ',' => elements f fuel (v ++ [x]) b.tail
    | some ']' => return (arr (v ++ [x]), b.tail)
    | _ => .err "expected ',' or ']'"

end

def parse (f : Rounding) (input : List Char) : Outcome String Json := do
  let (v, b) ← value f (3 * (bytes input).length + 1) (bytes input)
  match skipWs b with
  | [] => return v
  | _ => .err "trailing data after JSON value"

end Json

end Stallwatch
