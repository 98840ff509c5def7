import Stallwatch.Json

/-! The reader as it moves its cursor: an index that all of its functions share, together with
a note of where it stood when one of them was entered or left. Every access that the program
does not guard is checked, and panics outside the bytes. -/
namespace Stallwatch.Json.Cursor

open Utf8 Text

/-- The functions that are watched. -/
inductive Part where
  | value | object | array | string | number
  deriving DecidableEq

structure Mark where
  part : Part
  entry : Bool
  index : ℕ
  deriving DecidableEq

structure State where
  index : ℕ
  marks : List Mark

/-- The cursor stays where it is when an error is returned. -/
def Walk (α : Type) : Type := State → Outcome String α × State

namespace Walk

variable {α : Type}

instance : Monad Walk where
  pure a := fun s => (.ok a, s)
  bind x next := fun s =>
    match x s with
    | (.ok a, s) => next a s
    | (.err e, s) => (.err e, s)
    | (.panic, s) => (.panic, s)

def fail (e : String) : Walk α := fun s => (.err e, s)

def crash : Walk α := fun s => (.panic, s)

def index : Walk ℕ := fun s => (.ok s.index, s)

def advance (n : ℕ) : Walk Unit := fun s => (.ok (), { s with index := s.index + n })

def note (part : Part) (entry : Bool) (s : State) : State :=
  { s with marks := s.marks ++ [⟨part, entry, s.index⟩] }

/-- Notes the entry, and the exit with whatever result. -/
def watched (part : Part) (x : Walk α) : Walk α := fun s =>
  let left := x (note part true s)
  (left.1, note part false left.2)

section
variable (b : List UInt8)

/-- The byte at the cursor, if there is one. -/
def look : Walk (Option UInt8) := fun s => (.ok b[s.index]?, s)

/-- The byte at the cursor, which has to be there. -/
def byte : Walk UInt8 := fun s =>
  match b[s.index]? with
  | some c => (.ok c, s)
  | none => (.panic, s)

/-- A range of the bytes, if it lies within them. -/
def range (i j : ℕ) : Option (List UInt8) :=
  if i ≤ j ∧ j ≤ b.length then some ((b.take j).drop i) else none

/-- A range that has to lie within the bytes. -/
def slice (i j : ℕ) : Walk (List UInt8) :=
  match range b i j with
  | some part => pure part
  | none => crash

end

end Walk

open Walk

variable (b : List UInt8)

def skipFrom : ℕ → Walk Unit
  | 0 => crash
  | fuel + 1 => do
    let i ← index
    if i < b.length then do
      let c ← byte b
      if asChar c ∈ [' ', '\t', '\n', '\r'] then do
        advance 1
        skipFrom fuel
      else return ()
    else return ()

def skipWs : Walk Unit := skipFrom b (b.length + 1)

def lit (want : List Char) (out : Json) : Walk Json := do
  let i ← index
  let length := (bytes want).length
  if i + length ≤ b.length then do
    let here ← slice b i (i + length)
    if here = bytes want then do
      advance length
      return out
    else fail "bad literal"
  else fail "bad literal"

/-- At the `u`, and then at the last of the digits. -/
def unicode : Walk Char := do
  let i ← index
  match range b (i + 1) (i + 5) with
  | none => fail "truncated \\u escape"
  | some hex =>
    match (fromUtf8 hex).bind (parseHex 32) with
    | none => fail "bad \\u escape"
    | some n =>
      match fromU32 n with
      | none => fail "unsupported \\u codepoint"
      | some c => do
        advance 4
        return c

/-- Behind the backslash. -/
def escape : Walk Char := do
  match ← look b with
  | none => fail "bad escape"
  | some e =>
    match asChar e with
    | '"' => return '"'
    | '\\' => return '\\'
    | '/' => return '/'
    | 'n' => return '\n'
    | 't' => return '\t'
    | 'r' => return '\r'
    | 'b' => return '\x08'
    | 'f' => return '\x0c'
    | 'u' => unicode b
    | _ => fail "bad escape"

/-- One turn of the string loop. -/
def piece : Walk (Option (List Char)) := do
  match ← look b with
  | none => fail "unterminated string"
  | some c =>
    match asChar c with
    | '"' => do
      advance 1
      return none
    | '\\' => do
      advance 1
      let c ← escape b
      advance 1
      return some [c]
    | _ => do
      let start ← index
      let first ← byte b
      let length := utf8Len first
      if b.length < start + length then fail "truncated UTF-8"
      else do
        let sequence ← slice b start (start + length)
        match fromUtf8 sequence with
        | none => fail "bad UTF-8"
        | some cs => do
          advance length
          return some cs

def stringFrom : ℕ → List Char → Walk (List Char)
  | 0, _ => crash
  | fuel + 1, s => do
    match ← piece b with
    | none => return s
    | some cs => stringFrom fuel (s ++ cs)

def string : Walk (List Char) := watched .string do
  advance 1
  stringFrom b b.length []

def scanFrom : ℕ → Walk Unit
  | 0 => crash
  | fuel + 1 => do
    match ← look b with
    | some c =>
      if isNumberByte c then do
        advance 1
        scanFrom fuel
      else return ()
    | none => return ()

def sign : Walk Unit := do
  let first ← look b
  if first.map asChar = some '-' then advance 1 else return ()

def number (f : Rounding) : Walk Json := watched .number do
  let start ← index
  sign b
  scanFrom b (b.length + 1)
  let stop ← index
  let text ← slice b start stop
  match (fromUtf8 text).bind (F64.parse f) with
  | none => fail "bad number"
  | some n => return num n

mutual

def value (f : Rounding) : ℕ → Walk Json
  | 0 => crash
  | fuel + 1 => watched .value do
    skipWs b
    match ← look b with
    | none => fail "unexpected end of input"
    | some c =>
      match asChar c with
      | '{' => object f fuel
      | '[' => array f fuel
      | '"' => do
        let s ← string b
        return str s
      | 't' => lit b ['t', 'r', 'u', 'e'] (bool true)
      | 'f' => lit b ['f', 'a', 'l', 's', 'e'] (bool false)
      | 'n' => lit b ['n', 'u', 'l', 'l'] null
      | _ => number b f

def object (f : Rounding) : ℕ → Walk Json
  | 0 => crash
  | fuel + 1 => watched .object do
    advance 1
    skipWs b
    let c ← look b
    if c.map asChar = some '}' then do
      advance 1
      return obj []
    else members f fuel []

def members (f : Rounding) : ℕ → List (List Char × Json) → Walk Json
  | 0, _ => crash
  | fuel + 1, m => do
    skipWs b
    let c ← look b
    if c.map asChar = some '"' then do
      let k ← string b
      skipWs b
      let c ← look b
      if c.map asChar = some ':' then do
        advance 1
        let v ← value f fuel
        let m := insert k v m
        skipWs b
        let c ← look b
        match c.map asChar with
        | some ',' => do
          advance 1
          members f fuel m
        | some '}' => do
          advance 1
          return obj m
        | _ => fail "expected ',' or '\x7d'"
      else fail "expected ':' after object key"
    else fail "object key must be a string"

def array (f : Rounding) : ℕ → Walk Json
  | 0 => crash
  | fuel + 1 => watched .array do
    advance 1
    skipWs b
    let c ← look b
    if c.map asChar = some ']' then do
      advance 1
      return arr []
    else elements f fuel []

def elements (f : Rounding) : ℕ → List Json → Walk Json
  | 0, _ => crash
  | fuel + 1, v => do
    let x ← value f fuel
    skipWs b
    let c ← look b
    match c.map asChar with
    | some ',' => do
      advance 1
      elements f fuel (v ++ [x])
    | some ']' => do
      advance 1
      return arr (v ++ [x])
    | _ => fail "expected ',' or ']'"

end

/-- The result for an input, and what was noted on the way. -/
def parse (f : Rounding) (input : List Char) : Outcome String Json × State :=
  let b := bytes input
  let walk : Walk Json := do
    let v ← value b f (3 * b.length + 1)
    skipWs b
    let i ← index
    if i ≠ b.length then fail "trailing data after JSON value" else return v
  walk ⟨0, []⟩

end Stallwatch.Json.Cursor
