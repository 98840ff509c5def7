import Stallwatch.Base.Text
import Stallwatch.Base.Utf8
import Stallwatch.Filter.Lexer

/-! The recursive descent over the tokens that are left. `fuel` bounds the calls and is
never reached: `parseTokens` gives more than the tokens can use. -/
namespace Stallwatch.Filter

open Text Utf8

def isWord (w : String) (t : Token) : Bool :=
  t.kind = .word && eqIgnoreAsciiCase t.text w.toList

def eatWord (w : String) : List Token → Option (List Token)
  | t :: ts => if isWord w t then some ts else none
  | [] => none

/-- Deliberately does nothing. -/
def eatSymbol (_ : String) (_ : List Token) : Option (List Token) := none

def eatOr (ts : List Token) : Option (List Token) := (eatWord "or" ts).or (eatSymbol "||" ts)

def eatAnd (ts : List Token) : Option (List Token) := (eatWord "and" ts).or (eatSymbol "&&" ts)

def endOfInput (ts : List Token) : ℕ :=
  ts.getLast?.elim 0 fun t => t.at_ + (bytes t.text).length

def expectedTerm (eoi : ℕ) : ParseError := ⟨eoi, "expected a term, found end of expression"⟩

def expectedField (t : Token) : ParseError := ⟨t.at_, quoted "expected a field name, found " t.text ""⟩

def needsValue (eoi : ℕ) (field : List Char) (op : Op) : ParseError :=
  ⟨eoi, quoted "" (field ++ ' ' :: op.display.toList) " needs a value"⟩

def notAValue (t : Token) : ParseError := ⟨t.at_, quoted "" t.text " is not a value"⟩

mutual

def parseOr (eoi : ℕ) : ℕ → List Token → Outcome ParseError (Node × List Token)
  | 0, _ => .panic
  | fuel + 1, ts => do
    let (left, ts) ← parseAnd eoi fuel ts
    orLoop eoi fuel left ts

def orLoop (eoi : ℕ) : ℕ → Node → List Token → Outcome ParseError (Node × List Token)
  | 0, _, _ => .panic
  | fuel + 1, left, ts =>
    match eatOr ts with
    | some ts => do
      let (right, ts) ← parseAnd eoi fuel ts
      orLoop eoi fuel (.or left right) ts
    | none => .ok (left, ts)

def parseAnd (eoi : ℕ) : ℕ → List Token → Outcome ParseError (Node × List Token)
  | 0, _ => .panic
  | fuel + 1, ts => do
    let (left, ts) ← parseNot eoi fuel ts
    andLoop eoi fuel left ts

def andLoop (eoi : ℕ) : ℕ → Node → List Token → Outcome ParseError (Node × List Token)
  | 0, _, _ => .panic
  | fuel + 1, left, ts =>
    match eatAnd ts with
    | some ts => do
      let (right, ts) ← parseNot eoi fuel ts
      andLoop eoi fuel (.and left right) ts
    | none => .ok (left, ts)

def parseNot (eoi : ℕ) : ℕ → List Token → Outcome ParseError (Node × List Token)
  | 0, _ => .panic
  | fuel + 1, ts =>
    match eatWord "not" ts with
    | some ts => do
      let (inner, ts) ← parseNot eoi fuel ts
      return (.not inner, ts)
    | none => parsePrimary eoi fuel ts

def parsePrimary (eoi : ℕ) : ℕ → List Token → Outcome ParseError (Node × List Token)
  | 0, _ => .panic
  | _ + 1, [] => .err (expectedTerm eoi)
  | fuel + 1, tok :: ts =>
    match tok.kind with
    | .lParen => do
      let (inner, ts) ← parseOr eoi fuel ts
      match ts with
      | t :: ts => if t.kind = .rParen then .ok (inner, ts) else .err ⟨tok.at_, "unclosed `(`"⟩
      | [] => .err ⟨tok.at_, "unclosed `(`"⟩
    | .word =>
      match ts with
      | [] => .ok (.truthy tok.text, [])
      | next :: after =>
        match next.kind with
        | .op op =>
          match after with
          | [] => .err (needsValue eoi tok.text op)
          | v :: ts =>
            match v.kind with
            | .num n => .ok (.compare tok.text op (.num n), ts)
            | .str | .word => .ok (.compare tok.text op (.str v.text), ts)
            | _ => .err (notAValue v)
        | _ => .ok (.truthy tok.text, next :: after)
    | _ => .err (expectedField tok)

end

/-- What `Filter::parse` does with the tokens. -/
def parseTokens (ts : List Token) : Outcome ParseError Node := do
  let (root, rest) ← parseOr (endOfInput ts) (6 * ts.length + 4) ts
  match rest with
  | [] => return root
  | t :: _ => .err ⟨t.at_, quoted "unexpected " t.text " after a complete expression"⟩

end Stallwatch.Filter

namespace Stallwatch

/-- A compiled filter expression. -/
structure Filter where
  root : Filter.Node
  source : List Char
  deriving DecidableEq

def Filter.parse (f : Rounding) (input : List Char) : Outcome Filter.ParseError Filter := do
  let tokens ← Filter.lex f input
  let root ← Filter.parseTokens tokens
  return ⟨root, Text.trim input⟩

end Stallwatch
