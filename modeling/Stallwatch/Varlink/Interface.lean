import Stallwatch.Varlink

/-! The interface language of Varlink as far as the description uses it: structures, methods
and errors, with fields of base types and named structures, optional or in arrays. -/
namespace Stallwatch.Varlink

open Json

inductive Ty where
  | bool | int | float | string
  | named (name : List Char)
  | optional (of : Ty)
  | array (of : Ty)
  deriving DecidableEq

abbrev Struct := List (List Char × Ty)

structure Interface where
  name : List Char
  types : List (List Char × Struct)
  methods : List (List Char × Struct × Struct)
  errors : List (List Char × Struct)
  deriving DecidableEq

namespace Interface

def isWordChar (c : Char) : Bool := c.isAlphanum || c = '_' || c = '.'

def flush (word : List Char) (tokens : List (List Char)) : List (List Char) :=
  if word = [] then tokens else word :: tokens

/-- Words, and other characters alone, without blanks and comments. -/
def tokens : Bool → List Char → List Char → List (List Char)
  | _, word, [] => flush word []
  | true, _, c :: cs => tokens (c ≠ '\n') [] cs
  | false, word, c :: cs =>
    if isWordChar c then tokens false (word ++ [c]) cs
    else if c = '#' then flush word (tokens true [] cs)
    else if c.isWhitespace then flush word (tokens false [] cs)
    else flush word ([c] :: tokens false [] cs)

def base (word : List Char) : Ty :=
  if word = ['b', 'o', 'o', 'l'] then .bool
  else if word = ['i', 'n', 't'] then .int
  else if word = ['f', 'l', 'o', 'a', 't'] then .float
  else if word = ['s', 't', 'r', 'i', 'n', 'g'] then .string
  else .named word

def readTy : List (List Char) → Option (Ty × List (List Char))
  | ['?'] :: ts => (readTy ts).map fun read => (.optional read.1, read.2)
  | ['['] :: [']'] :: ts => (readTy ts).map fun read => (.array read.1, read.2)
  | word :: ts => if word.all isWordChar then some (base word, ts) else none
  | [] => none

def readFields : ℕ → List (List Char) → Option (Struct × List (List Char))
  | fuel + 1, name :: [':'] :: ts =>
    match readTy ts with
    | some (ty, [','] :: ts) => (readFields fuel ts).map fun read => ((name, ty) :: read.1, read.2)
    | some (ty, [')'] :: ts) => some ([(name, ty)], ts)
    | _ => none
  | _, _ => none

def readStruct : List (List Char) → Option (Struct × List (List Char))
  | ['('] :: [')'] :: ts => some ([], ts)
  | ['('] :: ts => readFields ts.length ts
  | _ => none

/-- The declarations, one after another. -/
def declare : ℕ → Interface → List (List Char) → Option Interface
  | _, i, [] => some i
  | fuel + 1, i, keyword :: name :: ts =>
    if keyword = ['t', 'y', 'p', 'e'] then
      (readStruct ts).bind fun read => declare fuel { i with types := i.types ++ [(name, read.1)] } read.2
    else if keyword = ['e', 'r', 'r', 'o', 'r'] then
      (readStruct ts).bind fun read => declare fuel { i with errors := i.errors ++ [(name, read.1)] } read.2
    else if keyword = ['m', 'e', 't', 'h', 'o', 'd'] then
      match readStruct ts with
      | some (takes, ['-'] :: ['>'] :: ts) =>
        (readStruct ts).bind fun read =>
          declare fuel { i with methods := i.methods ++ [(name, takes, read.1)] } read.2
      | _ => none
    else none
  | _, _, _ => none

def parse (description : List Char) : Option Interface :=
  match tokens false [] description with
  | ['i', 'n', 't', 'e', 'r', 'f', 'a', 'c', 'e'] :: name :: ts => declare ts.length ⟨name, [], [], []⟩ ts
  | _ => none

end Interface

/-- The JSON values of a type. An integer and a float are both numbers there. -/
inductive HasType (types : List (List Char × Struct)) : Ty → Json → Prop
  | bool {b} : HasType types .bool (.bool b)
  | int {n} : HasType types .int (.num n)
  | float {n} : HasType types .float (.num n)
  | string {s} : HasType types .string (.str s)
  | absent {ty} : HasType types (.optional ty) .null
  | present {ty j} : HasType types ty j → HasType types (.optional ty) j
  | array {ty js} : (∀ j ∈ js, HasType types ty j) → HasType types (.array ty) (.arr js)
  | named {name fields m} : types.lookup name = some fields →
      (∀ k, (m.lookup k).isSome = true ↔ k ∈ fields.map Prod.fst) →
      (∀ field ∈ fields, ∀ j, m.lookup field.1 = some j → HasType types field.2 j) →
      HasType types (.named name) (.obj m)

/-- An object with exactly the fields of a structure, each of its type. -/
def HasFields (types : List (List Char × Struct)) (fields : Struct) (j : Json) : Prop :=
  ∃ m, j = .obj m ∧ (∀ k, (m.lookup k).isSome = true ↔ k ∈ fields.map Prod.fst) ∧
    ∀ field ∈ fields, ∀ j, m.lookup field.1 = some j → HasType types field.2 j

end Stallwatch.Varlink
