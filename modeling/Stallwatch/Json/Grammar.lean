import Stallwatch.Json

/-! The grammar of JSON text, with the value each rule builds. What a number and a string
look like is left to a dialect. -/
namespace Stallwatch.Json

/-- The texts of numbers and strings; a string is written with its quotes. -/
structure Dialect where
  number : List Char → F64 → Prop
  string : List Char → List Char → Prop

/-- A text in pieces, one for each character it spells. -/
inductive Spelled (piece : List Char → Char → Prop) : List Char → List Char → Prop
  | nil : Spelled piece [] []
  | cons {p t s c} : piece p c → Spelled piece t s → Spelled piece (p ++ t) (c :: s)

/-- A text between quotes. -/
def Quoted (piece : List Char → Char → Prop) (t s : List Char) : Prop :=
  ∃ body, t = '"' :: (body ++ ['"']) ∧ Spelled piece body s

/-- What a backslash and one more character stand for. -/
def shortEscape : Char → Option Char
  | '"' => some '"'
  | '\\' => some '\\'
  | '/' => some '/'
  | 'n' => some '\n'
  | 't' => some '\t'
  | 'r' => some '\r'
  | 'b' => some '\x08'
  | 'f' => some '\x0c'
  | _ => none

/-- One character of a string: itself where it is `raw`, or escaped. -/
inductive Piece (raw : Char → Prop) (hex : List Char → Char → Prop) : List Char → Char → Prop
  | raw {c} : c ≠ '"' → c ≠ '\\' → raw c → Piece raw hex [c] c
  | short {e c} : shortEscape e = some c → Piece raw hex ['\\', e] c
  | unicode {digits c} : digits.length = 4 → hex digits c → Piece raw hex ('\\' :: 'u' :: digits) c

def isBlank (c : Char) : Bool := c ∈ [' ', '\t', '\n', '\r']

abbrev Blank (w : List Char) : Prop := w.all isBlank = true

/-- The members of an object, inserted in the order in which they are written. -/
def ofMembers (entries : List (List Char × Json)) : Json :=
  obj (entries.foldl (fun m e => insert e.1 e.2 m) [])

inductive Nonterminal where
  | value | element | elements | member | members
  deriving DecidableEq

/-- What a rule builds. -/
abbrev Meaning : Nonterminal → Type
  | .value | .element => Json
  | .elements => List Json
  | .member => List Char × Json
  | .members => List (List Char × Json)

inductive Derives (D : Dialect) : (n : Nonterminal) → List Char → Meaning n → Prop
  | null : Derives D .value ['n', 'u', 'l', 'l'] Json.null
  | true : Derives D .value ['t', 'r', 'u', 'e'] (Json.bool Bool.true)
  | false : Derives D .value ['f', 'a', 'l', 's', 'e'] (Json.bool Bool.false)
  | number {t n} : D.number t n → Derives D .value t (Json.num n)
  | string {t s} : D.string t s → Derives D .value t (Json.str s)
  | emptyArray {w} : Blank w → Derives D .value ('[' :: (w ++ [']'])) (Json.arr [])
  | array {t js} : Derives D .elements t js → Derives D .value ('[' :: (t ++ [']'])) (Json.arr js)
  | emptyObject {w} : Blank w → Derives D .value ('{' :: (w ++ ['}'])) (Json.obj [])
  | object {t es} : Derives D .members t es →
      Derives D .value ('{' :: (t ++ ['}'])) (ofMembers es)
  | element {w t w' j} : Blank w → Derives D .value t j → Blank w' →
      Derives D .element (w ++ (t ++ w')) j
  | last {t j} : Derives D .element t j → Derives D .elements t [j]
  | more {t ts j js} : Derives D .element t j → Derives D .elements ts js →
      Derives D .elements (t ++ ',' :: ts) (j :: js)
  | member {w k s w' t j} : Blank w → D.string k s → Blank w' → Derives D .element t j →
      Derives D .member (w ++ (k ++ (w' ++ ':' :: t))) (s, j)
  | lastMember {t e} : Derives D .member t e → Derives D .members t [e]
  | moreMembers {t ts e es} : Derives D .member t e → Derives D .members ts es →
      Derives D .members (t ++ ',' :: ts) (e :: es)

/-- A whole text of the dialect. -/
def IsText (D : Dialect) (t : List Char) : Prop := ∃ j, Derives D .element t j

/-- Digits, at least one. -/
def Digits (t : List Char) : Prop := t ≠ [] ∧ t.all Char.isDigit = true

/-- No zero stands in front of another digit. -/
inductive IntPart : List Char → Prop
  | zero : IntPart ['0']
  | digits {c cs} : c.isDigit = true → c ≠ '0' → cs.all Char.isDigit = true → IntPart (c :: cs)

inductive FracPart : List Char → Prop
  | none : FracPart []
  | some {ds} : Digits ds → FracPart ('.' :: ds)

inductive ExpPart : List Char → Prop
  | none : ExpPart []
  | some {e sign ds} : e = 'e' ∨ e = 'E' → sign ∈ [[], ['+'], ['-']] → Digits ds →
      ExpPart (e :: (sign ++ ds))

def IsNumber (t : List Char) : Prop :=
  ∃ sign int frac exp, sign ∈ [[], ['-']] ∧ IntPart int ∧ FracPart frac ∧ ExpPart exp ∧
    t = sign ++ (int ++ (frac ++ exp))

def isHex (c : Char) : Bool := (Text.hexDigit c).isSome

/-- A control character has to be escaped. -/
abbrev Unescaped (c : Char) : Prop := 0x20 ≤ c.toNat

/-- The grammar of RFC 8259. What a number or an escape stands for is left open. -/
def rfc : Dialect where
  number t _ := IsNumber t
  string := Quoted (Piece Unescaped fun digits _ => digits.all isHex = true)

theorem Derives.mono {D E : Dialect} (numbers : ∀ t n, D.number t n → E.number t n)
    (strings : ∀ t s, D.string t s → E.string t s) {n : Nonterminal} {t : List Char} {m : Meaning n}
    (h : Derives D n t m) : Derives E n t m := by
  induction h with
  | null => exact .null
  | true => exact .true
  | false => exact .false
  | number h => exact .number (numbers _ _ h)
  | string h => exact .string (strings _ _ h)
  | emptyArray w => exact .emptyArray w
  | array _ ih => exact .array ih
  | emptyObject w => exact .emptyObject w
  | object _ ih => exact .object ih
  | element w _ w' ih => exact .element w ih w'
  | last _ ih => exact .last ih
  | more _ _ first others => exact .more first others
  | member w k w' _ ih => exact .member w (strings _ _ k) w' ih
  | lastMember _ ih => exact .lastMember ih
  | moreMembers _ _ first others => exact .moreMembers first others

theorem Spelled.mono {p q : List Char → Char → Prop} (sub : ∀ t c, p t c → q t c)
    {t s : List Char} (h : Spelled p t s) : Spelled q t s := by
  induction h with
  | nil => exact .nil
  | cons piece _ ih => exact .cons (sub _ _ piece) ih

theorem Quoted.mono {p q : List Char → Char → Prop} (sub : ∀ t c, p t c → q t c) {t s : List Char}
    (h : Quoted p t s) : Quoted q t s := by
  obtain ⟨body, rfl, spelled⟩ := h
  exact ⟨body, rfl, spelled.mono sub⟩

theorem Piece.mono {raw raw' : Char → Prop} {hex hex' : List Char → Char → Prop}
    (raws : ∀ c, raw c → raw' c) (hexes : ∀ t c, hex t c → hex' t c) (p : List Char) (c : Char)
    (h : Piece raw hex p c) : Piece raw' hex' p c := by
  cases h with
  | raw quote backslash plain => exact .raw quote backslash (raws _ plain)
  | short known => exact .short known
  | unicode four digits => exact .unicode four (hexes _ _ digits)

theorem spelled_flatMap {piece : List Char → Char → Prop} {esc : Char → List Char}
    (each : ∀ c, piece (esc c) c) (s : List Char) : Spelled piece (s.flatMap esc) s := by
  induction s with
  | nil => exact .nil
  | cons c s ih => exact .cons (each c) ih

end Stallwatch.Json
