import Stallwatch.Base.Text

/-! JSON text as the program writes it. There are two escapers, which differ in the
characters that have a short escape. -/
namespace Stallwatch.Json

open Text

/-- `format!("{:04x}", n)`. -/
def hex4 (n : ℕ) : List Char :=
  List.replicate (4 - (Nat.toDigits 16 n).length) '0' ++ Nat.toDigits 16 n

def escapeChar (short : List (Char × List Char)) (c : Char) : List Char :=
  match short.lookup c with
  | some escaped => escaped
  | none => if c.toNat < 0x20 then '\\' :: 'u' :: hex4 c.toNat else [c]

def quoteWith (short : List (Char × List Char)) (s : List Char) : List Char :=
  '"' :: (s.flatMap (escapeChar short) ++ ['"'])

/-- The escapes of a report. -/
def jsonStr : List Char → List Char :=
  quoteWith [('"', ['\\', '"']), ('\\', ['\\', '\\']), ('\n', ['\\', 'n']), ('\r', ['\\', 'r']),
    ('\t', ['\\', 't'])]

/-- The escapes of the fields an incident adds. -/
def jstr : List Char → List Char :=
  quoteWith [('"', ['\\', '"']), ('\\', ['\\', '\\']), ('\n', ['\\', 'n'])]

/-- A word between quotes, with nothing to escape. -/
def bare (w : String) : List Char := '"' :: (w.toList ++ ['"'])

def boolText (b : Bool) : List Char := if b then ['t', 'r', 'u', 'e'] else ['f', 'a', 'l', 's', 'e']

/-- `parts.join(",")`. -/
def join : List (List Char) → List Char
  | [] => []
  | [t] => t
  | t :: ts => t ++ ',' :: join ts

def list (texts : List (List Char)) : List Char := '[' :: (join texts ++ [']'])

def member (entry : String × List Char) : List Char := bare entry.1 ++ ':' :: entry.2

def record (fields : List (String × List Char)) : List Char :=
  '{' :: (join (fields.map member) ++ ['}'])

end Stallwatch.Json
