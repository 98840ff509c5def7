import Stallwatch.Base.Lines
import Stallwatch.Base.Words

/-! HTTP messages: a first line, fields, a blank line, and a body of the length that a field
tells. Whoever reads one stops right behind it. -/
namespace Stallwatch.Http

open Text Utf8

structure Field where
  name : List Char
  value : List Char
  deriving DecidableEq, Repr

structure Message where
  start : List Char
  fields : List Field
  body : List UInt8
  deriving DecidableEq, Repr

def crlf : List Char := ['\r', '\n']

def Field.line (h : Field) : List Char := h.name ++ ": ".toList ++ h.value

/-- The lines in front of the body. -/
def head (start : List Char) (fields : List Field) : List Char :=
  start ++ crlf ++ fields.flatMap (fun h => h.line ++ crlf) ++ crlf

def write (m : Message) : List UInt8 := bytes (head m.start m.fields) ++ m.body

/-- One line, without its end. -/
def readLine (input : List UInt8) : Option (List Char × List UInt8) :=
  let (line, rest) := splitLine input
  ((fromUtf8 line).bind (stripSuffix crlf)).map fun line => (line, rest)

def readField (line : List Char) : Option Field :=
  (splitOnce ':' line).map fun parts => ⟨parts.1, trim parts.2⟩

/-- Fields up to the blank line. -/
def readFields : ℕ → List UInt8 → Option (List Field × List UInt8)
  | 0, _ => none
  | fuel + 1, input => do
    let (line, rest) ← readLine input
    if line = [] then return ([], rest)
    else do
      let field ← readField line
      let (fields, rest) ← readFields fuel rest
      return (field :: fields, rest)

def number (cs : List Char) : Option ℕ :=
  if cs ≠ [] ∧ cs.all Char.isDigit = true then some (Nat.ofDigitChars 10 cs 0) else none

def contentLength (fields : List Field) : Option ℕ :=
  (fields.find? fun h => eqIgnoreAsciiCase h.name "content-length".toList).bind fun h => number h.value

/-- The message in front, and what is behind it. -/
def read (input : List UInt8) : Option (Message × List UInt8) := do
  let (start, rest) ← readLine input
  let (fields, rest) ← readFields (rest.length + 1) rest
  let length ← contentLength fields
  if length ≤ rest.length then return (⟨start, fields, rest.take length⟩, rest.drop length) else none

/-- A field that is read as it is written. -/
structure Field.Plain (h : Field) : Prop where
  name : '\n' ∉ h.name
  colon : ':' ∉ h.name
  value : '\n' ∉ h.value
  trimmed : trim h.value = h.value

structure Message.Plain (m : Message) : Prop where
  start : '\n' ∉ m.start
  fields : ∀ h ∈ m.fields, h.Plain
  length : contentLength m.fields = some m.body.length

theorem number_decimal (n : ℕ) : number (decimal n) = some n := by
  rw [number, if_pos ⟨decimal_ne_nil n, decimal_all n⟩, decimal_value]

theorem stripSuffix_append (suf cs : List Char) : stripSuffix suf (cs ++ suf) = some cs := by
  simp [stripSuffix]

theorem readLine_written {line : List Char} (clean : '\n' ∉ line) (rest : List UInt8) :
    readLine (bytes (line ++ crlf) ++ rest) = some (line, rest) := by
  have shape : line ++ crlf = (line ++ ['\r']) ++ ['\n'] := by simp [crlf]
  have split : splitLine (bytes (line ++ crlf) ++ rest) = (bytes (line ++ crlf), rest) := by
    rw [shape]
    exact splitLine_written (by simp [clean]) rest
  unfold readLine
  simp only [split, fromUtf8_bytes, Option.bind_some, stripSuffix_append, Option.map_some]

theorem Field.Plain.line_clean {h : Field} (plain : h.Plain) : '\n' ∉ h.line := by
  have colon : '\n' ∉ ": ".toList := by decide
  simp only [Field.line, List.mem_append, not_or]
  exact ⟨⟨plain.name, colon⟩, plain.value⟩

theorem Field.line_ne_nil (h : Field) : h.line ≠ [] := by simp [Field.line]

theorem readField_line {h : Field} (plain : h.Plain) : readField h.line = some h := by
  have blank : isWhitespace ' ' = true := by decide
  have shape : h.line = h.name ++ ':' :: ' ' :: h.value := by simp [Field.line]
  have padded : trim (' ' :: h.value) = trim h.value := by
    have pad := trim_pad (List.forall_mem_singleton.mpr blank) blank_nil h.value
    simpa using pad
  rw [readField, shape, splitOnce_first plain.colon, Option.map_some]
  dsimp only
  rw [padded, plain.trimmed]

theorem readFields_written {fields : List Field} (plain : ∀ h ∈ fields, h.Plain) (rest : List UInt8)
    {fuel : ℕ} (enough : fields.length < fuel) :
    readFields fuel (bytes (fields.flatMap (fun h => h.line ++ crlf) ++ crlf) ++ rest) =
      some (fields, rest) := by
  induction fields generalizing fuel with
  | nil =>
    obtain ⟨fuel, rfl⟩ := Nat.exists_eq_add_of_lt enough
    have last : readLine (bytes ([] ++ crlf) ++ rest) = some ([], rest) :=
      readLine_written List.not_mem_nil rest
    simp only [readFields, List.flatMap_nil, last]
    rfl
  | cons h fields ih =>
    obtain ⟨here, others⟩ := List.forall_mem_cons.mp plain
    obtain ⟨fuel, rfl⟩ := Nat.exists_eq_add_of_le' (Nat.lt_of_le_of_lt (Nat.zero_le _) enough)
    rw [List.length_cons] at enough
    have behind : readFields fuel (bytes (fields.flatMap (fun h => h.line ++ crlf) ++ crlf) ++ rest) =
        some (fields, rest) := ih others (by omega)
    have first := readLine_written here.line_clean
      (bytes (fields.flatMap (fun h => h.line ++ crlf) ++ crlf) ++ rest)
    rw [List.flatMap_cons, List.append_assoc, bytes_append, List.append_assoc]
    simp only [readFields, first, behind, readField_line here, Option.bind_eq_bind, Option.bind_some,
      if_neg h.line_ne_nil]
    rfl

theorem length_fields (fields : List Field) :
    fields.length ≤ (bytes (fields.flatMap (fun h => h.line ++ crlf) ++ crlf)).length := by
  induction fields with
  | nil => exact Nat.zero_le _
  | cons h fields ih =>
    have ends : (bytes crlf).length = 2 := by decide
    rw [List.flatMap_cons, List.append_assoc, bytes_append, bytes_append, List.length_append,
      List.length_append, ends, List.length_cons]
    omega

/-- What is written is read back, and nothing of what follows. -/
theorem read_write {m : Message} (plain : m.Plain) (rest : List UInt8) :
    read (write m ++ rest) = some (m, rest) := by
  obtain ⟨start, fields, body⟩ := m
  have first := readLine_written plain.start
    (bytes (fields.flatMap (fun h => h.line ++ crlf) ++ crlf) ++ (body ++ rest))
  have enough : fields.length <
      (bytes (fields.flatMap (fun h => h.line ++ crlf) ++ crlf) ++ (body ++ rest)).length + 1 := by
    have counted := length_fields fields
    rw [List.length_append]
    omega
  have middle := readFields_written plain.fields (body ++ rest) enough
  have shape : write ⟨start, fields, body⟩ ++ rest = bytes (start ++ crlf) ++
      (bytes (fields.flatMap (fun h => h.line ++ crlf) ++ crlf) ++ (body ++ rest)) := by
    simp [write, head]
  rw [shape]
  have length : contentLength fields = some body.length := plain.length
  simp only [read, first, middle, length, Option.bind_eq_bind, Option.bind_some]
  simp

end Stallwatch.Http
