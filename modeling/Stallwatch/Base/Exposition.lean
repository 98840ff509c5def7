import Mathlib.Data.List.Basic
import Mathlib.Tactic.Common

/-! One sample in the text format of Prometheus: a metric name, labels with quoted values, a
number, and possibly a time. -/
namespace Stallwatch.Exposition

structure Sample where
  name : List Char
  labels : List (List Char × List Char)
  value : List Char
  timestamp : List Char
  deriving DecidableEq

/-- Where in the line the reader is. -/
inductive Place where
  | name
  | named
  | open
  | label
  | equals
  | quote
  | text
  | escape
  | next
  | labelled
  | number
  | after
  | timestamp
  | done
  deriving DecidableEq

/-- What was read, and the label at hand. -/
structure State where
  place : Place
  sample : Sample
  label : List Char
  text : List Char
  deriving DecidableEq

def isBlank (c : Char) : Bool := c = ' ' || c = '\t'

/-- A character of a label name, and of a metric name a colon as well. -/
def isLabelChar (c : Char) : Bool := c.isAlphanum || c = '_'

def isNameChar (c : Char) : Bool := isLabelChar c || c = ':'

def isNumberChar (c : Char) : Bool := c.isAlphanum || c = '+' || c = '-' || c = '.'

namespace State

def start : State := ⟨.name, ⟨[], [], [], []⟩, [], []⟩

def go (s : State) (place : Place) : Option State := some { s with place := place }

def pushName (s : State) (c : Char) : Option State :=
  if isNameChar c = true ∧ (s.sample.name = [] → c.isDigit = false) then
    some { s with sample.name := s.sample.name ++ [c] }
  else none

def pushLabel (s : State) (c : Char) : Option State :=
  if isLabelChar c = true ∧ (s.label = [] → c.isDigit = false) then
    some { s with place := .label, label := s.label ++ [c] }
  else none

def pushText (s : State) (c : Char) : Option State := some { s with place := .text, text := s.text ++ [c] }

/-- The label at hand is whole. -/
def closeLabel (s : State) : Option State :=
  some ⟨.next, { s.sample with labels := s.sample.labels ++ [(s.label, s.text)] }, [], []⟩

def pushNumber (s : State) (c : Char) : Option State :=
  if isNumberChar c then some { s with place := .number, sample.value := s.sample.value ++ [c] } else none

def pushTimestamp (s : State) (c : Char) : Option State :=
  if c.isDigit || c = '-' then
    some { s with place := .timestamp, sample.timestamp := s.sample.timestamp ++ [c] }
  else none

def step (s : State) (c : Char) : Option State :=
  match s.place with
  | .name =>
    if s.sample.name = [] then if isBlank c then some s else s.pushName c
    else if c = '{' then s.go .open
    else if isBlank c then s.go .named
    else s.pushName c
  | .named => if c = '{' then s.go .open else if isBlank c then some s else s.pushNumber c
  | .open => if c = '}' then s.go .labelled else if isBlank c then some s else s.pushLabel c
  | .label => if c = '=' then s.go .quote else if isBlank c then s.go .equals else s.pushLabel c
  | .equals => if c = '=' then s.go .quote else if isBlank c then some s else none
  | .quote => if c = '"' then s.go .text else if isBlank c then some s else none
  | .text =>
    if c = '"' then s.closeLabel
    else if c = '\\' then s.go .escape
    else if c = '\n' then none
    else s.pushText c
  | .escape =>
    if c = '"' ∨ c = '\\' then s.pushText c
    else if c = 'n' then s.pushText '\n'
    else none
  | .next => if c = ',' then s.go .open else if c = '}' then s.go .labelled else if isBlank c then some s else none
  | .labelled => if isBlank c then some s else s.pushNumber c
  | .number => if isBlank c then s.go .after else s.pushNumber c
  | .after => if isBlank c then some s else s.pushTimestamp c
  | .timestamp => if isBlank c then s.go .done else s.pushTimestamp c
  | .done => if isBlank c then some s else none

def run (s : State) (cs : List Char) : Option State := cs.foldlM step s

/-- The line may end behind the number. -/
def finish (s : State) : Option Sample :=
  match s.place with
  | .number | .after | .timestamp | .done => some s.sample
  | _ => none

theorem run_nil (s : State) : s.run [] = some s := rfl

theorem run_cons (s : State) (c : Char) (cs : List Char) : s.run (c :: cs) = (s.step c).bind fun s => s.run cs := rfl

theorem run_append (s : State) (as bs : List Char) : s.run (as ++ bs) = (s.run as).bind fun s => s.run bs :=
  List.foldlM_append

end State

/-- What a line without its newline says. -/
def readSample (line : List Char) : Option Sample := (State.start.run line).bind State.finish

/-- A name of some kind of characters that does not begin with a digit. -/
def IsName (p : Char → Bool) (name : List Char) : Prop :=
  ∃ c cs, name = c :: cs ∧ c.isDigit = false ∧ ∀ d ∈ c :: cs, p d = true

/-- A label with its value in quotation marks, each character of it written by `q`. -/
def field (q : Char → List Char) (l : List Char × List Char) : List Char :=
  l.1 ++ '=' :: '"' :: (l.2.flatMap q ++ ['"'])

def write (q : Char → List Char) (name : List Char) (labels : List (List Char × List Char))
    (value : List Char) : List Char :=
  name ++ '{' :: ([','].intercalate (labels.map (field q)) ++ '}' :: ' ' :: value)

theorem apart {p : Char → Bool} {c d : Char} (here : p c = true) (other : p d = false) : c ≠ d := by
  rintro rfl
  exact Bool.false_ne_true (other.symm.trans here)

theorem not_blank {p : Char → Bool} {c : Char} (here : p c = true) (space : p ' ' = false)
    (tab : p '\t' = false) : isBlank c = false := by
  simp [isBlank, apart here space, apart here tab]

namespace State

variable {name label text value stamp : List Char} {labels : List (List Char × List Char)} {sample : Sample}

theorem step_name (begun : name ≠ []) {c : Char} (here : isNameChar c = true) :
    step ⟨.name, ⟨name, labels, value, stamp⟩, label, text⟩ c =
      some ⟨.name, ⟨name ++ [c], labels, value, stamp⟩, label, text⟩ := by
  have brace := apart here (d := '{') (by decide)
  have solid := not_blank here (by decide) (by decide)
  simp [step, begun, brace, solid, pushName, here]

theorem step_label (begun : label ≠ []) {c : Char} (here : isLabelChar c = true) :
    step ⟨.label, sample, label, text⟩ c = some ⟨.label, sample, label ++ [c], text⟩ := by
  have equals := apart here (d := '=') (by decide)
  have solid := not_blank here (by decide) (by decide)
  simp [step, begun, equals, solid, pushLabel, here]

theorem step_number {c : Char} (here : isNumberChar c = true) :
    step ⟨.number, ⟨name, labels, value, stamp⟩, label, text⟩ c =
      some ⟨.number, ⟨name, labels, value ++ [c], stamp⟩, label, text⟩ := by
  have solid := not_blank here (by decide) (by decide)
  simp [step, solid, pushNumber, here]

/- From the second character on each is added to what has been collected. -/
theorem run_grows {p : Char → Bool} {after : List Char → State}
    (grows : ∀ {cs}, cs ≠ [] → ∀ {c}, p c = true → (after cs).step c = some (after (cs ++ [c])))
    {front cs : List Char} (begun : front ≠ []) (good : ∀ c ∈ cs, p c = true) :
    (after front).run cs = some (after (front ++ cs)) := by
  induction cs generalizing front with
  | nil => simp [run_nil]
  | cons c cs ih =>
    obtain ⟨here, rest⟩ := List.forall_mem_cons.mp good
    rw [run_cons, grows begun here, Option.bind_some, ih (by simp) rest, List.append_assoc]
    rfl

theorem run_first (named : IsName isNameChar name) :
    start.run name = some ⟨.name, ⟨name, [], [], []⟩, [], []⟩ := by
  obtain ⟨c, cs, rfl, letter, good⟩ := named
  obtain ⟨here, rest⟩ := List.forall_mem_cons.mp good
  have solid := not_blank here (by decide) (by decide)
  have begun : start.step c = some ⟨.name, ⟨[c], [], [], []⟩, [], []⟩ := by
    simp [step, start, solid, pushName, here, letter]
  rw [run_cons, begun, Option.bind_some]
  exact @run_grows _ (fun name => ⟨.name, ⟨name, [], [], []⟩, [], []⟩) step_name [c] cs (by simp) rest

theorem run_open (named : IsName isLabelChar label) :
    run ⟨.open, sample, [], text⟩ label = some ⟨.label, sample, label, text⟩ := by
  obtain ⟨c, cs, rfl, letter, good⟩ := named
  obtain ⟨here, rest⟩ := List.forall_mem_cons.mp good
  have brace := apart here (d := '}') (by decide)
  have solid := not_blank here (by decide) (by decide)
  have begun : step ⟨.open, sample, [], text⟩ c = some ⟨.label, sample, [c], text⟩ := by
    simp [step, brace, solid, pushLabel, here, letter]
  rw [run_cons, begun, Option.bind_some]
  exact @run_grows _ (fun label => ⟨.label, sample, label, text⟩) step_label [c] cs (by simp) rest

theorem run_value {v : List Char} (nonempty : v ≠ []) (good : ∀ c ∈ v, isNumberChar c = true) :
    run ⟨.labelled, ⟨name, labels, [], stamp⟩, label, text⟩ v =
      some ⟨.number, ⟨name, labels, v, stamp⟩, label, text⟩ := by
  obtain ⟨c, cs, rfl⟩ := List.exists_cons_of_ne_nil nonempty
  obtain ⟨here, rest⟩ := List.forall_mem_cons.mp good
  have solid := not_blank here (by decide) (by decide)
  have begun : step ⟨.labelled, ⟨name, labels, [], stamp⟩, label, text⟩ c =
      some ⟨.number, ⟨name, labels, [c], stamp⟩, label, text⟩ := by
    simp [step, solid, pushNumber, here]
  rw [run_cons, begun, Option.bind_some]
  exact @run_grows _ (fun value => ⟨.number, ⟨name, labels, value, stamp⟩, label, text⟩)
    (fun _ => step_number) [c] cs (by simp) rest

end State

/-- What is written for a character inside quotation marks is read as that character. -/
def Quotes (q : Char → List Char) : Prop :=
  ∀ (c : Char) (sample : Sample) (label text : List Char),
    State.run ⟨.text, sample, label, text⟩ (q c) = some ⟨.text, sample, label, text ++ [c]⟩

section Write

open State

variable {q : Char → List Char} (quotes : Quotes q)
include quotes

theorem run_quoted (v : List Char) (sample : Sample) (label text : List Char) :
    run ⟨.text, sample, label, text⟩ (v.flatMap q) = some ⟨.text, sample, label, text ++ v⟩ := by
  induction v generalizing text with
  | nil => simp [run_nil]
  | cons c v ih =>
    rw [List.flatMap_cons, run_append, quotes, Option.bind_some, ih, List.append_assoc]
    rfl

theorem run_field {l : List Char × List Char} (named : IsName isLabelChar l.1) (sample : Sample) :
    run ⟨.open, sample, [], []⟩ (field q l) =
      some ⟨.next, { sample with labels := sample.labels ++ [l] }, [], []⟩ := by
  rw [field, run_append, run_open named, Option.bind_some]
  have opened : run ⟨.label, sample, l.1, []⟩ ('=' :: '"' :: (l.2.flatMap q ++ ['"'])) =
      run ⟨.text, sample, l.1, []⟩ (l.2.flatMap q ++ ['"']) := rfl
  rw [opened, run_append, run_quoted quotes, Option.bind_some]
  rfl

theorem run_fields {ls : List (List Char × List Char)} (nonempty : ls ≠ [])
    (named : ∀ l ∈ ls, IsName isLabelChar l.1) (sample : Sample) :
    run ⟨.open, sample, [], []⟩ ([','].intercalate (ls.map (field q))) =
      some ⟨.next, { sample with labels := sample.labels ++ ls }, [], []⟩ := by
  induction ls generalizing sample with
  | nil => exact absurd rfl nonempty
  | cons l ls ih =>
    obtain ⟨first, rest⟩ := List.forall_mem_cons.mp named
    cases ls with
    | nil => simpa using run_field quotes first sample
    | cons m ls =>
      have next := ih (List.cons_ne_nil _ _) rest { sample with labels := sample.labels ++ [l] }
      rw [List.map_cons, List.map_cons, List.intercalate_cons_cons, List.append_assoc, run_append,
        run_field quotes first, Option.bind_some]
      rw [List.map_cons, List.append_assoc] at next
      exact next

/-- A sample that was written is read back. -/
theorem readSample_write {name value : List Char} {labels : List (List Char × List Char)} (nonempty : labels ≠ [])
    (metric : IsName isNameChar name) (named : ∀ l ∈ labels, IsName isLabelChar l.1)
    (number : value ≠ []) (good : ∀ c ∈ value, isNumberChar c = true) :
    readSample (write q name labels value) = some ⟨name, labels, value, []⟩ := by
  have opened : step ⟨.name, ⟨name, [], [], []⟩, [], []⟩ '{' = some ⟨.open, ⟨name, [], [], []⟩, [], []⟩ := by
    obtain ⟨c, cs, rfl, _⟩ := metric
    rfl
  have closed : run ⟨.next, ⟨name, labels, [], []⟩, [], []⟩ ('}' :: ' ' :: value) =
      run ⟨.labelled, ⟨name, labels, [], []⟩, [], []⟩ value := rfl
  rw [readSample, write, run_append, run_first metric, Option.bind_some, run_cons, opened,
    Option.bind_some, run_append, run_fields quotes nonempty named, Option.bind_some, List.nil_append, closed,
    run_value number good]
  rfl

end Write

end Stallwatch.Exposition
