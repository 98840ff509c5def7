import Stallwatch.Base.Latest
import Stallwatch.Config.Toml

/-! A document as the list of its assignments. Where a setting is entered depends on the
headers before it alone, and the last assignment to a key is the one that is kept. -/
namespace Stallwatch.Toml

open Text

inductive Place where
  | table (name : List Char)
  | rule (index : ℕ)
  deriving DecidableEq

/-- The place that settings are entered in, and the number of rules begun so far. -/
structure Cursor where
  place : Option Place
  rules : ℕ
  deriving DecidableEq

structure Assignment where
  place : Place
  key : List Char
  val : Val
  deriving DecidableEq

namespace Assignment

/-- What is assigned to one key. -/
def valueAt (p : Place) (k : List Char) (a : Assignment) : Option Val :=
  if a.place = p ∧ a.key = k then some a.val else none

end Assignment

namespace Cursor

def start : Cursor := ⟨none, 0⟩

def after (c : Cursor) : Entry → Cursor
  | .blank => c
  | .rule => ⟨some (.rule c.rules), c.rules + 1⟩
  | .table name => ⟨some (.table name), c.rules⟩
  | .setting _ _ => c

def assigned (c : Cursor) : Entry → Option Assignment
  | .setting key val => c.place.map (⟨·, key, val⟩)
  | _ => none

def assignments (c : Cursor) : List Entry → List Assignment
  | [] => []
  | e :: es => (c.assigned e).toList ++ (c.after e).assignments es

/-- What a line says here: a setting needs a table or a rule above it. -/
def reads (c : Cursor) (raw : List Char) : Option Entry :=
  match readLine raw with
  | .ok (.setting key val) => if c.place = none then none else some (.setting key val)
  | .ok e => some e
  | _ => none

/-- The entries of the lines before the first that says nothing. -/
def entries (c : Cursor) : List (List Char) → List Entry
  | [] => []
  | raw :: rest =>
    match c.reads raw with
    | some e => e :: (c.after e).entries rest
    | none => []

theorem readLine_of_reads {c : Cursor} {raw : List Char} {e : Entry} (said : c.reads raw = some e) :
    readLine raw = .ok e := by
  unfold reads at said
  split at said
  · rename_i key val line
    split at said
    · contradiction
    · rw [line, Option.some.inj said]
  · rename_i d _ line
    rw [line, Option.some.inj said]
  · contradiction

end Cursor

/-- The assignments of a document, in the order of its lines. -/
def settings (body : List Char) : List Assignment :=
  Cursor.start.assignments (Cursor.start.entries (lines body))

def Doc.get (d : Doc) : Place → List Char → Option Val
  | .table name, k => (d.tables.lookup name).bind fun t => t.keys.lookup k
  | .rule i, k => (d.rules[i]?).bind fun t => t.keys.lookup k

namespace Reader

def cursor (r : Reader) : Cursor where
  place := if r.inRule then some (.rule (r.doc.rules.length - 1)) else r.current.map .table
  rules := r.doc.rules.length

/-- The table or the rule that settings are entered in exists. -/
structure Sound (r : Reader) : Prop where
  rule : r.inRule = true → r.doc.rules ≠ []
  table : ∀ name, r.current = some name → (r.doc.tables.lookup name).isSome = true

theorem start_sound : start.Sound := ⟨by simp [start], by simp [start]⟩

/-- What entering `e` on a line does. -/
structure Entered (r r' : Reader) (line : ℕ) (e : Entry) : Prop where
  sound : r'.Sound
  cursor : r'.cursor = r.cursor.after e
  get : ∀ p k, r'.doc.get p k =
    ((r.cursor.assigned e).bind (Assignment.valueAt p k)).or (r.doc.get p k)
  lines : ∀ n ∈ r'.doc.rules.map Table.line, n ∈ r.doc.rules.map Table.line ∨ e = .rule ∧ n = line

end Reader

theorem get_rule_concat (tables : HashMap (List Char) Table) (rules : List Table) (t : Table)
    (p : Place) (k : List Char) :
    Doc.get ⟨tables, rules ++ [t]⟩ p k =
      if p = .rule rules.length then t.keys.lookup k else Doc.get ⟨tables, rules⟩ p k := by
  cases p with
  | table name => simp [Doc.get]
  | rule i =>
    rcases Nat.lt_trichotomy i rules.length with less | rfl | more
    · simp [Doc.get, List.getElem?_append_left less, Nat.ne_of_lt less]
    · simp [Doc.get]
    · have beyond : (rules ++ [t])[i]? = none := List.getElem?_eq_none (by simp; omega)
      have before : rules[i]? = none := List.getElem?_eq_none (by omega)
      simp [Doc.get, beyond, before, Nat.ne_of_gt more]

theorem lookup_insert_key (t : Table) (key k : List Char) (val : Val) :
    (t.insert key val).keys.lookup k = if key = k then some val else t.keys.lookup k := by
  by_cases same : key = k
  · subst same
    rw [if_pos rfl]
    exact AList.lookup_insert _
  · rw [if_neg same]
    exact AList.lookup_insert_ne (Ne.symm same)

theorem get_insert (tables : HashMap (List Char) Table) (rules : List Table) (name : List Char)
    (t : Table) (p : Place) (k : List Char) :
    Doc.get ⟨tables.insert name t, rules⟩ p k =
      if p = .table name then t.keys.lookup k else Doc.get ⟨tables, rules⟩ p k := by
  cases p with
  | rule i => simp [Doc.get]
  | table other =>
    by_cases same : other = name
    · subst same
      simp [Doc.get, AList.lookup_insert]
    · simp [Doc.get, AList.lookup_insert_ne same, same]

namespace Reader

variable {r : Reader}

theorem enter_rule (r : Reader) (line : ℕ) :
    ∃ r', r.enter line .rule = .ok r' ∧ Entered r r' line .rule := by
  refine ⟨_, rfl, ⟨⟨fun _ => by simp, fun name open_ => by cases open_⟩, ?_, ?_, ?_⟩⟩
  · simp [cursor, Cursor.after]
  · intro p k
    rw [get_rule_concat]
    by_cases here : p = .rule r.doc.rules.length
    · subst here
      simp [Doc.get, Cursor.assigned]
    · simp [here, Cursor.assigned]
  · simp only [List.map_append, List.mem_append]
    rintro n (old | new)
    · exact .inl old
    · exact .inr ⟨trivial, by simpa using new⟩

theorem get_openTable (tables : HashMap (List Char) Table) (rules : List Table) (name : List Char)
    (line : ℕ) (p : Place) (k : List Char) :
    Doc.get ⟨openTable tables name line, rules⟩ p k = Doc.get ⟨tables, rules⟩ p k := by
  unfold openTable
  cases there : tables.lookup name with
  | some t => rfl
  | none =>
    rw [get_insert]
    split
    · rename_i here
      subst here
      simp [Doc.get, there]
    · rfl

theorem enter_table (r : Reader) (line : ℕ) (name : List Char) :
    ∃ r', r.enter line (.table name) = .ok r' ∧ Entered r r' line (.table name) := by
  refine ⟨_, rfl, ⟨⟨fun rule => Bool.noConfusion rule, ?_⟩, ?_, ?_, ?_⟩⟩
  · rintro other same
    cases same
    unfold openTable
    cases there : r.doc.tables.lookup name with
    | some t => simp [there]
    | none => simp [AList.lookup_insert]
  · simp [cursor, Cursor.after]
  · intro p k
    rw [get_openTable]
    rfl
  · exact fun n old => .inl old

theorem enter_setting (sound : r.Sound) (line : ℕ) (key : List Char) (val : Val) :
    (r.cursor.place = none ∧ r.enter line (.setting key val) = .error ⟨line, outside key⟩) ∨
      r.cursor.place ≠ none ∧
        ∃ r', r.enter line (.setting key val) = .ok r' ∧ Entered r r' line (.setting key val) := by
  cases inRule : r.inRule with
  | true =>
    right
    obtain ⟨before, t, rules⟩ := (List.eq_nil_or_concat' r.doc.rules).resolve_left (sound.rule inRule)
    have set : setLast r.doc.rules key val = before ++ [t.insert key val] := by
      simp [setLast, rules]
    refine ⟨by simp [cursor, inRule], { r with doc := ⟨r.doc.tables, before ++ [t.insert key val]⟩ },
      by simp [enter, inRule, set], ?_⟩
    refine ⟨⟨fun _ => by simp, sound.table⟩, ?_, ?_, ?_⟩
    · simp [cursor, Cursor.after, inRule, rules]
    · intro p k
      have old : r.doc = ⟨r.doc.tables, before ++ [t]⟩ := by rw [← rules]
      rw [old, get_rule_concat, get_rule_concat, lookup_insert_key]
      by_cases here : p = .rule before.length
      · by_cases same : key = k <;>
          simp [here, same, cursor, inRule, rules, Cursor.assigned, Assignment.valueAt]
      · simp [here, Ne.symm here, cursor, inRule, rules, Cursor.assigned, Assignment.valueAt]
    · intro n member
      left
      rw [rules]
      simpa [Table.insert] using member
  | false =>
    cases open_ : r.current with
    | none => exact .inl ⟨by simp [cursor, inRule, open_], by simp [enter, inRule, open_]⟩
    | some name =>
      right
      obtain ⟨t, there⟩ := Option.isSome_iff_exists.mp (sound.table name open_)
      have set : setIn r.doc.tables name key val = r.doc.tables.insert name (t.insert key val) := by
        simp [setIn, there]
      refine ⟨by simp [cursor, inRule, open_],
        { r with doc := ⟨r.doc.tables.insert name (t.insert key val), r.doc.rules⟩ },
        by simp [enter, inRule, open_, set], ?_⟩
      refine ⟨⟨fun rule => by simp [inRule] at rule, ?_⟩, ?_, ?_, fun n old => .inl old⟩
      · intro other same
        rw [open_, Option.some.injEq] at same
        subst same
        simp [AList.lookup_insert]
      · simp [cursor, Cursor.after, inRule, open_]
      · intro p k
        rw [get_insert, lookup_insert_key]
        by_cases here : p = .table name
        · by_cases same : key = k <;>
            simp [here, same, cursor, inRule, open_, Cursor.assigned, Assignment.valueAt, Doc.get, there]
        · simp [here, Ne.symm here, cursor, inRule, open_, Cursor.assigned, Assignment.valueAt]

theorem entered_blank (sound : r.Sound) (line : ℕ) : Entered r r line .blank :=
  ⟨sound, rfl, fun _ _ => rfl, fun _ old => .inl old⟩

/- One line: it is entered, or the error names its number. -/
theorem next_cases (sound : r.Sound) (line : ℕ) (raw : List Char) :
    (∃ e r', r.cursor.reads raw = some e ∧ r.next line raw = .ok r' ∧ Entered r r' line e) ∨
      r.cursor.reads raw = none ∧ ∃ msg, r.next line raw = .error ⟨line, msg⟩ := by
  cases said : readLine raw with
  | error msg => exact .inr ⟨by simp [Cursor.reads, said], msg, by simp [next, said]⟩
  | ok e =>
    cases e with
    | blank => exact .inl ⟨.blank, r, by simp [Cursor.reads, said], by simp [next, said, enter],
        entered_blank sound line⟩
    | rule =>
      obtain ⟨r', run, entered⟩ := enter_rule r line
      exact .inl ⟨.rule, r', by simp [Cursor.reads, said], by simp [next, said, run], entered⟩
    | table name =>
      obtain ⟨r', run, entered⟩ := enter_table r line name
      exact .inl ⟨.table name, r', by simp [Cursor.reads, said], by simp [next, said, run], entered⟩
    | setting key val =>
      rcases enter_setting sound line key val with ⟨placeless, refused⟩ | ⟨placed, r', run, entered⟩
      · exact .inr ⟨by simp [Cursor.reads, said, placeless], outside key, by simp [next, said, refused]⟩
      · exact .inl ⟨_, r', by simp [Cursor.reads, said, placed], by simp [next, said, run], entered⟩

/-- What reading all of `raws` after the first `n` lines does. -/
structure Ran (r r' : Reader) (n : ℕ) (raws : List (List Char)) : Prop where
  whole : (r.cursor.entries raws).length = raws.length
  sound : r'.Sound
  cursor : r'.cursor = (r.cursor.entries raws).foldl Cursor.after r.cursor
  get : ∀ p k, r'.doc.get p k =
    (latest (Assignment.valueAt p k) (r.cursor.assignments (r.cursor.entries raws))).or (r.doc.get p k)
  lines : ∀ m ∈ r'.doc.rules.map Table.line, m ∈ r.doc.rules.map Table.line ∨
    ∃ i raw, raws[i]? = some raw ∧ readLine raw = .ok .rule ∧ m = n + i + 1

theorem ran_nil (sound : r.Sound) (n : ℕ) : Ran r r n [] :=
  ⟨rfl, sound, rfl, fun _ _ => rfl, fun _ old => .inl old⟩

theorem ran_cons {r' r'' : Reader} {n : ℕ} {raw : List Char} {rest : List (List Char)} {e : Entry}
    (said : r.cursor.reads raw = some e) (first : Entered r r' (n + 1) e)
    (others : Ran r' r'' (n + 1) rest) : Ran r r'' n (raw :: rest) := by
  have entries : r.cursor.entries (raw :: rest) = e :: r'.cursor.entries rest := by
    simp only [Cursor.entries, said, first.cursor]
  refine ⟨?_, others.sound, ?_, ?_, ?_⟩
  · simp [entries, others.whole]
  · rw [entries, others.cursor, List.foldl_cons, first.cursor]
  · intro p k
    rw [entries, Cursor.assignments, ← first.cursor, latest_append, others.get, first.get,
      Option.or_assoc]
    congr 2
    cases r.cursor.assigned e <;> simp
  · intro m member
    rcases others.lines m member with earlier | ⟨i, line, at_, rule, rfl⟩
    · rcases first.lines m earlier with old | ⟨rfl, rfl⟩
      · exact .inl old
      · exact .inr ⟨0, raw, rfl, Cursor.readLine_of_reads said, rfl⟩
    · exact .inr ⟨i + 1, line, at_, rule, by omega⟩

/- All the lines are read, or the error names the first that says nothing. -/
theorem run_cases (sound : r.Sound) (n : ℕ) (raws : List (List Char)) :
    (∃ r', r.run n raws = .ok r' ∧ Ran r r' n raws) ∨
      (r.cursor.entries raws).length < raws.length ∧
        ∃ msg, r.run n raws = .error ⟨n + (r.cursor.entries raws).length + 1, msg⟩ := by
  induction raws generalizing r n with
  | nil => exact .inl ⟨r, rfl, ran_nil sound n⟩
  | cons raw rest ih =>
    rcases next_cases sound (n + 1) raw with ⟨e, r', said, first, entered⟩ | ⟨silent, msg, first⟩
    · have run : r.run n (raw :: rest) = r'.run (n + 1) rest := by
        simp only [Reader.run, first]
        rfl
      have entries : r.cursor.entries (raw :: rest) = e :: r'.cursor.entries rest := by
        simp only [Cursor.entries, said, entered.cursor]
      rw [run, entries]
      rcases ih entered.sound (n + 1) with ⟨r'', others, ran⟩ | ⟨short, msg, others⟩
      · exact .inl ⟨r'', others, ran_cons said entered ran⟩
      · refine .inr ⟨by simpa using short, msg, ?_⟩
        rw [others, List.length_cons]
        congr 2
        omega
    · have entries : r.cursor.entries (raw :: rest) = [] := by simp only [Cursor.entries, silent]
      refine .inr ⟨by simp [entries], msg, ?_⟩
      rw [entries]
      simp only [Reader.run, first]
      rfl

end Reader

/- A document is read whole, and then every key has its last assignment, or not at all. -/
theorem parseToml_cases (body : List Char) :
    (∃ doc, parseToml body = .ok doc ∧
        (Cursor.start.entries (lines body)).length = (lines body).length ∧
        (∀ p k, doc.get p k = latest (Assignment.valueAt p k) (settings body)) ∧
        ∀ m ∈ doc.rules.map Table.line, ∃ i raw, (lines body)[i]? = some raw ∧
          readLine raw = .ok .rule ∧ m = i + 1) ∨
      (Cursor.start.entries (lines body)).length < (lines body).length ∧
        ∃ msg, parseToml body = .error ⟨(Cursor.start.entries (lines body)).length + 1, msg⟩ := by
  rcases Reader.run_cases Reader.start_sound 0 (lines body) with ⟨r, run, ran⟩ | ⟨short, msg, run⟩
  · refine .inl ⟨r.doc, by simp only [parseToml, run]; rfl, ran.whole, fun p k => ?_, fun m member => ?_⟩
    · have empty : Reader.start.doc.get p k = none := by
        cases p <;> simp [Reader.start, Doc.empty, Doc.get]
      rw [ran.get, empty, Option.or_none]
      rfl
    · rcases ran.lines m member with none | ⟨i, raw, at_, rule, rfl⟩
      · cases none
      · exact ⟨i, raw, at_, rule, by omega⟩
  · refine .inr ⟨short, msg, ?_⟩
    rw [Nat.zero_add] at run
    simp only [parseToml, run]
    rfl

end Stallwatch.Toml
