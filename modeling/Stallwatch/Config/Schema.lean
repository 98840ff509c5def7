import Stallwatch.Config.Rules

/-! The schema against what is read. Settings are looked up by name and type after the
document has been parsed, so a setting that is never looked up is dropped in silence. -/
namespace Stallwatch

open Text Toml

def ruleTexts : List (List Char) := ["name".toList, "when".toList, "run".toList, "log".toList]

namespace Toml

/-- The key is one of its table's, and the value has the type the key is read as. -/
def Assignment.fits (a : Assignment) : Bool :=
  match a.place with
  | .table name => Setting.all.any fun s => s.table = name && s.key = a.key && (s.read a.val).isSome
  | .rule _ =>
    match a.val with
    | .str _ => ruleTexts.contains a.key
    | .bool _ => a.key = notify
    | _ => false

/-- The number of the first line that is no entry, or a setting outside the schema. -/
def Cursor.firstFault (c : Cursor) (n : ℕ) : List (List Char) → Option ℕ
  | [] => none
  | raw :: rest =>
    match c.reads raw with
    | none => some (n + 1)
    | some e =>
      if (c.assigned e).all Assignment.fits then (c.after e).firstFault (n + 1) rest else some (n + 1)

theorem Cursor.assignments_cons (c : Cursor) (e : Entry) (es : List Entry) :
    c.assignments (e :: es) = (c.assigned e).toList ++ (c.after e).assignments es := rfl

variable {c : Cursor}

/- Where every setting fits, only a line that is no entry is at fault. -/
theorem firstFault_fits {raws : List (List Char)} (n : ℕ)
    (fit : ∀ a ∈ c.assignments (c.entries raws), a.fits = true) :
    c.firstFault n raws =
      if (c.entries raws).length < raws.length then some (n + (c.entries raws).length + 1) else none := by
  induction raws generalizing c n with
  | nil => rfl
  | cons raw rest ih =>
    cases said : c.reads raw with
    | none => simp [Cursor.firstFault, Cursor.entries, said]
    | some e =>
      have entries : c.entries (raw :: rest) = e :: (c.after e).entries rest := by
        simp only [Cursor.entries, said]
      rw [entries, Cursor.assignments_cons] at fit
      have here : (c.assigned e).all Assignment.fits = true := by
        cases assigned : c.assigned e with
        | none => rfl
        | some a => exact fit a (by simp [assigned])
      have others := ih (n + 1) fun a member => fit a (List.mem_append_right _ member)
      rw [entries, Cursor.firstFault]
      simp only [said, here, if_true, others, List.length_cons, Nat.add_lt_add_iff_right]
      congr 2
      omega

/- A setting that does not fit is at fault before any later line is. -/
theorem firstFault_misfit {raws : List (List Char)} (n : ℕ) {a : Assignment}
    (among : a ∈ c.assignments (c.entries raws)) (misfit : a.fits = false) :
    ∃ m key val raw, c.firstFault n raws = some (n + m + 1) ∧ m < (c.entries raws).length ∧
      raws[m]? = some raw ∧ readLine raw = .ok (.setting key val) := by
  induction raws generalizing c n with
  | nil => cases among
  | cons raw rest ih =>
    cases said : c.reads raw with
    | none =>
      simp only [Cursor.entries, said] at among
      cases among
    | some e =>
      have entries : c.entries (raw :: rest) = e :: (c.after e).entries rest := by
        simp only [Cursor.entries, said]
      rw [entries, Cursor.assignments_cons] at among
      rw [entries]
      simp only [Cursor.firstFault, said]
      cases here : (c.assigned e).all Assignment.fits with
      | false =>
        obtain ⟨key, val, rfl⟩ : ∃ key val, e = .setting key val := by
          cases e with
          | setting key val => exact ⟨key, val, rfl⟩
          | blank => cases here
          | rule => cases here
          | table name => cases here
        exact ⟨0, key, val, raw, by simp, by simp, rfl, Cursor.readLine_of_reads said⟩
      | true =>
        have later : a ∈ (c.after e).assignments ((c.after e).entries rest) := by
          rcases List.mem_append.mp among with first | later
          · rw [Option.mem_toList] at first
            rw [first, Option.all_some, misfit] at here
            contradiction
          · exact later
        obtain ⟨m, key, val, line, fault, less, at_, setting⟩ := ih (n + 1) later
        refine ⟨m + 1, key, val, line, ?_, by simpa using less, by simpa using at_, setting⟩
        rw [if_pos rfl, fault]
        congr 1
        omega

theorem fits_table {name key : List Char} {val : Val}
    (fit : (⟨.table name, key, val⟩ : Assignment).fits = true) :
    ∃ s : Setting, s.table = name ∧ s.key = key ∧ ∃ v, s.read val = some v := by
  obtain ⟨s, _, fit⟩ := List.any_eq_true.mp fit
  simp only [Bool.and_eq_true, decide_eq_true_eq] at fit
  exact ⟨s, fit.1.1, fit.1.2, Option.isSome_iff_exists.mp fit.2⟩

theorem fits_rule {i : ℕ} {key : List Char} {val : Val}
    (fit : (⟨.rule i, key, val⟩ : Assignment).fits = true) :
    (key ∈ ruleTexts ∧ ∃ text, val = .str text) ∨ key = notify ∧ ∃ b, val = .bool b := by
  cases val with
  | str text => exact .inl ⟨List.contains_iff_mem.mp fit, text, rfl⟩
  | bool b => exact .inr ⟨of_decide_eq_true fit, b, rfl⟩
  | int n => cases fit
  | arr items => cases fit

end Toml

namespace Config

variable {f : Rounding}

theorem toRule_err {i : ℕ} {t : Table} {e : TomlError} (failed : toRule f i t = .err e) :
    e.line = t.line := by
  unfold toRule at failed
  split at failed
  · cases failed
    rfl
  · split at failed
    · cases failed
    · cases failed
      rfl
    · cases failed

theorem toRules_err {tables : List Table} {i : ℕ} {e : TomlError}
    (failed : toRules f i tables = .err e) : e.line ∈ tables.map Table.line := by
  induction tables generalizing i with
  | nil => cases failed
  | cons first rest ih =>
    rw [List.map_cons, List.mem_cons]
    rw [toRules] at failed
    cases own : toRule f i first with
    | panic =>
      rw [own] at failed
      cases failed
    | err e' =>
      rw [own] at failed
      cases failed
      exact .inl (toRule_err own)
    | ok rule =>
      rw [own, Outcome.ok_bind] at failed
      cases later : toRules f (i + 1) rest with
      | panic =>
        rw [later] at failed
        cases failed
      | ok rules =>
        rw [later] at failed
        cases failed
      | err e' =>
        rw [later] at failed
        cases failed
        exact .inr (ih later)

/-- `v` is what the configuration has for the key of a rule. -/
def RuleShows (f : Rounding) (rule : Rule) (key : List Char) (val : Val) : Prop :=
  (key = "name".toList ∧ val = .str rule.name) ∨
    (key = "when".toList ∧ ∃ expr, val = .str expr ∧ Filter.parse f expr = .ok rule.when) ∨
    (key = "run".toList ∧ ∃ text, val = .str text ∧ rule.action.run = some text) ∨
    (key = "log".toList ∧ ∃ text, val = .str text ∧ rule.action.log = some text) ∨
    key = notify ∧ val = .bool rule.action.notify

/-- The value assigned to a key of the body is the one in the configuration. The rules of
the body come after the first `base`. -/
def Shows (f : Rounding) (c : Config) (path : OsString) (base : ℕ) (key : List Char) (val : Val) :
    Place → Prop
  | .table name => ∃ s : Setting, s.table = name ∧ s.key = key ∧
      ∃ v, s.read val = some v ∧ s.get c = ⟨v, .file path⟩
  | .rule i => ∃ rule, c.rules[base + i]? = some rule ∧ RuleShows f rule key val

theorem string_eq {t : Table} {key text : List Char} (found : t.keys.lookup key = some (.str text)) :
    t.string key = some text := by
  rw [Table.string, found]

theorem bool_eq {t : Table} {key : List Char} {b : Bool} (found : t.keys.lookup key = some (.bool b)) :
    t.bool key = some b := by
  rw [Table.bool, found]

theorem toRule_shows {i : ℕ} {t : Table} {rule : Rule} (made : toRule f i t = .ok rule)
    {key : List Char} {val : Val} (found : t.keys.lookup key = some val)
    (fit : (⟨.rule i, key, val⟩ : Assignment).fits = true) : RuleShows f rule key val := by
  unfold toRule at made
  split at made
  · cases made
  · rename_i expr when_
    split at made
    · rename_i filter parsed
      cases made
      rcases fits_rule fit with ⟨among, text, rfl⟩ | ⟨rfl, b, rfl⟩
      · have read := string_eq found
        simp only [ruleTexts, List.mem_cons, List.not_mem_nil, or_false] at among
        rcases among with rfl | rfl | rfl | rfl
        · exact .inl ⟨rfl, by simp only [ruleName, read, Option.getD_some]⟩
        · rw [when_] at read
          cases read
          exact .inr (.inl ⟨rfl, expr, rfl, parsed⟩)
        · exact .inr (.inr (.inl ⟨rfl, text, rfl, read⟩))
        · exact .inr (.inr (.inr (.inl ⟨rfl, text, rfl, read⟩)))
      · have read : t.bool "notify".toList = some b := bool_eq found
        exact .inr (.inr (.inr (.inr ⟨rfl, by simp only [read, Option.getD_some]⟩)))
    · cases made
    · cases made

/-- An accepted body has only settings of the schema, and the last value of each key is in
the configuration; a body with a line at fault is refused under the number of the first. -/
structure NothingDropped (f : Rounding) (c : Config) (body : List Char) (path : OsString) : Prop where
  kept : ∀ c', c.applyToml f body path = .ok c' →
    (∀ a ∈ settings body, a.fits = true) ∧
      ∀ p k v, latest (Assignment.valueAt p k) (settings body) = some v →
        Shows f c' path c.rules.length k v p
  refused : ∀ n, Cursor.start.firstFault 0 (lines body) = some n →
    ∃ e, c.applyToml f body path = .err e ∧ e.line = n

theorem latest_fits {log : List Assignment} (fit : ∀ a ∈ log, a.fits = true) {p : Place}
    {k : List Char} {v : Val} (last : latest (Assignment.valueAt p k) log = some v) :
    (⟨p, k, v⟩ : Assignment).fits = true := by
  obtain ⟨before, a, after, rfl, value, _⟩ := (latest_eq_some _).mp last
  unfold Assignment.valueAt at value
  split at value
  · rename_i here
    obtain ⟨rfl, rfl⟩ := here
    cases value
    exact fit a (by simp)
  · cases value

theorem shows_last {c c' : Config} {body : List Char} {path : OsString}
    (applied : c.applyToml f body path = .ok c') (fit : ∀ a ∈ settings body, a.fits = true)
    {p : Place} {k : List Char} {v : Val}
    (last : latest (Assignment.valueAt p k) (settings body) = some v) :
    Shows f c' path c.rules.length k v p := by
  have own := latest_fits fit last
  cases p with
  | table name =>
    obtain ⟨s, rfl, rfl, value, read⟩ := fits_table own
    refine ⟨s, rfl, rfl, value, read, ?_⟩
    rw [applyToml_get applied, Setting.place, last, Option.bind_some, read]
    rfl
  | rule i =>
    obtain ⟨doc, rules, parsed, made, rfl⟩ := applyToml_eq_ok.mp applied
    rcases parseToml_cases body with ⟨doc', ok, _, get, _⟩ | ⟨_, msg, failed⟩
    · rw [parsed] at ok
      cases ok
      rw [← get] at last
      obtain ⟨t, at_, found⟩ := Option.bind_eq_some_iff.mp last
      obtain ⟨rule, here, own_rule⟩ := toRules_get made at_
      refine ⟨rule, ?_, toRule_shows own_rule found ?_⟩
      · rw [List.getElem?_append_right (Nat.le_add_right _ _), Nat.add_sub_cancel_left]
        exact here
      · exact own
    · rw [parsed] at failed
      cases failed

/-- No setting is dropped exactly when all that are read fit the schema. -/
theorem nothing_dropped_iff (f : Rounding) (c : Config) (body : List Char) (path : OsString) :
    NothingDropped f c body path ↔ ∀ a ∈ settings body, a.fits = true := by
  constructor
  · intro whole a among
    by_contra misfit
    rw [Bool.not_eq_true] at misfit
    obtain ⟨m, key, val, raw, fault, less, at_, setting⟩ := firstFault_misfit 0 among misfit
    obtain ⟨e, failed, line⟩ := whole.refused _ fault
    rcases parseToml_cases body with ⟨doc, parsed, _, _, headers⟩ | ⟨_, msg, unparsed⟩
    · simp only [applyToml, parsed] at failed
      split at failed
      · rename_i e' made
        cases failed
        obtain ⟨i, header, there, rule, same⟩ := headers _ (toRules_err made)
        have line_eq : i = m := by
          change e'.line = _ at line
          omega
        rw [line_eq, at_, Option.some.injEq] at there
        rw [← there, setting] at rule
        cases rule
      · cases failed
      · cases failed
    · simp only [applyToml, unparsed] at failed
      cases failed
      change _ + 1 = _ at line
      omega
  · intro fit
    refine ⟨fun c' applied => ⟨fit, fun p k v last => shows_last applied fit last⟩, fun n fault => ?_⟩
    rw [firstFault_fits 0 fit] at fault
    rcases parseToml_cases body with ⟨doc, _, entire, _, _⟩ | ⟨short, msg, unparsed⟩
    · rw [if_neg (by omega)] at fault
      cases fault
    · rw [if_pos short] at fault
      cases fault
      exact ⟨_, by simp only [applyToml, unparsed]; rfl, by simp [located]⟩

/-- A misspelt key. -/
def misspelt : List Char := "[capture]\nthreshhold_ms = 5\n".toList

theorem setting_dropped :
    Config.default.applyToml .exact misspelt (Utf8.bytes "config.toml".toList) = .ok Config.default ∧
      ⟨.table capture, "threshhold_ms".toList, .int 5⟩ ∈ settings misspelt ∧
      ¬ NothingDropped .exact Config.default misspelt (Utf8.bytes "config.toml".toList) := by
  have accepted : Config.default.applyToml .exact misspelt (Utf8.bytes "config.toml".toList) =
      .ok Config.default := by decide +kernel
  have fault : Cursor.start.firstFault 0 (lines misspelt) = some 2 := by decide +kernel
  refine ⟨accepted, by decide +kernel, fun whole => ?_⟩
  obtain ⟨e, failed, _⟩ := whole.refused 2 fault
  rw [accepted] at failed
  cases failed

end Config

end Stallwatch
