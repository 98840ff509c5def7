import Stallwatch.Config.Settings

/-! The rules of a body. Each `[[rule]]` header begins one, in the order of the lines, and a rule is
what its own table says. -/
namespace Stallwatch

open Text Toml

namespace Toml

def Val.asText : Val → Option (List Char)
  | .str s => some s
  | _ => none

def Val.asFlag : Val → Option Bool
  | .bool b => some b
  | _ => none

theorem string_eq_bind (t : Table) (k : List Char) : t.string k = (t.keys.lookup k).bind Val.asText := by
  unfold Table.string
  cases t.keys.lookup k with
  | none => rfl
  | some v => cases v <;> rfl

theorem bool_eq_bind (t : Table) (k : List Char) : t.bool k = (t.keys.lookup k).bind Val.asFlag := by
  unfold Table.bool
  cases t.keys.lookup k with
  | none => rfl
  | some v => cases v <;> rfl

/-- The number of rules that are begun. -/
def headers (body : List Char) : ℕ := (Cursor.start.entries (lines body)).count .rule

/-- What the rule with number `i` has for a key in the end. -/
def said (body : List Char) (i : ℕ) (key : String) : Option Val :=
  latest (Assignment.valueAt (.rule i) key.toList) (settings body)

theorem rules_after (c : Cursor) (es : List Entry) :
    (es.foldl Cursor.after c).rules = c.rules + es.count .rule := by
  induction es generalizing c with
  | nil => rfl
  | cons e es ih =>
    rw [List.foldl_cons, ih, List.count_cons]
    cases e with
    | rule => simp [Cursor.after]; omega
    | blank | table | setting => simp [Cursor.after]

theorem parseToml_headers {body : List Char} {doc : Doc} (parsed : parseToml body = .ok doc) :
    doc.rules.length = headers body := by
  rcases Reader.run_cases Reader.start_sound 0 (lines body) with ⟨r, run, ran⟩ | ⟨_, msg, run⟩
  · simp only [parseToml, run] at parsed
    cases parsed
    have counted := congrArg Cursor.rules ran.cursor
    rw [rules_after] at counted
    exact counted.trans (Nat.zero_add _)
  · simp only [parseToml, run] at parsed
    cases parsed

/- The table of a rule holds what the rule says. -/
theorem lookup_said {body : List Char} {doc : Doc} (parsed : parseToml body = .ok doc) {i : ℕ} {t : Table}
    (at_ : doc.rules[i]? = some t) (key : String) : t.keys.lookup key.toList = said body i key := by
  rcases parseToml_cases body with ⟨doc', ok, _, get, _⟩ | ⟨_, msg, failed⟩
  · cases parsed.symm.trans ok
    rw [said, ← get, Doc.get, at_, Option.bind_some]
  · cases parsed.symm.trans failed

end Toml

namespace Config

variable {f : Rounding}

/- Each rule is made of its own table. -/
theorem toRules_get {tables : List Table} {rules : List Rule} {i : ℕ}
    (made : toRules f i tables = .ok rules) {j : ℕ} {t : Table} (at_ : tables[j]? = some t) :
    ∃ rule, rules[j]? = some rule ∧ toRule f (i + j) t = .ok rule := by
  induction tables generalizing rules i j with
  | nil => cases at_
  | cons first rest ih =>
    obtain ⟨rule, own, more⟩ := Outcome.bind_eq_ok.mp made
    obtain ⟨others, later, same⟩ := Outcome.bind_eq_ok.mp more
    cases same
    cases j with
    | zero =>
      cases at_
      exact ⟨rule, rfl, own⟩
    | succ j =>
      obtain ⟨found, here, made⟩ := ih later at_
      exact ⟨found, here, by rw [show i + (j + 1) = i + 1 + j by omega]; exact made⟩

theorem toRules_length {tables : List Table} {rules : List Rule} {i : ℕ}
    (made : toRules f i tables = .ok rules) : rules.length = tables.length := by
  induction tables generalizing rules i with
  | nil =>
    cases made
    rfl
  | cons first rest ih =>
    obtain ⟨rule, _, more⟩ := Outcome.bind_eq_ok.mp made
    obtain ⟨others, later, same⟩ := Outcome.bind_eq_ok.mp more
    cases same
    rw [List.length_cons, List.length_cons, ih later]

/-- `rule` is the one that the body has under number `i`. -/
structure Ruled (f : Rounding) (body : List Char) (i : ℕ) (rule : Rule) : Prop where
  name : rule.name = ((said body i "name").bind Val.asText).getD ("rule ".toList ++ decimal (i + 1))
  when : ∃ expr, said body i "when" = some (.str expr) ∧ Filter.parse f expr = .ok rule.when
  run : rule.action.run = (said body i "run").bind Val.asText
  log : rule.action.log = (said body i "log").bind Val.asText
  notify : rule.action.notify = ((said body i "notify").bind Val.asFlag).getD false

/-- One rule for each header of the body, in their order. -/
structure RulesOf (f : Rounding) (body : List Char) (rules : List Rule) : Prop where
  count : rules.length = headers body
  each : ∀ i rule, rules[i]? = some rule → Ruled f body i rule

theorem asText_eq_some {v : Option Val} {s : List Char} (text : v.bind Val.asText = some s) :
    v = some (.str s) := by
  obtain ⟨w, rfl, own⟩ := Option.bind_eq_some_iff.mp text
  cases w <;> cases own
  rfl

theorem toRule_ruled {body : List Char} {doc : Doc} (parsed : parseToml body = .ok doc) {i : ℕ} {t : Table}
    (at_ : doc.rules[i]? = some t) {rule : Rule} (made : toRule f i t = .ok rule) : Ruled f body i rule := by
  have told := lookup_said parsed at_
  have text (key : String) : t.string key.toList = (said body i key).bind Val.asText := by
    rw [string_eq_bind, told]
  have flag (key : String) : t.bool key.toList = (said body i key).bind Val.asFlag := by
    rw [bool_eq_bind, told]
  unfold toRule at made
  split at made
  · cases made
  · rename_i expr when_
    split at made
    · rename_i filter own
      cases made
      exact ⟨by rw [ruleName, text], ⟨expr, asText_eq_some ((text "when").symm.trans when_), own⟩,
        text "run", text "log", by rw [flag]⟩
    · cases made
    · cases made

/- The rules that a body adds are its own, whatever it is applied to. -/
theorem applyToml_rules {c c' : Config} {body : List Char} {path : OsString}
    (applied : c.applyToml f body path = .ok c') :
    ∃ rules, RulesOf f body rules ∧ c'.rules = c.rules ++ rules := by
  obtain ⟨doc, rules, parsed, made, rfl⟩ := applyToml_eq_ok.mp applied
  have length := toRules_length made
  refine ⟨rules, ⟨length.trans (parseToml_headers parsed), fun i rule here => ?_⟩, rfl⟩
  have inside : i < doc.rules.length := length ▸ (List.getElem?_eq_some_iff.mp here).1
  have at_ := List.getElem?_eq_getElem inside
  obtain ⟨same, there, own⟩ := toRules_get made at_
  cases here.symm.trans there
  rw [Nat.zero_add] at own
  exact toRule_ruled parsed at_ own

end Config

end Stallwatch
