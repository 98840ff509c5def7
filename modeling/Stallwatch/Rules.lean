import Stallwatch.Cgroup
import Stallwatch.Config
import Stallwatch.Config.Expand
import Stallwatch.Incident.Jsonl
import Stallwatch.Logfile

/-! What the daemon does for the rules of an incident, and what the shell gets to read. -/
namespace Stallwatch.Rules

open Text Slots Config

inductive Effect where
  | notifySend (title body : List Char)
  | shell (cmd : List Char)
  | append (path line : List Char) (maxBytes : UInt64)
  deriving DecidableEq

section Fire

variable (meets : Filter → Stall → Bool) (incident : Incident)

/-- One turn of the loop: the first stall that matches fires the rule. -/
def fire (rule : Rule) : List Effect :=
  match incident.stalls.find? (meets rule.when) with
  | none => []
  | some hit =>
    (if rule.action.notify then
      [.notifySend ("stallwatch: ".toList ++ rule.name)
        (expand "{unit} froze you {delta_ms}ms on {resource}".toList hit)]
    else []) ++
    (rule.action.run.map fun template => .shell (expand template hit)).toList ++
    (rule.action.log.map fun path => .append path incident.toJsonl defaultMaxBytes).toList

def fireRules (rules : List Rule) : List Effect := rules.flatMap (fire meets incident)

end Fire

/-- The pieces between single quotes, with whether they are quoted. -/
def alternate : Bool → List (List Char) → List (Bool × List Char)
  | _, [] => []
  | quoted, p :: ps => (quoted, p) :: alternate (!quoted) ps

/-- A command as single quotes divide it. -/
def segments (cmd : List Char) : List (Bool × List Char) := alternate false (cmd.splitOn '\'')

/-- The placeholders other than `{unit}`, in the order of `expand`. -/
def expandOthers (template : List Char) (s : Stall) : List Char :=
  fill (figures s) (fill [cgroupSlot s] template)

/-- A segment of the template as it should stand in the command: the unit is placed between
quotes only. -/
def placeSegment (s : Stall) (seg : Bool × List Char) : Bool × List Char :=
  (seg.1, if seg.1 then expand seg.2 s else expandOthers seg.2 s)

/-- `{unit}` stands between quotes only. -/
def UnitQuoted (template : List Char) : Prop :=
  ∀ seg ∈ segments template, seg.1 = false → ¬ "{unit}".toList <:+: seg.2

/-- No quote comes into the command with the unit or with the cgroup. -/
def NoQuotePlaced (template : List Char) (s : Stall) : Prop :=
  ('\'' ∉ s.unit.toList ∨ ¬ "{unit}".toList <:+: template) ∧
    ('\'' ∉ s.cgroup.toList ∨
      ¬ "{cgroup}".toList <:+: replace "{unit}".toList s.unit.toList template)

theorem alternate_map (g : List Char → List Char) (quoted : Bool) (ps : List (List Char)) :
    alternate quoted (ps.map g) = (alternate quoted ps).map fun seg => (seg.1, g seg.2) := by
  induction ps generalizing quoted with
  | nil => rfl
  | cons p ps ih => rw [List.map_cons, alternate, ih]; rfl

theorem alternate_length (quoted : Bool) (ps : List (List Char)) :
    (alternate quoted ps).length = ps.length := by
  induction ps generalizing quoted with
  | nil => rfl
  | cons p ps ih => rw [alternate, List.length_cons, List.length_cons, ih]

section Stall

variable (s : Stall)

theorem unit_marked : Marked '{' [unitSlot s] := (placeholders_marked s).left.left

theorem cgroup_marked : Marked '{' [cgroupSlot s] := (placeholders_marked s).left.right

/- No quote is in a placeholder or in a number. -/
theorem quote_free : (∀ e ∈ [unitSlot s], '\'' ∉ e.1) ∧ (∀ e ∈ [cgroupSlot s], '\'' ∉ e.1) ∧
    (∀ e ∈ figures s, '\'' ∉ e.1) ∧ ∀ e ∈ figures s, '\'' ∉ e.2 := by
  have figure : ∀ e ∈ figures s, '\'' ∉ e.1 := by
    have patterns : ∀ p ∈ ["{resource}".toList, "{delta_ms}".toList, "{pct}".toList, "{peak}".toList],
        '\'' ∉ p := by decide
    exact fun e he => patterns e.1 (List.mem_map_of_mem (f := Prod.fst) he)
  have unit : '\'' ∉ "{unit}".toList := by decide
  have cgroup : '\'' ∉ "{cgroup}".toList := by decide
  exact ⟨List.forall_mem_singleton.mpr unit, List.forall_mem_singleton.mpr cgroup, figure,
    figures_clean s (fun r => by cases r <;> decide) rfl⟩

/- A quote is placed or it is not. -/
theorem placed_once {e : Slot Char} (marked : Marked '{' [e]) (t : List Char) :
    ('\'' ∉ e.2 ∨ ¬ e.1 <:+: t) ↔ starts [e] t * e.2.count '\'' = 0 := by
  rw [Nat.mul_eq_zero, starts_eq_zero marked, List.count_eq_zero]
  exact Or.comm

theorem noQuote_iff (t : List Char) : NoQuotePlaced t s ↔
    starts [unitSlot s] t * (unitSlot s).2.count '\'' = 0 ∧
      starts [cgroupSlot s] (fill [unitSlot s] t) * (cgroupSlot s).2.count '\'' = 0 := by
  rw [← placed_once (unit_marked s), ← placed_once (cgroup_marked s)]
  rfl

/- The quotes of the command are those of the template and those that were placed. -/
theorem count_quotes (t : List Char) : (expand t s).count '\'' = t.count '\'' +
    starts [unitSlot s] t * (unitSlot s).2.count '\'' +
      starts [cgroupSlot s] (fill [unitSlot s] t) * (cgroupSlot s).2.count '\'' := by
  obtain ⟨unit, cgroup, patterns, values⟩ := quote_free s
  have alone : ∀ {e}, Marked '{' [e] → Marked '{' ([] ++ [e]) := fun marked => marked
  have first := count_fill (alone (unit_marked s)) '\'' t
  have second := count_fill (alone (cgroup_marked s)) '\'' (fill [unitSlot s] t)
  have none : (unitSlot s).1.count '\'' = 0 := List.count_eq_zero.mpr (unit _ (List.mem_singleton_self _))
  have none' : (cgroupSlot s).1.count '\'' = 0 := List.count_eq_zero.mpr (cgroup _ (List.mem_singleton_self _))
  rw [none, fill_none, List.nil_append] at first
  rw [none', fill_none, List.nil_append] at second
  rw [expand_eq, count_other (figures_marked s) fun e he => ⟨patterns e he, values e he⟩]
  omega

/- Without a quote the pieces of the template are expanded one by one. -/
theorem splitOn_expand {t : List Char} (clean : NoQuotePlaced t s) :
    (expand t s).splitOn '\'' = (t.splitOn '\'').map (expand · s) := by
  obtain ⟨unit, cgroup, patterns, values⟩ := quote_free s
  have first : '\'' ∉ (unitSlot s).2 ∨ ¬ (unitSlot s).1 <:+: t := clean.1
  have second : '\'' ∉ (cgroupSlot s).2 ∨ ¬ (cgroupSlot s).1 <:+: fill [unitSlot s] t := clean.2
  have placed : ∀ {e : Slot Char} {t}, Marked '{' [e] → ('\'' ∉ e.2 ∨ ¬ e.1 <:+: t) →
      (∀ f ∈ [e], '\'' ∉ f.2) ∨ starts [e] t = 0 := by
    intro e t marked free
    refine free.imp (fun free f hf => List.mem_singleton.mp hf ▸ free) (starts_eq_zero marked).mpr
  rw [expand_eq, splitOn_fill (figures_marked s) patterns (.inl values),
    splitOn_fill (cgroup_marked s) cgroup (placed (cgroup_marked s) second),
    splitOn_fill (unit_marked s) unit (placed (unit_marked s) first), List.map_map, List.map_map]
  exact List.map_congr_left fun p _ => (expand_eq s p).symm

/-- The shell sees the template's segments, each with its values in it, exactly when no
quote is placed. -/
theorem segments_expand {t : List Char} (quoted : UnitQuoted t) :
    segments (expand t s) = (segments t).map (placeSegment s) ↔ NoQuotePlaced t s := by
  constructor
  · intro same
    have length := congrArg List.length same
    rw [List.length_map, segments, segments, alternate_length, alternate_length, length_splitOn,
      length_splitOn, count_quotes] at length
    rw [noQuote_iff]
    omega
  · intro clean
    rw [segments, splitOn_expand s clean, alternate_map]
    apply List.map_congr_left
    rintro ⟨inside, text⟩ member
    cases inside with
    | true => rfl
    | false =>
      have none : starts [unitSlot s] text = 0 :=
        (starts_eq_zero (unit_marked s)).mpr (quoted _ member rfl)
      rw [expand_eq, fill_still none]
      rfl

end Stall

section Fire

variable {meets : Filter → Stall → Bool} {incident : Incident} {rule : Rule} {hit : Stall}
  {template : List Char}

/- The command that is run. -/
theorem mem_fire_shell (found : incident.stalls.find? (meets rule.when) = some hit)
    (run : rule.action.run = some template) (cmd : List Char) :
    .shell cmd ∈ fire meets incident rule ↔ cmd = expand template hit := by
  simp only [fire, found, run, Option.map_some, Option.toList_some, List.mem_append, List.mem_singleton,
    Effect.shell.injEq]
  constructor
  · rintro ((notify | same) | log)
    · split at notify
      · cases List.mem_singleton.mp notify
      · cases notify
    · exact same
    · cases written : rule.action.log with
      | none =>
        rw [written] at log
        cases log
      | some path =>
        rw [written] at log
        cases List.mem_singleton.mp log
  · exact fun same => .inl (.inr same)

/-- What the shell reads for a rule that fires: the segments of its template, each with the
values in it, exactly when no quote comes with the unit or the cgroup. -/
theorem unit_contained (found : incident.stalls.find? (meets rule.when) = some hit)
    (run : rule.action.run = some template) (quoted : UnitQuoted template) :
    (∀ cmd, .shell cmd ∈ fire meets incident rule →
        segments cmd = (segments template).map (placeSegment hit)) ↔ NoQuotePlaced template hit := by
  rw [← segments_expand hit quoted]
  constructor
  · exact fun all => all _ ((mem_fire_shell found run _).mpr rfl)
  · intro same cmd member
    rw [(mem_fire_shell found run cmd).mp member]
    exact same

end Fire

def stalled (unit : String) (cgroup : PathBuf) : Stall :=
  ⟨unit, cgroup.toStringLossy, .io, .full, 3000000, .nan, .nan⟩

def incidentOf (s : Stall) : Incident := ⟨1700000000, 3000000, ["io"], [s], [], [], []⟩

def diskTemplate : List Char := "notify-send 'Disk stall' '{unit} froze you {delta_ms}ms'".toList

def diskRule : Rule := ⟨"disk".toList, ⟨.truthy "unit".toList, "unit".toList⟩, ⟨some diskTemplate, none, false⟩⟩

theorem diskTemplate_quoted : UnitQuoted diskTemplate := by
  unfold UnitQuoted
  decide +kernel

theorem unit_contained_plain :
    NoQuotePlaced diskTemplate (stalled "a" (.absolute ["a.service"])) ∧
      ∀ cmd, .shell cmd ∈ fire (fun _ _ => true) (incidentOf (stalled "a" (.absolute ["a.service"]))) diskRule →
        segments cmd = (segments diskTemplate).map (placeSegment (stalled "a" (.absolute ["a.service"]))) := by
  have clean : NoQuotePlaced diskTemplate (stalled "a" (.absolute ["a.service"])) := by
    refine ⟨.inl ?_, .inl ?_⟩ <;> decide +kernel
  exact ⟨clean, (unit_contained rfl rfl diskTemplate_quoted).mpr clean⟩

/- A name that `systemd-escape` writes for a text with quotes. -/
def quotedPath : PathBuf := .absolute ["sys", "fs", "cgroup", "a\\x27;reboot;\\x27.service"]

theorem unit_escapes :
    Cgroup.friendlyName quotedPath = .ok "a';reboot;'" ∧
      fireRules (fun _ _ => true) (incidentOf (stalled "a';reboot;'" quotedPath)) [diskRule] =
        [.shell "notify-send 'Disk stall' 'a';reboot;' froze you 3000ms'".toList] ∧
      (false, ";reboot;".toList) ∈ segments "notify-send 'Disk stall' 'a';reboot;' froze you 3000ms'".toList ∧
      segments "notify-send 'Disk stall' 'a';reboot;' froze you 3000ms'".toList ≠
        (segments diskTemplate).map (placeSegment (stalled "a';reboot;'" quotedPath)) := by
  refine ⟨?_, ?_, ?_, ?_⟩ <;> decide +kernel

end Stallwatch.Rules
