import Stallwatch.Incident.RoundTrip
import Stallwatch.Logfile.Shared
import Stallwatch.Rules

/-! What the logs of the rules hold after a run, beside the log of all incidents. -/
namespace Stallwatch.Rules

open Files Logfile

variable (meets : Filter → Stall → Bool)

/-- The path and the line, where the effect writes to a log. -/
def Effect.written : Effect → Option (List Char × List Char)
  | .append path line _ => some (path, line)
  | _ => none

/-- What one capture writes to logs: the incident to its own log, then what the rules write. -/
def written (incidentLog : List Char) (rules : List Rule) (i : Incident) : List (List Char × List Char) :=
  (incidentLog, i.toJsonl) :: (fireRules meets i rules).filterMap Effect.written

/-- The calls of a run of captures; `renames` answers for the file system. -/
def calls (incidentLog : List Char) (rules : List Rule) (renames : ℕ → Bool) (incidents : List Incident) :
    List Logfile.Call :=
  (incidents.flatMap (written meets incidentLog rules)).zipIdx.map fun w => ⟨w.1.1, renames w.2, w.1.2⟩

def hits (i : Incident) (rule : Rule) : Bool := i.stalls.any (meets rule.when)

/-- As often as an incident belongs into a log. -/
def records (incidentLog : List Char) (rules : List Rule) (path : List Char) (i : Incident) :
    List Incident :=
  (if incidentLog = path then [i] else []) ++
    (rules.filter fun rule => rule.action.log = some path ∧ hits meets i rule = true).map fun _ => i

/-- The places where something is logged. -/
def paths (incidentLog : List Char) (rules : List Rule) : List (List Char) :=
  incidentLog :: rules.filterMap fun rule => rule.action.log

theorem fire_written (i : Incident) (rule : Rule) : (fire meets i rule).filterMap Effect.written =
    if hits meets i rule then (rule.action.log.map fun path => (path, i.toJsonl)).toList else [] := by
  unfold fire hits
  cases found : i.stalls.find? (meets rule.when) with
  | none =>
    have misses : i.stalls.any (meets rule.when) = false := by
      simpa using List.find?_eq_none.mp found
    rw [misses]
    rfl
  | some hit =>
    have met : i.stalls.any (meets rule.when) = true :=
      List.any_eq_true.mpr ⟨hit, List.mem_of_find?_eq_some found, List.find?_some found⟩
    rw [met]
    cases notify : rule.action.notify <;> cases run : rule.action.run <;> cases log : rule.action.log <;> rfl

theorem filter_written (path : List Char) (i : Incident) (rules : List Rule) :
    ((fireRules meets i rules).filterMap Effect.written).filter (fun w => w.1 = path) =
      (rules.filter fun rule => rule.action.log = some path ∧ hits meets i rule = true).map
        fun _ => (path, i.toJsonl) := by
  induction rules with
  | nil => rfl
  | cons rule rules ih =>
    rw [fireRules, List.flatMap_cons, List.filterMap_append, List.filter_append, ← fireRules, ih,
      fire_written,
      List.filter_cons]
    by_cases hit : hits meets i rule = true
    · cases log : rule.action.log with
      | none => simp [hit]
      | some p => by_cases same : p = path <;> simp [hit, same]
    · simp [hit]

/- The incidents that belong into a log are those whose lines are written there. -/
theorem filter_records (incidentLog : List Char) (rules : List Rule) (path : List Char) (i : Incident) :
    ((written meets incidentLog rules i).filter fun w => w.1 = path).map Prod.snd =
      (records meets incidentLog rules path i).map Incident.toJsonl := by
  rw [written, records, List.filter_cons, filter_written]
  by_cases same : incidentLog = path <;> simp [same]

theorem callsTo_zipIdx (path : List Char) (renames : ℕ → Bool) (ws : List (List Char × List Char))
    (n : ℕ) :
    (callsTo path ((ws.zipIdx n).map fun w => ⟨w.1.1, renames w.2, w.1.2⟩)).map Prod.snd =
      (ws.filter fun w => w.1 = path).map Prod.snd := by
  induction ws generalizing n with
  | nil => rfl
  | cons w ws ih =>
    have rest := ih (n + 1)
    rw [callsTo] at rest
    rw [callsTo, List.zipIdx_cons, List.map_cons, List.filter_cons, List.filter_cons]
    by_cases same : w.1 = path <;> simp [same, rest]

/-- The lines of a log are those of the incidents that belong there. -/
theorem callsTo_lines (incidentLog : List Char) (rules : List Rule) (renames : ℕ → Bool)
    (incidents : List Incident) (path : List Char) :
    (callsTo path (calls meets incidentLog rules renames incidents)).map Prod.snd =
      (incidents.flatMap (records meets incidentLog rules path)).map Incident.toJsonl := by
  rw [calls, callsTo_zipIdx]
  induction incidents with
  | nil => rfl
  | cons i incidents ih =>
    rw [List.flatMap_cons, List.filter_append, List.map_append, ih, filter_records, List.flatMap_cons,
      List.map_append]

theorem lines_text (is : List Incident) : Text.lines (text (is.map Incident.toJsonl)) =
    is.map Incident.toJsonl := by
  refine Text.lines_write _ ?_ ?_
  · exact List.forall_mem_map.mpr fun i _ => i.toJsonl_oneLine
  · refine List.forall_mem_map.mpr fun i _ => ?_
    rw [i.toJsonl_last]
    decide

/- The end of a mapped list is the mapped end. -/
theorem suffix_map {α β : Type} {g : α → β} {xs : List α} {ys : List β} (suffix : ys <:+ xs.map g) :
    ∃ zs, zs <:+ xs ∧ ys = zs.map g := by
  rw [List.suffix_iff_eq_drop] at suffix
  exact ⟨_, List.drop_suffix _ _, by rw [List.map_drop]; exact suffix⟩

theorem written_path {incidentLog : List Char} {rules : List Rule} {i : Incident}
    {w : List Char × List Char}
    (member : w ∈ written meets incidentLog rules i) : w.1 ∈ paths incidentLog rules := by
  rcases List.mem_cons.mp member with rfl | fired
  · exact List.mem_cons_self
  · obtain ⟨effect, among, logs⟩ := List.mem_filterMap.mp fired
    obtain ⟨rule, listed, here⟩ := List.mem_flatMap.mp among
    have inside : w ∈ (fire meets i rule).filterMap Effect.written :=
      List.mem_filterMap.mpr ⟨effect, here, logs⟩
    rw [fire_written] at inside
    split at inside
    · obtain ⟨path, log, rfl⟩ := Option.map_eq_some_iff.mp (Option.mem_toList.mp inside)
      exact List.mem_cons_of_mem _ (List.mem_filterMap.mpr ⟨rule, listed, log⟩)
    · cases inside

theorem calls_path (incidentLog : List Char) (rules : List Rule) (renames : ℕ → Bool)
    (incidents : List Incident) :
    ∀ c ∈ calls meets incidentLog rules renames incidents, c.path ∈ paths incidentLog rules := by
  intro c member
  obtain ⟨w, among, rfl⟩ := List.mem_map.mp member
  have listed : w.1 ∈ incidents.flatMap (written meets incidentLog rules) :=
    List.fst_mem_of_mem_zipIdx among
  obtain ⟨i, _, here⟩ := List.mem_flatMap.mp listed
  exact written_path meets here

theorem callsTo_renames (incidentLog : List Char) (rules : List Rule) {renames : ℕ → Bool}
    (always : ∀ n, renames n = true) (incidents : List Incident) (path : List Char) :
    ∀ c ∈ callsTo path (calls meets incidentLog rules renames incidents), c.1 = true := by
  intro c member
  obtain ⟨call, among, rfl⟩ := List.mem_map.mp member
  obtain ⟨w, _, rfl⟩ := List.mem_map.mp (List.mem_of_mem_filter among)
  exact always _

theorem mem_of_records {incidentLog : List Char} {rules : List Rule} {path : List Char}
    {incidents : List Incident}
    {i : Incident} (member : i ∈ incidents.flatMap (records meets incidentLog rules path)) : i ∈ incidents := by
  obtain ⟨j, listed, here⟩ := List.mem_flatMap.mp member
  have same : i = j := by
    rcases List.mem_append.mp here with own | ruled
    · split at own
      · exact List.mem_singleton.mp own
      · cases own
    · obtain ⟨_, _, same⟩ := List.mem_map.mp ruled
      exact same.symm
  rwa [same]

/-- Whatever the other logs are, a log under a path of its own holds the newest of the incidents
that belong there, each as often as a rule has put it there, on a line of its own. Within the cap
and one line for each generation it stays when no rename fails. -/
theorem logs_kept {κ : Type} [DecidableEq κ] (place : List Char → κ) (fs : Store κ)
    (incidentLog : List Char)
    (rules : List Rule) (renames : ℕ → Bool) (incidents : List Incident) {path : List Char}
    (proper : Proper place path) (fresh : view place fs path = Files.absent)
    (apart : ∀ q ∈ paths incidentLog rules, q = path ∨ Apart place path q) {final : Files}
    (after : final = view place
      (Logfile.appendAll place defaultMaxBytes fs (calls meets incidentLog rules renames incidents)) path) :
    (∃ kept, kept <:+ incidents.flatMap (records meets incidentLog rules path) ∧
        (incidents.flatMap (records meets incidentLog rules path) ≠ [] → kept ≠ []) ∧
        Text.lines final.contents = kept.map Incident.toJsonl) ∧
      ((∀ n, renames n = true) → ∀ l,
        (∀ i ∈ incidents, (Utf8.bytes i.toJsonl).length ≤ l) →
          final.size ≤ defaultMaxBytes.toNat + l ∧ final.previousSize ≤ defaultMaxBytes.toNat + l) := by
  have alone : final = log defaultMaxBytes (callsTo path (calls meets incidentLog rules renames incidents)) := by
    rw [after, view_appendAll proper fun c member => ?_, fresh]
    · rfl
    · exact apart c.path (calls_path meets incidentLog rules renames incidents c member)
  have lines := callsTo_lines meets incidentLog rules renames incidents path
  constructor
  · obtain ⟨kept, suffix, newest, contents⟩ :=
      log_suffix defaultMaxBytes (callsTo path (calls meets incidentLog rules renames incidents))
    rw [lines] at suffix
    obtain ⟨is, among, rfl⟩ := suffix_map suffix
    refine ⟨is, among, fun some none => newest ?_ (by rw [none]; rfl),
      by rw [alone, contents, lines_text]⟩
    intro empty
    rw [empty] at lines
    exact some (List.map_eq_nil_iff.mp lines.symm)
  · intro always l short
    have renamed : Renamed defaultMaxBytes (callsTo path (calls meets incidentLog rules renames incidents)) := by
      intro past call rest split _
      have among : call ∈ callsTo path (calls meets incidentLog rules renames incidents) := by
        rw [split]
        exact List.mem_append_right _ List.mem_cons_self
      exact callsTo_renames meets incidentLog rules always incidents path call among
    have within := log_within (by decide : 0 < defaultMaxBytes.toNat) renamed (l := l) ?_
    · rw [alone]
      exact ⟨within.live, within.previous⟩
    · intro call among
      have line : call.2 ∈ (incidents.flatMap (records meets incidentLog rules path)).map Incident.toJsonl := by
        rw [← lines]
        exact List.mem_map_of_mem among
      obtain ⟨i, recorded, same⟩ := List.mem_map.mp line
      rw [← same]
      exact short i (mem_of_records meets recorded)

/-- A rule with a log of its own, beside the log of all incidents. -/
def disk : Rule := ⟨"disk".toList, ⟨.truthy "unit".toList, "unit".toList⟩,
    ⟨none, some "/s/disk.jsonl".toList, false⟩⟩

/-- As many incidents as make a log full, and one more. -/
def nights : List Incident :=
  List.replicate (turn defaultMaxBytes Incident.mixed.toJsonl) Incident.mixed ++
    [{ Incident.mixed with atUnix := 1700086400 }]

theorem nights_disk : nights.flatMap
    (records (fun _ _ => true) "/s/incidents.jsonl".toList [disk] "/s/disk.jsonl".toList) = nights := by
  have once : ∀ i ∈ nights,
      records (fun _ _ => true) "/s/incidents.jsonl".toList [disk] "/s/disk.jsonl".toList i = [i] := by
    intro i member
    rcases List.mem_append.mp member with many | last
    · cases List.eq_of_mem_replicate many
      rfl
    · cases List.mem_singleton.mp last
      rfl
  rw [List.flatMap_congr once, List.flatMap_singleton']

theorem renamed_lines {calls : List Append} (always : ∀ c ∈ calls, c.1 = true) :
    calls = (calls.map Prod.snd).map fun line => (true, line) := by
  rw [List.map_map]
  exact (List.map_id _).symm.trans (List.map_congr_left fun c member => Prod.ext (always c member) rfl)

/- The calls for the log of the rule, one for every incident. -/
theorem nights_calls : callsTo "/s/disk.jsonl".toList
    (calls (fun _ _ => true) "/s/incidents.jsonl".toList [disk] (fun _ => true) nights) =
      nights.map fun i => (true, i.toJsonl) := by
  have lines := callsTo_lines (fun _ _ => true) "/s/incidents.jsonl".toList [disk] (fun _ => true)
    nights "/s/disk.jsonl".toList
  have always := callsTo_renames (fun _ _ => true) "/s/incidents.jsonl".toList [disk]
    (fun _ => rfl) nights "/s/disk.jsonl".toList
  rw [nights_disk] at lines
  rw [renamed_lines always, lines, List.map_map]
  rfl

theorem disk_proper : Proper id "/s/disk.jsonl".toList := by
  unfold Proper
  decide

theorem disk_apart : ∀ q ∈ paths "/s/incidents.jsonl".toList [disk],
    q = "/s/disk.jsonl".toList ∨ Apart id "/s/disk.jsonl".toList q := by
  intro q member
  have either : q = "/s/incidents.jsonl".toList ∨ q = "/s/disk.jsonl".toList := by
    simpa [paths, disk] using member
  rcases either with rfl | rfl
  · exact .inr ⟨by decide, by decide, by decide, by decide⟩
  · exact .inl rfl

/-- The logs after these incidents. -/
def morning : Files := view id (Logfile.appendAll id defaultMaxBytes (fun _ => none)
  (calls (fun _ _ => true) "/s/incidents.jsonl".toList [disk] (fun _ => true) nights))
    "/s/disk.jsonl".toList

/- The last incident is alone in its generation. -/
theorem morning_live : morning.live = some ({ Incident.mixed with atUnix := 1700086400 }.toJsonl ++ ['\n']) := by
  have alone : morning = log defaultMaxBytes (nights.map fun i => (true, i.toJsonl)) := by
    rw [morning, view_appendAll disk_proper fun c member => disk_apart c.path
      (calls_path _ _ _ _ _ c member), nights_calls]
    rfl
  rw [alone, nights, List.map_append, List.map_replicate]
  exact (log_turn _ (by decide : 0 < defaultMaxBytes.toNat) true _).1

theorem logs_kept_disk :
    morning.live = some ({ Incident.mixed with atUnix := 1700086400 }.toJsonl ++ ['\n']) ∧
      ∃ kept, kept <:+ nights ∧ kept ≠ [] ∧ Text.lines morning.contents = kept.map Incident.toJsonl := by
  obtain ⟨⟨kept, suffix, newest, read⟩, _⟩ := logs_kept (fun _ _ => true) id (fun _ => none)
    "/s/incidents.jsonl".toList [disk] (fun _ => true) nights disk_proper rfl disk_apart
    (rfl : morning = _)
  rw [nights_disk] at suffix newest
  exact ⟨morning_live, kept, suffix,
    newest (List.append_ne_nil_of_right_ne_nil _ (List.cons_ne_nil _ _)), read⟩

end Stallwatch.Rules
