import Stallwatch.Doctor
import Stallwatch.Ipc
import Stallwatch.Json.Reads
import Stallwatch.Logfile.Rotation

/-! What the probes say against what is the case, in every rendering of them. -/
namespace Stallwatch.Doctor

open Text Json

/-- A check that says what it has measured, and what it costs if it is not in order. -/
structure Explained (c : Check) : Prop where
  detail : c.detail ≠ []
  consequence : c.status ≠ .ok → c.consequence ≠ ""

theorem toList_ne_nil {s : String} (some : s ≠ "") : s.toList ≠ [] := fun none => some (String.toList_eq_nil_iff.mp none)

theorem begins {s : String} (some : s ≠ "") (rest : List Char) : s.toList ++ rest ≠ [] :=
  List.append_ne_nil_of_left_ne_nil (toList_ne_nil some) rest

theorem either {b : Prop} [Decidable b] {s t : String} (first : s ≠ "") (second : t ≠ "") :
    (if b then s.toList else t.toList) ≠ [] := by
  split
  · exact toList_ne_nil first
  · exact toList_ne_nil second

section Machine

variable (f : Rounding) (debug : List Char → List Char) (m : Machine)

theorem cgroupV2_explained : Explained (cgroupV2 m) :=
  ⟨either (by simp) (by simp), fun _ => by unfold cgroupV2; simp⟩

theorem psiPresent_explained : Explained (psiPresent m) :=
  ⟨either (by simp) (by simp), fun _ => by unfold psiPresent; simp⟩

theorem delayacct_explained : Explained (delayacct m) :=
  ⟨either (by simp) (by simp), fun _ => by unfold delayacct; simp⟩

theorem ratioDetail_ne_nil (each : List Bool) (file : String) : ratioDetail each file ≠ [] := by
  simp [ratioDetail]

theorem perCgroupPressure_explained : Explained (perCgroupPressure m) :=
  ⟨ratioDetail_ne_nil _ _, fun _ => by unfold perCgroupPressure; simp⟩

theorem ioStat_explained : Explained (ioStat m) :=
  ⟨ratioDetail_ne_nil _ _, fun _ => by unfold ioStat; simp⟩

theorem procIo_explained : Explained (procIo f m) := by
  refine ⟨?_, fun _ => by unfold procIo; simp⟩
  have first : "readable for " ≠ "" := by simp
  simp only [procIo, List.append_assoc]
  exact begins first _

theorem systemTrigger_explained : Explained (systemTrigger m) := by
  unfold systemTrigger
  cases m.systemTrigger with
  | none => exact ⟨toList_ne_nil (by simp), fun bad => absurd rfl bad⟩
  | some e => exact ⟨begins (by simp) _, fun _ => by simp⟩

theorem cgroupTrigger_explained : Explained (cgroupTrigger m) := by
  unfold cgroupTrigger
  cases m.cgroupTrigger with
  | none => exact ⟨toList_ne_nil (by simp), fun bad => absurd rfl bad⟩
  | some e =>
    refine ⟨?_, fun _ => by simp⟩
    simp only [List.append_assoc]
    exact begins (by simp) _

theorem daemon_explained : Explained (daemon debug m) := by
  unfold daemon
  cases m.daemon with
  | ok reply =>
    dsimp only
    split
    · exact ⟨begins (by simp) _, fun bad => absurd rfl bad⟩
    · refine ⟨?_, fun _ => by simp⟩
      simp only [List.append_assoc]
      exact begins (by simp) _
  | error e =>
    refine ⟨?_, fun _ => by simp⟩
    simp only [List.append_assoc]
    exact begins (by simp) _

theorem incidentLog_explained : Explained (incidentLog f m) := by
  have ends (l : List Char) {s : String} (some : s ≠ "") : l ++ s.toList ≠ [] :=
    List.append_ne_nil_of_right_ne_nil l (toList_ne_nil some)
  unfold incidentLog
  split
  rename_i status detail found
  refine ⟨?_, fun _ => by simp⟩
  show detail ≠ []
  split at found
  · cases found
    exact ends _ (by simp)
  split at found
  · cases found
    exact ends _ (by simp)
  · cases found
    simp

theorem explained : ∀ c ∈ diagnose f debug m, Explained c := by
  intro c member
  simp only [diagnose, List.mem_cons, List.not_mem_nil, or_false] at member
  rcases member with rfl | rfl | rfl | rfl | rfl | rfl | rfl | rfl | rfl | rfl
  · exact cgroupV2_explained m
  · exact psiPresent_explained m
  · exact perCgroupPressure_explained m
  · exact ioStat_explained m
  · exact procIo_explained f m
  · exact systemTrigger_explained m
  · exact cgroupTrigger_explained m
  · exact delayacct_explained m
  · exact daemon_explained debug m
  · exact incidentLog_explained f m

theorem systemTrigger_name : (systemTrigger m).name = "PSI triggers (system)" := by
  unfold systemTrigger
  cases m.systemTrigger with
  | none | some => rfl

theorem cgroupTrigger_name : (cgroupTrigger m).name = "PSI triggers (per-cgroup)" := by
  unfold cgroupTrigger
  cases m.cgroupTrigger with
  | none | some => rfl

theorem daemon_name : (daemon debug m).name = "stallwatchd" := by
  unfold daemon
  cases m.daemon with
  | ok => dsimp only; split <;> rfl
  | error => rfl

theorem diagnose_names : (diagnose f debug m).map (·.name) =
    ["cgroup v2", "kernel PSI", "per-cgroup pressure", "per-cgroup io.stat", "/proc/<pid>/io",
      "PSI triggers (system)", "PSI triggers (per-cgroup)", "delay accounting", "stallwatchd", "incident log"] := by
  simp only [diagnose, List.map_cons, List.map_nil, systemTrigger_name, cgroupTrigger_name, daemon_name]
  rfl

/- Even where every process can be read. -/
theorem procIo_status : (procIo f m).status ≠ .ok := by
  unfold procIo
  dsimp only
  split <;> decide

end Machine

/-- A value with the four fields of a check. -/
structure Told (c : Check) (j : Json) : Prop where
  name : j.get "name".toList = some (.str c.name.toList)
  status : j.get "status".toList = some (.str c.status.display.toList)
  detail : j.get "detail".toList = some (.str c.detail)
  consequence : j.get "consequence".toList = some (.str c.consequence.toList)

def Check.entries (c : Check) : List (String × Json) :=
  [("name", .str c.name.toList), ("status", .str c.status.display.toList), ("detail", .str c.detail),
    ("consequence", .str c.consequence.toList)]

theorem Check.told (c : Check) : Told c (ofEntries c.entries) := by
  have distinct : ["name", "status", "detail", "consequence"].Nodup := by decide
  have get (k : String) := @get_ofEntries c.entries distinct k
  exact ⟨(get "name").trans rfl, (get "status").trans rfl, (get "detail").trans rfl,
    (get "consequence").trans rfl⟩

section Parse

variable (f : Rounding)

theorem Check.reads (c : Check) : Reads f c.toJson (ofEntries c.entries) := by
  have status : Reads f (bare c.status.display) (.str c.status.display.toList) := by
    apply reads_bare
    cases c.status <;> rfl
  apply reads_record
  apply FieldsRead.field rfl (reads_jsonStr f _)
  apply FieldsRead.field rfl status
  apply FieldsRead.field rfl (reads_jsonStr f _)
  exact .field rfl (reads_jsonStr f _) .nil

theorem toJson_told (checks : List Check) : ∃ j items, parse f (toJson checks) = .ok j ∧
    j.get "checks".toList = some (.arr items) ∧ List.Forall₂ Told checks items := by
  have read : Reads f (toJson checks)
      (ofEntries [("checks", .arr (checks.map fun c => ofEntries c.entries))]) := by
    apply reads_record
    exact .field rfl (reads_map fun c _ => c.reads f) .nil
  refine ⟨_, _, parse_reads read, (get_ofEntries (by simp) "checks").trans rfl, ?_⟩
  exact List.forall₂_map_right_iff.mpr (List.forall₂_same.mpr fun c _ => c.told)

end Parse

section Told

variable (f : Rounding) (debug : List Char → List Char) (m : Machine)

theorem failing_named : procIo f m ∈ (diagnose f debug m).filter fun c => c.status ≠ .ok := by
  refine List.mem_filter.mpr ⟨?_, decide_eq_true (procIo_status f m)⟩
  simp [diagnose]

/-- Whatever the probes find, each of the ten checks says what it has measured, and whichever is
not in order says what that costs. The summary names exactly those, and there is always one: it
never announces that everything is there. The JSON is read back as the checks. -/
theorem diagnosis_told : ((diagnose f debug m).map (·.name)).Nodup ∧
    (∀ c ∈ diagnose f debug m, Explained c) ∧
    (∃ bad, bad = ((diagnose f debug m).filter fun c => c.status ≠ .ok).map (fun c => c.name.toList) ∧
      bad ≠ [] ∧
      summaryLine (diagnose f debug m) = "reduced capability: ".toList ++ ", ".toList.intercalate bad ++
        " (run `stallwatch doctor` for what this costs)".toList) ∧
    ∃ j items, parse f (toJson (diagnose f debug m)) = .ok j ∧ j.get "checks".toList = some (.arr items) ∧
      List.Forall₂ Told (diagnose f debug m) items := by
  have some : ((diagnose f debug m).filter fun c => c.status ≠ .ok).map (fun c => c.name.toList) ≠ [] :=
    List.ne_nil_of_mem (List.mem_map_of_mem (failing_named f debug m))
  refine ⟨?_, explained f debug m, ⟨_, rfl, some, ?_⟩, toJson_told f _⟩
  · rw [diagnose_names]
    decide
  · unfold summaryLine
    exact if_neg some

end Told

end Stallwatch.Doctor
