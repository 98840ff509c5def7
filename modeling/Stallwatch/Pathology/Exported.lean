import Stallwatch.Base.Counter
import Stallwatch.Pathology

/-! What is said about the machine, against what is exported of it. -/
namespace Stallwatch.Pathology

open Text Metrics

variable {f : Rounding}

section Btrfs

variable {v : Volume}

/- The loop that ends at the first total it cannot read, and the one that goes on. -/
theorem foldlM_totals (totals : List (Option UInt64)) (n : UInt64) :
    totals.foldlM (fun n total => total.map (n + ·)) n =
      if totals.all Option.isSome = true then some (totals.foldl (fun n total => n + total.getD 0) n)
      else none := by
  induction totals generalizing n with
  | nil => rfl
  | cons total totals ih =>
    cases total with
    | none => rfl
    | some t => exact ih (n + t)

theorem allocated_eq (v : Volume) : v.allocated =
    if v.allocation.all Option.isSome = true then some v.gauges.allocated else none :=
  foldlM_totals v.allocation 0

/-- The line that is exported of a backlog. -/
def discardSample (v : Volume) (extents : UInt64) : List Char :=
  sample "stallwatch_btrfs_discard_queued_extents" v.gauges.labels (decimal extents.toNat)

/-- The line that is exported of the space that is left. -/
def unallocatedSample (v : Volume) (unallocated : UInt64) : List Char :=
  sample "stallwatch_btrfs_unallocated_bytes" v.gauges.labels (decimal unallocated.toNat)

theorem toNat_minutes {extents iops min : UInt64} (told : minutes extents iops = some min) :
    0 < iops.toNat ∧ min.toNat = extents.toNat / (iops.toNat * 60) + 1 := by
  unfold minutes at told
  split at told
  · cases told
  · rename_i limited
    cases told
    have bound : extents.toNat / (iops.toNat * 60) + 1 < 2 ^ 64 := by
      have small := extents.toNat_lt
      have part : extents.toNat / (iops.toNat * 60) ≤ extents.toNat / 60 := by
        rw [← Nat.div_div_eq_div_mul]
        exact Nat.div_le_div_right (Nat.div_le_self _ _)
      omega
    have quotient : (extents / iops / 60).toNat = extents.toNat / (iops.toNat * 60) := by
      rw [UInt64.toNat_div, UInt64.toNat_div, Nat.div_div_eq_div_mul]
      rfl
    refine ⟨Nat.pos_of_ne_zero fun zero => limited (UInt64.toNat_inj.mp zero), ?_⟩
    rw [UInt64.toNat_add, quotient]
    exact Nat.mod_eq_of_lt bound

/-- So many minutes are more than enough at the limit, and one less does no more than the work
there is. -/
theorem minutes_enough {extents iops min : UInt64} (told : minutes extents iops = some min) :
    extents.toNat < iops.toNat * 60 * min.toNat ∧ iops.toNat * 60 * (min.toNat - 1) ≤ extents.toNat := by
  obtain ⟨limited, exact⟩ := toNat_minutes told
  rw [exact, Nat.add_sub_cancel]
  exact ⟨Nat.lt_mul_div_succ _ (by omega), Nat.mul_div_le _ _⟩

theorem discardLine_eq (v : Volume) : v.gauges.discardLine = v.extents.map (discardSample v) := rfl

theorem unallocLine_eq {allocated : UInt64} (read : v.allocated = some allocated)
    (within : allocated ≤ v.deviceSize) :
    v.gauges.unallocLine = some (unallocatedSample v (v.deviceSize - allocated)) := by
  rw [allocated_eq] at read
  split at read
  · rename_i all
    cases read
    exact if_pos ⟨all, within⟩
  · cases read

theorem mem_checkDiscard {w : Warning} : w ∈ checkDiscard f v ↔
    ∃ extents, v.extents = some extents ∧ discardExtentFloor ≤ extents ∧ w = ⟨"btrfs", .note, true,
      String.ofList (discardMessage f v.label extents (v.bytes.getD 0) (v.iops.getD 0))⟩ := by
  cases read : v.extents with
  | none => simp [checkDiscard, read]
  | some extents =>
    simp only [checkDiscard, read, Option.bind_some]
    split
    · rename_i few
      refine iff_of_false nofun ?_
      rintro ⟨_, same, enough, _⟩
      cases same
      exact absurd few (UInt64.not_lt.mpr enough)
    · rename_i many
      constructor
      · rintro ⟨⟩
        exact ⟨extents, rfl, UInt64.not_lt.mp many, rfl⟩
      · rintro ⟨_, same, _, rfl⟩
        cases same
        rfl

theorem mem_checkAllocation {w : Warning} : w ∈ checkAllocation f v ↔
    ∃ allocated, v.allocated = some allocated ∧ v.deviceSize ≠ 0 ∧ allocated ≤ v.deviceSize ∧
      (unallocatedPct f (v.deviceSize - allocated) v.deviceSize).atLeast unallocatedFloorPct = false ∧
      w = ⟨"btrfs", .warn, false, String.ofList (allocationMessage f v.label (v.deviceSize - allocated)
        v.deviceSize (unallocatedPct f (v.deviceSize - allocated) v.deviceSize))⟩ := by
  cases read : v.allocated with
  | none => simp [checkAllocation, read]
  | some allocated =>
    simp only [checkAllocation, read, Option.bind_some]
    split
    · rename_i none
      refine iff_of_false nofun ?_
      rintro ⟨_, same, device, within, _⟩
      cases same
      exact none.elim device (UInt64.not_lt.mpr within)
    · rename_i some
      obtain ⟨device, within⟩ := not_or.mp some
      split
      · rename_i enough
        refine iff_of_false nofun ?_
        rintro ⟨_, same, _, _, low, _⟩
        cases same
        exact Bool.false_ne_true (low.symm.trans enough)
      · rename_i low
        constructor
        · rintro ⟨⟩
          exact ⟨allocated, rfl, device, UInt64.not_lt.mp within, Bool.eq_false_iff.mpr low, rfl⟩
        · rintro ⟨_, same, _, _, _, rfl⟩
          cases same
          rfl

end Btrfs

section Sensors

variable {h : Hwmon}

def sensorLabel (h : Hwmon) (idx : ℕ) : List Char :=
  (h.sensor idx).label.getD ("temp".toList ++ decimal idx)

/- A sensor is reported by its reading, and it has one only with a limit. -/
theorem checkSensor_eq (f : Rounding) (h : Hwmon) (idx : ℕ) :
    checkSensor f h idx = (h.reading idx).bind fun r =>
      assess f (sensorLabel h idx) (celsius f r.celsius) (some (celsius f r.limit)) := by
  unfold checkSensor Hwmon.reading
  cases (h.sensor idx).input with
  | none => rfl
  | some t =>
    cases (h.sensor idx).crit with
    | none => rfl
    | some crit => rfl

theorem mem_checkHwmon {w : Warning} : w ∈ checkHwmon f h ↔ ∃ idx r, r ∈ h.readings ∧
    h.reading idx = some r ∧
    idx ∈ List.range' 1 8 ∧
    assess f (sensorLabel h idx) (celsius f r.celsius) (some (celsius f r.limit)) = some w := by
  unfold checkHwmon Hwmon.readings
  split
  · rw [List.mem_filterMap]
    constructor
    · rintro ⟨idx, inside, told⟩
      rw [checkSensor_eq] at told
      obtain ⟨r, read, told⟩ := Option.bind_eq_some_iff.mp told
      exact ⟨idx, r, List.mem_filterMap.mpr ⟨idx, inside, read⟩, read, inside, told⟩
    · rintro ⟨idx, r, _, read, inside, told⟩
      refine ⟨idx, inside, ?_⟩
      rw [checkSensor_eq, read]
      exact told
  · simp

end Sensors

/-- The same machine as it is read for the metrics. -/
def Findings.host (m : Findings) (elapsed : F64) : Host := ⟨m.volumes.map Volume.gauges, m.hwmon, elapsed⟩

/-- The lines that are exported of a sensor. -/
def readingSamples (f : Rounding) (r : Reading) : List (List Char) :=
  [sample "stallwatch_drive_temperature_celsius" r.labels (degrees f r.celsius),
    sample "stallwatch_drive_temperature_limit_celsius" r.labels (degrees f r.limit)]

section Lines

variable {m : Findings}

theorem mem_gauges {name help : String} {lines : List (List Char)} {line : List Char}
    (member : line ∈ lines) : line ∈ gauges name help lines := by
  rw [gauges, if_neg (List.ne_nil_of_mem member)]
  exact List.mem_append_right _ member

theorem unallocated_line {v : Volume} (among : v ∈ m.volumes) {line : List Char}
    (exported : v.gauges.unallocLine = some line) (elapsed : F64) :
    line ∈ pathologyLines f (m.host elapsed) := by
  have listed : line ∈ (m.volumes.map Volume.gauges).filterMap Btrfs.unallocLine :=
    List.mem_filterMap.mpr ⟨_, List.mem_map_of_mem among, exported⟩
  simp only [pathologyLines, List.mem_append]
  exact .inl (.inl (.inl (mem_gauges listed)))

theorem discard_line {v : Volume} (among : v ∈ m.volumes) {line : List Char}
    (exported : v.gauges.discardLine = some line) (elapsed : F64) :
    line ∈ pathologyLines f (m.host elapsed) := by
  have listed : line ∈ (m.volumes.map Volume.gauges).filterMap Btrfs.discardLine :=
    List.mem_filterMap.mpr ⟨_, List.mem_map_of_mem among, exported⟩
  simp only [pathologyLines, List.mem_append]
  exact .inl (.inl (.inr (mem_gauges listed)))

theorem reading_lines {h : Hwmon} (among : h ∈ m.hwmon) {r : Reading} (listed : r ∈ h.readings)
    (elapsed : F64) : ∀ line ∈ readingSamples f r, line ∈ pathologyLines f (m.host elapsed) := by
  have exported : r ∈ readings (m.host elapsed) := List.mem_flatMap.mpr ⟨h, among, listed⟩
  simp only [readingSamples, List.forall_mem_cons, pathologyLines, List.mem_append]
  exact ⟨.inl (.inr (mem_gauges (List.mem_map.mpr ⟨r, exported, rfl⟩))),
    .inr (mem_gauges (List.mem_map.mpr ⟨r, exported, rfl⟩)), List.forall_mem_nil _⟩

end Lines

/-- What a finding is about, and the lines of the exposition that show it. -/
inductive Explains (f : Rounding) (m : Findings) : Warning → Prop
  | discard {v : Volume} {extents : UInt64} (among : v ∈ m.volumes) (read : v.extents = some extents)
      (many : discardExtentFloor ≤ extents)
      (exported : ∀ elapsed, discardSample v extents ∈ pathologyLines f (m.host elapsed))
      (worked : ∀ min ∈ minutes extents (v.iops.getD 0),
        extents.toNat < (v.iops.getD 0).toNat * 60 * min.toNat ∧
          (v.iops.getD 0).toNat * 60 * (min.toNat - 1) ≤ extents.toNat) :
      Explains f m ⟨"btrfs", .note, true,
        String.ofList (discardMessage f v.label extents (v.bytes.getD 0) (v.iops.getD 0))⟩
  | allocation {v : Volume} {allocated : UInt64} (among : v ∈ m.volumes)
      (read : v.allocated = some allocated)
      (device : v.deviceSize ≠ 0) (within : allocated ≤ v.deviceSize)
      (low : (unallocatedPct f (v.deviceSize - allocated) v.deviceSize).atLeast unallocatedFloorPct =
        false)
      (exported : ∀ elapsed,
        unallocatedSample v (v.deviceSize - allocated) ∈ pathologyLines f (m.host elapsed)) :
      Explains f m ⟨"btrfs", .warn, false, String.ofList (allocationMessage f v.label
        (v.deviceSize - allocated) v.deviceSize (unallocatedPct f (v.deviceSize - allocated) v.deviceSize))⟩
  | sensor {h : Hwmon} {idx : ℕ} {r : Reading} {w : Warning} (among : h ∈ m.hwmon) (listed : r ∈ h.readings)
      (read : h.reading idx = some r) (inside : idx ∈ List.range' 1 8)
      (told : assess f (sensorLabel h idx) (celsius f r.celsius) (some (celsius f r.limit)) = some w)
      (exported : ∀ elapsed, ∀ line ∈ readingSamples f r, line ∈ pathologyLines f (m.host elapsed)) :
      Explains f m w

/-- Each finding is about a number that is exported of the same machine, and each number that is
bad enough makes a finding. A sensor without a limit of its own makes none. The minutes that are
told for a backlog are more than it takes, by one minute at most. -/
theorem scan_exported (m : Findings) (w : Warning) : w ∈ scan f m ↔ Explains f m w := by
  simp only [scan, Volume.check, List.mem_append, List.mem_flatMap, Option.mem_toList]
  constructor
  · rintro (⟨v, among, discard | allocation⟩ | ⟨h, among, sensor⟩)
    · obtain ⟨extents, read, many, rfl⟩ := mem_checkDiscard.mp discard
      have exported : v.gauges.discardLine = some (discardSample v extents) := by
        rw [discardLine_eq, read, Option.map_some]
      exact .discard among read many (discard_line among exported) fun min told => minutes_enough told
    · obtain ⟨allocated, read, device, within, low, rfl⟩ := mem_checkAllocation.mp allocation
      exact .allocation among read device within low (unallocated_line among (unallocLine_eq read within))
    · obtain ⟨idx, r, listed, read, inside, told⟩ := mem_checkHwmon.mp sensor
      exact .sensor among listed read inside told (reading_lines among listed)
  · rintro (⟨among, read, many, _, _⟩ | ⟨among, read, device, within, low, _⟩ |
      ⟨among, listed, read, inside, told, _⟩)
    · exact .inl ⟨_, among, .inl (mem_checkDiscard.mpr ⟨_, read, many, rfl⟩)⟩
    · exact .inl ⟨_, among, .inr (mem_checkAllocation.mpr ⟨_, read, device, within, low, rfl⟩)⟩
    · exact .inr ⟨_, among, mem_checkHwmon.mpr ⟨_, _, listed, read, inside, told⟩⟩

end Stallwatch.Pathology
