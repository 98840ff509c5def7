import Stallwatch.Metrics
import Stallwatch.Report

/-! The conditions of the machine that explain stalls: what is read of its file systems and of
its drives, and what is said about it. -/
namespace Stallwatch.Pathology

open Text Metrics

/-- What is read of a directory of `/sys/fs/btrfs`. Its name need not be text. -/
structure Volume where
  name : Option (List Char)
  allocation : List (Option UInt64)
  sectors : List UInt64
  extents : Option UInt64
  bytes : Option UInt64
  iops : Option UInt64

/-- The same directory as it is read for the metrics. -/
def Volume.gauges (v : Volume) : Btrfs where
  label := v.name.getD "unknown".toList
  allocation := v.allocation
  sectors := v.sectors
  discardable := v.extents

def Volume.label (v : Volume) : List Char := v.name.getD "btrfs".toList

def discardExtentFloor : UInt64 := 10000

/-- In percent. -/
def unallocatedFloorPct : F64 := .whole 1

/-- Minutes to work off a backlog, where there is a limit. -/
def minutes (extents iops : UInt64) : Option UInt64 :=
  if iops = 0 then none else some (extents / iops / 60 + 1)

def eta (extents iops : UInt64) : List Char :=
  (minutes extents iops).elim [] fun min =>
    " At the ".toList ++ decimal iops.toNat ++ " IOPS limit that is roughly ".toList ++ decimal min.toNat ++
      " min.".toList

section Checks

variable (f : Rounding)

def discardMessage (label : List Char) (extents bytes iops : UInt64) : List Char :=
  label ++ " is working through an async discard (TRIM) backlog: ".toList ++ decimal extents.toNat ++
    " extents / ".toList ++ F64.format 1 (F64.div f (F64.ofNat f bytes.toNat) (.whole 1073741824)) ++
    " GiB still queued after a large delete. This runs in the kernel, so the disk looks busy ".toList ++
    "while no process shows IO delay. It clears on its own — do not go hunting for a ".toList ++
    "runaway program.".toList ++ eta extents iops

/-- The backlog of a background worker. -/
def checkDiscard (v : Volume) : Option Warning :=
  v.extents.bind fun extents =>
    if extents < discardExtentFloor then none
    else some ⟨"btrfs", .note, true,
      String.ofList (discardMessage f v.label extents (v.bytes.getD 0) (v.iops.getD 0))⟩

/-- The totals are added up in order, and the first that cannot be read ends the check. -/
def Volume.allocated (v : Volume) : Option UInt64 :=
  v.allocation.foldlM (fun n total => total.map (n + ·)) 0

def Volume.deviceSize (v : Volume) : UInt64 := v.sectors.foldl (fun n size => n + size * 512) 0

def allocationMessage (label : List Char) (unallocated deviceSize : UInt64) (pct : F64) : List Char :=
  label ++ ": only ".toList ++ F64.format 1 (F64.div f (F64.ofNat f unallocated.toNat) (.whole 1048576)) ++
    " MiB of ".toList ++ F64.format 0 (F64.div f (F64.ofNat f deviceSize.toNat) (.whole 1073741824)) ++
    " GiB is unallocated (".toList ++ F64.format 2 pct ++ "%). Every block group is claimed, so ".toList ++
    "writes stall searching fragmented chunks even though df shows free space. Deleting files ".toList ++
    "alone will not fix this — freeing data inside a chunk does not release the chunk. Reclaim ".toList ++
    "space first, then: sudo btrfs balance start -dusage=50 -musage=50 <mountpoint>".toList

def unallocatedPct (unallocated deviceSize : UInt64) : F64 :=
  F64.mul f (F64.div f (F64.ofNat f unallocated.toNat) (F64.ofNat f deviceSize.toNat)) (.whole 100)

/-- Hardly anything is left to claim. -/
def checkAllocation (v : Volume) : Option Warning :=
  v.allocated.bind fun allocated =>
    if v.deviceSize = 0 ∨ v.deviceSize < allocated then none
    else
      let unallocated := v.deviceSize - allocated
      let pct := unallocatedPct f unallocated v.deviceSize
      if pct.atLeast unallocatedFloorPct = true then none
      else some ⟨"btrfs", .warn, false,
        String.ofList (allocationMessage f v.label unallocated v.deviceSize pct)⟩

def Volume.check (v : Volume) : List Warning := (checkDiscard f v).toList ++ (checkAllocation f v).toList

def nearLimitMarginC : F64 := .whole 5

def limitMessage (label : List Char) (tempC crit : F64) : List Char :=
  "drive sensor '".toList ++ label ++ "' is at ".toList ++ F64.format 0 tempC ++
    " °C, at or above its critical limit of ".toList ++ F64.format 0 crit ++
    " °C. Confirm whether it is actually throttling with `sudo nvme smart-log <dev>`: ".toList ++
    "'Thermal Management T1/T2 Trans Count' greater than zero means yes.".toList

def nearMessage (label : List Char) (tempC crit : F64) : List Char :=
  "drive sensor '".toList ++ label ++ "' is at ".toList ++ F64.format 0 tempC ++ " °C, ".toList ++
    F64.format 0 (F64.sub f crit tempC) ++ " °C below its limit of ".toList ++ F64.format 0 crit ++
    " °C. Worth noting, but not proof of throttling — check 'Thermal Management T1/T2 Trans ".toList ++
    "Count' in `nvme smart-log` before blaming heat for an IO stall.".toList

/-- Is a drive temperature worth reporting? -/
def assess (label : List Char) (tempC : F64) (critC : Option F64) : Option Warning :=
  match critC with
  | some crit =>
    if tempC.atLeast crit = true then
      some ⟨"nvme", .critical, false, String.ofList (limitMessage label tempC crit)⟩
    else if tempC.atLeast (F64.sub f crit nearLimitMarginC) = true then
      some ⟨"nvme", .note, false, String.ofList (nearMessage f label tempC crit)⟩
    else none
  | none => none

/-- Thousandths of a degree as degrees. -/
def celsius (milli : UInt64) : F64 := F64.div f (F64.ofNat f milli.toNat) (.whole 1000)

def checkSensor (h : Hwmon) (idx : ℕ) : Option Warning :=
  (h.sensor idx).input.bind fun millideg =>
    assess f ((h.sensor idx).label.getD ("temp".toList ++ decimal idx)) (celsius f millideg)
      ((h.sensor idx).crit.map (celsius f))

/-- Monitors of drives only. -/
def checkHwmon (h : Hwmon) : List Warning :=
  if "nvme".toList.isPrefixOf h.name = true ∨ h.name = "drivetemp".toList then
    (List.range' 1 8).filterMap (checkSensor f h)
  else []

/-- The file systems that have an allocation, and the monitors, in the order of their directories. -/
structure Findings where
  volumes : List Volume
  hwmon : List Hwmon

/-- Storage first, temperatures last. -/
def scan (m : Findings) : List Warning :=
  m.volumes.flatMap (Volume.check f) ++ m.hwmon.flatMap (checkHwmon f)

end Checks

end Stallwatch.Pathology
