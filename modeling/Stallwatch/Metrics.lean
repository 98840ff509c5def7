import Mathlib.Data.List.Sort
import Stallwatch.Base.Decimal
import Stallwatch.Cgroup

/-! Prometheus exposition of the pressure counters. The number of series is capped, and
gauges at the end say how many were emitted and withheld. -/
namespace Stallwatch.Metrics

open Text

/-- Only three characters are special in a label value. -/
def escChar (c : Char) : List Char :=
  if c = '\\' then ['\\', '\\']
  else if c = '"' then ['\\', '"']
  else if c = '\n' then ['\\', 'n']
  else [c]

def esc (v : List Char) : List Char := v.flatMap escChar

/-- `writeln!`. -/
def writeln (buf line : List Char) : List Char := buf ++ line ++ ['\n']

def unlines (ls : List (List Char)) : List Char := ls.flatMap fun l => l ++ ['\n']

/-- A line with labels. -/
def sample (name : String) (labels value : List Char) : List Char :=
  name.toList ++ '{' :: (labels ++ '}' :: ' ' :: value)

/-- What comes before the samples of a family. -/
def familyLines (name help kind : String) : List (List Char) :=
  [("# HELP " ++ name ++ " " ++ help).toList, ("# TYPE " ++ name ++ " " ++ kind).toList]

def waitingName : String := "stallwatch_pressure_waiting_seconds_total"

def stalledName : String := "stallwatch_pressure_stalled_seconds_total"

/-- One pair of a cgroup and a resource. -/
structure Series where
  unit : List Char
  cgroup : List Char
  resource : Resource
  psi : Psi

def Series.labels (s : Series) : List Char :=
  "unit=\"".toList ++ esc s.unit ++ "\",cgroup=\"".toList ++ esc s.cgroup ++
    "\",resource=\"".toList ++ s.resource.display.toList ++ ['"']

/-- The buffers and the counters of the loop. -/
structure Written where
  waiting : List Char
  stalled : List Char
  emitted : ℕ
  dropped : ℕ

section Loop

variable (f : Rounding)

def seconds (us : UInt64) : List Char := F64.format 6 (F64.div f (F64.ofNat f us.toNat) (F64.whole 1000000))

def Series.waitingLine (s : Series) : List Char := sample waitingName s.labels (seconds f (s.psi.totalFor .some))

def Series.stalledLine (s : Series) : List Char := sample stalledName s.labels (seconds f (s.psi.totalFor .full))

/-- A pair that has accumulated something, unless the cap is reached. -/
def Written.add (maxSeries : ℕ) (w : Written) (s : Series) : Written :=
  if maxSeries ≤ w.emitted then { w with dropped := w.dropped + 1 }
  else
    { waiting := writeln w.waiting (s.waitingLine f)
      stalled := if s.resource = .cpu then w.stalled else writeln w.stalled (s.stalledLine f)
      emitted := w.emitted + 1
      dropped := w.dropped }

def addCgroup (maxSeries : ℕ) (snapshot : HashMap PathBuf Snapshot) (w : Written) (path : PathBuf) :
    Outcome Empty Written :=
  match snapshot.lookup path with
  | none => .panic
  | some snap => do
    let unit ← Cgroup.friendlyName path
    return Resource.all.foldl (fun w res =>
      let psi := snap.get res
      if psi.someTotalUs = 0 ∧ psi.fullTotalUs = 0 then w
      else w.add f maxSeries ⟨unit.toList, path.toStringLossy.toList, res, psi⟩) w

/-- The paths in order, so that the document does not depend on the iteration order. -/
def addAll (maxSeries : ℕ) (snapshot : HashMap PathBuf Snapshot) : Outcome Empty Written :=
  (snapshot.keys.insertionSort (· ≤ ·)).foldlM (addCgroup f maxSeries snapshot) ⟨[], [], 0, 0⟩

end Loop

/-- What is read of a btrfs file system: the totals of data, metadata and system, and the
sectors of its devices. -/
structure Btrfs where
  label : List Char
  allocation : List (Option UInt64)
  sectors : List UInt64
  discardable : Option UInt64

namespace Btrfs

def allocated (b : Btrfs) : UInt64 := b.allocation.foldl (fun n v => n + v.getD 0) 0

def deviceSize (b : Btrfs) : UInt64 := b.sectors.foldl (fun n v => n + v * 512) 0

def labels (b : Btrfs) : List Char := "fsid=\"".toList ++ esc b.label ++ ['"']

def unallocLine (b : Btrfs) : Option (List Char) :=
  if b.allocation.all Option.isSome = true ∧ b.allocated ≤ b.deviceSize then
    some (sample "stallwatch_btrfs_unallocated_bytes" b.labels (decimal (b.deviceSize - b.allocated).toNat))
  else none

def discardLine (b : Btrfs) : Option (List Char) :=
  b.discardable.map fun ext => sample "stallwatch_btrfs_discard_queued_extents" b.labels (decimal ext.toNat)

end Btrfs

/-- One temperature input of a monitor, in thousandths of a degree. -/
structure Sensor where
  input : Option UInt64
  crit : Option UInt64
  label : Option (List Char)

structure Hwmon where
  name : List Char
  sensor : ℕ → Sensor

/-- The label, the temperature and the limit of a sensor that publishes its own limit. -/
structure Reading where
  labels : List Char
  celsius : UInt64
  limit : UInt64

def Hwmon.reading (h : Hwmon) (idx : ℕ) : Option Reading :=
  match (h.sensor idx).input, (h.sensor idx).crit with
  | some t, some crit =>
    let label := (h.sensor idx).label.getD ("temp".toList ++ decimal idx)
    some ⟨"device=\"".toList ++ esc h.name ++ "\",sensor=\"".toList ++ esc label ++ ['"'], t, crit⟩
  | _, _ => none

/-- Monitors of drives only. -/
def Hwmon.readings (h : Hwmon) : List Reading :=
  if "nvme".toList.isPrefixOf h.name ∨ h.name = "drivetemp".toList then
    (List.range' 1 8).filterMap h.reading
  else []

/-- What a scrape reads of the machine besides the pressure files. -/
structure Host where
  btrfs : List Btrfs
  hwmon : List Hwmon
  elapsed : F64

section Render

variable (f : Rounding)

def degrees (milli : UInt64) : List Char := F64.format 1 (F64.div f (F64.ofNat f milli.toNat) (F64.whole 1000))

def readings (host : Host) : List Reading := host.hwmon.flatMap Hwmon.readings

/-- A family without samples is left out. -/
def gauges (name help : String) (lines : List (List Char)) : List (List Char) :=
  if lines = [] then [] else familyLines name help "gauge" ++ lines

def pathologyLines (host : Host) : List (List Char) :=
  gauges "stallwatch_btrfs_unallocated_bytes"
      "Device space not yet claimed by any block group. Near zero means writes stall hunting fragmented chunks even though df shows free space."
      (host.btrfs.filterMap Btrfs.unallocLine) ++
    gauges "stallwatch_btrfs_discard_queued_extents"
      "Extents awaiting async TRIM. Kernel-side work: the disk looks busy while no process shows IO delay. Transient."
      (host.btrfs.filterMap Btrfs.discardLine) ++
    gauges "stallwatch_drive_temperature_celsius"
      "Drive temperature. Only sensors publishing their own critical threshold are exported; auxiliary sensors read high on healthy hardware."
      ((readings host).map fun r => sample "stallwatch_drive_temperature_celsius" r.labels (degrees f r.celsius)) ++
    gauges "stallwatch_drive_temperature_limit_celsius" "The drive's own published critical threshold."
      ((readings host).map fun r => sample "stallwatch_drive_temperature_limit_celsius" r.labels (degrees f r.limit))

def pathologySeries (host : Host) : List Char := unlines (pathologyLines f host)

def gaugeLines (name help : String) (value : List Char) : List (List Char) :=
  familyLines name help "gauge" ++ [name.toList ++ ' ' :: value]

def waitingFamily : List (List Char) :=
  familyLines waitingName "Time at least one task in this cgroup was stalled (PSI 'some')." "counter"

def stalledFamily : List (List Char) :=
  familyLines stalledName "Time every non-idle task in this cgroup was stalled at once (PSI 'full')." "counter"

/-- The gauges about the scrape itself. -/
def scrapeLines (host : Host) (cgroups emitted dropped : ℕ) : List (List Char) :=
  gaugeLines "stallwatch_series_emitted" "Series emitted this scrape." (decimal emitted) ++
    gaugeLines "stallwatch_series_dropped"
      "Series withheld by the cardinality cap. Non-zero means the export is incomplete." (decimal dropped) ++
    gaugeLines "stallwatch_cgroups_scanned" "Cgroups walked this scrape." (decimal cgroups) ++
    gaugeLines "stallwatch_scrape_duration_seconds" "Time spent building this response."
      (F64.format 6 host.elapsed)

def render (host : Host) (cgroups maxSeries : ℕ) (snapshot : HashMap PathBuf Snapshot) :
    Outcome Empty (List Char) := do
  let w ← addAll f maxSeries snapshot
  return unlines waitingFamily ++ w.waiting ++ unlines stalledFamily ++ w.stalled ++
    pathologySeries f host ++ unlines (scrapeLines host cgroups w.emitted w.dropped)

/-- One scrape of the cgroup tree. -/
def scrape (host : Host) (sweep : Cgroup.Sweep) (maxSeries : ℕ) : Outcome Empty (List Char) :=
  render f host sweep.cgroups.length maxSeries (Cgroup.sample sweep)

end Render

end Stallwatch.Metrics
