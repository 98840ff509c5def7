import Stallwatch.Base.Wrap
import Stallwatch.Cgroup
import Stallwatch.Json.Write
import Stallwatch.Logfile
import Stallwatch.Process.Drill
import Stallwatch.Report

/-! What the machine permits. Every capability is probed, and every probe that fails is reported
with what it costs. -/
namespace Stallwatch.Doctor

open Text

inductive Status where
  | ok
  | degraded
  | failed
  deriving DecidableEq

def Status.marker : Status → Char
  | .ok => '✓'
  | .degraded => '!'
  | .failed => '✗'

def Status.display : Status → String
  | .ok => "ok"
  | .degraded => "degraded"
  | .failed => "failed"

/-- One probed capability. -/
structure Check where
  name : String
  status : Status
  detail : List Char
  consequence : String
  deriving DecidableEq

/-- The two generations of the incident log as they are found. -/
structure LogFile where
  path : List Char
  found : Bool
  live : Option UInt64
  previous : Option UInt64

/-- What the probes find: a truth value for every cgroup and every process, an error where a
trigger is refused, and the line of the daemon or the error of asking it. -/
structure Machine where
  controllers : Bool
  pressure : Bool
  ioPressure : List Bool
  ioStat : List Bool
  procIo : List Bool
  systemTrigger : Option (List Char)
  cgroupTrigger : Option (List Char)
  delayacct : Option (List Char)
  socket : List Char
  daemon : Except (List Char) (List Char)
  log : LogFile

/-- How many of them are readable; too few are reported as such. -/
def readable (each : List Bool) : ℕ := each.countP id

def ratioStatus (each : List Bool) : Status :=
  if readable each = 0 then .failed else if readable each * 4 < each.length then .degraded else .ok

section Checks

variable (f : Rounding) (debug : List Char → List Char) (m : Machine)

def daemon : Check :=
  match m.daemon with
  | .ok reply =>
    if trim reply = "PONG".toList then ⟨"stallwatchd", .ok, "responding on ".toList ++ m.socket, ""⟩
    else
      ⟨"stallwatchd", .degraded, "answered ".toList ++ debug (trim reply) ++ ", expected PONG".toList,
        "Something else owns the socket. `stallwatch --since` and `stallwatch why` will not work."⟩
  | .error e =>
    ⟨"stallwatchd", .degraded, "not reachable at ".toList ++ m.socket ++ " (".toList ++ e ++ [')'],
      "Nothing is recording, so `stallwatch why` has no history to read — a freeze is over before you can type. Start it with: systemctl --user enable --now stallwatchd"⟩

def LogFile.total (l : LogFile) : UInt64 := l.live.getD 0 + l.previous.getD 0

def logCap : UInt64 := defaultMaxBytes * 2

/-- A tenth more than the cap is let pass. -/
def LogFile.over (l : LogFile) : Bool := logCap + logCap / 10 < l.total

def incidentLog : Check :=
  let (status, detail) : Status × List Char :=
    if m.log.found = false then (.degraded, m.log.path ++ " does not exist yet".toList)
    else if m.log.over then
      (.degraded, bytesPhrase f m.log.total ++ " across both generations, over the ".toList ++
        bytesPhrase f logCap ++ " cap — rotation is not running".toList)
    else
      (.ok, bytesPhrase f m.log.total ++ " across both generations, cap ".toList ++
        bytesPhrase f logCap)
  ⟨"incident log", status, detail,
    "Nothing has been recorded yet, or the log is over its cap — `stallwatch why` reads this file."⟩

def cgroupV2 : Check where
  name := "cgroup v2"
  status := if m.controllers then .ok else .failed
  detail :=
    if m.controllers then "mounted at /sys/fs/cgroup".toList
    else "not found — cgroup v1 or an unusual mount layout".toList
  consequence := "Nothing can be attributed to a unit. There is no v1 fallback."

def psiPresent : Check where
  name := "kernel PSI"
  status := if m.pressure then .ok else .failed
  detail :=
    if m.pressure then "/proc/pressure present".toList
    else "/proc/pressure missing — CONFIG_PSI=n, or CONFIG_PSI_DEFAULT_DISABLED without psi=1 on the kernel command line".toList
  consequence := "No stall can be detected at all."

def ratioDetail (each : List Bool) (file : String) : List Char :=
  decimal (readable each) ++ " of ".toList ++ decimal each.length ++ " cgroups expose ".toList ++ file.toList

def perCgroupPressure : Check where
  name := "per-cgroup pressure"
  status := ratioStatus m.ioPressure
  detail := ratioDetail m.ioPressure "io.pressure"
  consequence := "Stalls are visible system-wide but cannot be blamed on a unit. Check for cgroup_disable=pressure on the kernel command line."

def ioStat : Check where
  name := "per-cgroup io.stat"
  status := ratioStatus m.ioStat
  detail := ratioDetail m.ioStat "io.stat"
  consequence := "Causes cannot be named — only victims. Enable the io controller in cgroup.subtree_control, or expect unit-level attribution only."

/-- Never healthy: it is readable for some processes only, by design. -/
def procIo : Check where
  name := "/proc/<pid>/io"
  status := if readable m.procIo = 0 then .failed else .degraded
  detail := "readable for ".toList ++ decimal (readable m.procIo) ++ " of ".toList ++ decimal m.procIo.length ++
    " processes (".toList ++
    F64.format 0 (if m.procIo.length = 0 then .whole 0 else F64.percent f (readable m.procIo) m.procIo.length) ++
    "%) — EACCES for anything you do not own".toList
  consequence := "Per-process byte evidence is unavailable for kernel threads and root daemons. Cause attribution uses cgroup io.stat instead, which is unit-level. This is expected, not a fault."

def systemTrigger : Check :=
  match m.systemTrigger with
  | none =>
    ⟨"PSI triggers (system)", .ok, "accepted — the daemon is event-driven and costs nothing when idle".toList, ""⟩
  | some e =>
    ⟨"PSI triggers (system)", .degraded, "refused: ".toList ++ e,
      "The daemon falls back to polling, which costs CPU on every tick and misses stalls shorter than the interval."⟩

def cgroupTrigger : Check :=
  match m.cgroupTrigger with
  | none => ⟨"PSI triggers (per-cgroup)", .ok, "accepted".toList, ""⟩
  | some e =>
    ⟨"PSI triggers (per-cgroup)", .degraded, "refused: ".toList ++ e ++ " — normal without privileges".toList,
      "Capture is woken by system-wide pressure and attributed afterwards, so a stall confined to one cgroup may not wake it."⟩

def delayacct : Check where
  name := "delay accounting"
  status := if Process.delayacctEnabled m.delayacct then .ok else .degraded
  detail :=
    if Process.delayacctEnabled m.delayacct then "enabled — exact per-process block IO wait available".toList
    else "off (kernel.task_delayacct=0, the default since 5.14)".toList
  consequence := "Per-process blocking is inferred from state sampling rather than measured. Enable with: sudo sysctl -w kernel.task_delayacct=1"

def diagnose : List Check :=
  [cgroupV2 m, psiPresent m, perCgroupPressure m, ioStat m, procIo f m, systemTrigger m, cgroupTrigger m,
    delayacct m, daemon debug m, incidentLog f m]

end Checks

/-- Words on lines of at most `width` bytes. -/
def wrap (s : List Char) (width : ℕ) : List (List Char) :=
  Wrap.wrap ' ' (fun line => (Utf8.bytes line).length ≤ width) (splitWhitespace s)

/-- `{:<26}`. -/
def padRight (width : ℕ) (s : List Char) : List Char := s ++ List.replicate (width - s.length) ' '

def headline (c : Check) : List Char :=
  ' ' :: ' ' :: c.status.marker :: ' ' :: (padRight 26 c.name.toList ++ ' ' :: c.detail)

/-- What is printed of a check: its line, and what its failure costs. -/
def checkLines (c : Check) : List (List Char) :=
  headline c ::
    if c.status ≠ .ok ∧ c.consequence ≠ "" then
      (wrap c.consequence.toList 74).map fun line => "      ".toList ++ line
    else []

def plural (n : ℕ) : List Char := if n = 1 then "capability".toList else "capabilities".toList

def verdict (checks : List Check) : List Char :=
  let failed := checks.countP fun c => c.status = .failed
  let degraded := checks.countP fun c => c.status = .degraded
  if 0 < failed then
    "  ".toList ++ decimal failed ++ ' ' :: (plural failed ++ " missing. Results will be incomplete.".toList)
  else if 0 < degraded then
    "  Working, with ".toList ++ decimal degraded ++ " reduced ".toList ++ plural degraded ++ " noted above.".toList
  else "  Everything available.".toList

def unlines (ls : List (List Char)) : List Char := ls.flatMap fun line => line ++ ['\n']

def toText (checks : List Check) : List Char :=
  unlines (["What stallwatch can and cannot see on this machine:".toList, []] ++ checks.flatMap checkLines ++
    [[], verdict checks])

def summaryLine (checks : List Check) : List Char :=
  let bad := (checks.filter fun c => c.status ≠ .ok).map fun c => c.name.toList
  if bad = [] then "all capabilities available".toList
  else "reduced capability: ".toList ++ ", ".toList.intercalate bad ++
    " (run `stallwatch doctor` for what this costs)".toList

def Check.toJson (c : Check) : List Char :=
  Json.record [("name", Json.jsonStr c.name.toList), ("status", Json.bare c.status.display),
    ("detail", Json.jsonStr c.detail), ("consequence", Json.jsonStr c.consequence.toList)]

def toJson (checks : List Check) : List Char :=
  Json.record [("checks", Json.list (checks.map Check.toJson))]

end Stallwatch.Doctor
