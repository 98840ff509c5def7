import Stallwatch.Incident
import Stallwatch.Json
import Stallwatch.Json.Write

/-! An incident as one line of JSON, and what is rebuilt from such a line. -/
namespace Stallwatch

open Text Json

def Stall.fields (s : Stall) : List (String × List Char) :=
  [("unit", jsonStr s.unit.toList), ("cgroup", jsonStr s.cgroup.toList),
    ("resource", bare s.resource.display), ("type", bare s.kind.display),
    ("delta_usec", decimal s.deltaUsec.toNat), ("pressure_pct", F64.format 2 s.pressurePct),
    ("peak_pct", F64.format 2 s.peakPct)]

def Warning.fields (w : Warning) : List (String × List Char) :=
  [("source", jsonStr w.source.toList), ("severity", bare w.severity.display),
    ("transient", boolText w.transient), ("message", jsonStr w.message.toList)]

def Cause.fields (c : Cause) : List (String × List Char) :=
  [("unit", jsonStr c.unit.toList), ("cgroup", jsonStr c.cgroup.toList),
    ("read_bytes", decimal c.readBytes.toNat), ("write_bytes", decimal c.writeBytes.toNat),
    ("discard_bytes", decimal c.discardBytes.toNat), ("pressure_pct", F64.format 2 c.pressurePct),
    ("role", bare c.role.asStr)]

def Culprit.fields (c : Culprit) : List (String × List Char) :=
  [("pid", decimal c.pid.toNat), ("comm", jstr c.comm.toList),
    ("blocked_pct", F64.format 1 c.blockedPct), ("bytes", decimal c.bytes.toNat),
    ("role", bare c.role.asStr)]

namespace Report

def fields (r : Report) : List (String × List Char) :=
  [("window_usec", decimal r.windowUsec.toNat), ("stalls", list (r.stalls.map (record ·.fields))),
    ("causes", list (r.causes.map (record ·.fields))),
    ("warnings", list (r.warnings.map (record ·.fields)))]

def toJsonCompact (r : Report) : List Char := record r.fields

end Report

namespace Incident

def toReport (i : Incident) : Report := ⟨i.windowUsec, i.stalls, i.causes, i.warnings⟩

/-- The fields that an incident has over its report. -/
def fields (i : Incident) : List (String × List Char) :=
  [("at_unix", decimal i.atUnix.toNat), ("woke_on", list (i.wokeOn.map (jstr ·.toList))),
    ("culprits", list (i.culprits.map (record ·.fields)))]

/-- The text of the report loses its braces and is put behind the other fields. -/
def toJsonl (i : Incident) : List Char :=
  let body := i.toReport.toJsonCompact
  let inner := trimEndMatches (· = '}') (trimStartMatches (· = '{') body)
  '{' :: (join (i.fields.map member) ++ ',' :: (inner ++ ['}']))

end Incident

/-- A number of the object, and zero where it has none. -/
def num (o : Json) (k : String) : UInt64 := ((o.get k.toList).bind asU64).getD 0

def txt (o : Json) (k : String) : String := String.ofList (((o.get k.toList).bind asStr).getD [])

def pct (o : Json) (k : String) : F64 := ((o.get k.toList).bind asF64).getD (.finite false 0)

/-- Every element of an array, and nothing where there is no array. -/
def each {α : Type} (o : Json) (k : String) (rebuild : Json → α) : List α :=
  ((o.get k.toList).bind asArray).elim [] (·.map rebuild)

def resourceOf : String → Resource
  | "cpu" => .cpu
  | "memory" => .memory
  | _ => .io

def severityOf : String → Severity
  | "critical" => .critical
  | "warn" => .warn
  | _ => .note

def roleOf : String → Role
  | "cause" => .cause
  | "victim" => .victim
  | _ => .active

def parseStall (s : Json) : Stall where
  unit := txt s "unit"
  cgroup := txt s "cgroup"
  resource := resourceOf (txt s "resource")
  kind := if txt s "type" = "some" then .some else .full
  deltaUsec := num s "delta_usec"
  pressurePct := pct s "pressure_pct"
  peakPct := pct s "peak_pct"

def parseWarning (w : Json) : Warning where
  source := txt w "source"
  severity := severityOf (txt w "severity")
  transient := ((w.get "transient".toList).bind asBool).getD false
  message := txt w "message"

def parseCulprit (c : Json) : Culprit where
  pid := (num c "pid").toUInt32
  comm := txt c "comm"
  blockedPct := pct c "blocked_pct"
  bytes := num c "bytes"
  role := roleOf (txt c "role")

/-- What woke the daemon and the causes are not recovered. -/
def rebuild (v : Json) : Incident where
  atUnix := num v "at_unix"
  windowUsec := num v "window_usec"
  wokeOn := []
  stalls := each v "stalls" parseStall
  warnings := each v "warnings" parseWarning
  culprits := each v "culprits" parseCulprit
  causes := []

/-- An error of the reader makes it no incident; a panic would go on. -/
def parseIncident (f : Rounding) (line : List Char) : Outcome Empty (Option Incident) :=
  match parse f line with
  | .ok v => .ok (some (rebuild v))
  | .err _ => .ok none
  | .panic => .panic

end Stallwatch
