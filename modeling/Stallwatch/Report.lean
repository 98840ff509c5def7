import Stallwatch.Base.Counter
import Stallwatch.Base.Decimal
import Stallwatch.Psi

/-! What one window of observation reports: stalled units, the cgroups that moved bytes,
and warnings about the system. -/
namespace Stallwatch

/-- One unit's stall over one window. -/
structure Stall where
  unit : String
  cgroup : String
  resource : Resource
  kind : PsiKind
  deltaUsec : UInt64
  pressurePct : F64
  peakPct : F64
  deriving DecidableEq

inductive Role where
  | cause | victim | active
  deriving DecidableEq, Repr

def Role.asStr : Role → String
  | .cause => "cause"
  | .victim => "victim"
  | .active => "active"

/-- A cgroup that moved bytes during the window. -/
structure Cause where
  unit : String
  cgroup : String
  readBytes : UInt64
  writeBytes : UInt64
  discardBytes : UInt64
  pressurePct : F64
  role : Role
  deriving DecidableEq

def minReportablePct : F64 := .finite false 1

def minCauseBytes : UInt64 := 1024 * 1024

def causeMaxPressurePct : F64 := .finite false 50

def maxCauses : ℕ := 10

def maxStalls : ℕ := 10

namespace Cause

def bytes (c : Cause) : UInt64 := Counter.saturatingAdd c.readBytes c.writeBytes

/-- The root cgroup is context and never the answer. -/
def isNameable (c : Cause) : Bool := c.cgroup != "/sys/fs/cgroup"

/-- A comparison with NaN is false, so `pressure < 50` and `pressure ≥ 50` are two tests. -/
def classify (bytes : UInt64) (pressurePct : F64) : Role :=
  let enough := decide (minCauseBytes ≤ bytes)
  if enough && pressurePct.lt causeMaxPressurePct then .cause
  else if !enough && pressurePct.atLeast causeMaxPressurePct then .victim
  else .active

end Cause

inductive Severity where
  | note | warn | critical
  deriving DecidableEq, Repr

def Severity.display : Severity → String
  | .note => "note"
  | .warn => "warn"
  | .critical => "critical"

/-- A byte count the way a person says it. -/
def bytesPhrase (f : Rounding) (bytes : UInt64) : List Char :=
  let k := F64.whole 1024
  let m := F64.mul f k k
  let g := F64.mul f m k
  let b := F64.ofNat f bytes.toNat
  if b.atLeast g then F64.format 1 (F64.div f b g) ++ " GiB".toList
  else if b.atLeast m then F64.format 0 (F64.div f b m) ++ " MiB".toList
  else if b.atLeast k then F64.format 0 (F64.div f b k) ++ " KiB".toList
  else Text.decimal bytes.toNat ++ " B".toList

/-- One explanatory finding about the state of the system. -/
structure Warning where
  source : String
  severity : Severity
  transient : Bool
  message : String
  deriving DecidableEq, Repr

/-- The result of one observation window. -/
structure Report where
  windowUsec : UInt64
  stalls : List Stall
  causes : List Cause
  warnings : List Warning
  deriving DecidableEq

end Stallwatch
