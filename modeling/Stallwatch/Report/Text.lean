import Stallwatch.Report

/-! The report as a person reads it in a terminal. -/
namespace Stallwatch

/-- `format!("{:>width$}")`. -/
def padLeft (width : ℕ) (cs : List Char) : List Char := List.replicate (width - cs.length) ' ' ++ cs

/-- `format!("{:<width$}")`. -/
def padRight (width : ℕ) (cs : List Char) : List Char := cs ++ List.replicate (width - cs.length) ' '

namespace Report

variable (f : Rounding)

/-- Told only where it is more than the average. -/
def worstTick (s : Stall) : List Char :=
  if (F64.finite false (1 / (2 : ℕ))).lt (F64.sub f s.peakPct s.pressurePct) then
    "   (worst tick ".toList ++ F64.format 0 s.peakPct ++ "%)".toList
  else []

def stallLine (s : Stall) : List Char :=
  "  ".toList ++ padLeft 6 (F64.format 1 s.pressurePct) ++ "%  ".toList ++
    padRight 7 s.resource.display.toList ++ " ".toList ++ s.unit.toList ++ "  — frozen ".toList ++
    F64.format 0 (F64.div f (F64.ofNat f s.deltaUsec.toNat) (.whole 1000)) ++
    "ms waiting on ".toList ++ s.resource.display.toList ++ worstTick f s ++ "\n".toList

/-- Who was frozen. -/
def frozen (r : Report) : List Char :=
  let secs := F64.format 1 (F64.div f (F64.ofNat f r.windowUsec.toNat) (.whole 1000000))
  match r.stalls with
  | [] => "No significant stalls in the last ".toList ++ secs ++ "s. System is responsive.\n".toList
  | worst :: _ =>
    "Over the last ".toList ++ secs ++ "s, these units stalled the system:\n\n".toList ++
      r.stalls.flatMap (stallLine f) ++ "\n  worst cgroup: ".toList ++ worst.cgroup.toList ++ "\n".toList

/-- The role is nuance and does not decide who is named. -/
def qualifier (top : Cause) : List Char :=
  match top.role with
  | .cause => "and was barely blocked itself (".toList ++ F64.format 0 top.pressurePct ++ "%)".toList
  | .active =>
    "and was contended too (".toList ++ F64.format 0 top.pressurePct ++
      "%), so it is competing rather than simply winning".toList
  | .victim => "but was mostly blocked, so it is likely a casualty too".toList

def mostOfTheIo (top : Cause) : List Char :=
  "\n  most of the IO: ".toList ++ top.unit.toList ++ " moved ".toList ++ bytesPhrase f top.bytes ++
    " ".toList ++ qualifier top ++ "\n".toList

/-- Up to two more that can be named. -/
def alsoMoving (causes : List Cause) (top : Cause) : List Char :=
  match (causes.filter fun c => c.cgroup != top.cgroup && c.isNameable).take 2 with
  | [] => []
  | others =>
    let names := others.map fun c =>
      c.unit.toList ++ " (".toList ++ bytesPhrase f c.bytes ++ ")".toList
    "  also moving data: ".toList ++ [',', ' '].intercalate names ++ "\n".toList

/-- Work that belongs to no unit. -/
def systemWide (causes : List Cause) (top : Cause) : List Char :=
  match causes.find? fun c => !c.isNameable with
  | none => []
  | some root =>
    if Counter.saturatingMul top.bytes 2 < root.bytes then
      "  system-wide total was ".toList ++ bytesPhrase f root.bytes ++
        ", so most of this is kernel-side\n".toList ++
        "  or in cgroups with no io.stat — not attributable to a unit.\n".toList
    else []

/-- Who was doing the work. -/
def working (causes : List Cause) : List Char :=
  match causes.find? Cause.isNameable with
  | none => []
  | some top => mostOfTheIo f top ++ alsoMoving f causes top ++ systemWide f causes top

def warningLine (w : Warning) : List Char :=
  let marker := match w.severity with
    | .critical => "!!"
    | .warn => " !"
    | .note => " ·"
  "\n  ".toList ++ marker.toList ++ " ".toList ++ w.source.toList ++
    (if w.transient then " [transient]".toList else []) ++ ": ".toList ++ w.message.toList ++ "\n".toList

def toText (r : Report) : List Char :=
  frozen f r ++ working f r.causes ++ r.warnings.flatMap warningLine

end Report

end Stallwatch
