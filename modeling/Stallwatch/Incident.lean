import Stallwatch.Base.Decimal
import Stallwatch.Base.Utf8
import Stallwatch.Report

/-! A stall recorded as a thing that happened, and the paragraph that explains it. -/
namespace Stallwatch

open Text

/-- A process caught during an incident. -/
structure Culprit where
  pid : UInt32
  comm : String
  blockedPct : F64
  bytes : UInt64
  role : Role
  deriving DecidableEq

structure Incident where
  atUnix : UInt64
  windowUsec : UInt64
  wokeOn : List String
  stalls : List Stall
  warnings : List Warning
  culprits : List Culprit
  causes : List Cause
  deriving DecidableEq

namespace Incident

variable (f : Rounding)

def worst (i : Incident) : Option Stall := i.stalls.head?

/-- How long the machine was stopped, in milliseconds. -/
def frozenMs (i : Incident) : F64 :=
  i.worst.elim (.whole 0) fun s => F64.div f (F64.ofNat f s.deltaUsec.toNat) (.whole 1000)

def durationPhrase (secs : F64) : List Char :=
  if secs.lt (.whole 1) then
    F64.format 0 (F64.mul f secs (.whole 1000)) ++ " milliseconds".toList
  else F64.format 1 secs ++ " seconds".toList

def bytesPhrase (b : UInt64) : List Char :=
  let k := F64.whole 1024
  let m := F64.mul f k k
  let g := F64.mul f m k
  let x := F64.ofNat f b.toNat
  if x.atLeast g then F64.format 1 (F64.div f x g) ++ " GiB".toList
  else if x.atLeast m then F64.format 0 (F64.div f x m) ++ " MiB".toList
  else if x.atLeast k then F64.format 0 (F64.div f x k) ++ " KiB".toList
  else decimal b.toNat ++ " bytes".toList

def spelled : List String :=
  ["zero", "one", "two", "three", "four", "five", "six", "seven", "eight", "nine", "ten",
    "eleven", "twelve"]

def spell (n : UInt64) : List Char := (spelled[n.toNat]?).elim (decimal n.toNat) String.toList

/-- The quotient rounded to a whole number. -/
def wholeUnits (delta : UInt64) (unit : ℕ) : UInt64 :=
  (F64.div f (F64.ofNat f delta.toNat) (.whole unit)).round.asU64

def relativeTime (delta : UInt64) : List Char :=
  let n := delta.toNat
  if n ≤ 20 then "just now".toList
  else if n ≤ 90 then "a minute ago".toList
  else if n ≤ 3599 then "about ".toList ++ spell (wholeUnits f delta 60) ++ " minutes ago".toList
  else if n ≤ 86399 then
    let h := wholeUnits f delta 3600
    if h = 1 then "about an hour ago".toList
    else "about ".toList ++ spell h ++ " hours ago".toList
  else
    let d := delta / 86400
    if d = 1 then "yesterday".toList else decimal d.toNat ++ " days ago".toList

/-- What stands before the first `. `, with its full stop. -/
def upToStop : List Char → Option (List Char)
  | '.' :: ' ' :: _ => some ['.']
  | c :: cs => (upToStop cs).map (c :: ·)
  | [] => none

def firstSentence (msg : List Char) : List Char :=
  let flat := [' '].intercalate (splitWhitespace msg)
  (upToStop flat).elim flat trim

def nothingRecorded : List Char :=
  "Nothing was recorded. The machine has not stalled since this started watching.\n".toList

/-- Who did it: a culprit that is a cause, or nobody inside. -/
def verdict (i : Incident) : List Char :=
  match i.culprits.find? (·.role = .cause) with
  | some c =>
    "  It was the victim, not the cause: ".toList ++ c.comm.toList ++ " [".toList ++
      decimal c.pid.toNat ++ "] moved ".toList ++ bytesPhrase f c.bytes ++
      " through the same queue.\n".toList
  | none =>
    if i.culprits.any fun c => c.role = .victim || c.role = .active then
      "  No process inside it was moving data, so the work was kernel-side rather\n  ".toList ++
        "than something you can point at.\n".toList
    else []

/-- Up to two more stalls. -/
def alsoStalled (i : Incident) : List Char :=
  match (i.stalls.drop 1).take 2 with
  | [] => []
  | others =>
    let names := others.map fun s =>
      s.unit.toList ++ " (".toList ++ F64.format 0 s.pressurePct ++ "%)".toList
    "  Also stalled: ".toList ++ [',', ' '].intercalate names ++ ".\n".toList

def warned (w : Warning) : List Char :=
  "\n  ".toList ++ w.source.toList ++ ": ".toList ++ firstSentence w.message.toList ++
    (if w.transient then " That part clears itself.".toList else []) ++ "\n".toList

/-- The paragraph. -/
def explain (now : UInt64) (i : Incident) : List Char :=
  match i.worst with
  | none => nothingRecorded
  | some worst =>
    let secs := F64.div f (frozenMs f i) (.whole 1000)
    let ago := relativeTime f (Counter.saturatingSub now i.atUnix)
    "Your machine froze for ".toList ++ durationPhrase f secs ++ ", ".toList ++ ago ++
      ".\n\n".toList ++
      "  ".toList ++ worst.unit.toList ++ " was blocked on ".toList ++
      worst.resource.display.toList ++ " for ".toList ++ F64.format 0 worst.pressurePct ++
      "% of that window.\n".toList ++
      verdict f i ++ alsoStalled i ++ i.warnings.flatMap warned

end Incident

end Stallwatch
