import Stallwatch.Base.Duration
import Stallwatch.Base.History
import Stallwatch.Base.Window
import Stallwatch.Incident

/-! Whether a capture is worth a notice, and what the notice says. -/
namespace Stallwatch

open Text

def episodeWindow : Duration := .fromSecs 600

/-- A tenth of the window. -/
def episodeMinStall : Duration := .fromSecs 60

/-- Kept so that old configurations parse; it decides nothing. -/
def defaultMinPeak : F64 := .whole 70

def defaultCooldown : Duration := .fromSecs 21600

structure Notice where
  summary : List Char
  body : List Char
  alsoSuppressed : UInt32
  deriving DecidableEq

/-- One capture, reduced to what an episode needs. -/
structure Beat where
  atUnix : UInt64
  stalledUsec : UInt64
  deriving DecidableEq

structure Notifier where
  enabled : Bool
  minPeak : F64
  cooldown : Duration
  episodeWindow : Duration
  episodeMinStall : Duration
  lastSentUnix : Option UInt64
  suppressed : UInt32
  beats : List Beat
  deriving DecidableEq

namespace Incident

/-- Nobody caused it: neither a process nor a cgroup that can be named. -/
def kernelSide (i : Incident) : Bool :=
  i.culprits.all (fun c => c.role ≠ .cause) && !i.causes.any Cause.isNameable

def onlyTransient (i : Incident) : Bool :=
  !i.warnings.isEmpty && i.warnings.all Warning.transient

/-- Nothing to decide: it clears itself, and nobody caused it. -/
def dismissed (i : Incident) : Bool := i.kernelSide && i.onlyTransient

end Incident

namespace Notifier

protected def default : Notifier where
  enabled := true
  minPeak := defaultMinPeak
  cooldown := defaultCooldown
  episodeWindow := Stallwatch.episodeWindow
  episodeMinStall := Stallwatch.episodeMinStall
  lastSentUnix := none
  suppressed := 0
  beats := []

protected def new (enabled : Bool) (minPeak : F64) (cooldown : Duration) : Notifier :=
  { Notifier.default with enabled, minPeak, cooldown }

/-- The sum is that of the release build, which wraps. -/
def episodeStall (n : Notifier) : Duration := .fromMicros (n.beats.map Beat.stalledUsec).sum

/-- Before this time nothing counts. -/
def cutoff (n : Notifier) (now : UInt64) : UInt64 :=
  Counter.saturatingSub now n.episodeWindow.asSecs

/-- The capture joins the episode, and what is too old leaves it at the front. -/
def accumulate (n : Notifier) (incident : Incident) (worst : Stall) (now : UInt64) : Notifier :=
  let beat := ⟨max incident.atUnix (n.cutoff now), worst.deltaUsec⟩
  { n with beats := Window.expire (fun b => b.atUnix.toNat) (n.cutoff now).toNat (n.beats ++ [beat]) }

/-- Was the last notice sent too recently? -/
def cooling (n : Notifier) (now : UInt64) : Bool :=
  n.lastSentUnix.any fun last => Counter.saturatingSub now last < n.cooldown.asSecs

def suppress (n : Notifier) : Notifier := { n with suppressed := Counter.saturatingSucc n.suppressed }

section Texts

variable (f : Rounding) (humanName : String → List Char)

def summary (windowSecs : UInt64) : List Char :=
  "Your machine has been freezing for the last ".toList ++ decimal (windowSecs / 60).toNat ++
    " minutes".toList

/-- The cause where one can be named, else the casualty. -/
def blame (incident : Incident) (worst : Stall) : List Char :=
  match incident.causes.find? Cause.isNameable with
  | some c =>
    " Most of the ".toList ++ worst.resource.display.toList ++ " came from ".toList ++
      humanName c.unit ++ " (".toList ++ bytesPhrase f c.bytes ++ ").".toList
  | none =>
    " ".toList ++ humanName worst.unit ++ " took the worst of it, ".toList ++
      "but the work is kernel-side and cannot be traced to a program.".toList

def body (incident : Incident) (worst : Stall) (share : F64) (captures : ℕ) : List Char :=
  "Frozen ".toList ++ F64.format 0 share ++ "% of that time, waiting on ".toList ++
    worst.resource.display.toList ++ ".".toList ++ blame f humanName incident worst ++
    ((incident.warnings.find? Warning.transient).elim [] fun w =>
      " ".toList ++ w.source.toList ++ " is busy but clears itself.".toList) ++
    (if 10 < captures then " This has been continuous, not a one-off.".toList else []) ++
    " Run: stallwatch why".toList

/-- The notice about the episode of `n`. -/
def announce (n : Notifier) (incident : Incident) (worst : Stall) : Notice :=
  let windowSecs := max n.episodeWindow.asSecs 1
  let share := F64.mul f (F64.div f (n.episodeStall.asSecsF64 f) (F64.ofNat f windowSecs.toNat))
    F64.hundred
  ⟨summary windowSecs, body f humanName incident worst share n.beats.length, n.suppressed⟩

/-- Should this incident be announced, and as what? -/
def consider (n : Notifier) (incident : Incident) (now : UInt64) : Notifier × Option Notice :=
  if !n.enabled then (n, none)
  else
    match incident.worst with
    | none => (n, none)
    | some worst =>
      if incident.dismissed then (n.suppress, none)
      else
        let n := n.accumulate incident worst now
        if n.episodeStall.lt n.episodeMinStall then (n, none)
        else if n.cooling now then (n.suppress, none)
        else
          ({ n with suppressed := 0, lastSentUnix := some now, beats := [] },
            some (announce f humanName n incident worst))

end Texts

/-- With this capture the episode is still too short for a word. -/
def short (n : Notifier) (incident : Incident) (worst : Stall) (now : UInt64) : Bool :=
  (n.accumulate incident worst now).episodeStall.lt n.episodeMinStall

/-- What a call can do. -/
inductive Considers (n : Notifier) (incident : Incident) (now : UInt64) :
    Notifier → Option Notice → Prop
  | disabled (off : n.enabled = false) : Considers n incident now n none
  | idle (nothing : incident.worst = none) : Considers n incident now n none
  | dismissed (worst : Stall) (enabled : n.enabled = true) (stalled : incident.worst = some worst)
      (dismissed : incident.dismissed = true) : Considers n incident now n.suppress none
  | below (worst : Stall) (enabled : n.enabled = true) (stalled : incident.worst = some worst)
      (kept : incident.dismissed = false)
      (short : n.short incident worst now = true) :
      Considers n incident now (n.accumulate incident worst now) none
  | cooling (worst : Stall) (enabled : n.enabled = true) (stalled : incident.worst = some worst)
      (kept : incident.dismissed = false)
      (enough : n.short incident worst now = false)
      (cooling : n.cooling now = true) :
      Considers n incident now (n.accumulate incident worst now).suppress none
  | sent (worst : Stall) (notice : Notice) (enabled : n.enabled = true)
      (stalled : incident.worst = some worst) (kept : incident.dismissed = false)
      (enough : n.short incident worst now = false)
      (rested : n.cooling now = false) (tells : notice.alsoSuppressed = n.suppressed) :
      Considers n incident now { n with suppressed := 0, lastSentUnix := some now, beats := [] }
        (some notice)

theorem considers (f : Rounding) (humanName : String → List Char) (n : Notifier)
    (incident : Incident) (now : UInt64) :
    Considers n incident now (consider f humanName n incident now).1
      (consider f humanName n incident now).2 := by
  unfold consider
  cases enabled : n.enabled with
  | false => exact .disabled enabled
  | true =>
    cases stalled : incident.worst with
    | none => exact .idle stalled
    | some worst =>
      cases kept : incident.dismissed with
      | true => exact .dismissed worst enabled stalled kept
      | false =>
        simp only [Bool.not_true, Bool.false_eq_true, ↓reduceIte]
        split
        · rename_i short
          exact .below worst enabled stalled kept short
        · rename_i enough
          split
          · rename_i cooling
            exact .cooling worst enabled stalled kept (eq_false_of_ne_true enough) cooling
          · rename_i rested
            exact .sent worst _ enabled stalled kept (eq_false_of_ne_true enough)
              (eq_false_of_ne_true rested) rfl

theorem consider_short (f : Rounding) (humanName : String → List Char) {n : Notifier}
    {incident : Incident} {worst : Stall} {now : UInt64} (enabled : n.enabled = true)
    (stalled : incident.worst = some worst) (kept : incident.dismissed = false)
    (short : n.short incident worst now = true) :
    consider f humanName n incident now = (n.accumulate incident worst now, none) := by
  unfold consider
  rw [enabled, stalled]
  simp only [Bool.not_true, Bool.false_eq_true, ↓reduceIte, kept]
  exact if_pos short

theorem consider_disabled (f : Rounding) (humanName : String → List Char) {n : Notifier}
    {incident : Incident} {now : UInt64} (off : n.enabled = false) :
    consider f humanName n incident now = (n, none) := by
  unfold consider
  rw [off]
  rfl

theorem consider_idle (f : Rounding) (humanName : String → List Char) {n : Notifier}
    {incident : Incident} {now : UInt64} (nothing : incident.worst = none) :
    consider f humanName n incident now = (n, none) := by
  unfold consider
  rw [nothing]
  exact ite_self _

theorem consider_dismissed (f : Rounding) (humanName : String → List Char) {n : Notifier}
    {incident : Incident} {worst : Stall} {now : UInt64} (enabled : n.enabled = true)
    (stalled : incident.worst = some worst) (dismissed : incident.dismissed = true) :
    consider f humanName n incident now = (n.suppress, none) := by
  unfold consider
  rw [enabled, stalled]
  simp only [Bool.not_true, Bool.false_eq_true, ↓reduceIte, dismissed]

section Enough

variable (f : Rounding) (humanName : String → List Char) {n : Notifier} {incident : Incident}
  {worst : Stall} {now : UInt64}

theorem consider_cooling (enabled : n.enabled = true) (stalled : incident.worst = some worst)
    (kept : incident.dismissed = false) (enough : n.short incident worst now = false)
    (cooling : n.cooling now = true) :
    consider f humanName n incident now = ((n.accumulate incident worst now).suppress, none) := by
  have long : ¬(n.accumulate incident worst now).episodeStall.lt
      (n.accumulate incident worst now).episodeMinStall = true := Bool.eq_false_iff.mp enough
  unfold consider
  rw [enabled, stalled]
  simp only [Bool.not_true, Bool.false_eq_true, ↓reduceIte, kept]
  rw [if_neg long]
  exact if_pos cooling

theorem consider_rested (enabled : n.enabled = true) (stalled : incident.worst = some worst)
    (kept : incident.dismissed = false) (enough : n.short incident worst now = false)
    (rested : n.cooling now = false) :
    consider f humanName n incident now =
      ({ n with suppressed := 0, lastSentUnix := some now, beats := [] },
        some (announce f humanName (n.accumulate incident worst now) incident worst)) := by
  have long : ¬(n.accumulate incident worst now).episodeStall.lt
      (n.accumulate incident worst now).episodeMinStall = true := Bool.eq_false_iff.mp enough
  have awake : ¬(n.accumulate incident worst now).cooling now = true := Bool.eq_false_iff.mp rested
  unfold consider
  rw [enabled, stalled]
  simp only [Bool.not_true, Bool.false_eq_true, ↓reduceIte, kept]
  rw [if_neg long, if_neg awake, ← enabled]
  rfl

end Enough

/- When a call returns a notice. -/
theorem Considers.isSome_iff {n n' : Notifier} {incident : Incident} {now : UInt64}
    {o : Option Notice} (step : Considers n incident now n' o) :
    o.isSome = true ↔ n.enabled = true ∧ ∃ worst, incident.worst = some worst ∧
      incident.dismissed = false ∧ n.short incident worst now = false ∧ n.cooling now = false := by
  cases step with
  | disabled off => simp [off]
  | idle nothing => simp [nothing]
  | dismissed worst enabled stalled dismissed => simp [dismissed]
  | below worst enabled stalled kept short => simp [stalled, short]
  | cooling worst enabled stalled kept enough cooling => simp [cooling]
  | sent worst notice enabled stalled kept enough rested tells =>
    simp [enabled, stalled, kept, enough, rested]

theorem short_eq_false_iff (n : Notifier) (incident : Incident) (worst : Stall) (now : UInt64) :
    n.short incident worst now = false ↔ n.episodeMinStall.asNanos ≤
      1000 * ((n.accumulate incident worst now).beats.map Beat.stalledUsec).sum.toNat := by
  rw [short, ← Bool.not_eq_true, Duration.lt_iff, not_lt, episodeStall, Duration.asNanos_fromMicros]

theorem cooling_eq_false_iff (n : Notifier) (now : UInt64) :
    n.cooling now = false ↔
      ∀ last ∈ n.lastSentUnix, n.cooldown.asSecs.toNat ≤ now.toNat - last.toNat := by
  cases sent : n.lastSentUnix with
  | none => simp [cooling, sent]
  | some last =>
    simp [cooling, sent, UInt64.lt_iff_toNat_lt, Counter.toNat_saturatingSub]

end Notifier

end Stallwatch
