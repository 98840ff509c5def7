import Stallwatch.Ipc
import Stallwatch.Notify
import Stallwatch.Rules
import Mathlib.Logic.Function.Basic

/-! The daemon while it serves: the thread that captures and the threads that answer, with the
history behind a lock that a panic poisons. The threads take their steps in any order. -/
namespace Stallwatch.Daemon

open Rules

/-- What a connection asks, once its request has been read. A Varlink call for the history
reads the ring as a request line does; the other calls do not touch it. -/
inductive Ask where
  | line (asked : Option Request)
  | history (seconds : UInt64)
  deriving DecidableEq

/-- What of the history an answer rests on. -/
inductive Access where
  | nothing | newest | all
  deriving DecidableEq

def Ask.access : Ask → Access
  | .line (some (.now _)) => .newest
  | .line (some (.since _ _)) => .all
  | .history _ => .all
  | _ => .nothing

def reply (f : Rounding) (m : Ipc.Moment) : Ask → List Char
  | .line asked => Ipc.answer f m asked
  | .history seconds => Varlink.replyReport (Ipc.since f m seconds)

/-- What the daemon is started with. -/
structure Settings where
  capacity : ℕ
  meets : Filter → Stall → Bool
  rules : List Rule
  humanName : String → List Char
  notifier : Notifier

/-- The thread that captures: what it has done with its incident. -/
inductive Loop where
  | idle
  | captured (i : Incident)
  | appended (i : Incident)
  | fired (i : Incident)
  | considered (i : Incident)
  | locked (i : Incident)
  | evicted (i : Incident)

/-- A thread that answers. It has read the clock before it waits for the lock, and reads the
history frame by frame. -/
inductive Query where
  | absent
  | waiting (ask : Ask) (nowUnix : UInt64)
  | reading (ask : Ask) (nowUnix : UInt64) (seen : List Frame)
  | finished (ask : Ask) (nowUnix : UInt64) (found : Option (List Frame))
  | closed

inductive Holder where
  | capture
  | query (q : ℕ)
  deriving DecidableEq

structure State where
  loop : Loop
  notifier : Notifier
  ring : Ring
  holder : Option Holder
  poisoned : Bool
  query : ℕ → Query

/-- Whether a line was written is part of the event: a failure is ignored. -/
inductive Event where
  | captured (i : Incident)
  | appended (i : Incident) (written : Bool)
  | fired (i : Incident) (effects : List Effect)
  | considered (i : Incident) (notice : Option Notice)
  | locked
  | skipped (i : Incident)
  | evicted
  | pushed (i : Incident)
  | arrived (q : ℕ) (ask : Ask) (nowUnix : UInt64)
  | acquired (q : ℕ)
  | refused (q : ℕ)
  | visited (q : ℕ)
  | released (q : ℕ)
  | panicked (q : ℕ)
  | replied (q : ℕ) (text : List Char)

def frame (i : Incident) : Frame := ⟨i.atUnix, i.windowUsec, i.stalls⟩

def initial (cfg : Settings) : State where
  loop := .idle
  notifier := cfg.notifier
  ring := .new cfg.capacity
  holder := none
  poisoned := false
  query _ := .absent

def State.setQuery (s : State) (q : ℕ) (stage : Query) : State :=
  { s with query := Function.update s.query q stage }

/-- The first half of a push. -/
def evict (r : Ring) : Ring :=
  { r with frames := if r.frames.length = r.capacity then r.frames.tail else r.frames }

def insert (r : Ring) (frame : Frame) : Ring := { r with frames := r.frames ++ [frame] }

variable (f : Rounding) (cfg : Settings)

/-- One step of one thread. -/
inductive Step : State → Event → State → Prop where
  | captured {s : State} {i : Incident} :
      s.loop = .idle →
      Step s (.captured i) { s with loop := .captured i }
  | appended {s : State} {i : Incident} {written : Bool} :
      s.loop = .captured i →
      Step s (.appended i written) { s with loop := .appended i }
  | fired {s : State} {i : Incident} :
      s.loop = .appended i →
      Step s (.fired i (fireRules cfg.meets i cfg.rules)) { s with loop := .fired i }
  | considered {s : State} {i : Incident} :
      s.loop = .fired i →
      Step s (.considered i (s.notifier.consider f cfg.humanName i i.atUnix).2)
        { s with
          loop := .considered i
          notifier := (s.notifier.consider f cfg.humanName i i.atUnix).1 }
  | locked {s : State} {i : Incident} :
      s.loop = .considered i → s.holder = none → s.poisoned = false →
      Step s .locked { s with loop := .locked i, holder := some .capture }
  | skipped {s : State} {i : Incident} :
      s.loop = .considered i → s.holder = none → s.poisoned = true →
      Step s (.skipped i) { s with loop := .idle }
  | evicted {s : State} {i : Incident} :
      s.loop = .locked i →
      Step s .evicted { s with loop := .evicted i, ring := evict s.ring }
  | pushed {s : State} {i : Incident} :
      s.loop = .evicted i →
      Step s (.pushed i) { s with loop := .idle, ring := insert s.ring (frame i), holder := none }
  | arrived {s : State} {q : ℕ} {ask : Ask} {nowUnix : UInt64} :
      s.query q = .absent → ask.access ≠ .nothing →
      Step s (.arrived q ask nowUnix) (s.setQuery q (.waiting ask nowUnix))
  | aside {s : State} {q : ℕ} {ask : Ask} {nowUnix : UInt64} :
      s.query q = .absent → ask.access = .nothing →
      Step s (.arrived q ask nowUnix) (s.setQuery q (.finished ask nowUnix none))
  | acquired {s : State} {q : ℕ} {ask : Ask} {nowUnix : UInt64} :
      s.query q = .waiting ask nowUnix → s.holder = none → s.poisoned = false →
      Step s (.acquired q) { s.setQuery q (.reading ask nowUnix []) with holder := some (.query q) }
  | refused {s : State} {q : ℕ} {ask : Ask} {nowUnix : UInt64} :
      s.query q = .waiting ask nowUnix → s.holder = none → s.poisoned = true →
      Step s (.refused q) (s.setQuery q (.finished ask nowUnix none))
  | visited {s : State} {q : ℕ} {ask : Ask} {nowUnix : UInt64} {seen : List Frame} {fr : Frame} :
      s.query q = .reading ask nowUnix seen → ask.access = .all → s.ring.frames[seen.length]? = some fr →
      Step s (.visited q) (s.setQuery q (.reading ask nowUnix (seen ++ [fr])))
  | released {s : State} {q : ℕ} {ask : Ask} {nowUnix : UInt64} {seen : List Frame} :
      s.query q = .reading ask nowUnix seen → ask.access = .all → s.ring.frames[seen.length]? = none →
      Step s (.released q) { s.setQuery q (.finished ask nowUnix (some seen)) with holder := none }
  | peeked {s : State} {q : ℕ} {ask : Ask} {nowUnix : UInt64} {seen : List Frame} :
      s.query q = .reading ask nowUnix seen → ask.access = .newest →
      Step s (.released q)
        { s.setQuery q (.finished ask nowUnix (some s.ring.newest.toList)) with holder := none }
  | panicked {s : State} {q : ℕ} {ask : Ask} {nowUnix : UInt64} {seen : List Frame} :
      s.query q = .reading ask nowUnix seen →
      Step s (.panicked q) { s.setQuery q .closed with holder := none, poisoned := true }
  | replied {s : State} {q : ℕ} {ask : Ask} {nowUnix : UInt64} {found : Option (List Frame)}
      {order : Shuffle Stall.Key Total} {scan : List Warning} :
      s.query q = .finished ask nowUnix found →
      Step s (.replied q (reply f ⟨nowUnix, found.map (⟨·, cfg.capacity⟩), order, scan⟩ ask))
        (s.setQuery q .closed)

/-- What has happened, and the state it has led to. -/
inductive Run : List Event → State → Prop where
  | start : Run [] (initial cfg)
  | step {es : List Event} {e : Event} {s s' : State} :
      Run es s → Step f cfg s e s' → Run (es ++ [e]) s'

/-- Steps of some threads, one after the other. -/
inductive Steps : State → List Event → State → Prop where
  | none {s : State} : Steps s [] s
  | step {s s' s'' : State} {e : Event} {es : List Event} :
      Step f cfg s e s' → Steps s' es s'' → Steps s (e :: es) s''

variable {f : Rounding} {cfg : Settings} {s s' s'' : State} {es es' : List Event}

theorem Steps.append (first : Steps f cfg s es s') (second : Steps f cfg s' es' s'') :
    Steps f cfg s (es ++ es') s'' := by
  induction first with
  | none => exact second
  | step step _ ih => exact .step step (ih second)

theorem Run.steps (run : Run f cfg es s) (steps : Steps f cfg s es' s') : Run f cfg (es ++ es') s' := by
  induction steps generalizing es with
  | none => rwa [List.append_nil]
  | step step _ ih =>
    have later := ih (run.step step)
    rwa [List.append_assoc, List.singleton_append] at later

end Stallwatch.Daemon
