import Stallwatch.Psi
import Mathlib.Data.List.Nodup
import Mathlib.Logic.Function.Basic

/-! The daemon that captures when a trigger fires: one watcher thread for each resource, a
channel of wakes, and the thread that takes wakes from it and captures. The threads take
their steps in any order. -/
namespace Stallwatch.Capture

/-- What `wait` reports. -/
inductive Wake where
  | stalled
  | quiet
  deriving DecidableEq

/-- The thread that sets up the others: the resources without a trigger yet, and the number
of triggers. -/
inductive Main where
  | registering (rest : List Resource) (registered : ℕ)
  | returned (capturing : Bool)

/-- A watcher that has stopped, or was never started, has no sender. -/
inductive Watcher where
  | waiting
  | sending
  | stopped

inductive Loop where
  | unborn
  | receiving
  | draining (wokeOn : List Resource)
  | capturing (wokeOn : List Resource)
  | recording (wokeOn : List String)
  | ended

structure State where
  main : Main
  watcher : Resource → Watcher
  channel : List Resource
  loop : Loop

inductive Event where
  | registered (res : Resource)
  | refused (res : Resource)
  | declined
  | started
  | waited (res : Resource) (wake : Option Wake)
  | sent (res : Resource)
  | hungUp (res : Resource)
  | received (res : Resource)
  | closed
  | drained (res : Resource)
  | began (wokeOn : List Resource)
  | captured
  | recorded (wokeOn : List String)

def initial : State := ⟨.registering Resource.all 0, fun _ => .stopped, [], .unborn⟩

/-- A resource is listed once. -/
def also (wokeOn : List Resource) (res : Resource) : List Resource :=
  if wokeOn.contains res then wokeOn else wokeOn ++ [res]

def State.setWatcher (s : State) (res : Resource) (w : Watcher) : State :=
  { s with watcher := Function.update s.watcher res w }

/-- One step of one thread. The receiver is alive until the loop has ended. `recv` fails
only when the channel is empty and no watcher has a sender, `try_recv` whenever the channel
is empty. -/
inductive Step : State → Event → State → Prop where
  | registered {s : State} {res : Resource} {rest : List Resource} {n : ℕ} :
      s.main = .registering (res :: rest) n →
      Step s (.registered res) { s.setWatcher res .waiting with main := .registering rest (n + 1) }
  | refused {s : State} {res : Resource} {rest : List Resource} {n : ℕ} :
      s.main = .registering (res :: rest) n →
      Step s (.refused res) { s with main := .registering rest n }
  | declined {s : State} :
      s.main = .registering [] 0 →
      Step s .declined { s with main := .returned false, loop := .ended }
  | started {s : State} {n : ℕ} :
      s.main = .registering [] (n + 1) →
      Step s .started { s with main := .returned true, loop := .receiving }
  | stalled {s : State} {res : Resource} :
      s.watcher res = .waiting →
      Step s (.waited res (some .stalled)) (s.setWatcher res .sending)
  | quiet {s : State} {res : Resource} :
      s.watcher res = .waiting →
      Step s (.waited res (some .quiet)) s
  | failed {s : State} {res : Resource} :
      s.watcher res = .waiting →
      Step s (.waited res none) (s.setWatcher res .stopped)
  | sent {s : State} {res : Resource} :
      s.watcher res = .sending → s.loop ≠ .ended →
      Step s (.sent res) { s.setWatcher res .waiting with channel := s.channel ++ [res] }
  | hungUp {s : State} {res : Resource} :
      s.watcher res = .sending → s.loop = .ended →
      Step s (.hungUp res) (s.setWatcher res .stopped)
  | received {s : State} {res : Resource} {rest : List Resource} :
      s.loop = .receiving → s.channel = res :: rest →
      Step s (.received res) { s with channel := rest, loop := .draining [res] }
  | closed {s : State} :
      s.loop = .receiving → s.channel = [] → (∀ res, s.watcher res = .stopped) →
      Step s .closed { s with loop := .ended }
  | drained {s : State} {wokeOn : List Resource} {res : Resource} {rest : List Resource} :
      s.loop = .draining wokeOn → s.channel = res :: rest →
      Step s (.drained res) { s with channel := rest, loop := .draining (also wokeOn res) }
  | began {s : State} {wokeOn : List Resource} :
      s.loop = .draining wokeOn → s.channel = [] →
      Step s (.began wokeOn) { s with loop := .capturing wokeOn }
  | captured {s : State} {wokeOn : List Resource} :
      s.loop = .capturing wokeOn →
      Step s .captured { s with loop := .recording (wokeOn.map Resource.display) }
  | recorded {s : State} {wokeOn : List String} :
      s.loop = .recording wokeOn →
      Step s (.recorded wokeOn) { s with loop := .receiving }

/-- What has happened, and the state it has led to. -/
inductive Run : List Event → State → Prop where
  | start : Run [] initial
  | step {es : List Event} {e : Event} {s s' : State} : Run es s → Step s e s' → Run (es ++ [e]) s'

theorem mem_also {wokeOn : List Resource} {res r : Resource} :
    r ∈ also wokeOn res ↔ r ∈ wokeOn ∨ r = res := by
  unfold also
  split
  · rename_i listed
    rw [List.contains_iff_mem] at listed
    exact ⟨.inl, fun either => either.elim id fun same => same ▸ listed⟩
  · rw [List.mem_append, List.mem_singleton]

theorem also_ne_nil {wokeOn : List Resource} (some : wokeOn ≠ []) (res : Resource) :
    also wokeOn res ≠ [] := by
  unfold also
  split
  · exact some
  · exact List.concat_ne_nil _ _

theorem also_nodup {wokeOn : List Resource} (distinct : wokeOn.Nodup) (res : Resource) :
    (also wokeOn res).Nodup := by
  unfold also
  split
  · exact distinct
  · rename_i new
    rw [List.contains_iff_mem] at new
    exact List.Nodup.append distinct (List.nodup_singleton _) fun r member here =>
      new (List.mem_singleton.mp here ▸ member)

theorem display_injective : Function.Injective Resource.display := by
  intro a b same
  cases a <;> cases b <;> first | rfl | exact absurd same (by decide)

/-- The loop is born when all triggers are set. -/
def Settled (s : State) : Prop := s.loop ≠ .unborn → ∃ capturing, s.main = .returned capturing

theorem Settled.unborn {s : State} (settled : Settled s) {rest : List Resource} {n : ℕ}
    (main : s.main = .registering rest n) : s.loop = .unborn := by
  by_contra born
  obtain ⟨_, returned⟩ := settled born
  rw [main] at returned
  cases returned

theorem step_settled {s s' : State} {e : Event} (step : Step s e s') (settled : Settled s) : Settled s' := by
  cases step with
  | registered main | refused main => exact fun born => absurd (settled.unborn main) born
  | declined => exact fun _ => ⟨false, rfl⟩
  | started => exact fun _ => ⟨true, rfl⟩
  | stalled | quiet | failed | sent | hungUp => exact settled
  | received loop | closed loop | drained loop | began loop | captured loop | recorded loop =>
    exact fun _ => settled (by rw [loop]; nofun)

theorem run_settled {es : List Event} {s : State} (run : Run es s) : Settled s := by
  induction run with
  | start => exact fun born => absurd rfl born
  | step _ step ih => exact step_settled step ih

end Stallwatch.Capture
