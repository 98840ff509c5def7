import Stallwatch.Base.Batches
import Stallwatch.Capture

/-! What becomes of a wake. The watchers send at any time, also while the loop drains or
captures, and a drain lists each resource once. -/
namespace Stallwatch.Capture

open Batches

def Event.act : Event → Act Resource
  | .sent res => .send res
  | .received _ => .first
  | .drained _ => .more
  | .began _ => .close
  | _ => .pass

def Listed {α : Type} (wokeOn : List α) : Prop := wokeOn ≠ [] ∧ wokeOn.Nodup

def Loop.Listed : Loop → Prop
  | .draining wokeOn => Capture.Listed wokeOn
  | .capturing wokeOn => Capture.Listed wokeOn
  | .recording wokeOn => Capture.Listed wokeOn
  | _ => True

def Event.Listed : Event → Prop
  | .began wokeOn => Capture.Listed wokeOn
  | .recorded wokeOn => Capture.Listed wokeOn
  | _ => True

theorem step_listed {s s' : State} {e : Event} (step : Step s e s') (listed : s.loop.Listed) :
    s'.loop.Listed ∧ e.Listed := by
  cases step with
  | declined => exact ⟨trivial, trivial⟩
  | started => exact ⟨trivial, trivial⟩
  | received => exact ⟨⟨List.cons_ne_nil _ _, List.nodup_singleton _⟩, trivial⟩
  | closed => exact ⟨trivial, trivial⟩
  | drained draining =>
    rw [draining] at listed
    exact ⟨⟨also_ne_nil listed.1 _, also_nodup listed.2 _⟩, trivial⟩
  | began draining =>
    rw [draining] at listed
    exact ⟨listed, listed⟩
  | captured capturing =>
    rw [capturing] at listed
    exact ⟨⟨fun none => listed.1 (List.map_eq_nil_iff.mp none), listed.2.map display_injective⟩, trivial⟩
  | recorded recording =>
    rw [recording] at listed
    exact ⟨trivial, listed⟩
  | _ => exact ⟨listed, trivial⟩

theorem run_listed {es : List Event} {s : State} (run : Run es s) :
    s.loop.Listed ∧ ∀ e ∈ es, e.Listed := by
  induction run with
  | start => exact ⟨trivial, fun _ member => nomatch member⟩
  | step _ step ih =>
    obtain ⟨loop, event⟩ := step_listed step ih.1
    exact ⟨loop, List.forall_mem_append.mpr ⟨ih.2, List.forall_mem_singleton.mpr event⟩⟩

/-- A list of resources that stands for the wakes a drain took. -/
def Names (wokeOn : List Resource) (members : List (Sent Resource)) : Prop :=
  ∀ res, res ∈ wokeOn ↔ res ∈ members.map Sent.message

def AllClosed (bs : List (Batch Resource)) : Prop := ∀ b ∈ bs, b.closed ≠ none

/-- Only the drain in progress has no capture yet. -/
def Loop.Drains : Loop → List (Batch Resource) → Prop
  | .draining wokeOn, bs =>
    ∃ members earlier, bs = ⟨members, none⟩ :: earlier ∧ AllClosed earlier ∧ Names wokeOn members
  | _, bs => AllClosed bs

/-- The ledger is about this channel and these captures. -/
structure Agrees (es : List Event) (s : State) (l : Ledger Resource) : Prop where
  channel : l.queue.map Sent.message = s.channel
  loop : s.loop.Drains l.batches
  begun : ∀ b ∈ l.batches, ∀ t, b.closed = some t →
    ∃ wokeOn, es[t]? = some (.began wokeOn) ∧ Names wokeOn b.members

theorem begun_later {es : List Event} {bs : List (Batch Resource)} (e : Event)
    (begun : ∀ b ∈ bs, ∀ t, b.closed = some t →
      ∃ wokeOn, es[t]? = some (.began wokeOn) ∧ Names wokeOn b.members) :
    ∀ b ∈ bs, ∀ t, b.closed = some t →
      ∃ wokeOn, (es ++ [e])[t]? = some (.began wokeOn) ∧ Names wokeOn b.members := by
  intro b member t closed
  obtain ⟨wokeOn, here, names⟩ := begun b member t closed
  have before := (List.getElem?_eq_some_iff.mp here).1
  exact ⟨wokeOn, by rw [List.getElem?_append_left before, here], names⟩

theorem names_also {wokeOn : List Resource} {members : List (Sent Resource)} (names : Names wokeOn members)
    (m : Sent Resource) : Names (also wokeOn m.message) (members ++ [m]) := by
  intro res
  rw [mem_also, names, List.map_append, List.mem_append, List.map_singleton, List.mem_singleton]

theorem map_cons {queue : List (Sent Resource)} {res : Resource} {rest : List Resource}
    (channel : queue.map Sent.message = res :: rest) :
    ∃ m queue', queue = m :: queue' ∧ m.message = res ∧ queue'.map Sent.message = rest := by
  cases queue with
  | nil => cases channel
  | cons m queue' =>
    cases channel
    exact ⟨m, queue', rfl, rfl, rfl⟩

theorem step_agrees {es : List Event} {s s' : State} {e : Event} {l : Ledger Resource}
    (settled : Settled s) (sound : Ledger.Sound (es.map Event.act) l) (agrees : Agrees es s l)
    (step : Step s e s') :
    ∃ l', l.add e.act = some l' ∧ Agrees (es ++ [e]) s' l' := by
  obtain ⟨channel, loop, begun⟩ := agrees
  have begun := begun_later e begun
  cases step with
  | sent =>
    refine ⟨_, rfl, ?_, loop, begun⟩
    rw [List.map_append, channel]
    rfl
  | @received res rest receiving front =>
    obtain ⟨m, queue, first, rfl, others⟩ := map_cons (channel.trans front)
    rw [receiving] at loop
    refine ⟨_, Ledger.add_first.mpr ⟨m, queue, first, rfl⟩, others, ⟨[m], _, rfl, loop, ?_⟩, ?_⟩
    · exact fun res => Iff.rfl
    · exact List.forall_mem_cons.mpr ⟨fun _ closed => (nomatch closed), begun⟩
  | @drained wokeOn res rest draining front =>
    obtain ⟨m, queue, first, rfl, others⟩ := map_cons (channel.trans front)
    rw [draining] at loop
    obtain ⟨members, earlier, newest, closed, names⟩ := loop
    rw [newest, List.forall_mem_cons] at begun
    refine ⟨_, Ledger.add_more.mpr ⟨m, queue, members, earlier, first, newest, rfl⟩, others,
      ⟨members ++ [m], earlier, rfl, closed, names_also names m⟩, ?_⟩
    exact List.forall_mem_cons.mpr ⟨fun _ closed => (nomatch closed), begun.2⟩
  | @began wokeOn draining none =>
    rw [draining] at loop
    obtain ⟨members, earlier, newest, closed, names⟩ := loop
    rw [newest, List.forall_mem_cons] at begun
    refine ⟨_, Ledger.add_close.mpr ⟨members, earlier, newest, rfl⟩, channel, ?_, ?_⟩
    · exact List.forall_mem_cons.mpr ⟨fun none => (nomatch none), closed⟩
    · refine List.forall_mem_cons.mpr ⟨fun t now => ?_, begun.2⟩
      cases now
      refine ⟨wokeOn, ?_, names⟩
      rw [sound.clock, List.length_map, List.getElem?_concat_length]
  | declined main =>
    rw [settled.unborn main] at loop
    exact ⟨_, rfl, channel, loop, begun⟩
  | started main =>
    rw [settled.unborn main] at loop
    exact ⟨_, rfl, channel, loop, begun⟩
  | closed receiving =>
    rw [receiving] at loop
    exact ⟨_, rfl, channel, loop, begun⟩
  | captured capturing =>
    rw [capturing] at loop
    exact ⟨_, rfl, channel, loop, begun⟩
  | recorded recording =>
    rw [recording] at loop
    exact ⟨_, rfl, channel, loop, begun⟩
  | _ => exact ⟨_, rfl, channel, loop, begun⟩

theorem run_agrees {es : List Event} {s : State} (run : Run es s) :
    ∃ l, Ledger.after (es.map Event.act) = some l ∧ Agrees es s l := by
  induction run with
  | start => exact ⟨.empty, rfl, rfl, fun _ member => (nomatch member), fun _ member => nomatch member⟩
  | step run step ih =>
    obtain ⟨l, ran, agrees⟩ := ih
    obtain ⟨l', added, agrees'⟩ := step_agrees (run_settled run) (Ledger.after_sound ran) agrees step
    refine ⟨l', ?_, agrees'⟩
    rw [List.map_append, List.map_singleton, Ledger.after_concat, ran]
    exact added

/-- A drain goes on or ends with its capture. -/
theorem draining_step {s s' : State} {e : Event} {wokeOn : List Resource} (settled : Settled s)
    (step : Step s e s') (draining : s.loop = .draining wokeOn) :
    (∃ more, s'.loop = .draining more ∧ wokeOn ⊆ more) ∨ e = .began wokeOn := by
  cases step with
  | declined main => cases (settled.unborn main).symm.trans draining
  | started main => cases (settled.unborn main).symm.trans draining
  | received receiving => cases receiving.symm.trans draining
  | closed receiving => cases receiving.symm.trans draining
  | captured capturing => cases capturing.symm.trans draining
  | recorded recording => cases recording.symm.trans draining
  | drained here =>
    cases here.symm.trans draining
    exact .inl ⟨_, rfl, fun r member => mem_also.mpr (.inl member)⟩
  | began here =>
    cases here.symm.trans draining
    exact .inr rfl
  | _ => exact .inl ⟨wokeOn, draining, List.Subset.refl _⟩

def Event.isSent : Event → Bool
  | .sent _ => true
  | _ => false

def Event.isBegan : Event → Bool
  | .began _ => true
  | _ => false

/-- The wake is in the channel, and no drain has taken it. -/
def InChannel (l : Ledger Resource) (wake : Sent Resource) : Prop :=
  wake ∈ l.queue ∧ ∀ b ∈ l.batches, wake ∉ b.members

/-- The drain has taken the wake. Its list names the resource, and its capture has begun
after the wake was sent or has not begun yet. -/
structure Covers (es : List Event) (s : State) (drain : Batch Resource) (wake : Sent Resource) : Prop where
  taken : wake ∈ drain.members
  begun : ∀ t, drain.closed = some t →
    wake.time < t ∧ ∃ wokeOn, es[t]? = some (.began wokeOn) ∧ wake.message ∈ wokeOn
  draining : drain.closed = none → ∃ wokeOn, s.loop = .draining wokeOn ∧ wake.message ∈ wokeOn

def CoveredOnce (es : List Event) (s : State) (l : Ledger Resource) (wake : Sent Resource) : Prop :=
  wake ∉ l.queue ∧ ∃ (k : ℕ) (drain : Batch Resource), l.batches[k]? = some drain ∧ Covers es s drain wake ∧
    ∀ (k' : ℕ) (drain' : Batch Resource), l.batches[k']? = some drain' → wake ∈ drain'.members → k' = k

/-- The wakes of a history, by the account of its channel. -/
structure Accounted (es : List Event) (s : State) : Prop where
  wakes : ∃ l, Ledger.after (es.map Event.act) = some l ∧ l.queue.map Sent.message = s.channel ∧
    ∀ i res, es[i]? = some (.sent res) → InChannel l ⟨i, res⟩ ∨ CoveredOnce es s l ⟨i, res⟩
  began : ∀ wokeOn, .began wokeOn ∈ es → wokeOn ≠ [] ∧ wokeOn.Nodup
  recorded : ∀ wokeOn, .recorded wokeOn ∈ es → wokeOn ≠ [] ∧ wokeOn.Nodup
  captures : es.countP Event.isBegan ≤ es.countP Event.isSent

theorem Loop.Drains.open_ {loop : Loop} {bs : List (Batch Resource)} (drains : loop.Drains bs)
    {b : Batch Resource} (batch : b ∈ bs) (still : b.closed = none) :
    ∃ wokeOn, loop = .draining wokeOn ∧ Names wokeOn b.members := by
  cases loop with
  | draining wokeOn =>
    obtain ⟨members, earlier, rfl, closed, names⟩ := drains
    rcases List.mem_cons.mp batch with rfl | other
    · exact ⟨wokeOn, rfl, names⟩
    · exact absurd still (closed b other)
  | _ => exact absurd still (drains b batch)

theorem agrees_covers {es : List Event} {s : State} {l : Ledger Resource}
    (sound : Ledger.Sound (es.map Event.act) l) (agrees : Agrees es s l) {b : Batch Resource}
    (batch : b ∈ l.batches) {wake : Sent Resource} (taken : wake ∈ b.members) : Covers es s b wake := by
  have named : wake.message ∈ b.members.map Sent.message := List.mem_map_of_mem taken
  refine ⟨taken, fun t closed => ?_, fun still => ?_⟩
  · obtain ⟨wokeOn, here, names⟩ := agrees.begun b batch t closed
    exact ⟨sound.later b batch t closed wake taken, wokeOn, here, (names _).mpr named⟩
  · obtain ⟨wokeOn, draining, names⟩ := agrees.loop.open_ batch still
    exact ⟨wokeOn, draining, (names _).mpr named⟩

theorem countP_act {es : List Event} :
    (es.map Event.act).countP Act.isSend = es.countP Event.isSent ∧
      (es.map Event.act).countP Act.isClose = es.countP Event.isBegan := by
  have sent : Act.isSend ∘ Event.act = Event.isSent := by
    funext e
    cases e <;> rfl
  have began : Act.isClose ∘ Event.act = Event.isBegan := by
    funext e
    cases e <;> rfl
  rw [List.countP_map, List.countP_map, sent, began]
  exact ⟨rfl, rfl⟩

/-- Whatever the order of the steps, a wake that was sent is in the channel or covered by
exactly one drain. -/
theorem wakes_accounted {es : List Event} {s : State} (run : Run es s) : Accounted es s := by
  obtain ⟨l, ran, agrees⟩ := run_agrees run
  have sound := Ledger.after_sound ran
  have listed := (run_listed run).2
  refine ⟨⟨l, ran, agrees.channel, fun i res here => ?_⟩, fun w member => listed _ member,
    fun w member => listed _ member, ?_⟩
  · have sent : (⟨i, res⟩ : Sent Resource) ∈ sends (es.map Event.act) := by
      rw [mem_sends, List.getElem?_map, here]
      rfl
    rcases sound.once sent with waiting | ⟨gone, k, b, place, taken, only⟩
    · exact .inl waiting
    · exact .inr ⟨gone, k, b, place, agrees_covers sound agrees (List.mem_of_getElem? place) taken, only⟩
  · rw [← countP_act.1, ← countP_act.2]
    exact sound.closes_le

/-- Two resources breach together, and a third wake comes while the loop drains. -/
def storm : List Event :=
  [.registered .cpu, .refused .memory, .registered .io, .started,
    .waited .io (some .stalled), .sent .io, .waited .cpu (some .stalled), .received .io, .sent .cpu,
    .waited .io (some .stalled), .drained .cpu, .sent .io, .drained .io, .began [.io, .cpu],
    .waited .io none, .captured, .recorded ["io", "cpu"]]

theorem wakes_accounted_storm : ∃ s, Run storm s ∧ s.channel = [] ∧ Accounted storm s := by
  have run := Run.start.step (.registered rfl) |>.step (.refused rfl) |>.step (.registered rfl)
    |>.step (.started rfl) |>.step (@Step.stalled _ .io rfl) |>.step (@Step.sent _ .io rfl (by nofun))
    |>.step (@Step.stalled _ .cpu rfl) |>.step (.received rfl rfl)
    |>.step (@Step.sent _ .cpu rfl (by nofun)) |>.step (@Step.stalled _ .io rfl)
    |>.step (.drained rfl rfl) |>.step (@Step.sent _ .io rfl (by nofun)) |>.step (.drained rfl rfl)
    |>.step (.began rfl rfl) |>.step (@Step.failed _ .io rfl) |>.step (.captured rfl)
    |>.step (.recorded rfl)
  exact ⟨_, run, rfl, wakes_accounted run⟩

end Stallwatch.Capture
