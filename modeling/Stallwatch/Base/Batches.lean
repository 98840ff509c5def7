import Mathlib.Data.List.Induction
import Mathlib.Data.List.Nodup
import Mathlib.Tactic.Common

/-! The account of a first-in first-out channel whose messages are taken in batches. A
message is named by when it was sent, which no party to the channel knows. -/
namespace Stallwatch.Batches

/-- What can be done with the channel. A batch begins with the first message taken and is
closed by an act of its own. -/
inductive Act (α : Type) where
  | send (message : α)
  | first
  | more
  | close
  | pass
  deriving DecidableEq

def Act.isSend {α : Type} : Act α → Bool
  | .send _ => true
  | _ => false

def Act.isClose {α : Type} : Act α → Bool
  | .close => true
  | _ => false

structure Sent (α : Type) where
  time : ℕ
  message : α
  deriving DecidableEq

structure Batch (α : Type) where
  members : List (Sent α)
  closed : Option ℕ
  deriving DecidableEq

/-- The newest batch is the first of the list. -/
structure Ledger (α : Type) where
  clock : ℕ
  queue : List (Sent α)
  batches : List (Batch α)
  deriving DecidableEq

variable {α : Type}

namespace Ledger

/-- No entry is made for an act that cannot be done. -/
def add (l : Ledger α) : Act α → Option (Ledger α)
  | .send message => some ⟨l.clock + 1, l.queue ++ [⟨l.clock, message⟩], l.batches⟩
  | .first =>
    match l.queue with
    | m :: queue => some ⟨l.clock + 1, queue, ⟨[m], none⟩ :: l.batches⟩
    | [] => none
  | .more =>
    match l.queue, l.batches with
    | m :: queue, ⟨members, none⟩ :: batches => some ⟨l.clock + 1, queue, ⟨members ++ [m], none⟩ :: batches⟩
    | _, _ => none
  | .close =>
    match l.batches with
    | ⟨members, none⟩ :: batches => some ⟨l.clock + 1, l.queue, ⟨members, some l.clock⟩ :: batches⟩
    | _ => none
  | .pass => some { l with clock := l.clock + 1 }

def empty : Ledger α := ⟨0, [], []⟩

def after (acts : List (Act α)) : Option (Ledger α) := acts.foldlM add empty

@[simp] theorem after_nil : after ([] : List (Act α)) = some empty := rfl

theorem after_concat (acts : List (Act α)) (a : Act α) :
    after (acts ++ [a]) = after acts >>= fun l => l.add a := by
  rw [after, List.foldlM_append, ← after]
  congr 1
  funext l
  rw [List.foldlM_cons]
  exact bind_pure _

/-- What was taken, in the order in which it was taken. -/
def taken (l : Ledger α) : List (Sent α) := l.batches.reverse.flatMap Batch.members

end Ledger

/-- What was sent, in the order in which it was sent. -/
def sends (acts : List (Act α)) : List (Sent α) :=
  acts.zipIdx.filterMap fun a => match a.1 with
    | .send message => some ⟨a.2, message⟩
    | _ => none

@[simp] theorem sends_nil : sends ([] : List (Act α)) = [] := rfl

theorem sends_concat (acts : List (Act α)) (a : Act α) :
    sends (acts ++ [a]) = sends acts ++ match a with
      | .send message => [⟨acts.length, message⟩]
      | _ => [] := by
  rw [sends, List.zipIdx_append, List.filterMap_append, ← sends]
  cases a <;> simp

theorem mem_sends {acts : List (Act α)} {m : Sent α} :
    m ∈ sends acts ↔ acts[m.time]? = some (.send m.message) := by
  obtain ⟨time, message⟩ := m
  simp only [sends, List.mem_filterMap, List.mem_zipIdx_iff_getElem?, Prod.exists]
  constructor
  · rintro ⟨a, i, here, made⟩
    cases a <;> cases made
    exact here
  · exact fun here => ⟨_, _, here, rfl⟩

theorem sends_time {acts : List (Act α)} {m : Sent α} (member : m ∈ sends acts) : m.time < acts.length :=
  (List.getElem?_eq_some_iff.mp (mem_sends.mp member)).1

/- Two messages were not sent at once. -/
theorem sends_nodup (acts : List (Act α)) : (sends acts).Nodup := by
  induction acts using List.reverseRecOn with
  | nil => exact List.nodup_nil
  | append_singleton acts a ih =>
    rw [sends_concat]
    cases a with
    | send message =>
      refine ih.append (List.nodup_singleton _) fun m member new => ?_
      have now := sends_time member
      rw [List.mem_singleton.mp new] at now
      exact Nat.lt_irrefl _ now
    | _ => rwa [List.append_nil]

theorem length_sends (acts : List (Act α)) : (sends acts).length = acts.countP Act.isSend := by
  induction acts using List.reverseRecOn with
  | nil => rfl
  | append_singleton acts a ih =>
    rw [sends_concat, List.length_append, List.countP_append, ih]
    cases a <;> rfl

namespace Ledger

variable {acts : List (Act α)} {l l' : Ledger α}

theorem add_first : l.add .first = some l' ↔
    ∃ m queue, l.queue = m :: queue ∧ l' = ⟨l.clock + 1, queue, ⟨[m], none⟩ :: l.batches⟩ := by
  constructor
  · intro added
    simp only [add] at added
    split at added
    · rename_i m queue front
      exact ⟨m, queue, front, (Option.some.inj added).symm⟩
    · cases added
  · rintro ⟨m, queue, front, rfl⟩
    simp only [add, front]

theorem add_more : l.add .more = some l' ↔
    ∃ m queue members batches, l.queue = m :: queue ∧ l.batches = ⟨members, none⟩ :: batches ∧
      l' = ⟨l.clock + 1, queue, ⟨members ++ [m], none⟩ :: batches⟩ := by
  constructor
  · intro added
    simp only [add] at added
    split at added
    · rename_i m queue members batches front newest
      exact ⟨m, queue, members, batches, front, newest, (Option.some.inj added).symm⟩
    · cases added
  · rintro ⟨m, queue, members, batches, front, newest, rfl⟩
    simp only [add, front, newest]

theorem add_close : l.add .close = some l' ↔
    ∃ members batches, l.batches = ⟨members, none⟩ :: batches ∧
      l' = ⟨l.clock + 1, l.queue, ⟨members, some l.clock⟩ :: batches⟩ := by
  constructor
  · intro added
    simp only [add] at added
    split at added
    · rename_i members batches newest
      exact ⟨members, batches, newest, (Option.some.inj added).symm⟩
    · cases added
  · rintro ⟨members, batches, newest, rfl⟩
    simp only [add, newest]

theorem taken_eq {b : Batch α} {bs : List (Batch α)} (newest : l.batches = b :: bs) :
    l.taken = bs.reverse.flatMap Batch.members ++ b.members := by
  rw [taken, newest, List.reverse_cons, List.flatMap_append, List.flatMap_singleton]

theorem length_le_flatMap {bs : List (Batch α)} (filled : ∀ b ∈ bs, b.members ≠ []) :
    bs.length ≤ (bs.flatMap Batch.members).length := by
  induction bs with
  | nil => exact Nat.le_refl _
  | cons b bs ih =>
    rw [List.forall_mem_cons] at filled
    have one := List.length_pos_iff.mpr filled.1
    have others := ih filled.2
    rw [List.flatMap_cons, List.length_cons, List.length_append]
    omega

/-- What the acts have made of the channel. -/
structure Sound (acts : List (Act α)) (l : Ledger α) : Prop where
  clock : l.clock = acts.length
  order : l.taken ++ l.queue = sends acts
  later : ∀ b ∈ l.batches, ∀ t, b.closed = some t → ∀ m ∈ b.members, m.time < t
  filled : ∀ b ∈ l.batches, b.members ≠ []
  closes : (l.batches.countP fun b => b.closed.isSome) = acts.countP Act.isClose

theorem Sound.mem (sound : Sound acts l) {b : Batch α} {m : Sent α} (batch : b ∈ l.batches)
    (member : m ∈ b.members) : m ∈ sends acts := by
  rw [← sound.order]
  exact List.mem_append_left _ (List.mem_flatMap.mpr ⟨b, List.mem_reverse.mpr batch, member⟩)

theorem add_sound (sound : Sound acts l) {a : Act α} (added : l.add a = some l') :
    Sound (acts ++ [a]) l' := by
  have ticked : l.clock + 1 = (acts ++ [a]).length := by
    rw [sound.clock, List.length_append, List.length_singleton]
  have counted : (l.batches.countP fun b => b.closed.isSome) + [a].countP Act.isClose =
      (acts ++ [a]).countP Act.isClose := by
    rw [List.countP_append, sound.closes]
  cases a with
  | send message =>
    cases added
    refine ⟨ticked, ?_, sound.later, sound.filled, counted⟩
    rw [sends_concat, ← sound.order, ← sound.clock, List.append_assoc]
    rfl
  | first =>
    obtain ⟨m, queue, front, rfl⟩ := add_first.mp added
    refine ⟨ticked, ?_, ?_, ?_, counted⟩
    · rw [taken_eq rfl, sends_concat, ← sound.order, front, List.append_assoc, List.append_nil]
      rfl
    · exact List.forall_mem_cons.mpr ⟨fun _ closed => (nomatch closed), sound.later⟩
    · exact List.forall_mem_cons.mpr ⟨List.cons_ne_nil _ _, sound.filled⟩
  | more =>
    obtain ⟨m, queue, members, batches, front, newest, rfl⟩ := add_more.mp added
    have later := sound.later
    have filled := sound.filled
    rw [newest, List.forall_mem_cons] at later filled
    rw [newest] at counted
    refine ⟨ticked, ?_, ?_, ?_, counted⟩
    · rw [taken_eq rfl, sends_concat, ← sound.order, taken_eq newest, front, List.append_nil]
      simp only [List.append_assoc, List.singleton_append]
    · exact List.forall_mem_cons.mpr ⟨fun _ closed => (nomatch closed), later.2⟩
    · exact List.forall_mem_cons.mpr ⟨List.concat_ne_nil _ _, filled.2⟩
  | close =>
    obtain ⟨members, batches, newest, rfl⟩ := add_close.mp added
    have later := sound.later
    have filled := sound.filled
    have sent := @Sound.mem _ _ _ sound ⟨members, none⟩
    rw [newest] at sent
    rw [newest, List.forall_mem_cons] at later filled
    rw [newest] at counted
    refine ⟨ticked, ?_, ?_, ?_, ?_⟩
    · rw [taken_eq rfl, sends_concat, ← sound.order, taken_eq newest, List.append_nil]
    · refine List.forall_mem_cons.mpr ⟨fun t closed m member => ?_, later.2⟩
      cases closed
      rw [sound.clock]
      exact sends_time (sent List.mem_cons_self member)
    · exact List.forall_mem_cons.mpr ⟨filled.1, filled.2⟩
    · rw [List.countP_cons_of_pos rfl]
      exact counted
  | pass =>
    cases added
    refine ⟨ticked, ?_, sound.later, sound.filled, counted⟩
    rw [sends_concat, List.append_nil]
    exact sound.order

theorem after_sound (ran : after acts = some l) : Sound acts l := by
  induction acts using List.reverseRecOn generalizing l with
  | nil =>
    cases ran
    exact ⟨rfl, rfl, fun _ member => (nomatch member), fun _ member => (nomatch member), rfl⟩
  | append_singleton acts a ih =>
    rw [after_concat] at ran
    obtain ⟨before, ran, added⟩ := Option.bind_eq_some_iff.mp ran
    exact add_sound (ih ran) added

theorem Sound.closes_le (sound : Sound acts l) : acts.countP Act.isClose ≤ acts.countP Act.isSend := by
  have each : l.batches.reverse.length ≤ l.taken.length :=
    length_le_flatMap fun b batch => sound.filled b (List.mem_reverse.mp batch)
  calc acts.countP Act.isClose = l.batches.countP fun b => b.closed.isSome := sound.closes.symm
    _ ≤ l.batches.length := List.countP_le_length
    _ = l.batches.reverse.length := List.length_reverse.symm
    _ ≤ l.taken.length := each
    _ ≤ (l.taken ++ l.queue).length := by rw [List.length_append]; exact Nat.le_add_right _ _
    _ = acts.countP Act.isSend := by rw [sound.order, length_sends]

/- No two batches have a message in common, and none has one in common with the channel. -/
theorem Sound.distinct (sound : Sound acts l) :
    (∀ (k k' : ℕ) (b b' : Batch α), k ≠ k' → l.batches[k]? = some b → l.batches[k']? = some b' →
        b.members.Disjoint b'.members) ∧
      l.taken.Disjoint l.queue := by
  have distinct := sends_nodup acts
  rw [← sound.order, List.nodup_append'] at distinct
  refine ⟨fun k k' b b' other here there => ?_, distinct.2.2⟩
  have apart := List.pairwise_reverse.mp (List.nodup_flatMap.mp distinct.1).2
  rw [List.pairwise_iff_getElem] at apart
  obtain ⟨lt, rfl⟩ := List.getElem?_eq_some_iff.mp here
  obtain ⟨lt', rfl⟩ := List.getElem?_eq_some_iff.mp there
  rcases Nat.lt_or_gt_of_ne other with before | after
  · exact fun m member member' => apart k k' lt lt' before member' member
  · exact apart k' k lt' lt after

/-- A message that was sent is still in the channel or in exactly one batch, and never in
both. -/
theorem Sound.once (sound : Sound acts l) {m : Sent α} (sent : m ∈ sends acts) :
    m ∈ l.queue ∧ (∀ b ∈ l.batches, m ∉ b.members) ∨
      m ∉ l.queue ∧ ∃ (k : ℕ) (b : Batch α), l.batches[k]? = some b ∧ m ∈ b.members ∧
        ∀ (k' : ℕ) (b' : Batch α), l.batches[k']? = some b' → m ∈ b'.members → k' = k := by
  obtain ⟨apart, between⟩ := sound.distinct
  rw [← sound.order] at sent
  rcases List.mem_append.mp sent with taken | waiting
  · obtain ⟨b, batch, member⟩ := List.mem_flatMap.mp taken
    obtain ⟨k, here⟩ := List.mem_iff_getElem?.mp (List.mem_reverse.mp batch)
    refine .inr ⟨fun waiting => between taken waiting, k, b, here, member, fun k' b' there member' => ?_⟩
    by_contra other
    exact apart k' k b' b other there here member' member
  · refine .inl ⟨waiting, fun b batch member => between ?_ waiting⟩
    exact List.mem_flatMap.mpr ⟨b, List.mem_reverse.mpr batch, member⟩

end Ledger

end Stallwatch.Batches
