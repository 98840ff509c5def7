import Mathlib.Order.Bounds.Basic
import Mathlib.Order.BoundedOrder.Lattice
import Mathlib.Order.MinMax
import Mathlib.Data.List.Induction
import Mathlib.Logic.Relation
import Mathlib.Tactic.Common

/-! Accumulating a maximum up a forest in one pass.
Nodes are visited children first. Every visit adds the weight of a node, and what
has been collected at it so far, to the slot of its parent alone. The order in
which children precede their parents is the only thing the result rests on. -/
namespace Stallwatch.Forest

variable {ν ω : Type}

/-- `Below parent q a`: one or more parent links lead from `q` to `a`. -/
def Below (parent : ν → Option ν) : ν → ν → Prop :=
  Relation.TransGen (fun q a => parent q = some a)

/-- What the slot of `a` has to bound once the nodes of `done` have been visited. -/
def Collected (parent : ν → Option ν) (done : List ν) (a q : ν) : Prop :=
  ∃ c ∈ done, parent c = some a ∧ (q = c ∨ Below parent q c)

theorem collected_snoc (parent : ν → Option ν) (done : List ν) (n a q : ν) :
    Collected parent (done ++ [n]) a q ↔
      Collected parent done a q ∨ parent n = some a ∧ (q = n ∨ Below parent q n) := by
  simp only [Collected, List.mem_append, List.mem_singleton]
  constructor
  · rintro ⟨c, hc | rfl, hp, hq⟩
    · exact .inl ⟨c, hc, hp, hq⟩
    · exact .inr ⟨hp, hq⟩
  · rintro (⟨c, hc, hp, hq⟩ | ⟨hp, hq⟩)
    · exact ⟨c, .inl hc, hp, hq⟩
    · exact ⟨n, .inr rfl, hp, hq⟩

theorem collected_of_below (parent : ν → Option ν) (done : List ν) (a q : ν)
    (closed : ∀ c, parent c = some a → c ∈ done) : Below parent q a ↔ Collected parent done a q := by
  constructor
  · intro h
    cases h with
    | single h => exact ⟨q, closed q h, h, .inl rfl⟩
    | tail hq h => exact ⟨_, closed _ h, h, .inr hq⟩
  · rintro ⟨c, _, hp, rfl | hq⟩
    · exact .single hp
    · exact .tail hq hp

variable [DecidableEq ν] [LinearOrder ω] [OrderBot ω]

def visit (parent : ν → Option ν) (weight : ν → ω) (slot : ν → ω) (n : ν) : ν → ω :=
  match parent n with
  | none => slot
  | some a => Function.update slot a (max (slot a) (max (weight n) (slot n)))

def sweep (parent : ν → Option ν) (weight : ν → ω) (order : List ν) : ν → ω :=
  order.foldl (visit parent weight) (fun _ => ⊥)

/- The slot of a node is final as soon as all its children have been visited, so a
visit adds the weights of a whole subtree. -/
theorem sweep_le_iff (parent : ν → Option ν) (weight : ν → ω) (order : List ν)
    (childrenFirst : ∀ done n, done ++ [n] <+: order → ∀ c, parent c = some n → c ∈ done)
    (a : ν) (x : ω) :
    sweep parent weight order a ≤ x ↔ ∀ q, Collected parent order a q → weight q ≤ x := by
  induction order using List.reverseRecOn generalizing a x with
  | nil => simp [sweep, Collected]
  | append_singleton done n ih =>
    have earlier := ih fun d m hd => childrenFirst d m (hd.trans (List.prefix_append _ _))
    have final : ∀ x, sweep parent weight done n ≤ x ↔ ∀ q, Below parent q n → weight q ≤ x := by
      intro x
      rw [earlier n x]
      have children := childrenFirst done n (List.prefix_refl _)
      simp only [collected_of_below parent done n _ children]
    have unfolded : sweep parent weight (done ++ [n]) = visit parent weight (sweep parent weight done) n := by
      simp [sweep]
    rw [unfolded]
    simp only [collected_snoc, or_imp, forall_and, and_imp]
    cases hp : parent n with
    | none => simp [visit, hp, earlier]
    | some b =>
      by_cases hab : a = b
      · subst hab
        simp only [visit, hp, Function.update_self, max_le_iff, earlier a, final, forall_const,
          forall_eq]
      · have other : ¬ b = a := fun h => hab h.symm
        simp [visit, hp, Function.update_of_ne hab, earlier, other]

/-- After a complete sweep a slot holds the largest weight strictly below its node. -/
theorem sweep_isLUB (parent : ν → Option ν) (weight : ν → ω) (order : List ν)
    (childrenFirst : ∀ done n, done ++ [n] <+: order → ∀ c, parent c = some n → c ∈ done)
    (a : ν) (closed : ∀ c, parent c = some a → c ∈ order) :
    IsLUB {x | ∃ q, Below parent q a ∧ weight q = x} (sweep parent weight order a) := by
  have bound := sweep_le_iff parent weight order childrenFirst a
  simp only [← collected_of_below parent order a _ closed] at bound
  constructor
  · rintro x ⟨q, hq, rfl⟩
    exact (bound _).mp le_rfl q hq
  · intro x hx
    exact (bound x).mpr fun q hq => hx ⟨q, hq, rfl⟩

end Stallwatch.Forest
