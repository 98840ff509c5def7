import Mathlib.Data.List.Sort
import Mathlib.Data.List.TakeWhile

/-! A queue of timed entries that is pruned from the front. Where the times never decrease
this keeps exactly the entries of the window. -/
namespace Stallwatch.Window

variable {α : Type} (time : α → ℕ)

/-- Drop from the front what is older than the cutoff. -/
def expire (cutoff : ℕ) (queue : List α) : List α := queue.dropWhile fun x => time x < cutoff

/-- The times never decrease. -/
def Ordered (queue : List α) : Prop := queue.Pairwise fun x y => time x ≤ time y

variable {time}

theorem expire_suffix (cutoff : ℕ) (queue : List α) : expire time cutoff queue <:+ queue :=
  List.dropWhile_suffix _

theorem expire_of_recent {cutoff : ℕ} {queue : List α} (recent : ∀ x ∈ queue, cutoff ≤ time x) :
    expire time cutoff queue = queue := by
  refine List.dropWhile_eq_self_iff.mpr fun nonempty => ?_
  have first := recent _ (List.getElem_mem nonempty)
  simpa using first

theorem Ordered.concat {queue : List α} (ordered : Ordered time queue) {x : α}
    (newest : ∀ y ∈ queue, time y ≤ time x) : Ordered time (queue ++ [x]) :=
  List.pairwise_append.mpr ⟨ordered, List.pairwise_singleton _ _,
    fun y member z last => by rw [List.mem_singleton.mp last]; exact newest y member⟩

theorem Ordered.expire {queue : List α} (ordered : Ordered time queue) (cutoff : ℕ) :
    Ordered time (expire time cutoff queue) :=
  ordered.sublist (expire_suffix cutoff queue).sublist

theorem expire_eq_filter {queue : List α} (ordered : Ordered time queue) (cutoff : ℕ) :
    Window.expire time cutoff queue = queue.filter fun x => cutoff ≤ time x := by
  induction queue with
  | nil => rfl
  | cons x queue ih =>
    obtain ⟨first, rest⟩ := List.pairwise_cons.mp ordered
    by_cases old : time x < cutoff
    · rw [Window.expire, List.dropWhile_cons_of_pos (by simpa using old),
        List.filter_cons_of_neg (by simpa using old)]
      exact ih rest
    · have kept : ∀ y ∈ x :: queue, cutoff ≤ time y := by
        intro y member
        rcases List.mem_cons.mp member with here | later
        · rw [here]
          exact not_lt.mp old
        · exact (not_lt.mp old).trans (first y later)
      rw [Window.expire, List.dropWhile_cons_of_neg (by simpa using old),
        List.filter_eq_self.mpr (by simpa using kept)]

/- Pruning in several rounds is pruning by the last of them. -/
theorem filter_expire {queue : List α} (ordered : Ordered time queue) {early late : ℕ}
    (le : early ≤ late) :
    (Window.expire time early queue).filter (fun x => late ≤ time x) =
      queue.filter fun x => late ≤ time x := by
  rw [expire_eq_filter ordered, List.filter_filter]
  apply List.filter_congr
  intro x _
  simp only [Bool.and_eq_left_iff_imp, decide_eq_true_eq]
  exact le.trans

end Stallwatch.Window
