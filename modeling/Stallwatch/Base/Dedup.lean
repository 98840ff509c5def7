import Mathlib.Data.List.Dedup
import Mathlib.Data.List.Destutter
import Mathlib.Data.List.Sort

/-! Sorting a list and dropping what repeats its neighbour: the elements of the list in order,
each of them once. -/
namespace Stallwatch.Dedup

variable {α : Type} [LinearOrder α] {l : List α} {a x : α}

def sortedDedup (l : List α) : List α := (l.insertionSort (· ≤ ·)).destutter (· ≠ ·)

theorem mem_destutter_from : x ∈ l.destutter' (· ≠ ·) a ↔ x = a ∨ x ∈ l := by
  induction l generalizing a with
  | nil => simp
  | cons b l ih =>
    rw [List.destutter'_cons]
    split
    · rw [List.mem_cons, ih, List.mem_cons]
    · rename_i same
      rw [ih, List.mem_cons, Decidable.not_not.mp same]
      tauto

theorem destutter_from_strict (sorted : (a :: l).Pairwise (· ≤ ·)) :
    (l.destutter' (· ≠ ·) a).Pairwise (· < ·) := by
  induction l generalizing a with
  | nil => simp
  | cons b l ih =>
    obtain ⟨least, rest⟩ := List.pairwise_cons.mp sorted
    rw [List.destutter'_cons]
    split
    · rename_i differ
      refine List.pairwise_cons.mpr ⟨fun c member => ?_, ih rest⟩
      have above : b ≤ c := by
        rcases mem_destutter_from.mp member with rfl | later
        · exact le_rfl
        · exact (List.pairwise_cons.mp rest).1 c later
      exact lt_of_lt_of_le (lt_of_le_of_ne (least b List.mem_cons_self) differ) above
    · exact ih (List.pairwise_cons.mpr
        ⟨fun c member => least c (List.mem_cons_of_mem _ member), (List.pairwise_cons.mp rest).2⟩)

theorem mem_sortedDedup : x ∈ sortedDedup l ↔ x ∈ l := by
  refine Iff.trans ?_ (List.mem_insertionSort (· ≤ ·))
  rw [sortedDedup]
  cases l.insertionSort (· ≤ ·) with
  | nil => rfl
  | cons b rest => rw [List.destutter_cons', mem_destutter_from, List.mem_cons]

theorem sortedDedup_strict (l : List α) : (sortedDedup l).Pairwise (· < ·) := by
  have sorted : (l.insertionSort (· ≤ ·)).Pairwise (· ≤ ·) := List.pairwise_insertionSort _ _
  rw [sortedDedup]
  cases shape : l.insertionSort (· ≤ ·) with
  | nil => exact .nil
  | cons b rest => exact destutter_from_strict (shape ▸ sorted)

section Keys

variable {β γ : Type} [DecidableEq γ] (key : β → γ)

/-- The first element with each key, apart from the keys that were seen before. -/
def unseen : List γ → List β → List β
  | _, [] => []
  | seen, b :: l => if key b ∈ seen then unseen seen l else b :: unseen (key b :: seen) l

variable {key} {seen : List γ} {bs : List β} {b : β}

theorem unseen_sublist : (unseen key seen bs).Sublist bs := by
  induction bs generalizing seen with
  | nil => exact List.Sublist.refl _
  | cons b bs ih =>
    rw [unseen]
    split
    · exact ih.cons b
    · exact ih.cons_cons b

theorem unseen_fresh (member : b ∈ unseen key seen bs) : key b ∉ seen := by
  induction bs generalizing seen with
  | nil => cases member
  | cons c bs ih =>
    rw [unseen] at member
    split at member
    · exact ih member
    · rename_i fresh
      rcases List.mem_cons.mp member with rfl | later
      · exact fresh
      · exact fun old => ih later (List.mem_cons_of_mem _ old)

theorem unseen_nodup : ((unseen key seen bs).map key).Nodup := by
  induction bs generalizing seen with
  | nil => exact List.nodup_nil
  | cons b bs ih =>
    rw [unseen]
    split
    · exact ih
    · rw [List.map_cons, List.nodup_cons]
      refine ⟨fun again => ?_, ih⟩
      obtain ⟨c, later, same⟩ := List.mem_map.mp again
      exact unseen_fresh later (same ▸ List.mem_cons_self)

/- Each is the first with its key. -/
theorem unseen_first (member : b ∈ unseen key seen bs) : bs.find? (fun c => key c = key b) = some b := by
  induction bs generalizing seen with
  | nil => cases member
  | cons c bs ih =>
    rw [unseen] at member
    split at member
    · rename_i old
      have other : key c ≠ key b := fun same => unseen_fresh member (same ▸ old)
      rw [List.find?_cons_of_neg (by simpa using other)]
      exact ih member
    · rcases List.mem_cons.mp member with rfl | later
      · exact List.find?_cons_of_pos (by simp)
      · have other : key c ≠ key b := fun same => unseen_fresh later (same ▸ List.mem_cons_self)
        rw [List.find?_cons_of_neg (by simpa using other)]
        exact ih later

theorem mem_unseen_keys {k : γ} : k ∈ (unseen key seen bs).map key ↔ k ∈ bs.map key ∧ k ∉ seen := by
  induction bs generalizing seen with
  | nil => simp [unseen]
  | cons b bs ih =>
    rw [unseen]
    split
    · rename_i old
      rw [ih, List.map_cons, List.mem_cons]
      constructor
      · rintro ⟨later, fresh⟩
        exact ⟨.inr later, fresh⟩
      · rintro ⟨rfl | later, fresh⟩
        · exact absurd old fresh
        · exact ⟨later, fresh⟩
    · rename_i fresh
      rw [List.map_cons, List.mem_cons, ih, List.map_cons, List.mem_cons, List.mem_cons, not_or]
      constructor
      · rintro (rfl | ⟨later, _, out⟩)
        · exact ⟨.inl rfl, fresh⟩
        · exact ⟨.inr later, out⟩
      · rintro ⟨first | later, out⟩
        · exact .inl first
        · by_cases same : k = key b
          · exact .inl same
          · exact .inr ⟨later, same, out⟩

theorem length_unseen : (unseen key [] bs).length = (bs.map key).dedup.length := by
  have perm : ((unseen key [] bs).map key).Perm (bs.map key).dedup :=
    (List.perm_ext_iff_of_nodup unseen_nodup (List.nodup_dedup _)).mpr fun k => by
      rw [mem_unseen_keys, List.mem_dedup]
      simp
  rw [← perm.length_eq, List.length_map]

end Keys

end Stallwatch.Dedup
