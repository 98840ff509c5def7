import Mathlib.Data.List.AList
import Mathlib.Data.List.Induction
import Mathlib.Tactic.Common

/-! Hash maps as association lists with distinct keys. The list order is the order
in which the map is iterated, which the program does not control: a statement about
every iteration order quantifies over the list, or over a `Shuffle` where the map is
built by the program itself. -/
namespace Stallwatch

abbrev HashMap (κ υ : Type) := AList (fun _ : κ => υ)

/-- An iteration order for every map. -/
structure Shuffle (κ υ : Type) where
  run : HashMap κ υ → HashMap κ υ
  perm : ∀ m, (run m).entries.Perm m.entries

namespace Shuffle

variable {κ υ : Type}

def same : Shuffle κ υ where
  run m := m
  perm _ := List.Perm.refl _

variable [DecidableEq κ]

/-- The entry of `k` is met first. -/
def first (k : κ) : Shuffle κ υ where
  run m := match m.lookup k with
    | some v => m.insert k v
    | none => m
  perm m := by
    cases found : m.lookup k with
    | none => exact List.Perm.refl _
    | some v =>
      refine List.lookup_ext (m.insert k v).nodupKeys m.nodupKeys fun j w => ?_
      change w ∈ (m.insert k v).lookup j ↔ w ∈ m.lookup j
      by_cases here : j = k
      · subst here
        rw [AList.lookup_insert, found]
      · rw [AList.lookup_insert_ne here]

theorem first_entries {k : κ} {v : υ} {m : HashMap κ υ} (h : m.lookup k = some v) :
    ∃ rest, ((first k).run m).entries = ⟨k, v⟩ :: rest := by
  simp [first, h]

end Shuffle

namespace HashMap

variable {κ υ ω : Type} [DecidableEq κ]

/-- The loop that inserts what `g` makes of each element, later values replacing
earlier ones. -/
def collect {α : Type} (g : α → Option (κ × υ)) (xs : List α) : HashMap κ υ :=
  xs.foldl (fun m x => match g x with | some (k, v) => m.insert k v | none => m) ∅

theorem lookup_collect_snoc {α : Type} (g : α → Option (κ × υ)) (xs : List α) (x : α) (k : κ) :
    (collect g (xs ++ [x])).lookup k =
      match g x with
      | some (k', v) => if k = k' then some v else (collect g xs).lookup k
      | none => (collect g xs).lookup k := by
  simp only [collect, List.foldl_append, List.foldl_cons, List.foldl_nil]
  split
  · rename_i k' v hg
    by_cases h : k = k'
    · subst h; simp [AList.lookup_insert]
    · simp [AList.lookup_insert_ne h, h]
  · rfl

/- Collecting one value for each key of a list. -/
theorem lookup_collect_keys (g : κ → Option υ) (ks : List κ) (k : κ) :
    (collect (fun k => (g k).map fun v => (k, v)) ks).lookup k = if k ∈ ks then g k else none := by
  induction ks using List.reverseRecOn with
  | nil => rfl
  | append_singleton ks x ih =>
    rw [lookup_collect_snoc, ih]
    by_cases h : k = x
    · subst h
      cases hg : g k with
      | none => simp
      | some v => simp
    · cases hg : g x with
      | none => simp [h]
      | some v => simp [h]

/- Collecting from the entries of a map. -/
theorem lookup_collect_entries (g : κ → υ → Option ω) (m : HashMap κ υ) (k : κ) :
    (collect (fun e : Sigma fun _ : κ => υ => (g e.1 e.2).map fun w => (e.1, w)) m.entries).lookup k =
      (m.lookup k).bind (g k) := by
  have general : ∀ l : List (Sigma fun _ : κ => υ), l.NodupKeys →
      (collect (fun e : Sigma fun _ : κ => υ => (g e.1 e.2).map fun w => (e.1, w)) l).lookup k =
        (l.dlookup k).bind (g k) := by
    intro l
    induction l using List.reverseRecOn with
    | nil => intro _; rfl
    | append_singleton l e ih =>
      intro distinct
      obtain ⟨k', v⟩ := e
      have front : l.NodupKeys := distinct.sublist (List.sublist_append_left _ _)
      rw [lookup_collect_snoc, ih front, List.dlookup_append]
      by_cases h : k = k'
      · subst h
        have fresh : k ∉ l.keys := by
          intro hk
          rw [List.nodupKeys_iff_pairwise, List.pairwise_append] at distinct
          obtain ⟨w, hw⟩ := List.mem_keys.mp hk
          exact distinct.2.2 _ hw _ (List.mem_singleton_self _) rfl
        rw [List.dlookup_eq_none.mpr fresh]
        cases hg : g k v <;> simp [hg]
      · have other : k ∉ List.keys [(⟨k', v⟩ : Sigma fun _ : κ => υ)] := by simpa using h
        rw [List.dlookup_eq_none.mpr other]
        cases hg : g k' v <;> simp [h]
  exact general m.entries m.nodupKeys

/-- The loop that folds each element into the entry of its key, starting a new entry
where there is none. -/
def group {α : Type} (key : α → κ) (init : α → υ) (step : υ → α → υ) (xs : List α) : HashMap κ υ :=
  xs.foldl (fun m x => m.insert (key x) (step ((m.lookup (key x)).getD (init x)) x)) ∅

/-- The entry of one key, from its elements alone. -/
def summary {α : Type} (init : α → υ) (step : υ → α → υ) (xs : List α) : Option υ :=
  xs.head?.map fun first => xs.foldl step (init first)

theorem summary_concat {α : Type} (init : α → υ) (step : υ → α → υ) (xs : List α) (x : α) :
    summary init step (xs ++ [x]) = some (step ((summary init step xs).getD (init x)) x) := by
  cases xs with
  | nil => rfl
  | cons first xs => simp [summary]

theorem lookup_group {α : Type} (key : α → κ) (init : α → υ) (step : υ → α → υ) (xs : List α) (k : κ) :
    (group key init step xs).lookup k = summary init step (xs.filter fun x => key x = k) := by
  induction xs using List.reverseRecOn with
  | nil => rfl
  | append_singleton xs x ih =>
    rw [group, List.foldl_append, List.filter_append]
    by_cases here : key x = k
    · subst here
      rw [List.filter_cons_of_pos (by simp), List.filter_nil, summary_concat, ← ih]
      exact AList.lookup_insert _
    · rw [List.filter_cons_of_neg (by simpa using here), List.filter_nil, List.append_nil, ← ih]
      exact AList.lookup_insert_ne fun same => here same.symm

theorem mem_entries {m : HashMap κ υ} {k : κ} {v : υ} : ⟨k, v⟩ ∈ m.entries ↔ m.lookup k = some v :=
  (AList.mem_lookup_iff (s := m) (a := k) (b := v)).symm

end HashMap

end Stallwatch
