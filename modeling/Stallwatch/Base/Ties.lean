import Stallwatch.Base.Ranking

/-! The best few of a collection that is read in some order. The order shows exactly where
two elements with one key are both within reach of the best few. -/
namespace Stallwatch.Ranking

variable {α κ : Type} [LinearOrder κ] (key : α → κ)

/-- How many of a list have a greater key than `k`. -/
def above (xs : List α) (k : κ) : ℕ := xs.countP fun y => decide (k < key y)

/-- Two elements share a key that fewer than `n` others exceed. -/
def Tied (n : ℕ) (xs : List α) : Prop :=
  ∃ x ∈ xs, ∃ y ∈ xs, x ≠ y ∧ key x = key y ∧ above key xs (key x) < n

/- Whoever is met first of those with its key stands right behind those above it. -/
theorem rank_first (as bs : List α) {x : α} (first : ∀ a ∈ as, key a ≠ key x) :
    (rank key (as ++ x :: bs))[above key (as ++ x :: bs) (key x)]? = some x := by
  obtain ⟨l, r, split, length⟩ := rank_split key as bs x
  have before : as.countP (fun a => decide (key x ≤ key a)) = as.countP fun a => decide (key x < key a) :=
    List.countP_congr fun a member => by
      simpa using ⟨fun le => lt_of_le_of_ne le (first a member).symm, le_of_lt⟩
  have place : above key (as ++ x :: bs) (key x) = l.length := by
    rw [above, List.countP_append, List.countP_cons, length, before]
    simp
  rw [place, split, List.getElem?_append_right le_rfl, Nat.sub_self]
  rfl

theorem above_perm {xs ys : List α} (perm : xs.Perm ys) (k : κ) : above key xs k = above key ys k :=
  perm.countP_eq _

/- Nobody stands before those above it. -/
theorem above_le {xs : List α} {x : α} {i : ℕ} (here : (rank key xs)[i]? = some x) :
    above key xs (key x) ≤ i := by
  obtain ⟨inside, at_i⟩ := List.getElem?_eq_some_iff.mp here
  have sorted := rank_sorted key xs
  rw [← List.take_append_drop i (rank key xs), List.drop_eq_getElem_cons inside, at_i,
    List.pairwise_append, List.pairwise_cons] at sorted
  have behind : ((rank key xs).drop i).countP (fun y => decide (key x < key y)) = 0 := by
    rw [List.drop_eq_getElem_cons inside, at_i, List.countP_eq_zero]
    rintro y member
    rcases List.mem_cons.mp member with rfl | later
    · simp
    · simpa using sorted.2.1.1 y later
  calc above key xs (key x) = above key (rank key xs) (key x) := (above_perm key (rank_perm key xs) _).symm
    _ = ((rank key xs).take i ++ (rank key xs).drop i).countP (fun y => decide (key x < key y)) := by
      rw [List.take_append_drop]
      rfl
    _ = ((rank key xs).take i).countP (fun y => decide (key x < key y)) := by
      rw [List.countP_append, behind, Nat.add_zero]
    _ ≤ ((rank key xs).take i).length := List.countP_le_length
    _ ≤ i := List.length_take_le _ _

/- Whoever is alone with its key has one place. -/
theorem rank_alone {xs : List α} {x : α} (member : x ∈ xs)
    (alone : ∀ y ∈ xs, key y = key x → y = x) : (rank key xs)[above key xs (key x)]? = some x := by
  classical
  obtain ⟨as, bs, rfl, first⟩ := List.eq_append_cons_of_mem member
  refine rank_first key as bs fun a among same => first ?_
  rwa [← alone a (List.mem_append_left _ among) same]

theorem take_rank_eq {n : ℕ} {xs ys : List α} (distinct : xs.Nodup) (perm : xs.Perm ys)
    (clear : ¬Tied key n xs) : (rank key xs).take n = (rank key ys).take n := by
  refine List.ext_getElem? fun i => ?_
  rw [List.getElem?_take, List.getElem?_take]
  split
  · rename_i inside
    cases here : (rank key xs)[i]? with
    | none =>
      have short := List.getElem?_eq_none_iff.mp here
      rw [(rank_perm key xs).length_eq, perm.length_eq, ← (rank_perm key ys).length_eq] at short
      exact (List.getElem?_eq_none_iff.mpr short).symm
    | some x =>
      have listed : x ∈ xs := (rank_perm key xs).mem_iff.mp (List.mem_of_getElem? here)
      have reach := above_le key here
      have alone : ∀ y ∈ xs, key y = key x → y = x := fun y member same => by
        by_contra other
        exact clear ⟨x, listed, y, member, fun h => other h.symm, same.symm, by omega⟩
      have place := rank_alone key listed alone
      have nodup := (rank_perm key xs).nodup_iff.mpr distinct
      have same : above key xs (key x) = i :=
        (List.getElem?_inj (List.getElem?_eq_some_iff.mp place).1 nodup).mp (place.trans here.symm)
      have other := rank_alone key (perm.mem_iff.mp listed) fun y member =>
        alone y (perm.mem_iff.mpr member)
      rw [← above_perm key perm, same] at other
      exact other.symm
  · rfl

/- Who is met first wins a tie. -/
theorem take_rank_ne {n : ℕ} {as bs : List α} {x y : α} (perm : (x :: as).Perm (y :: bs)) (other : x ≠ y)
    (same : key x = key y) (reach : above key (x :: as) (key x) < n) :
    (rank key (x :: as)).take n ≠ (rank key (y :: bs)).take n := by
  intro equal
  have mine : (rank key (x :: as))[above key (x :: as) (key x)]? = some x :=
    rank_first key [] as fun _ member => absurd member List.not_mem_nil
  have yours : (rank key (y :: bs))[above key (y :: bs) (key y)]? = some y :=
    rank_first key [] bs fun _ member => absurd member List.not_mem_nil
  rw [← above_perm key perm, ← same] at yours
  have here := congrArg (fun l => l[above key (x :: as) (key x)]?) equal
  simp only [List.getElem?_take, if_pos reach, mine, yours] at here
  exact other (Option.some.inj here)

/- Names that keep the keys keep the ties. -/
theorem tied_names {β : Type} {key' : β → κ} {name : α → β} {xs : List α} {ys : List β}
    (perm : (xs.map name).Perm ys) (distinct : ys.Nodup) (same : ∀ x ∈ xs, key' (name x) = key x) (n : ℕ) :
    Tied key n xs ↔ Tied key' n ys := by
  have count : ∀ k, above key xs k = above key' ys k := fun k => by
    rw [above, above, ← perm.countP_eq, List.countP_map]
    exact List.countP_congr fun x member => by simp [same x member]
  have apart : ∀ x ∈ xs, ∀ y ∈ xs, name x = name y → x = y := by
    have nodup := perm.nodup_iff.mpr distinct
    exact fun x hx y hy => List.inj_on_of_nodup_map nodup hx hy
  constructor
  · rintro ⟨x, hx, y, hy, other, equal, reach⟩
    refine ⟨name x, perm.mem_iff.mp (List.mem_map_of_mem hx), name y,
      perm.mem_iff.mp (List.mem_map_of_mem hy), fun h => other (apart x hx y hy h), ?_, ?_⟩
    · rw [same x hx, same y hy, equal]
    · rwa [same x hx, ← count]
  · rintro ⟨a, ha, b, hb, other, equal, reach⟩
    obtain ⟨x, hx, rfl⟩ := List.mem_map.mp (perm.mem_iff.mpr ha)
    obtain ⟨y, hy, rfl⟩ := List.mem_map.mp (perm.mem_iff.mpr hb)
    rw [same x hx, same y hy] at equal
    rw [same x hx, ← count] at reach
    exact ⟨x, hx, y, hy, fun h => other (h ▸ rfl), equal, reach⟩

end Stallwatch.Ranking
