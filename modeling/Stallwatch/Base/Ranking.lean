import Mathlib.Data.List.Sort
import Mathlib.Data.Set.Card

/-! The best few of a list: a stable sort by descending key, cut after `n` places.
An element stays exactly when fewer than `n` others stand before it, and what stands
before it is counted in the unsorted list. -/
namespace Stallwatch.Ranking

variable {α β κ : Type} [LinearOrder κ] (key : α → κ)

def rank (xs : List α) : List α := xs.insertionSort fun a b => key b ≤ key a

theorem rank_perm (xs : List α) : (rank key xs).Perm xs := List.perm_insertionSort _ _

theorem rank_sorted (xs : List α) : (rank key xs).Pairwise fun a b => key b ≤ key a := by
  have total : ∀ a b : α, key b ≤ key a ∨ key a ≤ key b := fun a b => le_total _ _
  have trans : ∀ a b c : α, key b ≤ key a → key c ≤ key b → key c ≤ key a := fun _ _ _ h k => k.trans h
  have : Std.Total (fun a b : α => key b ≤ key a) := ⟨total⟩
  have : IsTrans α (fun a b : α => key b ≤ key a) := ⟨trans⟩
  exact List.pairwise_insertionSort _ _

/- In descending order what lies above a bound comes first. -/
theorem takeWhile_length (bound : κ) (l : List α) (sorted : l.Pairwise fun a b => key b ≤ key a) :
    (l.takeWhile fun b => decide (bound < key b)).length =
      l.countP fun b => decide (bound < key b) := by
  induction l with
  | nil => rfl
  | cons a l ih =>
    rw [List.pairwise_cons] at sorted
    by_cases above : bound < key a
    · simp [above, ih sorted.2]
    · have none : l.countP (fun b => decide (bound < key b)) = 0 := by
        rw [List.countP_eq_zero]
        intro b hb
        simpa using (sorted.1 b hb).trans (not_lt.mp above)
      simp [above, none]

theorem orderedInsert_split (a x : α) (l r : List α)
    (sorted : (l ++ x :: r).Pairwise fun a b => key b ≤ key a) :
    ∃ l' r', (l ++ x :: r).orderedInsert (fun a b => key b ≤ key a) a = l' ++ x :: r' ∧
      l'.length = l.length + if key x ≤ key a then 1 else 0 := by
  induction l with
  | nil =>
    by_cases before : key x ≤ key a
    · exact ⟨[a], r, by simp [before], by simp [before]⟩
    · exact ⟨[], r.orderedInsert (fun a b => key b ≤ key a) a, by simp [before], by simp [before]⟩
  | cons b l ih =>
    rw [List.cons_append, List.pairwise_cons] at sorted
    by_cases before : key b ≤ key a
    · have outranked : key x ≤ key a := (sorted.1 x (by simp)).trans before
      exact ⟨a :: b :: l, r, by simp [before], by simp [outranked]⟩
    · obtain ⟨l', r', split, length⟩ := ih sorted.2
      refine ⟨b :: l', r', by simp [before, split], ?_⟩
      rw [List.length_cons, length, List.length_cons]
      omega

/- Ties keep the order of the list: before `x` they count, after it they do not. -/
theorem rank_split (as bs : List α) (x : α) :
    ∃ l r, rank key (as ++ x :: bs) = l ++ x :: r ∧
      l.length = as.countP (fun a => decide (key x ≤ key a)) +
        bs.countP (fun b => decide (key x < key b)) := by
  induction as with
  | nil =>
    refine ⟨_, _, List.orderedInsert_eq_take_drop _ _ _, ?_⟩
    have counted := takeWhile_length key (key x) (rank key bs) (rank_sorted key bs)
    rw [(rank_perm key bs).countP_eq] at counted
    simp only [not_le, List.countP_nil, Nat.zero_add]
    exact counted
  | cons a as ih =>
    obtain ⟨l, r, split, length⟩ := ih
    have sorted := rank_sorted key (as ++ x :: bs)
    rw [split] at sorted
    obtain ⟨l', r', inserted, longer⟩ := orderedInsert_split key a x l r sorted
    refine ⟨l', r', ?_, ?_⟩
    · rw [← inserted, ← split]
      rfl
    · rw [longer, length, List.countP_cons]
      simp only [decide_eq_true_eq]
      omega

theorem mem_take_rank (as bs : List α) (x : α) (distinct : (as ++ x :: bs).Nodup) (n : ℕ) :
    x ∈ (rank key (as ++ x :: bs)).take n ↔
      as.countP (fun a => decide (key x ≤ key a)) + bs.countP (fun b => decide (key x < key b)) < n := by
  obtain ⟨l, r, split, length⟩ := rank_split key as bs x
  have fresh : x ∉ l := by
    have nodup := (rank_perm key (as ++ x :: bs)).nodup_iff.mpr distinct
    rw [split, List.nodup_append] at nodup
    exact fun hx => nodup.2.2 x hx x (by simp) rfl
  rw [split, ← length, List.take_append, List.mem_append]
  have front : x ∉ l.take n := fun h => fresh (List.mem_of_mem_take h)
  rw [or_iff_right front]
  by_cases room : l.length < n
  · obtain ⟨m, hm⟩ := Nat.exists_eq_succ_of_ne_zero (Nat.sub_ne_zero_of_lt room)
    simp [hm, room]
  · have none : n - l.length = 0 := by omega
    simp [none, room]

/- What is left out ranks behind all that is kept, and only a full list leaves anything out. -/
theorem not_mem_take_rank {xs : List α} {x : α} {n : ℕ} (member : x ∈ xs)
    (omitted : x ∉ (rank key xs).take n) :
    ((rank key xs).take n).length = n ∧ ∀ y ∈ (rank key xs).take n, key x ≤ key y := by
  have listed : x ∈ (rank key xs).take n ++ (rank key xs).drop n := by
    rw [List.take_append_drop]
    exact (rank_perm key xs).mem_iff.mpr member
  have behind := (List.mem_append.mp listed).resolve_left omitted
  have sorted := rank_sorted key xs
  rw [← List.take_append_drop n (rank key xs), List.pairwise_append] at sorted
  constructor
  · have longer := List.length_pos_of_mem behind
    rw [List.length_drop] at longer
    rw [List.length_take]
    omega
  · exact fun y kept => sorted.2.2 y kept x behind

/-- The best `n` of all that satisfies `Q`, in descending order. -/
structure Top (Q : α → Prop) (n : ℕ) (chosen : List α) : Prop where
  distinct : chosen.Nodup
  members : ∀ x ∈ chosen, Q x
  ranked : chosen.Pairwise fun a b => key b ≤ key a
  finite : {x | Q x}.Finite
  length : chosen.length = min n {x | Q x}.ncard
  best : ∀ x, Q x → x ∉ chosen → ∀ y ∈ chosen, key x ≤ key y

theorem top_take_rank {Q : α → Prop} {xs : List α} (distinct : xs.Nodup) (listed : ∀ x, x ∈ xs ↔ Q x)
    (n : ℕ) : Top key Q n ((rank key xs).take n) := by
  classical
  have perm := rank_perm key xs
  have all : {x | Q x} = ↑xs.toFinset := by
    ext x
    rw [Set.mem_ofPred_eq, ← listed, List.coe_toFinset]
    rfl
  exact {
    distinct := (perm.nodup_iff.mpr distinct).sublist (List.take_sublist _ _)
    members := fun x hx => (listed x).mp (perm.mem_iff.mp (List.mem_of_mem_take hx))
    ranked := (rank_sorted key xs).sublist (List.take_sublist _ _)
    finite := all ▸ xs.toFinset.finite_toSet
    length := by
      rw [List.length_take, perm.length_eq, all, Set.ncard_coe_finset,
        List.toFinset_card_of_nodup distinct]
    best := fun x hx omitted => (not_mem_take_rank key ((listed x).mpr hx) omitted).2 }

namespace Top

variable {key} {Q : α → Prop} {n : ℕ} {chosen : List α}

/- Something is left out only for want of room. -/
theorem full (top : Top key Q n chosen) {x : α} (member : Q x) (omitted : x ∉ chosen) :
    chosen.length = n := by
  classical
  have subset : ↑(insert x chosen.toFinset) ⊆ {x | Q x} := by
    intro y hy
    simp only [Finset.coe_insert, List.coe_toFinset, Set.mem_insert_iff] at hy
    rcases hy with rfl | listed
    · exact member
    · exact top.members y listed
  have larger := Set.ncard_le_ncard subset top.finite
  have fresh : x ∉ chosen.toFinset := by simpa using omitted
  rw [Set.ncard_coe_finset, Finset.card_insert_of_notMem fresh,
    List.toFinset_card_of_nodup top.distinct] at larger
  have length := top.length
  omega

/- The first that passes a test which at most one member fails. -/
theorem find_isSome (top : Top key Q n chosen) {p : α → Bool} (room : 2 ≤ n)
    (lone : ∀ x y, Q x → Q y → p x = false → p y = false → x = y) :
    (chosen.find? p).isSome = true ↔ ∃ x, Q x ∧ p x = true := by
  rw [List.find?_isSome]
  constructor
  · rintro ⟨x, listed, passes⟩
    exact ⟨x, top.members x listed, passes⟩
  · rintro ⟨x, member, passes⟩
    by_contra none
    have fails : ∀ y ∈ chosen, p y = false := fun y hy => by
      by_contra some
      exact none ⟨y, hy, by simpa using some⟩
    have omitted : x ∉ chosen := fun listed => by
      rw [fails x listed] at passes
      cases passes
    have length := top.full member omitted
    match chosen, top, fails, length with
    | y :: z :: rest, top, fails, _ =>
      have same := lone y z (top.members y (by simp)) (top.members z (by simp)) (fails y (by simp))
        (fails z (by simp))
      have distinct := top.distinct
      rw [same] at distinct
      simp at distinct
    | [_], _, _, length | [], _, _, length =>
      simp at length
      omega

theorem find_best (top : Top key Q n chosen) {p : α → Bool} {x : α} (found : chosen.find? p = some x) :
    Q x ∧ p x = true ∧ ∀ y, Q y → p y = true → key y ≤ key x := by
  obtain ⟨passes, as, bs, split, before⟩ := List.find?_eq_some_iff_append.mp found
  have listed : x ∈ chosen := by simp [split]
  refine ⟨top.members x listed, passes, fun y member other => ?_⟩
  by_cases here : y ∈ chosen
  · have ranked := top.ranked
    rw [split, List.pairwise_append, List.pairwise_cons] at ranked
    rw [split, List.mem_append, List.mem_cons] at here
    rcases here with front | rfl | back
    · have fails := before y front
      simp [other] at fails
    · exact le_rfl
    · exact ranked.2.1.1 y back
  · exact top.best y member here x listed

end Top

/- Sorting respects an elementwise relation under which the orders agree. -/
theorem forall₂_insertionSort {R : α → β → Prop} {r : α → α → Prop} {s : β → β → Prop}
    [DecidableRel r] [DecidableRel s]
    (agree : ∀ a a' b b', R a b → R a' b' → (r a a' ↔ s b b')) {xs : List α} {ys : List β}
    (h : List.Forall₂ R xs ys) : List.Forall₂ R (xs.insertionSort r) (ys.insertionSort s) := by
  have insert : ∀ {a b}, R a b → ∀ {xs ys}, List.Forall₂ R xs ys →
      List.Forall₂ R (xs.orderedInsert r a) (ys.orderedInsert s b) := by
    intro a b hab xs ys h
    induction h with
    | nil => exact .cons hab .nil
    | @cons a' b' xs ys hab' rest ih =>
      by_cases before : r a a'
      · rw [List.orderedInsert_cons_of_le _ _ before,
          List.orderedInsert_cons_of_le _ _ ((agree a a' b b' hab hab').mp before)]
        exact .cons hab (.cons hab' rest)
      · rw [List.orderedInsert_of_not_le _ _ before,
          List.orderedInsert_of_not_le _ _ (fun k => before ((agree a a' b b' hab hab').mpr k))]
        exact .cons hab' ih
  induction h with
  | nil => exact .nil
  | cons hab _ ih => exact insert hab ih

/- An order that is given by the key is the order of the ranking. -/
theorem insertionSort_eq_rank {r : α → α → Prop} [DecidableRel r]
    (agree : ∀ a b, r a b ↔ key b ≤ key a) (xs : List α) : xs.insertionSort r = rank key xs := by
  have same : List.Forall₂ Eq xs xs := List.forall₂_same.mpr fun _ _ => rfl
  have sorted := forall₂_insertionSort (r := r) (s := fun a b => key b ≤ key a) ?_ same
  · exact List.forall₂_eq_eq_eq ▸ sorted
  · rintro a a' _ _ rfl rfl
    exact agree a a'

theorem forall₂_find? {R : α → β → Prop} {p : α → Bool} {q : β → Bool}
    (agree : ∀ a b, R a b → p a = q b) {xs : List α} {ys : List β} (h : List.Forall₂ R xs ys) :
    xs.find? p = none ∧ ys.find? q = none ∨
      ∃ a b, xs.find? p = some a ∧ ys.find? q = some b ∧ R a b := by
  induction h with
  | nil => exact .inl ⟨rfl, rfl⟩
  | @cons a b xs ys hab _ ih =>
    have same := agree a b hab
    cases here : p a with
    | true => exact .inr ⟨a, b, by simp [here], by simp [← same, here], hab⟩
    | false => simpa [here, ← same] using ih

/- What holds between elements holds between what they are paired with. -/
theorem forall₂_pairwise {R : α → β → Prop} {r : α → α → Prop} {s : β → β → Prop}
    (carries : ∀ a a' b b', R a b → R a' b' → r a a' → s b b') {xs : List α} {ys : List β}
    (h : List.Forall₂ R xs ys) (pairwise : xs.Pairwise r) : ys.Pairwise s := by
  induction h with
  | nil => exact .nil
  | @cons a b xs ys hab rest ih =>
    rw [List.pairwise_cons] at pairwise
    refine List.pairwise_cons.mpr ⟨fun b' member => ?_, ih pairwise.2⟩
    obtain ⟨i, hi, rfl⟩ := List.getElem_of_mem member
    have listed : i < xs.length := rest.length_eq ▸ hi
    exact carries a _ b _ hab ((List.forall₂_iff_get.mp rest).2 i listed hi)
      (pairwise.1 _ (List.getElem_mem listed))

section Classes

/- Those with one key keep their order. -/
theorem rank_filter (k : κ) (xs : List α) :
    (rank key xs).filter (fun a => key a = k) = xs.filter fun a => key a = k := by
  have alike : (xs.filter fun a => key a = k).Pairwise fun a b => key b ≤ key a :=
    List.pairwise_of_forall_mem_list fun a ha b hb => by
      rw [of_decide_eq_true (List.mem_filter.mp ha).2, of_decide_eq_true (List.mem_filter.mp hb).2]
  have kept : (xs.filter fun a => key a = k).Sublist (rank key xs) :=
    List.sublist_insertionSort alike List.filter_sublist
  have inner := kept.filter fun a => key a = k
  rw [List.filter_filter] at inner
  simp only [Bool.and_self] at inner
  exact (inner.eq_of_length ((rank_perm key xs).filter _).length_eq.symm).symm

theorem rank_find (k : κ) (xs : List α) :
    (rank key xs).find? (fun a => key a = k) = xs.find? fun a => key a = k := by
  rw [← List.head?_filter, ← List.head?_filter, rank_filter]

/- The first with the greatest key is the first of all. -/
theorem rank_head {k : κ} {xs : List α} (greatest : ∀ a ∈ xs, key a ≤ k) {a : α}
    (found : xs.find? (fun a => key a = k) = some a) : (rank key xs).head? = some a := by
  have first := (rank_find key k xs).trans found
  cases shape : rank key xs with
  | nil =>
    rw [shape] at first
    cases first
  | cons b rest =>
    rw [shape] at first
    have inside : b ∈ xs := (rank_perm key xs).mem_iff.mp (shape ▸ List.mem_cons_self)
    have sorted := rank_sorted key xs
    rw [shape] at sorted
    have top : key b = k := by
      refine le_antisymm (greatest b inside) ?_
      have same := List.find?_some found
      rw [decide_eq_true_eq] at same
      rcases List.mem_cons.mp (List.mem_of_find?_eq_some first) with rfl | later
      · exact same.ge
      · exact same ▸ (List.pairwise_cons.mp sorted).1 a later
    rw [List.find?_cons_of_pos (by simpa using top)] at first
    exact first

end Classes

end Stallwatch.Ranking
