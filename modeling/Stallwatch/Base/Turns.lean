import Mathlib.Data.Finset.Card
import Mathlib.Data.Fintype.Card
import Mathlib.Data.List.Sort

/-! Two orderings of the same things, read in turns. Whatever has been taken already is
passed over, so that a thing is taken when its first turn comes. -/
namespace Stallwatch.Turns

section Front

variable {ι : Type} [DecidableEq ι] [Fintype ι]

/- In a sorted list that misses none of them, those before `i` are the front of it. -/
theorem card_front {r : ι → ι → Prop} [DecidableRel r] (asymm : ∀ i j, r i j → ¬ r j i) {as bs : List ι}
    {i : ι} (sorted : (as ++ i :: bs).Pairwise r) (listed : ∀ j, r j i → j ∈ as ++ i :: bs) :
    (Finset.univ.filter fun j => r j i).card = as.length := by
  have irrefl : ∀ j, ¬ r j j := fun j self => asymm j j self self
  rw [List.pairwise_append, List.pairwise_cons] at sorted
  have front : (Finset.univ.filter fun j => r j i) = as.toFinset := by
    ext j
    simp only [Finset.mem_filter, Finset.mem_univ, true_and, List.mem_toFinset]
    refine ⟨fun before => ?_, fun among => sorted.2.2 j among i (by simp)⟩
    rcases List.mem_append.mp (listed j before) with among | back
    · exact among
    rcases List.mem_cons.mp back with rfl | behind
    · exact absurd before (irrefl j)
    · exact absurd before (asymm i j (sorted.2.1.1 j behind))
  have distinct : as.Nodup := sorted.1.imp fun before => by rintro rfl; exact irrefl _ before
  rw [front, List.toFinset_card_of_nodup distinct]

end Front

section Places

variable {ι κ : Type} [LinearOrder ι] [LinearOrder κ] (key : ι → κ)

/-- `j` stands before `i` in descending order of the key; ties keep their order. -/
def Ahead (i j : ι) : Prop := key i < key j ∨ key i = key j ∧ j < i

instance : DecidableRel (Ahead key) := fun _ _ => inferInstanceAs (Decidable (_ ∨ _))

theorem Ahead.irrefl (i : ι) : ¬ Ahead key i i := by simp [Ahead]

theorem Ahead.asymm {i j : ι} (h : Ahead key i j) : ¬ Ahead key j i := by
  rintro (less | ⟨same, less⟩)
  · rcases h with other | ⟨same, _⟩
    · exact lt_asymm less other
    · exact less.ne same.symm
  · rcases h with other | ⟨_, other⟩
    · exact other.ne same.symm
    · exact lt_asymm less other

theorem Ahead.key_le {i j : ι} (h : Ahead key i j) : key i ≤ key j := by
  rcases h with less | ⟨same, _⟩
  · exact less.le
  · exact same.le

/-- All things in a stable descending order of the key. -/
structure StableOrder (order : List ι) : Prop where
  distinct : order.Nodup
  complete : ∀ i, i ∈ order
  sorted : order.Pairwise fun i j => Ahead key j i

/- A thing that comes before all others stays in front of those with its key. -/
theorem orderedInsert_stable {a : ι} {l : List ι} (sorted : l.Pairwise fun i j => Ahead key j i)
    (first : ∀ b ∈ l, a < b) :
    (l.orderedInsert (fun i j => key j ≤ key i) a).Pairwise fun i j => Ahead key j i := by
  induction l with
  | nil => exact List.pairwise_singleton _ _
  | cons b l ih =>
    obtain ⟨front, rest⟩ := List.pairwise_cons.mp sorted
    by_cases before : key b ≤ key a
    · rw [List.orderedInsert_cons, if_pos before]
      refine List.pairwise_cons.mpr ⟨fun c member => ?_, sorted⟩
      have below : key c ≤ key a := by
        rcases List.mem_cons.mp member with rfl | later
        · exact before
        · exact (Ahead.key_le key (front c later)).trans before
      rcases below.lt_or_eq with less | same
      · exact .inl less
      · exact .inr ⟨same, first c member⟩
    · rw [List.orderedInsert_cons, if_neg before]
      have kept := ih rest fun c later => first c (List.mem_cons_of_mem b later)
      refine List.pairwise_cons.mpr ⟨fun c member => ?_, kept⟩
      rcases (List.mem_orderedInsert _).mp member with rfl | later
      · exact .inl (not_le.mp before)
      · exact front c later

theorem insertionSort_stable {xs : List ι} (ascending : xs.Pairwise (· < ·)) (all : ∀ i, i ∈ xs) :
    StableOrder key (xs.insertionSort fun i j => key j ≤ key i) where
  distinct := ((List.perm_insertionSort _ _).nodup_iff).mpr (ascending.imp fun less => less.ne)
  complete i := (List.perm_insertionSort _ _).mem_iff.mpr (all i)
  sorted := by
    clear all
    induction xs with
    | nil => exact .nil
    | cons a xs ih =>
      obtain ⟨front, rest⟩ := List.pairwise_cons.mp ascending
      refine orderedInsert_stable key (ih rest) fun b member => front b ?_
      exact (List.perm_insertionSort _ _).mem_iff.mp member

variable [Fintype ι]

/-- How many stand before `i`. -/
def place (i : ι) : ℕ := (Finset.univ.filter fun j => Ahead key i j).card

theorem StableOrder.place_split {as bs : List ι} {i : ι} (stable : StableOrder key (as ++ i :: bs)) :
    place key i = as.length :=
  card_front (fun _ _ => Ahead.asymm key) stable.sorted fun j _ => stable.complete j

/- In a stable order everything stands in its place. -/
theorem StableOrder.getElem?_eq_some {order : List ι} (stable : StableOrder key order) {r : ℕ} {i : ι} :
    order[r]? = some i ↔ place key i = r := by
  have split : ∀ {r}, order[r]? = some i → place key i = r := by
    intro r found
    obtain ⟨inside, here⟩ := List.getElem?_eq_some_iff.mp found
    have parts : order = order.take r ++ i :: order.drop (r + 1) := by
      rw [← here, List.getElem_cons_drop, List.take_append_drop]
    rw [parts] at stable
    rw [stable.place_split, List.length_take, min_eq_left inside.le]
  refine ⟨split, ?_⟩
  rintro rfl
  obtain ⟨r, inside, here⟩ := List.getElem_of_mem (stable.complete i)
  have found : order[r]? = some i := by rw [List.getElem?_eq_getElem inside, here]
  rw [split found, found]

theorem StableOrder.place_injective {order : List ι} (stable : StableOrder key order) :
    Function.Injective (place key) := by
  intro i j same
  have here := (stable.getElem?_eq_some key).mpr (Eq.refl (place key i))
  rw [(stable.getElem?_eq_some key).mpr same.symm, Option.some.injEq] at here
  exact here.symm

theorem StableOrder.place_of_mem_take {order : List ι} (stable : StableOrder key order) {m : ℕ} {i : ι}
    (listed : i ∈ order.take m) : place key i < m := by
  obtain ⟨r, inside, here⟩ := List.getElem_of_mem listed
  have found : (order.take m)[r]? = some i := by rw [List.getElem?_eq_getElem inside, here]
  rw [List.length_take] at inside
  have below : r < m := by omega
  rw [List.getElem?_take_of_lt below] at found
  rwa [(stable.getElem?_eq_some key).mp found]

theorem StableOrder.length {order : List ι} (stable : StableOrder key order) :
    order.length = Fintype.card ι := by
  rw [← List.toFinset_card_of_nodup stable.distinct, Finset.card_eq_iff_eq_univ, Finset.eq_univ_iff_forall]
  exact fun i => List.mem_toFinset.mpr (stable.complete i)

theorem place_lt (i : ι) : place key i < Fintype.card ι := by
  refine Finset.card_lt_card (s := Finset.univ.filter fun j => Ahead key i j) ?_
  refine ⟨Finset.subset_univ _, fun all => ?_⟩
  exact Ahead.irrefl key i (Finset.mem_filter.mp (all (Finset.mem_univ i))).2

end Places

section Merge

variable {ι : Type} [DecidableEq ι]

/-- Take `i` unless it has been taken. -/
def push (keep : List ι) (i : ι) : List ι := if i ∈ keep then keep else keep ++ [i]

/-- Everything whose turn comes before `t` has been taken, in the order of the turns. -/
structure Taken (turn : ι → ℕ) (t : ℕ) (keep : List ι) : Prop where
  sorted : keep.Pairwise fun i j => turn i < turn j
  complete : ∀ i, i ∈ keep ↔ turn i < t

variable {turn : ι → ℕ} {t : ℕ} {keep : List ι}

omit [DecidableEq ι] in
theorem taken_nil (turn : ι → ℕ) : Taken turn 0 [] := ⟨.nil, by simp⟩

omit [DecidableEq ι] in
theorem Taken.nodup (taken : Taken turn t keep) : keep.Nodup :=
  taken.sorted.imp fun less => by rintro rfl; exact lt_irrefl _ less

theorem Taken.push (taken : Taken turn t keep) {i : ι} (due : turn i ≤ t)
    (only : ∀ j, turn j = t → j = i) : Taken turn (t + 1) (push keep i) := by
  unfold Turns.push
  split
  · rename_i already
    refine ⟨taken.sorted, fun j => ?_⟩
    rw [taken.complete, Nat.lt_succ_iff_lt_or_eq]
    refine ⟨.inl, fun h => h.resolve_right fun here => ?_⟩
    have earlier := (taken.complete i).mp already
    rw [← only j here, here] at earlier
    exact lt_irrefl _ earlier
  · rename_i fresh
    have here : turn i = t := by
      have late : ¬ turn i < t := fun less => fresh ((taken.complete i).mpr less)
      omega
    refine ⟨?_, fun j => ?_⟩
    · rw [List.pairwise_append]
      refine ⟨taken.sorted, List.pairwise_singleton _ _, fun a old b new => ?_⟩
      rw [List.mem_singleton.mp new, here]
      exact (taken.complete a).mp old
    · rw [List.mem_append, List.mem_singleton, taken.complete, Nat.lt_succ_iff_lt_or_eq]
      refine or_congr_right ⟨?_, only j⟩
      rintro rfl
      exact here

variable [Fintype ι]

/-- How many have an earlier turn. -/
def before (turn : ι → ℕ) (i : ι) : ℕ := (Finset.univ.filter fun j => turn j < turn i).card

theorem Taken.before_split {as bs : List ι} {i : ι} (taken : Taken turn t (as ++ i :: bs)) :
    before turn i = as.length := by
  have own := (taken.complete i).mp (by simp)
  exact card_front (fun _ _ => lt_asymm) taken.sorted fun j less => (taken.complete j).mpr (less.trans own)

theorem Taken.length (taken : Taken turn t keep) :
    keep.length = (Finset.univ.filter fun j => turn j < t).card := by
  rw [← List.toFinset_card_of_nodup taken.nodup]
  congr 1
  ext j
  simp [taken.complete]

/-- The first `cap` taken are those with fewer than `cap` before them, once so many or all
have been taken. -/
theorem Taken.mem_take (taken : Taken turn t keep) {cap : ℕ}
    (enough : cap ≤ keep.length ∨ ∀ i, turn i < t) (i : ι) :
    i ∈ keep.take cap ↔ before turn i < cap := by
  by_cases listed : i ∈ keep
  · obtain ⟨as, bs, rfl⟩ := List.append_of_mem listed
    have fresh : i ∉ as := fun again => (List.nodup_append.mp taken.nodup).2.2 i again i (by simp) rfl
    rw [taken.before_split, List.take_append, List.mem_append]
    have front : i ∉ as.take cap := fun again => fresh (List.mem_of_mem_take again)
    rw [or_iff_right front]
    by_cases room : as.length < cap
    · obtain ⟨m, hm⟩ := Nat.exists_eq_succ_of_ne_zero (Nat.sub_ne_zero_of_lt room)
      simp [hm, room]
    · have none : cap - as.length = 0 := by omega
      simp [none, room]
  · have omitted : i ∉ keep.take cap := fun h => listed (List.mem_of_mem_take h)
    have late : t ≤ turn i := not_lt.mp fun less => listed ((taken.complete i).mpr less)
    have filled := enough.resolve_right fun all => absurd (all i) (not_lt.mpr late)
    have more : keep.length ≤ before turn i := by
      rw [taken.length, before]
      refine Finset.card_le_card fun j hj => ?_
      simp only [Finset.mem_filter, Finset.mem_univ, true_and] at hj ⊢
      omega
    exact iff_of_false omitted (by omega)

end Merge

section Alternate

variable {ι κ κ' : Type} [LinearOrder ι] [LinearOrder κ] [LinearOrder κ'] [Fintype ι]
  (key : ι → κ) (key' : ι → κ')

/-- The first turn of `i` when two stable orders are read alternately. -/
def turn (i : ι) : ℕ := min (2 * place key i) (2 * place key' i + 1)

theorem turn_lt (i : ι) : turn key key' i < 2 * Fintype.card ι := by
  have inside := place_lt key i
  unfold turn
  omega

variable {key key'}

/- One round takes the next of both orders. -/
theorem Taken.round {as bs keep : List ι} (first : StableOrder key as) (second : StableOrder key' bs)
    {r : ℕ} (taken : Taken (turn key key') (2 * r) keep) {i j : ι} (here : as[r]? = some i)
    (there : bs[r]? = some j) : Taken (turn key key') (2 * (r + 1)) (Turns.push (Turns.push keep i) j) := by
  have left := (first.getElem?_eq_some key).mp here
  have right := (second.getElem?_eq_some key').mp there
  have half := taken.push (i := i) (by unfold turn; omega) fun l due => by
    have place : Turns.place key l = r := by unfold turn at due; omega
    exact first.place_injective key (place.trans left.symm)
  exact half.push (i := j) (by unfold turn; omega) fun l due => by
    have place : Turns.place key' l = r := by unfold turn at due; omega
    exact second.place_injective key' (place.trans right.symm)

/- Turns are taken one at a time. -/
theorem before_le_turn {as bs : List ι} (first : StableOrder key as) (second : StableOrder key' bs)
    (i : ι) : before (turn key key') i ≤ turn key key' i := by
  have injective : Set.InjOn (turn key key')
      ↑(Finset.univ.filter fun j => turn key key' j < turn key key' i) := by
    intro j _ l _ same
    rcases Nat.le_total (2 * place key j) (2 * place key' j + 1) with even | odd
    · have place : Turns.place key j = Turns.place key l := by unfold turn at same; omega
      exact first.place_injective key place
    · have place : Turns.place key' j = Turns.place key' l := by unfold turn at same; omega
      exact second.place_injective key' place
  have range := Finset.card_le_card_of_injOn (t := Finset.range (turn key key' i)) _
    (fun j hj => by simpa using hj) injective
  rwa [Finset.card_range] at range

end Alternate

end Stallwatch.Turns
