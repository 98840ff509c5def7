import Mathlib.Data.List.Sort
import Mathlib.Order.Nat
import Stallwatch.Base.Counter
import Stallwatch.Base.Forest
import Stallwatch.Base.HashMap
import Stallwatch.Base.Path

/-! Which cgroup is to blame for a stall that the kernel counts at every level of the
hierarchy. One reverse pass over the sorted paths replaces the comparison of all pairs. -/
namespace Stallwatch

open Counter

def childDominance : UInt64 := 80

/-- Raise the slot of the nearest ancestor that is present. -/
def propagate (slots : HashMap PathBuf UInt64) (subtree : UInt64) :
    Option PathBuf → HashMap PathBuf UInt64
  | none => slots
  | some a =>
    match slots.lookup a with
    | some slot => if slot < subtree then slots.insert a subtree else slots
    | none => propagate slots subtree a.parent
termination_by ancestor => ancestor.elim 0 fun a => a.components.length + 1
decreasing_by
  cases h : a.parent with
  | none => simp
  | some b => simp [PathBuf.parent_length h]

structure Responsibility where
  maxDescendant : HashMap PathBuf UInt64

namespace Responsibility

def visit (deltas slots : HashMap PathBuf UInt64) (path : PathBuf) : HashMap PathBuf UInt64 :=
  let own := (deltas.lookup path).getD 0
  let collected := (slots.lookup path).getD 0
  let subtree := if own < collected then collected else own
  propagate slots subtree path.parent

/-- Sorted paths list every ancestor before its descendants. -/
def sorted (deltas : HashMap PathBuf UInt64) : List PathBuf := deltas.keys.insertionSort (· ≤ ·)

def new (deltas : HashMap PathBuf UInt64) : Responsibility where
  maxDescendant := (sorted deltas).reverse.foldl (visit deltas)
    (HashMap.collect (fun p => some (p, 0)) deltas.keys)

def isResponsible (r : Responsibility) (cg : PathBuf) (delta : UInt64) : Bool :=
  if delta = 0 then false
  else
    let worstChild := (r.maxDescendant.lookup cg).getD 0
    decide (worstChild * 100 < delta * childDominance)

end Responsibility

/-- The dominance rule by comparing every pair. -/
def isResponsibleNaive (cg : PathBuf) (delta : UInt64) (deltas : HashMap PathBuf UInt64) : Bool :=
  if delta = 0 then false
  else deltas.entries.all fun e =>
    !(e.1 != cg && e.1.startsWith cg && decide (delta * childDominance ≤ e.2 * 100))

/-- The first present path met going up. -/
def nearest (present : PathBuf → Bool) : Option PathBuf → Option PathBuf
  | none => none
  | some a => if present a then some a else nearest present a.parent
termination_by ancestor => ancestor.elim 0 fun a => a.components.length + 1
decreasing_by
  cases h : a.parent with
  | none => simp
  | some b => simp [PathBuf.parent_length h]

theorem lookup_propagate (slots : HashMap PathBuf UInt64) (subtree : UInt64)
    (ancestor : Option PathBuf) (k : PathBuf) :
    (propagate slots subtree ancestor).lookup k =
      if nearest (fun p => (slots.lookup p).isSome) ancestor = some k then
        (slots.lookup k).map fun slot => if slot < subtree then subtree else slot
      else slots.lookup k := by
  fun_induction propagate slots subtree ancestor with
  | case1 => simp [nearest]
  | case2 a slot found less =>
    by_cases same : a = k
    · subst same
      simp [nearest, found, less]
    · have other : ¬ k = a := fun h => same h.symm
      simp [nearest, found, same, AList.lookup_insert_ne other]
  | case3 a slot found less =>
    by_cases same : a = k
    · subst same
      simp [nearest, found, less]
    · simp [nearest, found, same]
  | case4 a found ih =>
    rw [ih]
    simp [nearest, found]

theorem nearest_below (present : PathBuf → Bool) {q a : PathBuf}
    (h : nearest present q.parent = some a) : present a = true ∧ q.Descends a := by
  have climb : ∀ start, (∀ b, start = some b → q.Descends b) → nearest present start = some a →
      present a = true ∧ q.Descends a := by
    intro start above met
    fun_induction nearest present start with
    | case1 => simp at met
    | case2 b here =>
      cases met
      exact ⟨here, above _ rfl⟩
    | case3 b absent ih =>
      exact ih (fun c hc => (above b rfl).trans (.single hc)) met
  exact climb q.parent (fun b hb => .single hb) h

/- Going up skips only what is absent. -/
theorem nearest_least (present : PathBuf → Bool) {q b : PathBuf} (here : present b = true)
    (descends : q.Descends b) : ∃ a, nearest present q.parent = some a ∧ (a = b ∨ a.Descends b) := by
  have climb : ∀ start, (∃ c, start = some c ∧ (c = b ∨ c.Descends b)) →
      ∃ a, nearest present start = some a ∧ (a = b ∨ a.Descends b) := by
    intro start path
    fun_induction nearest present start with
    | case1 => simp at path
    | case2 c hc => simpa using path
    | case3 c absent ih =>
      obtain ⟨_, ⟨rfl⟩, rfl | inner⟩ := path
      · exact absurd here absent
      · exact ih (PathBuf.descends_iff.mp inner)
  exact climb q.parent (PathBuf.descends_iff.mp descends)

namespace Responsibility

def present (deltas : HashMap PathBuf UInt64) (p : PathBuf) : Bool := (deltas.lookup p).isSome

def hop (deltas : HashMap PathBuf UInt64) (p : PathBuf) : Option PathBuf :=
  if present deltas p then nearest (present deltas) p.parent else none

def weight (deltas : HashMap PathBuf UInt64) (p : PathBuf) : ℕ := ((deltas.lookup p).getD 0).toNat

/-- The largest delta strictly below a cgroup, as the pass computes it. -/
def worst (deltas : HashMap PathBuf UInt64) : PathBuf → ℕ :=
  Forest.sweep (hop deltas) (weight deltas) (sorted deltas).reverse

theorem mem_sorted (deltas : HashMap PathBuf UInt64) (p : PathBuf) :
    p ∈ (sorted deltas).reverse ↔ present deltas p = true := by
  rw [List.mem_reverse, sorted, List.mem_insertionSort, present, AList.lookup_isSome]
  rfl

theorem hop_below {deltas : HashMap PathBuf UInt64} {q a : PathBuf} (h : hop deltas q = some a) :
    present deltas q ∧ present deltas a ∧ q.Descends a := by
  unfold hop at h
  split at h
  · exact ⟨‹_›, nearest_below _ h⟩
  · simp at h

/-- Linked to `a` over present cgroups. -/
def Below (deltas : HashMap PathBuf UInt64) : PathBuf → PathBuf → Prop :=
  Forest.Below (hop deltas)

/- Links between present cgroups skip exactly the missing levels. -/
theorem below_iff_descends {deltas : HashMap PathBuf UInt64} {q a : PathBuf} :
    Below deltas q a ↔ present deltas q ∧ present deltas a ∧ q.Descends a := by
  constructor
  · intro h
    induction h with
    | single h => exact hop_below h
    | tail _ h ih => exact ⟨ih.1, (hop_below h).2.1, ih.2.2.trans (hop_below h).2.2⟩
  · rintro ⟨hq, ha, descends⟩
    induction size : q.components.length using Nat.strongRecOn generalizing q with
    | _ size ih =>
      obtain ⟨b, up, least⟩ := nearest_least (present deltas) ha descends
      obtain ⟨hb, inner⟩ := nearest_below (present deltas) up
      have link : hop deltas q = some b := by rw [hop, if_pos hq, up]
      rcases least with rfl | outer
      · exact .single link
      · exact .head link (ih _ (size ▸ inner.length_lt) hb outer rfl)

theorem Below.within {deltas : HashMap PathBuf UInt64} {q a : PathBuf} (h : Below deltas q a) :
    present deltas q ∧ present deltas a ∧ q.Within a := by
  obtain ⟨hq, ha, descends⟩ := below_iff_descends.mp h
  exact ⟨hq, ha, descends.within⟩

theorem below_iff {deltas : HashMap PathBuf UInt64} {a : PathBuf}
    (absolute : a.isAbsolute = true) (q : PathBuf) :
    Below deltas q a ↔ present deltas q ∧ present deltas a ∧ q.Within a := by
  rw [below_iff_descends, PathBuf.descends_iff_within (PathBuf.nonempty_of_isAbsolute absolute)]

theorem childrenFirst (deltas : HashMap PathBuf UInt64) (done : List PathBuf) (n : PathBuf)
    (visited : done ++ [n] <+: (sorted deltas).reverse) (c : PathBuf) (h : hop deltas c = some n) :
    c ∈ done := by
  obtain ⟨here, _, descends⟩ := hop_below h
  obtain ⟨later, split⟩ := visited
  have listed : c ∈ done ++ [n] ++ later := by rw [split]; exact (mem_sorted deltas c).mpr here
  have descending : (done ++ [n] ++ later).Pairwise (fun a b => b ≤ a) := by
    rw [split, List.pairwise_reverse]
    exact List.pairwise_insertionSort _ _
  rw [List.append_assoc, List.singleton_append, List.pairwise_append, List.pairwise_cons] at descending
  simp only [List.append_assoc, List.singleton_append, List.mem_append, List.mem_cons] at listed
  rcases listed with done | rfl | later
  · exact done
  · exact absurd rfl descends.within.1
  · exact absurd (descending.2.1.1 c later) (not_le.mpr descends.within.lt)

theorem worst_isLUB (deltas : HashMap PathBuf UInt64) (p : PathBuf) :
    IsLUB {x | ∃ q, Below deltas q p ∧ weight deltas q = x} (worst deltas p) :=
  Forest.sweep_isLUB (hop deltas) (weight deltas) (sorted deltas).reverse
    (childrenFirst deltas) p fun c hc => (mem_sorted deltas c).mpr (hop_below hc).1

/- The map of the program holds the slots of the abstract pass, for present paths. -/
def Tracks (deltas slots : HashMap PathBuf UInt64) (slot : PathBuf → ℕ) : Prop :=
  ∀ p, (slots.lookup p).map UInt64.toNat = if present deltas p then some (slot p) else none

theorem Tracks.visit {deltas slots : HashMap PathBuf UInt64} {slot : PathBuf → ℕ}
    (tracks : Tracks deltas slots slot) {n : PathBuf} (here : present deltas n = true) :
    Tracks deltas (visit deltas slots n) (Forest.visit (hop deltas) (weight deltas) slot n) := by
  have same : (fun p => (slots.lookup p).isSome) = present deltas := by
    funext p
    have h := congrArg Option.isSome (tracks p)
    rw [Option.isSome_map] at h
    rw [h]
    split <;> simp_all
  have collected : ((slots.lookup n).getD 0).toNat = slot n := by
    have h := tracks n
    rw [if_pos here, Option.map_eq_some_iff] at h
    obtain ⟨v, hv, hn⟩ := h
    rw [hv, ← hn, Option.getD_some]
  have subtree : (if (deltas.lookup n).getD 0 < (slots.lookup n).getD 0
      then (slots.lookup n).getD 0 else (deltas.lookup n).getD 0).toNat =
      max (weight deltas n) (slot n) := by
    rw [toNat_max, collected, weight]
  intro k
  rw [Responsibility.visit, lookup_propagate, same, Forest.visit, hop, if_pos here]
  cases up : nearest (present deltas) n.parent with
  | none => simpa using tracks k
  | some a =>
    by_cases met : a = k
    · subst met
      have slotted := tracks a
      simp only [if_true, Function.update_self]
      split at slotted
      · rename_i there
        obtain ⟨v, hv, hn⟩ := Option.map_eq_some_iff.mp slotted
        rw [if_pos there, hv, ← hn, ← subtree, Option.map_some, Option.map_some, toNat_max]
      · rename_i there
        rw [if_neg there, Option.map_eq_none_iff.mp slotted]
        rfl
    · have other : ¬ some a = some k := fun h => met (Option.some.inj h)
      simp only [if_neg other, Function.update_of_ne (Ne.symm met)]
      exact tracks k

theorem Tracks.run {deltas slots : HashMap PathBuf UInt64} {slot : PathBuf → ℕ}
    (tracks : Tracks deltas slots slot) (ns : List PathBuf)
    (listed : ∀ n ∈ ns, present deltas n = true) :
    Tracks deltas (ns.foldl (Responsibility.visit deltas) slots)
      (ns.foldl (Forest.visit (hop deltas) (weight deltas)) slot) := by
  induction ns generalizing slots slot with
  | nil => exact tracks
  | cons n ns ih =>
    exact ih (tracks.visit (listed n (by simp))) fun m hm => listed m (by simp [hm])

theorem tracks_new (deltas : HashMap PathBuf UInt64) :
    Tracks deltas (new deltas).maxDescendant (worst deltas) := by
  refine Tracks.run ?_ _ fun n hn => (mem_sorted deltas n).mp hn
  intro p
  have initial := HashMap.lookup_collect_keys (fun _ => some (0 : UInt64)) deltas.keys p
  simp only [Option.map_some] at initial
  rw [initial]
  by_cases here : p ∈ deltas.keys
  · have found : present deltas p = true := AList.lookup_isSome.mpr here
    simp [here, found]
  · have missed : ¬ present deltas p = true := fun h => here (AList.lookup_isSome.mp h)
    simp [here, missed]

theorem present_iff {deltas : HashMap PathBuf UInt64} {p : PathBuf} :
    present deltas p = true ↔ ∃ d, deltas.lookup p = some d := Option.isSome_iff_exists

theorem weight_eq {deltas : HashMap PathBuf UInt64} {p : PathBuf} {d : UInt64}
    (h : deltas.lookup p = some d) : weight deltas p = d.toNat := by
  rw [weight, h, Option.getD_some]

theorem lookup_new {deltas : HashMap PathBuf UInt64} {p : PathBuf} {d : UInt64}
    (h : deltas.lookup p = some d) :
    ∃ v, (new deltas).maxDescendant.lookup p = some v ∧ v.toNat = worst deltas p := by
  have tracks := tracks_new deltas p
  rw [if_pos (present_iff.mpr ⟨d, h⟩)] at tracks
  exact Option.map_eq_some_iff.mp tracks

/- The iteration order of the map only permutes the keys that get sorted. -/
theorem worst_perm {deltas other : HashMap PathBuf UInt64}
    (reordered : other.entries.Perm deltas.entries) : worst other = worst deltas := by
  have lookups : ∀ p, other.lookup p = deltas.lookup p := fun p => AList.perm_lookup reordered
  have keys : other.keys.Perm deltas.keys := by
    simpa only [AList.keys, List.keys] using reordered.map Sigma.fst
  have order : sorted other = sorted deltas := by
    refine List.Perm.eq_of_pairwise (fun a b _ _ => le_antisymm)
      (List.pairwise_insertionSort _ _) (List.pairwise_insertionSort _ _) ?_
    exact ((List.perm_insertionSort _ _).trans keys).trans (List.perm_insertionSort _ _).symm
  have presence : present other = present deltas := by
    funext p
    rw [present, present, lookups]
  have hops : hop other = hop deltas := by
    funext p
    rw [hop, hop, presence]
  have weights : weight other = weight deltas := by
    funext p
    simp only [weight, lookups]
  rw [worst, worst, order, hops, weights]

theorem isResponsible_perm {deltas other : HashMap PathBuf UInt64}
    (reordered : other.entries.Perm deltas.entries) {p : PathBuf} {d : UInt64}
    (h : deltas.lookup p = some d) :
    (new other).isResponsible p d = (new deltas).isResponsible p d := by
  obtain ⟨v, hv, hworst⟩ := lookup_new h
  obtain ⟨w, hw, hother⟩ := lookup_new ((AList.perm_lookup reordered).trans h)
  have same : w = v := by
    rw [← UInt64.toNat_inj, hother, hworst, worst_perm reordered]
  rw [isResponsible, isResponsible, hv, hw, same]

section

variable {deltas : HashMap PathBuf UInt64}
  (bounded : ∀ p d, deltas.lookup p = some d → d.toNat ≤ (2 ^ 64 - 1) / 100)
include bounded

theorem dominated_iff {e d : UInt64} {q p : PathBuf} (he : deltas.lookup q = some e)
    (hd : deltas.lookup p = some d) :
    d * childDominance ≤ e * 100 ↔ d.toNat * 80 ≤ e.toNat * 100 := by
  rw [UInt64.le_iff_toNat_le, toNat_mul_of_le (bounded p d hd) (by decide),
    toNat_mul_of_le (bounded q e he) (by decide)]
  rfl

theorem isResponsibleNaive_iff {p : PathBuf} {d : UInt64} (h : deltas.lookup p = some d) :
    isResponsibleNaive p d deltas = true ↔
      0 < d.toNat ∧ ∀ q e, deltas.lookup q = some e → q.Within p → ¬ d.toNat * 80 ≤ e.toNat * 100 := by
  have zero : d = 0 ↔ ¬ 0 < d.toNat := by rw [← UInt64.toNat_inj]; simp
  by_cases hz : d = 0
  · simp [isResponsibleNaive, hz]
  · rw [isResponsibleNaive, if_neg hz, and_iff_right (not_not.mp (hz ∘ zero.mpr)), List.all_eq_true]
    constructor
    · intro all q e he within dominated
      have entry := all ⟨q, e⟩ (HashMap.mem_entries.mpr he)
      simp [within.1, within.2, (dominated_iff bounded he h).mpr dominated] at entry
    · rintro none ⟨q, e⟩ hqe
      have he := HashMap.mem_entries.mp hqe
      by_cases within : q.Within p
      · have kept := none q e he within
        rw [← dominated_iff bounded he h] at kept
        simp [kept]
      · rw [PathBuf.Within, not_and, Bool.not_eq_true] at within
        by_cases same : q = p
        · simp [same]
        · simp [within same]

theorem isResponsible_iff {p : PathBuf} {d : UInt64} (h : deltas.lookup p = some d) :
    (new deltas).isResponsible p d = true ↔
      0 < d.toNat ∧ ∀ q e, deltas.lookup q = some e → Below deltas q p →
        ¬ d.toNat * 80 ≤ e.toNat * 100 := by
  have lub := worst_isLUB deltas p
  obtain ⟨v, hv, hworst⟩ := lookup_new h
  have small : v.toNat ≤ (2 ^ 64 - 1) / 100 := by
    rw [hworst]
    refine lub.2 ?_
    rintro _ ⟨q, below, rfl⟩
    obtain ⟨e, he⟩ := present_iff.mp below.within.1
    exact weight_eq he ▸ bounded q e he
  have zero : d = 0 ↔ ¬ 0 < d.toNat := by rw [← UInt64.toNat_inj]; simp
  by_cases hz : d = 0
  · simp [isResponsible, hz]
  · have positive := not_not.mp (hz ∘ zero.mpr)
    rw [isResponsible, if_neg hz, hv, Option.getD_some, decide_eq_true_iff, and_iff_right positive,
      UInt64.lt_iff_toNat_lt, toNat_mul_of_le small (by decide),
      toNat_mul_of_le (bounded p d h) (by decide), hworst]
    change worst deltas p * 100 < d.toNat * 80 ↔ _
    constructor
    · intro less q e he below
      have most := lub.1 ⟨q, below, weight_eq he⟩
      omega
    · intro none
      have most : worst deltas p ≤ (d.toNat * 80 - 1) / 100 := by
        refine lub.2 ?_
        rintro _ ⟨q, below, rfl⟩
        obtain ⟨e, he⟩ := present_iff.mp below.within.1
        have kept := none q e he below
        rw [weight_eq he]
        omega
      omega

theorem isResponsible_descends {p : PathBuf} {d : UInt64} (h : deltas.lookup p = some d) :
    (new deltas).isResponsible p d = true ↔
      0 < d.toNat ∧ ∀ q e, deltas.lookup q = some e → q.Descends p →
        ¬ d.toNat * 80 ≤ e.toNat * 100 := by
  rw [isResponsible_iff bounded h]
  refine and_congr_right fun _ => forall₂_congr fun q e => forall_congr' fun he => ?_
  simp only [below_iff_descends, present_iff.mpr ⟨e, he⟩, present_iff.mpr ⟨d, h⟩, true_and]

/-- The one-pass rule answers as the comparison of all pairs does, however the map is
iterated. -/
theorem isResponsible_agrees (absolute : ∀ p, present deltas p → p.isAbsolute = true)
    (p : PathBuf) (d : UInt64) (h : deltas.lookup p = some d) :
    (new deltas).isResponsible p d = isResponsibleNaive p d deltas ∧
    (isResponsibleNaive p d deltas = true ↔
      0 < d.toNat ∧
        ∀ q e, deltas.lookup q = some e → q.Within p → ¬ d.toNat * 80 ≤ e.toNat * 100) ∧
    ∀ other : HashMap PathBuf UInt64, other.entries.Perm deltas.entries →
      (new other).isResponsible p d = (new deltas).isResponsible p d := by
  have naive := isResponsibleNaive_iff bounded h
  refine ⟨?_, naive, fun other reordered => isResponsible_perm reordered h⟩
  have here : present deltas p = true := present_iff.mpr ⟨d, h⟩
  rw [Bool.eq_iff_iff, naive, isResponsible_iff bounded h]
  refine and_congr_right fun _ => forall₂_congr fun q e => forall_congr' fun he => ?_
  simp only [below_iff (absolute p here), present_iff.mpr ⟨e, he⟩, here, true_and]

end

/-- A gap in the hierarchy, and a sibling whose name extends another. -/
def gapped : HashMap PathBuf UInt64 :=
  HashMap.collect some [(.absolute ["p"], 1000), (.absolute ["p", "a", "b"], 800),
    (.absolute ["p2"], 900)]

theorem isResponsible_agrees_gapped :
    (new gapped).isResponsible (.absolute ["p"]) 1000 =
      isResponsibleNaive (.absolute ["p"]) 1000 gapped ∧
    isResponsibleNaive (.absolute ["p"]) 1000 gapped = false := by
  have entries : ∀ e ∈ gapped.entries, e.1.isAbsolute = true ∧ e.2.toNat ≤ (2 ^ 64 - 1) / 100 := by
    decide
  have agrees := @isResponsible_agrees gapped
    (fun p d h => (entries _ (HashMap.mem_entries.mpr h)).2)
    (fun p h => by
      obtain ⟨d, hd⟩ := present_iff.mp h
      exact (entries _ (HashMap.mem_entries.mpr hd)).1)
    (.absolute ["p"]) 1000 (by decide)
  exact ⟨agrees.1, by decide⟩

end Responsibility

end Stallwatch
