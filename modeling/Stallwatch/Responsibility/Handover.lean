import Mathlib.Data.Finset.Order
import Stallwatch.Base.Handover
import Stallwatch.Responsibility

/-! Blame that a cgroup hands to a dominant descendant is not lost: some cgroup below
keeps it, with no more than a fifth gone for every level in between. -/
namespace Stallwatch.Responsibility

variable {deltas : HashMap PathBuf UInt64}

theorem weight_pos {p : PathBuf} (pos : 0 < weight deltas p) :
    ∃ d, deltas.lookup p = some d ∧ 0 < d.toNat := by
  unfold weight at pos
  cases found : deltas.lookup p with
  | none => simp [found] at pos
  | some d => exact ⟨d, rfl, by simpa [found] using pos⟩

/- A finite map reaches down only so far. -/
theorem depth_bounded (deltas : HashMap PathBuf UInt64) :
    ∃ bound, ∀ p, 0 < weight deltas p → p.components.length ≤ bound := by
  obtain ⟨bound, deepest⟩ := (deltas.keys.map fun p => p.components.length).toFinset.exists_le
  refine ⟨bound, fun p pos => ?_⟩
  obtain ⟨d, found, _⟩ := weight_pos pos
  have listed : p ∈ deltas.keys := AList.lookup_isSome.mp (by simp [found])
  exact deepest _ (List.mem_toFinset.mpr (List.mem_map_of_mem listed))

/-- Below every cgroup with a delta, or there, is one to blame, with at least four fifths
of the delta for every path component in between. -/
theorem blame_kept (bounded : ∀ p d, deltas.lookup p = some d → d.toNat ≤ (2 ^ 64 - 1) / 100)
    (p : PathBuf) (d : UInt64) (found : deltas.lookup p = some d) (pos : 0 < d.toNat) :
    ∃ q e, deltas.lookup q = some e ∧ (q = p ∨ q.Within p) ∧ (new deltas).isResponsible q e = true ∧
      d.toNat * 4 ^ (q.components.length - p.components.length) ≤
        e.toNat * 5 ^ (q.components.length - p.components.length) := by
  obtain ⟨bound, deep⟩ := depth_bounded deltas
  have passes : ∀ q, 0 < weight deltas q →
      ¬ (∃ e, deltas.lookup q = some e ∧ (new deltas).isResponsible q e = true) →
      ∃ r, r.Within q ∧ q.components.length < r.components.length ∧
        weight deltas q * 4 ≤ weight deltas r * 5 := by
    intro q heavy innocent
    obtain ⟨e, he, positive⟩ := weight_pos heavy
    have dominated := fun h => innocent ⟨e, he, (isResponsible_descends bounded he).mpr h⟩
    rw [imp_false, not_and] at dominated
    have some := dominated positive
    push Not at some
    obtain ⟨r, x, hx, below, most⟩ := some
    refine ⟨r, below.within, below.length_lt, ?_⟩
    rw [weight_eq he, weight_eq hx]
    omega
  have heavy : 0 < weight deltas p := by rwa [weight_eq found]
  have lower : ∀ r q p : PathBuf, r.Within q → q.Within p → r.Within p :=
    fun _ _ _ => PathBuf.Within.trans
  obtain ⟨q, under, ⟨e, he, responsible⟩, _, _, least⟩ :=
    Handover.settles (a := 4) (b := 5) (by decide) (by decide) lower deep passes p heavy
  rw [weight_eq found, weight_eq he] at least
  exact ⟨q, e, he, under, responsible, least⟩

/-- Three levels: the leaf dominates the slice in the middle, and that dominates its parent. -/
def nested : HashMap PathBuf UInt64 :=
  HashMap.collect some [(.absolute ["a"], 1000), (.absolute ["a", "b"], 850),
    (.absolute ["a", "b", "c"], 700)]

theorem blame_kept_nested : ∃ q e, nested.lookup q = some e ∧
    (q = .absolute ["a"] ∨ q.Within (.absolute ["a"])) ∧ (new nested).isResponsible q e = true ∧
    1000 * 4 ^ (q.components.length - 2) ≤ e.toNat * 5 ^ (q.components.length - 2) := by
  have entries : ∀ e ∈ nested.entries, e.2.toNat ≤ (2 ^ 64 - 1) / 100 := by decide
  exact blame_kept (fun p d h => entries _ (HashMap.mem_entries.mpr h)) (.absolute ["a"]) 1000
    (by decide) (by decide)

end Stallwatch.Responsibility
