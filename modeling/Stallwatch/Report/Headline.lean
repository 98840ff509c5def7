import Stallwatch.Attribution.Causes
import Stallwatch.Base.PathText
import Stallwatch.Report.Text

/-! Whom the report names for most of the IO. The root of the tree may take one of the
places in the list of causes, and is passed over when the line is written. -/
namespace Stallwatch.Report

open Attribution Utf8

/- Only the root has the text that cannot be named. -/
theorem isNameable_iff {cg : PathBuf} (proper : cg.Proper) {c : Cause} (text : c.cgroup = cg.toStringLossy) :
    c.isNameable = decide (cg ≠ Cgroup.root) := by
  have rootText : Cgroup.root.toStringLossy = "/sys/fs/cgroup" := by decide
  have clean : '\uFFFD' ∉ Cgroup.root.toStringLossy.toList := by decide
  rw [Bool.eq_iff_iff, Cause.isNameable, bne_iff_ne, decide_eq_true_iff, text, ← rootText, not_iff_not]
  refine ⟨fun same => ?_, fun same => by rw [same]⟩
  have left : '\uFFFD' ∉ cg.toStringLossy.toList := by
    rw [same]
    exact clean
  exact PathBuf.toStringLossy_injective proper (by decide) (PathBuf.isUtf8_of_toStringLossy left)
    (PathBuf.isUtf8_of_toStringLossy clean) same

/-- The line stands in its place exactly when some suspect is not the root, and it is about
such a suspect who moved no less than any other. -/
structure Headlined (f : Rounding) (firstIo secondIo : HashMap PathBuf IoBytes)
    (first second : HashMap PathBuf Snapshot) (elapsedUs : UInt64) (r : Report) : Prop where
  silent : (∀ m, Suspect firstIo secondIo m → m.cgroup = Cgroup.root) →
    toText f r = frozen f r ++ r.warnings.flatMap warningLine
  named : (∃ m, Suspect firstIo secondIo m ∧ m.cgroup ≠ Cgroup.root) → ∃ m top more,
    Suspect firstIo secondIo m ∧ m.cgroup ≠ Cgroup.root ∧
    (∀ n, Suspect firstIo secondIo n → n.cgroup ≠ Cgroup.root → n.bytes ≤ m.bytes) ∧
    Accuses f firstIo secondIo first second elapsedUs m top ∧
    toText f r = frozen f r ++ (mostOfTheIo f top ++ more) ++ r.warnings.flatMap warningLine

section

variable {f : Rounding} {firstIo secondIo : HashMap PathBuf IoBytes}
  {first second : HashMap PathBuf Snapshot} {elapsedUs : UInt64} {chosen : List Mover} {r : Report}
  (proper : ∀ cg ∈ firstIo, cg.Proper)
  (names : NamesCauses f firstIo secondIo first second elapsedUs chosen r.causes)
include proper names

theorem headlined : Headlined f firstIo secondIo first second elapsedUs r := by
  have known : ∀ m, Suspect firstIo secondIo m → m.cgroup.Proper := by
    intro m suspect
    obtain ⟨before, _, sampled, _⟩ := suspect.sampled
    exact proper m.cgroup (AList.lookup_isSome.mp (by simp [sampled]))
  have lone : ∀ m n : Mover, Suspect firstIo secondIo m → Suspect firstIo secondIo n →
      decide (m.cgroup ≠ Cgroup.root) = false → decide (n.cgroup ≠ Cgroup.root) = false → m = n := by
    intro m n hm hn left right
    simp only [ne_eq, decide_eq_false_iff_not, not_not] at left right
    exact hm.eq hn (left.trans right.symm)
  have some := names.top.find_isSome (p := fun m => decide (m.cgroup ≠ Cgroup.root)) (by decide) lone
  have both := (List.forall₂_and_left _ _).mpr ⟨names.top.members, names.accused⟩
  have agree : ∀ (m : Mover) (c : Cause), Suspect firstIo secondIo m ∧
      Accuses f firstIo secondIo first second elapsedUs m c →
      decide (m.cgroup ≠ Cgroup.root) = c.isNameable := fun m c h =>
    (isNameable_iff (known m h.1) h.2.cgroup).symm
  rcases Ranking.forall₂_find? agree both with ⟨none, unnamed⟩ | ⟨m, top, found, line, suspect, accuses⟩
  · rw [none] at some
    have quiet : working f r.causes = [] := by rw [working, unnamed]
    refine ⟨fun _ => by rw [toText, quiet, List.append_nil], fun ⟨m, suspect, other⟩ => ?_⟩
    have contradictory := some.mpr ⟨m, suspect, decide_eq_true other⟩
    cases contradictory
  · obtain ⟨_, other, best⟩ := names.top.find_best found
    have written : working f r.causes =
        mostOfTheIo f top ++ (alsoMoving f r.causes top ++ systemWide f r.causes top) := by
      rw [working, line]
      exact List.append_assoc _ _ _
    refine ⟨fun only => absurd (only m suspect) (of_decide_eq_true other), fun _ =>
      ⟨m, top, _, suspect, of_decide_eq_true other, fun n hn elsewhere => ?_, accuses,
        by rw [toText, written]⟩⟩
    exact UInt64.le_iff_toNat_le.mpr (best n hn (decide_eq_true elsewhere))

end

/-- The causes are the suspects who moved most, and the report names the greatest that is
not the root, exactly when the name of no suspect is torn. -/
theorem headline_iff (f : Rounding) (order : Shuffle PathBuf UInt64)
    (firstIo secondIo : HashMap PathBuf IoBytes) (first second : HashMap PathBuf Snapshot)
    (elapsedUs : UInt64) (proper : ∀ cg ∈ firstIo, cg.Proper)
    (bounded : ∀ cg before after, firstIo.lookup cg = some before →
      secondIo.lookup cg = some after → (after.delta before).total.toNat ≤ (2 ^ 64 - 1) / 100) :
    (∃ causes, collectCauses f order firstIo secondIo first second elapsedUs = .ok causes ∧
      (∃ chosen, NamesCauses f firstIo secondIo first second elapsedUs chosen causes) ∧
      ∀ r : Report, r.causes = causes → Headlined f firstIo secondIo first second elapsedUs r) ↔
    ∀ m, Suspect firstIo secondIo m → ¬ Cgroup.TornName m.cgroup := by
  rcases collectCauses_cases f order first second elapsedUs
    bounded with ⟨panics, m, suspect, torn⟩ | ⟨causes, returns, safe, chosen, names⟩
  · have fails : ¬ ∀ m, Suspect firstIo secondIo m → ¬ Cgroup.TornName m.cgroup :=
      fun safe => safe m suspect torn
    simp [panics, fails]
  · refine ⟨fun _ => safe, fun _ => ⟨causes, returns, ⟨chosen, names⟩, fun r same => ?_⟩⟩
    subst same
    exact headlined proper names

/-- Bytes written by the root and by one service. -/
def written (root service : UInt64) : HashMap PathBuf IoBytes :=
  HashMap.collect some [(Cgroup.root, ⟨0, root, 0⟩),
    (.absolute ["sys", "fs", "cgroup", "a.service"], ⟨0, service, 0⟩)]

theorem written_proper : ∀ cg ∈ written 0 0, cg.Proper := by
  have keys : ∀ cg ∈ (written 0 0).keys, cg.Proper := by decide
  exact fun cg member => keys cg (AList.mem_keys.mp member)

theorem written_small : ∀ b ∈ (written 0 0).entries, ∀ a ∈ (written 10000000 5000000).entries,
    (a.2.delta b.2).total.toNat ≤ (2 ^ 64 - 1) / 100 := by decide +kernel

theorem written_bounded (cg : PathBuf) (before after : IoBytes)
    (hb : (written 0 0).lookup cg = some before)
    (ha : (written 10000000 5000000).lookup cg = some after) :
    (after.delta before).total.toNat ≤ (2 ^ 64 - 1) / 100 := by
  have pairs := written_small _ (HashMap.mem_entries.mpr hb)
  have pair := pairs _ (HashMap.mem_entries.mpr ha)
  exact pair

theorem headline_service : ∃ causes,
    collectCauses .exact .same (written 0 0) (written 10000000 5000000) ∅ ∅ 1000000 = .ok causes ∧
    (∃ chosen, NamesCauses .exact (written 0 0) (written 10000000 5000000) ∅ ∅ 1000000 chosen causes) ∧
    ∀ r : Report, r.causes = causes →
      Headlined .exact (written 0 0) (written 10000000 5000000) ∅ ∅ 1000000 r := by
  have plain : ∀ cg ∈ (written 0 0).keys, Cgroup.friendlyName cg ≠ .panic := by decide +kernel
  refine (headline_iff .exact .same _ _ ∅ ∅ 1000000 written_proper written_bounded).mpr
    fun m suspect torn => ?_
  obtain ⟨before, _, sampled, _⟩ := suspect.sampled
  have listed : m.cgroup ∈ written 0 0 := AList.lookup_isSome.mp (by rw [sampled]; rfl)
  exact plain m.cgroup (AList.mem_keys.mp listed) ((Cgroup.friendlyName_panics _).mpr torn)

/- Five megabytes written by a unit whose name the decoding does not survive. -/
def tornWritten (bytes : UInt64) : HashMap PathBuf IoBytes :=
  HashMap.collect some [(.absolute ["sys", "fs", "cgroup", "\\xaé.service"], ⟨0, bytes, 0⟩)]

theorem tornWritten_proper : ∀ cg ∈ tornWritten 0, cg.Proper := by
  have keys : ∀ cg ∈ (tornWritten 0).keys, cg.Proper := by decide
  exact fun cg member => keys cg (AList.mem_keys.mp member)

theorem tornWritten_small : ∀ b ∈ (tornWritten 0).entries, ∀ a ∈ (tornWritten 5000000).entries,
    (a.2.delta b.2).total.toNat ≤ (2 ^ 64 - 1) / 100 := by decide +kernel

theorem tornWritten_bounded (cg : PathBuf) (before after : IoBytes)
    (hb : (tornWritten 0).lookup cg = some before) (ha : (tornWritten 5000000).lookup cg = some after) :
    (after.delta before).total.toNat ≤ (2 ^ 64 - 1) / 100 := by
  have pairs := tornWritten_small _ (HashMap.mem_entries.mpr hb)
  have pair := pairs _ (HashMap.mem_entries.mpr ha)
  exact pair

theorem not_headline :
    collectCauses .exact .same (tornWritten 0) (tornWritten 5000000) ∅ ∅ 1000000 = .panic ∧
      ¬ ∀ (order : Shuffle PathBuf UInt64) (firstIo secondIo : HashMap PathBuf IoBytes)
        (first second : HashMap PathBuf Snapshot) (elapsedUs : UInt64), 0 < elapsedUs →
        (∀ cg ∈ firstIo, cg.Proper) →
        (∀ cg before after, firstIo.lookup cg = some before → secondIo.lookup cg = some after →
          (after.delta before).total.toNat ≤ (2 ^ 64 - 1) / 100) →
        ∃ causes chosen, collectCauses .exact order firstIo secondIo first second elapsedUs = .ok causes ∧
          NamesCauses .exact firstIo secondIo first second elapsedUs chosen causes := by
  have panics : collectCauses .exact .same (tornWritten 0) (tornWritten 5000000) ∅ ∅ 1000000 = .panic := by
    decide +kernel
  refine ⟨panics, fun always => ?_⟩
  obtain ⟨causes, _, returns, _⟩ := always .same (tornWritten 0) (tornWritten 5000000) ∅ ∅ 1000000
    (by decide) tornWritten_proper tornWritten_bounded
  rw [panics] at returns
  cases returns

end Stallwatch.Report
