import Stallwatch.Attribution
import Stallwatch.Cgroup.Names

/-! Which cgroups are named as the cause. Those that moved nothing are left out before the
hierarchy is looked at, which takes no one's blame away. -/
namespace Stallwatch.Attribution

open Counter

/-- A cgroup and the bytes it moved. -/
structure Mover where
  cgroup : PathBuf
  bytes : UInt64
  deriving DecidableEq

/-- Sampled twice, with bytes enough, and no cgroup below it moved four fifths of them. -/
structure Suspect (firstIo secondIo : HashMap PathBuf IoBytes) (m : Mover) : Prop where
  sampled : ∃ before after, firstIo.lookup m.cgroup = some before ∧
    secondIo.lookup m.cgroup = some after ∧ m.bytes = (after.delta before).total
  enough : minCauseBytes ≤ m.bytes
  undominated : ∀ q before after, firstIo.lookup q = some before → secondIo.lookup q = some after →
    q.Descends m.cgroup → (after.delta before).total.toNat * 100 < m.bytes.toNat * 80

/-- What is written about a mover. -/
structure Accuses (f : Rounding) (firstIo secondIo : HashMap PathBuf IoBytes)
    (first second : HashMap PathBuf Snapshot) (elapsedUs : UInt64) (m : Mover) (c : Cause) : Prop where
  unit : Cgroup.friendlyName m.cgroup = .ok c.unit
  cgroup : c.cgroup = m.cgroup.toStringLossy
  moved : ∃ before after, firstIo.lookup m.cgroup = some before ∧
    secondIo.lookup m.cgroup = some after ∧
    (after.delta before) = ⟨c.readBytes, c.writeBytes, c.discardBytes⟩
  bytes : c.bytes = m.bytes
  pressure : c.pressurePct = ownPressure f first second elapsedUs m.cgroup
  role : c.role = Cause.classify m.bytes c.pressurePct

def details (firstIo secondIo : HashMap PathBuf IoBytes) : HashMap PathBuf IoBytes :=
  HashMap.collect (fun e => (movedBytes firstIo e.1 e.2).map fun d => (e.1, d)) secondIo.entries

def byteDeltas (firstIo secondIo : HashMap PathBuf IoBytes) : HashMap PathBuf UInt64 :=
  HashMap.collect (fun e => (movedBytes firstIo e.1 e.2).map fun d => (e.1, d.total)) secondIo.entries

section

variable {firstIo secondIo : HashMap PathBuf IoBytes}

theorem lookup_details {cg : PathBuf} {d : IoBytes} :
    (details firstIo secondIo).lookup cg = some d ↔ ∃ before after, firstIo.lookup cg = some before ∧
      secondIo.lookup cg = some after ∧ d = after.delta before ∧ d.total ≠ 0 := by
  rw [details, HashMap.lookup_collect_entries (movedBytes firstIo), Option.bind_eq_some_iff]
  constructor
  · rintro ⟨after, hafter, moved⟩
    obtain ⟨before, hbefore, moved⟩ := Option.bind_eq_some_iff.mp moved
    split at moved
    · cases moved
    · rename_i nonzero
      cases moved
      exact ⟨before, after, hbefore, hafter, rfl, nonzero⟩
  · rintro ⟨before, after, hbefore, hafter, rfl, nonzero⟩
    exact ⟨after, hafter, by rw [movedBytes, hbefore, Option.bind_some, if_neg nonzero]⟩

/- The two maps of the loop have the same keys. -/
theorem lookup_byteDeltas (cg : PathBuf) :
    (byteDeltas firstIo secondIo).lookup cg = ((details firstIo secondIo).lookup cg).map IoBytes.total := by
  have entries := HashMap.lookup_collect_entries
    (fun cg after => (movedBytes firstIo cg after).map IoBytes.total) secondIo cg
  simp only [Option.map_map, Function.comp_def] at entries
  rw [byteDeltas, entries, details, HashMap.lookup_collect_entries (movedBytes firstIo), Option.map_bind]
  rfl

theorem lookup_byteDeltas_eq_some {cg : PathBuf} {n : UInt64} :
    (byteDeltas firstIo secondIo).lookup cg = some n ↔ n ≠ 0 ∧ ∃ before after,
      firstIo.lookup cg = some before ∧ secondIo.lookup cg = some after ∧
      n = (after.delta before).total := by
  rw [lookup_byteDeltas, Option.map_eq_some_iff]
  constructor
  · rintro ⟨d, found, rfl⟩
    obtain ⟨before, after, hbefore, hafter, rfl, nonzero⟩ := lookup_details.mp found
    exact ⟨nonzero, before, after, hbefore, hafter, rfl⟩
  · rintro ⟨nonzero, before, after, hbefore, hafter, rfl⟩
    exact ⟨_, lookup_details.mpr ⟨before, after, hbefore, hafter, rfl, nonzero⟩, rfl⟩

variable (bounded : ∀ cg before after, firstIo.lookup cg = some before →
  secondIo.lookup cg = some after → (after.delta before).total.toNat ≤ (2 ^ 64 - 1) / 100)
include bounded

/- A cgroup that moved nothing dominates no one. -/
theorem suspect_iff (m : Mover) :
    Suspect firstIo secondIo m ↔ (byteDeltas firstIo secondIo).lookup m.cgroup = some m.bytes ∧
      minCauseBytes ≤ m.bytes ∧
      (Responsibility.new (byteDeltas firstIo secondIo)).isResponsible m.cgroup m.bytes = true := by
  have small : ∀ p d, (byteDeltas firstIo secondIo).lookup p = some d →
      d.toNat ≤ (2 ^ 64 - 1) / 100 := by
    intro p d found
    obtain ⟨_, before, after, hbefore, hafter, rfl⟩ := lookup_byteDeltas_eq_some.mp found
    exact bounded p before after hbefore hafter
  constructor
  · rintro ⟨⟨before, after, hbefore, hafter, moved⟩, enough, undominated⟩
    have pos : 0 < m.bytes.toNat :=
      lt_of_lt_of_le (by decide) (UInt64.le_iff_toNat_le.mp enough)
    have nonzero : m.bytes ≠ 0 := fun zero => by simp [zero] at pos
    have found := lookup_byteDeltas_eq_some.mpr ⟨nonzero, before, after, hbefore, hafter, moved⟩
    refine ⟨found, enough, (Responsibility.isResponsible_descends small found).mpr ⟨pos, ?_⟩⟩
    intro q e he below
    obtain ⟨_, b, a, hb, ha, rfl⟩ := lookup_byteDeltas_eq_some.mp he
    exact not_le.mpr (undominated q b a hb ha below)
  · rintro ⟨found, enough, responsible⟩
    obtain ⟨pos, undominated⟩ := (Responsibility.isResponsible_descends small found).mp responsible
    refine ⟨(lookup_byteDeltas_eq_some.mp found).2, enough, fun q b a hb ha below => ?_⟩
    by_cases zero : (a.delta b).total = 0
    · rw [zero]
      exact Nat.mul_pos pos (by decide)
    · exact not_le.mp (undominated q _ (lookup_byteDeltas_eq_some.mpr ⟨zero, b, a, hb, ha, rfl⟩) below)

end

section Collecting

variable (f : Rounding) (order : Shuffle PathBuf UInt64) {firstIo secondIo : HashMap PathBuf IoBytes}
  (first second : HashMap PathBuf Snapshot) (elapsedUs : UInt64)

/-- The movers that the filter lets through, in the order in which the map is iterated. -/
def movers (firstIo secondIo : HashMap PathBuf IoBytes) : List Mover :=
  ((order.run (byteDeltas firstIo secondIo)).entries.filter fun e => decide (minCauseBytes ≤ e.2) &&
    (Responsibility.new (byteDeltas firstIo secondIo)).isResponsible e.1 e.2).map fun e => ⟨e.1, e.2⟩

theorem collectCauses_eq (firstIo secondIo : HashMap PathBuf IoBytes) :
    collectCauses f order firstIo secondIo first second elapsedUs =
      (movers order firstIo secondIo).mapM (fun m =>
        cause f (details firstIo secondIo) first second elapsedUs m.cgroup) >>= fun causes =>
        .ok ((causes.insertionSort fun a b => b.bytes ≤ a.bytes).take maxCauses) := by
  rw [movers, List.mapM_map]
  rfl

theorem movers_nodup (firstIo secondIo : HashMap PathBuf IoBytes) :
    (movers order firstIo secondIo).Nodup := by
  have distinct := (order.run (byteDeltas firstIo secondIo)).nodupKeys.nodup
  refine (distinct.filter _).map ?_
  rintro ⟨cg, n⟩ ⟨cg', n'⟩ same
  cases same
  rfl

theorem mem_movers (bounded : ∀ cg before after, firstIo.lookup cg = some before →
      secondIo.lookup cg = some after → (after.delta before).total.toNat ≤ (2 ^ 64 - 1) / 100)
    (m : Mover) : m ∈ movers order firstIo secondIo ↔ Suspect firstIo secondIo m := by
  rw [suspect_iff bounded, movers]
  simp only [List.mem_map, List.mem_filter, (order.perm _).mem_iff, Bool.and_eq_true, decide_eq_true_eq]
  constructor
  · rintro ⟨⟨cg, n⟩, ⟨listed, passes⟩, rfl⟩
    exact ⟨HashMap.mem_entries.mp listed, passes⟩
  · rintro ⟨found, passes⟩
    exact ⟨⟨m.cgroup, m.bytes⟩, ⟨HashMap.mem_entries.mpr found, passes⟩, rfl⟩

variable {first second elapsedUs}

theorem detail_suspect {m : Mover} (suspect : Suspect firstIo secondIo m) :
    ∃ before after, firstIo.lookup m.cgroup = some before ∧ secondIo.lookup m.cgroup = some after ∧
      m.bytes = (after.delta before).total ∧
      (details firstIo secondIo).lookup m.cgroup = some (after.delta before) := by
  obtain ⟨before, after, hbefore, hafter, moved⟩ := suspect.sampled
  refine ⟨before, after, hbefore, hafter, moved, lookup_details.mpr ⟨_, _, hbefore, hafter, rfl, ?_⟩⟩
  rw [← moved]
  intro zero
  exact absurd suspect.enough (by rw [zero]; decide)

theorem cause_panics {m : Mover} (suspect : Suspect firstIo secondIo m) :
    cause f (details firstIo secondIo) first second elapsedUs m.cgroup = .panic ↔
      Cgroup.TornName m.cgroup := by
  obtain ⟨before, after, _, _, _, found⟩ := detail_suspect suspect
  rw [cause, found, ← Cgroup.friendlyName_panics]
  exact Outcome.bind_ok_eq_panic

theorem cause_accuses {m : Mover} (suspect : Suspect firstIo secondIo m) {c : Cause}
    (named : cause f (details firstIo secondIo) first second elapsedUs m.cgroup = .ok c) :
    Accuses f firstIo secondIo first second elapsedUs m c := by
  obtain ⟨before, after, hbefore, hafter, moved, found⟩ := detail_suspect suspect
  rw [cause, found] at named
  obtain ⟨unit, friendly, written⟩ := Outcome.bind_eq_ok.mp named
  cases written
  exact ⟨friendly, rfl, ⟨before, after, hbefore, hafter, rfl⟩, moved.symm, rfl, by rw [moved]⟩

/-- The causes are the suspects who moved most, each cgroup once. -/
structure NamesCauses (firstIo secondIo : HashMap PathBuf IoBytes)
    (first second : HashMap PathBuf Snapshot) (elapsedUs : UInt64) (chosen : List Mover)
    (causes : List Cause) : Prop where
  top : Ranking.Top (fun m => m.bytes.toNat) (Suspect firstIo secondIo) maxCauses chosen
  distinct : (chosen.map Mover.cgroup).Nodup
  accused : List.Forall₂ (Accuses f firstIo secondIo first second elapsedUs) chosen causes
  ranked : causes.Pairwise fun a b => b.bytes ≤ a.bytes

/- The cgroup decides the bytes. -/
theorem Suspect.eq {m n : Mover} (hm : Suspect firstIo secondIo m) (hn : Suspect firstIo secondIo n)
    (cgroup : m.cgroup = n.cgroup) : m = n := by
  obtain ⟨b, a, hb, ha, hd⟩ := hm.sampled
  obtain ⟨b', a', hb', ha', hd'⟩ := hn.sampled
  obtain ⟨cg, d⟩ := m
  obtain ⟨cg', d'⟩ := n
  cases cgroup
  rw [hb, Option.some.injEq] at hb'
  rw [ha, Option.some.injEq] at ha'
  subst hb' ha'
  rw [Mover.mk.injEq]
  exact ⟨rfl, hd.trans hd'.symm⟩

theorem namesCauses {chosen : List Mover} {causes : List Cause}
    (top : Ranking.Top (fun m => m.bytes.toNat) (Suspect firstIo secondIo) maxCauses chosen)
    (accused : List.Forall₂ (Accuses f firstIo secondIo first second elapsedUs) chosen causes) :
    NamesCauses f firstIo secondIo first second elapsedUs chosen causes where
  top := top
  distinct := List.Nodup.map_on
    (fun m hm n hn same => (top.members m hm).eq (top.members n hn) same) top.distinct
  accused := accused
  ranked := Ranking.forall₂_pairwise (fun m n c d hc hd less => by
    rw [hc.bytes, hd.bytes, UInt64.le_iff_toNat_le]
    exact less) accused top.ranked

variable (first second elapsedUs)

/-- Either the name of a suspect cannot be decoded, or the suspects who moved most are named. -/
theorem collectCauses_cases (bounded : ∀ cg before after, firstIo.lookup cg = some before →
    secondIo.lookup cg = some after → (after.delta before).total.toNat ≤ (2 ^ 64 - 1) / 100) :
    collectCauses f order firstIo secondIo first second elapsedUs = .panic ∧
        (∃ m, Suspect firstIo secondIo m ∧ Cgroup.TornName m.cgroup) ∨
      ∃ causes, collectCauses f order firstIo secondIo first second elapsedUs = .ok causes ∧
        (∀ m, Suspect firstIo secondIo m → ¬ Cgroup.TornName m.cgroup) ∧
        ∃ chosen, NamesCauses f firstIo secondIo first second elapsedUs chosen causes := by
  have listed := mem_movers order bounded
  rw [collectCauses_eq]
  rcases Outcome.mapM_cases
    (f := fun m : Mover => cause f (details firstIo secondIo) first second elapsedUs m.cgroup)
    (movers order firstIo secondIo) with ⟨panics, m, hm, unnamed⟩ | ⟨causes, returns, safe, named⟩
  · have suspect := (listed m).mp hm
    exact .inl ⟨by rw [panics, Outcome.panic_bind], m, suspect, (cause_panics f suspect).mp unnamed⟩
  · have accused : List.Forall₂ (Accuses f firstIo secondIo first second elapsedUs)
        (movers order firstIo secondIo) causes := by
      have suspects : ∀ m ∈ movers order firstIo secondIo, Suspect firstIo secondIo m :=
        fun m hm => (listed m).mp hm
      exact ((List.forall₂_and_left _ _).mpr ⟨suspects, named⟩).imp fun m c both =>
        cause_accuses f both.1 both.2
    refine .inr ⟨_, by rw [returns, Outcome.ok_bind], fun m suspect torn => ?_, _, namesCauses f
      (Ranking.top_take_rank _ (movers_nodup order firstIo secondIo) listed maxCauses) ?_⟩
    · exact safe m ((listed m).mpr suspect) ((cause_panics f suspect).mpr torn)
    · refine List.forall₂_take _ (Ranking.forall₂_insertionSort ?_ accused)
      intro m m' c c' hc hc'
      rw [hc.bytes, hc'.bytes, UInt64.le_iff_toNat_le]

end Collecting

end Stallwatch.Attribution
