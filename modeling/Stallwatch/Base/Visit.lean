import Mathlib.Data.List.Nodup
import Mathlib.Tactic.Common

/-! Walks through a directory tree. A walk that lists paths and a walk that collects what the
directories hold meet the same directories in the same order. -/
namespace Stallwatch.Visit

open scoped List

variable {ν α β κ : Type}

/-- A directory with what is read of it and its entries, unless they cannot be listed; or an
entry that is not a directory, a symbolic link say. -/
inductive Node (ν α : Type) where
  | dir (value : α) (entries : Option (List (ν × Node ν α)))
  | other

section Functions

variable (join : κ → ν → κ) (own : α → List β)

mutual

/-- The paths of the directories below, each before what is below it. -/
def walk (path : κ) : Node ν α → List κ
  | .dir _ (some entries) => walkEntries path entries
  | _ => []

def walkEntries (path : κ) : List (ν × Node ν α) → List κ
  | [] => []
  | (name, .dir value entries) :: rest =>
    join path name :: walk (join path name) (.dir value entries) ++ walkEntries path rest
  | (_, .other) :: rest => walkEntries path rest

end

mutual

/-- What is found in a directory, and then what is found below. -/
def collect : Node ν α → List β
  | .dir value none => own value
  | .dir value (some entries) => own value ++ collectEntries entries
  | .other => []

def collectEntries : List (ν × Node ν α) → List β
  | [] => []
  | (_, .dir value entries) :: rest => collect (.dir value entries) ++ collectEntries rest
  | (_, .other) :: rest => collectEntries rest

end

end Functions

mutual

/-- The directories below, by the names that lead to them. -/
def inside : Node ν α → List (List ν × α)
  | .dir _ (some entries) => insideEntries entries
  | _ => []

def insideEntries : List (ν × Node ν α) → List (List ν × α)
  | [] => []
  | (name, .dir value entries) :: rest =>
    ([name], value) :: (inside (.dir value entries)).map (fun e => (name :: e.1, e.2)) ++
      insideEntries rest
  | (_, .other) :: rest => insideEntries rest

end

/-- Some names lead from one directory to another. -/
inductive Leads : Node ν α → List ν → Node ν α → Prop where
  | here {value : α} {entries : Option (List (ν × Node ν α))} : Leads (.dir value entries) [] (.dir value entries)
  | down {value : α} {entries : List (ν × Node ν α)} {name : ν} {names : List ν} {next last : Node ν α} :
      (name, next) ∈ entries → Leads next names last →
        Leads (.dir value (some entries)) (name :: names) last

/-- No listing has a name twice. -/
def Distinct (t : Node ν α) : Prop :=
  ∀ names value entries, Leads t names (.dir value (some entries)) → (entries.map Prod.fst).Nodup

section Equations

variable {join : κ → ν → κ} {own : α → List β}

mutual

theorem walk_eq (path : κ) : ∀ t : Node ν α,
    walk join path t = (inside t).map fun e => e.1.foldl join path
  | .dir _ (some entries) => walkEntries_eq path entries
  | .dir _ none => rfl
  | .other => rfl

theorem walkEntries_eq (path : κ) : ∀ entries : List (ν × Node ν α),
    walkEntries join path entries = (insideEntries entries).map fun e => e.1.foldl join path
  | [] => rfl
  | (name, .dir value entries) :: rest => by
    rw [walkEntries, insideEntries, walk_eq (join path name) (.dir value entries),
      walkEntries_eq path rest,
      List.map_append, List.map_cons, List.map_map]
    rfl
  | (_, .other) :: rest => walkEntries_eq path rest

end

mutual

theorem collect_dir (value : α) : ∀ entries : Option (List (ν × Node ν α)),
    collect own (.dir value entries) = own value ++ (inside (.dir value entries)).flatMap fun e => own e.2
  | none => (List.append_nil _).symm
  | some entries => by
    rw [collect, collectEntries_eq entries]
    rfl

theorem collectEntries_eq : ∀ entries : List (ν × Node ν α),
    collectEntries own entries = (insideEntries entries).flatMap fun e => own e.2
  | [] => rfl
  | (name, .dir value entries) :: rest => by
    rw [collectEntries, insideEntries, collect_dir value entries, collectEntries_eq rest,
      List.flatMap_append,
      List.flatMap_cons, List.flatMap_map]
  | (_, .other) :: rest => collectEntries_eq rest

end

end Equations

theorem leads_cons {value : α} {entries : Option (List (ν × Node ν α))} {name : ν} {names : List ν}
    {last : Node ν α} (leads : Leads (.dir value entries) (name :: names) last) :
    ∃ listed next, entries = some listed ∧ (name, next) ∈ listed ∧ Leads next names last := by
  cases leads with
  | down among further => exact ⟨_, _, rfl, among, further⟩

theorem leads_nil {t last : Node ν α} (leads : Leads t [] last) : t = last := by
  cases leads
  rfl

mutual

theorem mem_inside {names : List ν} {v : α} : ∀ t : Node ν α,
    (names, v) ∈ inside t ↔ names ≠ [] ∧ ∃ below, Leads t names (.dir v below)
  | .dir value (some entries) => by
    rw [inside, mem_insideEntries entries]
    constructor
    · rintro ⟨name, rest, next, below, rfl, among, leads⟩
      exact ⟨List.cons_ne_nil _ _, below, .down among leads⟩
    · rintro ⟨some, below, leads⟩
      obtain ⟨name, rest, rfl⟩ := List.exists_cons_of_ne_nil some
      obtain ⟨_, next, same, among, further⟩ := leads_cons leads
      cases same
      exact ⟨name, rest, next, below, rfl, among, further⟩
  | .dir value none => by
    refine iff_of_false List.not_mem_nil ?_
    rintro ⟨some, below, leads⟩
    obtain ⟨name, rest, rfl⟩ := List.exists_cons_of_ne_nil some
    obtain ⟨_, _, same, _⟩ := leads_cons leads
    cases same
  | .other => iff_of_false List.not_mem_nil fun ⟨_, _, leads⟩ => nomatch leads

theorem mem_insideEntries {names : List ν} {v : α} : ∀ entries : List (ν × Node ν α),
    (names, v) ∈ insideEntries entries ↔
      ∃ name rest next below, names = name :: rest ∧ (name, next) ∈ entries ∧
        Leads next rest (.dir v below)
  | [] => iff_of_false List.not_mem_nil fun ⟨_, _, _, _, _, among, _⟩ => List.not_mem_nil among
  | (first, .dir value entries) :: more => by
    rw [insideEntries, List.mem_append, List.mem_cons, List.mem_map, mem_insideEntries more]
    constructor
    · rintro ((same | ⟨⟨rest, w⟩, among, same⟩) | ⟨name, rest, next, below, split, among, leads⟩)
      · cases same
        exact ⟨first, [], _, entries, rfl, List.mem_cons_self, .here⟩
      · cases same
        obtain ⟨_, below, leads⟩ := (mem_inside (.dir value entries)).mp among
        exact ⟨first, rest, _, below, rfl, List.mem_cons_self, leads⟩
      · exact ⟨name, rest, next, below, split, List.mem_cons_of_mem _ among, leads⟩
    · rintro ⟨name, rest, next, below, rfl, among, leads⟩
      rcases List.mem_cons.mp among with same | later
      · cases same
        by_cases none : rest = []
        · subst none
          cases leads_nil leads
          exact .inl (.inl rfl)
        · exact .inl (.inr ⟨(rest, v), (mem_inside (.dir value entries)).mpr ⟨none, below, leads⟩, rfl⟩)
      · exact .inr ⟨name, rest, next, below, rfl, later, leads⟩
  | (first, .other) :: more => by
    rw [insideEntries, mem_insideEntries more]
    refine exists_congr fun name => exists_congr fun rest => exists_congr fun next =>
      exists_congr fun below =>
      and_congr_right fun _ => and_congr_left fun leads => ?_
    refine ⟨List.mem_cons_of_mem _, fun among => (List.mem_cons.mp among).resolve_left ?_⟩
    rintro same
    cases same
    cases leads

end

theorem distinct_dir {value : α} {entries : List (ν × Node ν α)} (listing : (entries.map Prod.fst).Nodup)
    (next : ∀ e ∈ entries, Distinct e.2) : Distinct (.dir value (some entries)) := by
  intro names w below leads
  cases leads with
  | here => exact listing
  | down among further => exact next _ among _ _ _ further

theorem distinct_none {value : α} : Distinct (.dir value none : Node ν α) := nofun

theorem distinct_other : Distinct (.other : Node ν α) := nofun

theorem Distinct.listing {value : α} {entries : List (ν × Node ν α)}
    (distinct : Distinct (.dir value (some entries))) : (entries.map Prod.fst).Nodup :=
  distinct [] value entries .here

theorem Distinct.next {value : α} {entries : List (ν × Node ν α)} {name : ν} {next : Node ν α}
    (distinct : Distinct (.dir value (some entries))) (among : (name, next) ∈ entries) : Distinct next :=
  fun names value entries leads => distinct (name :: names) value entries (.down among leads)

theorem inside_ne_nil {t : Node ν α} {names : List ν} (listed : names ∈ (inside t).map Prod.fst) :
    names ≠ [] := by
  obtain ⟨e, among, rfl⟩ := List.mem_map.mp listed
  exact ((mem_inside t).mp among).1

theorem insideEntries_head {entries : List (ν × Node ν α)} {names : List ν}
    (listed : names ∈ (insideEntries entries).map Prod.fst) :
    ∃ name rest, names = name :: rest ∧ name ∈ entries.map Prod.fst := by
  obtain ⟨e, among, rfl⟩ := List.mem_map.mp listed
  obtain ⟨name, rest, next, _, split, there, _⟩ := (mem_insideEntries entries).mp among
  exact ⟨name, rest, split, List.mem_map.mpr ⟨(name, next), there, rfl⟩⟩

theorem insideEntries_dir (name : ν) (value : α) (below : Option (List (ν × Node ν α)))
    (rest : List (ν × Node ν α)) :
    (insideEntries ((name, .dir value below) :: rest)).map Prod.fst =
      ([name] :: ((inside (.dir value below)).map Prod.fst).map (List.cons name)) ++
        (insideEntries rest).map Prod.fst := by
  rw [insideEntries, List.map_append, List.map_cons, List.map_map, List.map_map]
  rfl

mutual

theorem nodup_inside : ∀ t : Node ν α, Distinct t → ((inside t).map Prod.fst).Nodup
  | .dir _ (some entries), distinct =>
    nodup_insideEntries entries distinct.listing fun _ _ among => distinct.next among
  | .dir _ none, _ => List.nodup_nil
  | .other, _ => List.nodup_nil

theorem nodup_insideEntries : ∀ entries : List (ν × Node ν α), (entries.map Prod.fst).Nodup →
    (∀ name next, (name, next) ∈ entries → Distinct next) → ((insideEntries entries).map Prod.fst).Nodup
  | [], _, _ => List.nodup_nil
  | (name, .dir value below) :: rest, distinct, inner => by
    obtain ⟨fresh, others⟩ := List.nodup_cons.mp distinct
    have under := nodup_inside (.dir value below) (inner name _ List.mem_cons_self)
    have after := nodup_insideEntries rest others fun name next among =>
      inner name next (List.mem_cons_of_mem _ among)
    rw [insideEntries_dir]
    refine List.nodup_append.mpr ⟨List.nodup_cons.mpr ⟨fun again => ?_, ?_⟩, after, ?_⟩
    · obtain ⟨names, among, same⟩ := List.mem_map.mp again
      exact inside_ne_nil among (List.cons.inj same).2
    · exact under.map (List.cons_injective)
    · rintro names first _ second rfl
      obtain ⟨other, _, rfl, listed⟩ := insideEntries_head second
      have same : other = name := by
        rcases List.mem_cons.mp first with same | among
        · exact (List.cons.inj same).1
        · obtain ⟨_, _, same⟩ := List.mem_map.mp among
          exact (List.cons.inj same).1.symm
      exact fresh (same ▸ listed)
  | (_, .other) :: rest, distinct, inner =>
    nodup_insideEntries rest (List.nodup_cons.mp distinct).2 fun name next among =>
      inner name next (List.mem_cons_of_mem _ among)

end

mutual

/-- Whatever is above a directory comes before it. -/
theorem above_first {a b : List ν} (some : a ≠ []) (more : b ≠ []) : ∀ t : Node ν α,
    a ++ b ∈ (inside t).map Prod.fst → [a, a ++ b] <+ (inside t).map Prod.fst
  | .dir _ (.some entries), listed => above_firstEntries some more entries listed
  | .dir _ none, listed => absurd listed List.not_mem_nil
  | .other, listed => absurd listed List.not_mem_nil

theorem above_firstEntries {a b : List ν} (some : a ≠ []) (more : b ≠ []) :
    ∀ entries : List (ν × Node ν α),
    a ++ b ∈ (insideEntries entries).map Prod.fst → [a, a ++ b] <+ (insideEntries entries).map Prod.fst
  | [], listed => absurd listed List.not_mem_nil
  | (name, .dir value below) :: rest, listed => by
    rw [insideEntries_dir] at listed ⊢
    rcases List.mem_append.mp listed with first | later
    · refine List.Sublist.trans ?_ (List.sublist_append_left _ _)
      obtain ⟨c, a, rfl⟩ := List.exists_cons_of_ne_nil some
      obtain ⟨names, among, same⟩ : ∃ names ∈ (inside (.dir value below)).map Prod.fst,
        name :: names = c :: a ++ b := by
        refine List.mem_map.mp ((List.mem_cons.mp first).resolve_left fun same => more ?_)
        exact (List.append_eq_nil_iff.mp (List.cons.inj same).2).2
      cases same
      by_cases none : a = []
      · subst none
        exact .cons_cons _ (List.singleton_sublist.mpr (List.mem_map.mpr ⟨b, among, rfl⟩))
      · exact ((above_first none more (.dir value below) among).map (List.cons name)).cons _
    · exact (above_firstEntries some more rest later).trans (List.sublist_append_right _ _)
  | (_, .other) :: rest, listed => above_firstEntries some more rest listed

end

end Stallwatch.Visit
