import Stallwatch.Base.Dedup
import Stallwatch.Base.Visit
import Stallwatch.Cgroup

/-! The cgroup tree as the directories below its root, and the walks that list its cgroups and
its processes. -/
namespace Stallwatch

instance pidOrder : LinearOrder UInt32 where
  le_refl := UInt32.le_refl
  le_trans _ _ _ := UInt32.le_trans
  le_antisymm _ _ := UInt32.le_antisymm
  le_total := UInt32.le_total
  lt_iff_le_not_ge a b := by
    simp only [UInt32.lt_iff_toNat_lt, UInt32.le_iff_toNat_le]
    omega
  toDecidableLE := inferInstance

/-- A path with one more name. -/
def PathBuf.child (dir : PathBuf) (name : OsString) : PathBuf where
  components := dir.components ++ [.normal name]
  rootFirst := by
    cases shape : dir.components with
    | nil => simp
    | cons c cs =>
      have rootFirst := dir.rootFirst
      rw [shape] at rootFirst
      simpa using rootFirst

namespace Cgroup

open Visit Text
open scoped List

/-- What can be read in a directory: `cgroup.procs` and the pressure files. -/
structure Files where
  procs : Option (List Char)
  read : Resource → Option String

abbrev Tree := Node OsString Files

def walk (root : PathBuf) (t : Tree) : List PathBuf := Visit.walk PathBuf.child root t

/-- Every cgroup, the root included. -/
def all (t : Tree) : List PathBuf := root :: walk root t

/-- The lines of `cgroup.procs` that are numbers. -/
def directPids (files : Files) : List UInt32 :=
  files.procs.elim [] fun body => (lines body).filterMap fun l =>
    (parseUnsigned 32 (trim l)).map UInt32.ofNat

def collectPids (t : Tree) : List UInt32 := collect directPids t

/-- Sorted, and then without repetitions. -/
def pidsIn (t : Tree) : List UInt32 := Dedup.sortedDedup (collectPids t)

/-- The path some names lead to. -/
def descend (names : List OsString) : PathBuf := names.foldl PathBuf.child root

theorem foldl_child (names : List OsString) (p : PathBuf) :
    (names.foldl PathBuf.child p).components = p.components ++ names.map .normal := by
  induction names generalizing p with
  | nil => simp
  | cons name names ih =>
    rw [List.foldl_cons, ih, PathBuf.child, List.append_assoc]
    rfl

theorem descend_injective : Function.Injective descend := by
  intro a b same
  have components := congrArg PathBuf.components same
  rw [descend, descend, foldl_child, foldl_child, List.append_cancel_left_eq] at components
  exact List.map_injective_iff.mpr (fun _ _ => Component.normal.inj) components

theorem descend_parent (names : List OsString) (name : OsString) :
    (descend (names ++ [name])).parent = some (descend names) := by
  rw [PathBuf.parent_eq_some]
  exact ⟨.normal name, nofun, by rw [descend, descend, List.foldl_append]; rfl⟩

theorem descend_absolute (names : List OsString) : (descend names).isAbsolute = true := by
  rw [PathBuf.isAbsolute, descend, foldl_child]
  rfl

variable {files : Files} {entries : Option (List (OsString × Tree))}

theorem all_eq (t : Tree) : all t = ([] :: (inside t).map Prod.fst).map descend := by
  rw [all, walk, walk_eq, List.map_cons, List.map_map]
  rfl

theorem mem_inside_names {t : Tree} {names : List OsString} :
    names ∈ (inside t).map Prod.fst ↔ names ≠ [] ∧ ∃ files below, Leads t names (.dir files below) := by
  constructor
  · intro listed
    obtain ⟨e, among, rfl⟩ := List.mem_map.mp listed
    obtain ⟨some, below, leads⟩ := (mem_inside t).mp among
    exact ⟨some, e.2, below, leads⟩
  · rintro ⟨some, files, below, leads⟩
    exact List.mem_map.mpr ⟨(names, files), (mem_inside t).mpr ⟨some, below, leads⟩, rfl⟩

theorem mem_names {names : List OsString} :
    names ∈ [] :: (inside (.dir files entries)).map Prod.fst ↔
      ∃ found below, Leads (.dir files entries) names (.dir found below) := by
  rw [List.mem_cons, mem_inside_names]
  constructor
  · rintro (rfl | ⟨_, leads⟩)
    · exact ⟨files, entries, .here⟩
    · exact leads
  · intro leads
    by_cases none : names = []
    · exact .inl none
    · exact .inr ⟨none, leads⟩

theorem above_listed {t : Tree} {names : List OsString} {name : OsString}
    (listed : names ++ [name] ∈ (inside t).map Prod.fst) :
    [names, names ++ [name]] <+ [] :: (inside t).map Prod.fst := by
  by_cases none : names = []
  · subst none
    exact .cons_cons _ (List.singleton_sublist.mpr listed)
  · exact (above_first none (List.cons_ne_nil _ _) t listed).cons _

/-- Every directory that can be reached without following a link is listed once, and before it
the directory it is in. -/
theorem all_listed (distinct : Distinct (.dir files entries)) :
    (all (.dir files entries)).Nodup ∧
      (∀ p, p ∈ all (.dir files entries) ↔ ∃ names found below,
        Leads (.dir files entries) names (.dir found below) ∧ p = descend names) ∧
      (∀ p ∈ all (.dir files entries), p.isAbsolute = true) ∧
      ∀ p ∈ all (.dir files entries), p ≠ root → ∃ q, p.parent = some q ∧
        [q, p] <+ all (.dir files entries) := by
  have listed : ∀ p, p ∈ all (.dir files entries) ↔ ∃ names found below,
      Leads (.dir files entries) names (.dir found below) ∧ p = descend names := by
    intro p
    rw [all_eq, List.mem_map]
    constructor
    · rintro ⟨names, among, rfl⟩
      obtain ⟨found, below, leads⟩ := mem_names.mp among
      exact ⟨names, found, below, leads, rfl⟩
    · rintro ⟨names, found, below, leads, rfl⟩
      exact ⟨names, mem_names.mpr ⟨found, below, leads⟩, rfl⟩
  refine ⟨?_, listed, fun p among => ?_, fun p among below => ?_⟩
  · rw [all_eq]
    refine List.Nodup.map descend_injective
      (List.nodup_cons.mpr ⟨fun again => ?_, nodup_inside _ distinct⟩)
    exact inside_ne_nil again rfl
  · obtain ⟨names, _, _, _, rfl⟩ := (listed p).mp among
    exact descend_absolute names
  · obtain ⟨names, found, under, leads, rfl⟩ := (listed p).mp among
    obtain rfl | ⟨init, name, rfl⟩ := names.eq_nil_or_concat'
    · exact absurd rfl below
    · have inner : init ++ [name] ∈ (inside (.dir files entries)).map Prod.fst :=
        mem_inside_names.mpr ⟨by simp, found, under, leads⟩
      refine ⟨descend init, descend_parent init name, ?_⟩
      rw [all_eq]
      exact (above_listed inner).map descend

theorem mem_pidsIn {pid : UInt32} : pid ∈ pidsIn (.dir files entries) ↔
    ∃ names found below, Leads (.dir files entries) names (.dir found below) ∧
      pid ∈ directPids found := by
  rw [pidsIn, Dedup.mem_sortedDedup, collectPids, collect_dir, List.mem_append, List.mem_flatMap]
  constructor
  · rintro (own | ⟨⟨names, found⟩, among, member⟩)
    · exact ⟨[], files, entries, .here, own⟩
    · obtain ⟨_, below, leads⟩ := (mem_inside _).mp among
      exact ⟨names, found, below, leads, member⟩
  · rintro ⟨names, found, below, leads, member⟩
    by_cases none : names = []
    · subst none
      cases leads_nil leads
      exact .inl member
    · exact .inr ⟨(names, found), (mem_inside _).mpr ⟨none, below, leads⟩, member⟩

/-- Nothing to read. -/
def silent : Files := ⟨none, fun _ => none⟩

/-- A slice with a service in it, beside a link, a file and a directory that cannot be listed. -/
def branching : Tree :=
  .dir silent (some [
    ([97], .dir ⟨some ['7', '\n'], fun _ => none⟩ (some [([98], .dir silent (some []))])),
    ([99], .other), ([100], .dir silent none)])

theorem distinct_branching : Distinct branching := by
  refine distinct_dir (by decide) ?_
  simp only [List.forall_mem_cons, List.not_mem_nil, false_imp_iff, implies_true, and_true]
  refine ⟨distinct_dir (by decide) ?_, distinct_other, distinct_none⟩
  simp only [List.forall_mem_cons, List.not_mem_nil, false_imp_iff, implies_true, and_true]
  exact distinct_dir (by decide) (fun _ among => absurd among List.not_mem_nil)

theorem all_listed_branching : (all branching).Nodup ∧ (∀ p, p ∈ all branching ↔ ∃ names found below,
      Leads branching names (.dir found below) ∧ p = descend names) ∧
    (∀ p ∈ all branching, p.isAbsolute = true) ∧
    ∀ p ∈ all branching, p ≠ root → ∃ q, p.parent = some q ∧ [q, p] <+ all branching :=
  all_listed distinct_branching

end Cgroup

end Stallwatch
