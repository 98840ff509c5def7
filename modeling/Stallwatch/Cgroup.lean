import Stallwatch.Base.HashMap
import Stallwatch.Base.Path
import Stallwatch.Psi

/-! The cgroup tree: reading pressure for every cgroup and naming one for a reader. -/
namespace Stallwatch.Cgroup

open Text Utf8

def root : PathBuf := .absolute ["sys", "fs", "cgroup"]

/-- What one walk over the tree finds: the cgroups it lists, and for every pressure
file its body or a failure to read it. -/
structure Sweep where
  cgroups : List PathBuf
  read : PathBuf → Resource → Option String

namespace Sweep

/-- The snapshot of one cgroup. A file that cannot be read leaves its default. -/
def snapshot (s : Sweep) (cg : PathBuf) : Option Snapshot :=
  let (snap, any) := Resource.all.foldl (fun (snap, any) res =>
    match s.read cg res with
    | some body => (snap.set (Psi.parse body) res, true)
    | none => (snap, any)) (Snapshot.default, false)
  if any then some snap else none

/-- The file of `res` could be read for `cg` in this sweep. -/
def Readable (s : Sweep) (cg : PathBuf) (res : Resource) : Prop :=
  cg ∈ s.cgroups ∧ (s.read cg res).isSome = true

instance (s : Sweep) (cg : PathBuf) (res : Resource) : Decidable (s.Readable cg res) :=
  inferInstanceAs (Decidable (_ ∧ _))

/-- The total read from a pressure file, for the line that counts. -/
def total (s : Sweep) (cg : PathBuf) (res : Resource) : Option UInt64 :=
  (s.read cg res).map fun body => (Psi.parse body).totalFor res.primaryKind

theorem Readable.total {s : Sweep} {cg : PathBuf} {res : Resource} (h : s.Readable cg res) :
    ∃ n, s.total cg res = some n := by
  obtain ⟨body, hbody⟩ := Option.isSome_iff_exists.mp h.2
  exact ⟨_, by rw [Sweep.total, hbody]; rfl⟩

end Sweep

def sample (s : Sweep) : HashMap PathBuf Snapshot :=
  HashMap.collect (fun cg => (s.snapshot cg).map fun snap => (cg, snap)) s.cgroups

theorem lookup_sample (s : Sweep) (cg : PathBuf) :
    (sample s).lookup cg = if cg ∈ s.cgroups then s.snapshot cg else none :=
  HashMap.lookup_collect_keys s.snapshot s.cgroups cg

theorem snapshot_eq (s : Sweep) (cg : PathBuf) :
    s.snapshot cg =
      if Resource.all.any fun res => (s.read cg res).isSome then
        some ⟨((s.read cg .cpu).map Psi.parse).getD .default,
          ((s.read cg .memory).map Psi.parse).getD .default,
          ((s.read cg .io).map Psi.parse).getD .default⟩
      else none := by
  rcases hc : s.read cg .cpu with _ | c <;> rcases hm : s.read cg .memory with _ | m <;>
    rcases hi : s.read cg .io with _ | i <;>
    simp [Sweep.snapshot, Resource.all, hc, hm, hi, Snapshot.set, Snapshot.default]

theorem any_readable (s : Sweep) (cg : PathBuf) :
    (Resource.all.any fun res => (s.read cg res).isSome) = true ↔
      ∃ res, (s.read cg res).isSome = true := by
  rw [List.any_eq_true]
  exact ⟨fun ⟨res, _, h⟩ => ⟨res, h⟩, fun ⟨res, h⟩ => ⟨res, res.mem_all, h⟩⟩

/- Present as soon as one file was read; an unread file counts as zero. -/
theorem mem_sample (s : Sweep) (cg : PathBuf) (snap : Snapshot) :
    (sample s).lookup cg = some snap ↔
      (∃ res, s.Readable cg res) ∧
        ∀ res, snap.get res = ((s.read cg res).map Psi.parse).getD .default := by
  have fields : ∀ x : Snapshot, x = ⟨((s.read cg .cpu).map Psi.parse).getD .default,
      ((s.read cg .memory).map Psi.parse).getD .default,
      ((s.read cg .io).map Psi.parse).getD .default⟩ ↔
      ∀ res, x.get res = ((s.read cg res).map Psi.parse).getD .default := by
    rintro ⟨c, m, i⟩
    constructor
    · rintro h res
      cases h
      cases res <;> rfl
    · intro h
      rw [← h .cpu, ← h .memory, ← h .io]
      rfl
  rw [lookup_sample, snapshot_eq]
  by_cases listed : cg ∈ s.cgroups
  · by_cases any : (Resource.all.any fun res => (s.read cg res).isSome) = true
    · have readable : ∃ res, s.Readable cg res :=
        ((any_readable s cg).mp any).imp fun _ h => ⟨listed, h⟩
      simp only [if_pos listed, if_pos any, Option.some.injEq, readable, true_and, ← fields]
      exact eq_comm
    · have unreadable : ¬ ∃ res, s.Readable cg res :=
        fun ⟨res, h⟩ => any ((any_readable s cg).mpr ⟨res, h.2⟩)
      rw [if_pos listed, if_neg any]
      simp [unreadable]
  · have unreadable : ¬ ∃ res, s.Readable cg res := fun ⟨_, h⟩ => listed h.1
    simp [if_neg listed, unreadable]

/-- Decode systemd's escaping from byte `i` on. A byte that starts no escape becomes the
character of the same number. -/
def unescapeFrom (name : List Char) (i : Nat) : Outcome Empty (List Char) :=
  if h : i < (bytes name).length then
    let literal := do
      let rest ← unescapeFrom name (i + 1)
      return Char.ofNat ((bytes name)[i]).toNat :: rest
    if (bytes name)[i] = 0x5C ∧ i + 3 < (bytes name).length ∧ (bytes name)[i + 1]? = some 0x78 then do
      let hex ← slice name (i + 2) (i + 4)
      match parseHex 8 hex with
      | some b => do
        let rest ← unescapeFrom name (i + 4)
        return Char.ofNat b :: rest
      | none => literal
    else literal
  else .ok []
termination_by (bytes name).length - i

def unescapeSystemd (name : List Char) : Outcome Empty (List Char) := unescapeFrom name 0

/-- Everything after the last `c`, or all of it. -/
def afterLast (c : Char) (cs : List Char) : List Char := ((rsplitOnce c cs).map Prod.snd).getD cs

def beforeLast (c : Char) (cs : List Char) : List Char := ((rsplitOnce c cs).map Prod.fst).getD cs

def sliceName (slice : List Char) : List Char :=
  if slice = "app".toList then "all user apps".toList
  else if slice = "system".toList then "all system services".toList
  else if slice = "user".toList then "all user sessions".toList
  else if slice = "background".toList then "background tasks".toList
  else if slice = "session".toList then "desktop session".toList
  else if slice = "machine".toList then "VMs and containers".toList
  else slice ++ " (group)".toList

/-- `name@1000` loses its instance when that is a number. -/
def withoutInstance (stem : List Char) : List Char :=
  match rsplitOnce '@' stem with
  | some (head, tail) => if tail.all Char.isDigit && !head.isEmpty then head else stem
  | none => stem

def unitName (name : List Char) : List Char :=
  match stripSuffix ".slice".toList name with
  | some slice => sliceName slice
  | none =>
    let stem := ((stripSuffix ".service".toList name).or (stripSuffix ".scope".toList name)).getD name
    match stripPrefix "user@".toList stem with
    | some uid => "user session ".toList ++ uid
    | none =>
      let stem := withoutInstance stem
      match stripPrefix "app-flatpak-".toList stem with
      | some rest => afterLast '.' (beforeLast '-' rest) ++ " (flatpak)".toList
      | none =>
        match stripPrefix "app-".toList stem with
        | some rest => beforeLast '-' rest
        | none => if stem = [] then "whole system (root cgroup)".toList else stem

def friendlyName (cgroup : PathBuf) : Outcome Empty String :=
  if cgroup = root then .ok "whole system (root cgroup)"
  else do
    let raw := (cgroup.fileName.bind fromUtf8).getD "<unknown>".toList
    let name ← unescapeSystemd raw
    return String.ofList (unitName name)

example : friendlyName (.absolute ["a", "app-flatpak-org.mozilla.firefox-1234.scope"]) =
    .ok "firefox (flatpak)" := by decide +kernel

end Stallwatch.Cgroup
