import Stallwatch.Appname

/-! Which files a lookup of a name tries to read. -/
namespace Stallwatch.Appname

open Text Utf8 PathBuf

/-- A file with the suffix of an entry, right inside one of the directories. -/
def IsEntry (home : Option OsString) (file : OsString) : Prop :=
  (∃ dir ∈ searchDirs home, (ofText file).parent = some (ofText dir)) ∧
    ∃ stem, (ofText file).fileName = some (stem ++ text ".desktop")

/-- The unit has no identifier, or it is one name, or the whole path of an entry. -/
def Contained (home : Option OsString) (unit : List Char) : Prop :=
  base unit = [] ∨ ((entry unit).head? ≠ some 0x2F ∧ (pieces (entry unit)).length = 1) ∨
    (entry unit).head? = some 0x2F ∧
      ∃ dir ∈ searchDirs home, (ofText (entry unit)).parent = some (ofText dir)

section Entry

theorem piece_entry (stem : OsString) :
    piece (stem ++ text ".desktop") = some (.normal (stem ++ text ".desktop")) := by
  have long : 8 ≤ (stem ++ text ".desktop").length := by
    rw [List.length_append]
    exact Nat.le_add_left _ _
  rw [piece, if_neg, if_neg]
  · exact fun short => absurd (short ▸ long) (by decide)
  · rintro (short | short)
    · exact absurd (short ▸ long) (by decide)
    · exact absurd (short ▸ long) (by decide)

/- The last name of an entry has its suffix. -/
theorem pieces_entry (b : OsString) :
    ∃ front stem, pieces (b ++ text ".desktop") = front ++ [.normal (stem ++ text ".desktop")] := by
  induction b using split_induct (0x2F : UInt8) with
  | whole b clean =>
    have suffix : 0x2F ∉ text ".desktop" := by decide
    exact ⟨[], b, by rw [pieces_name (by simp [clean, suffix]), piece_entry]; rfl⟩
  | cut as bs _ _ ih =>
    obtain ⟨front, stem, last⟩ := ih
    exact ⟨pieces as ++ front, stem, by
      rw [List.append_assoc, List.cons_append, pieces_slash, last, List.append_assoc]⟩

/- One name: the entry is that of its directory. -/
theorem parent_join {dir b : OsString} (named : dir ≠ []) (relative : (b ++ text ".desktop").head? ≠ some 0x2F) :
    ∃ front stem, pieces (b ++ text ".desktop") = front ++ [.normal (stem ++ text ".desktop")] ∧
      (ofText (join dir (b ++ text ".desktop"))).components =
        (ofText dir).components ++ front ++ [.normal (stem ++ text ".desktop")] := by
  obtain ⟨front, stem, last⟩ := pieces_entry b
  refine ⟨front, stem, last, ?_⟩
  rw [components_join relative fun none => absurd none named, last, List.append_assoc]

end Entry

section Lookup

variable {read : OsString → Option (List Char)} {t : OsString} {dirs : List OsString}

theorem mem_lookup {file : OsString} (tried : file ∈ (lookup read t dirs).1) :
    ∃ dir ∈ dirs, file = join dir t := by
  induction dirs with
  | nil => cases tried
  | cons dir dirs ih =>
    rw [lookup] at tried
    dsimp only at tried
    split at tried
    · exact ⟨dir, List.mem_cons_self, List.mem_singleton.mp tried⟩
    · rcases List.mem_cons.mp tried with first | later
      · exact ⟨dir, List.mem_cons_self, first⟩
      · obtain ⟨d, among, here⟩ := ih later
        exact ⟨d, List.mem_cons_of_mem _ among, here⟩

/- The first directory is always looked into. -/
theorem lookup_first (dir : OsString) : join dir t ∈ (lookup read t (dir :: dirs)).1 := by
  rw [lookup]
  dsimp only
  split
  · exact List.mem_singleton_self _
  · exact List.mem_cons_self

end Lookup

section Dirs

variable {home : Option OsString}

theorem join_ne_nil (dir : OsString) {t : OsString} (some : t ≠ []) : join dir t ≠ [] := by
  unfold join
  split
  · exact some
  split
  · exact List.append_ne_nil_of_right_ne_nil _ some
  · exact List.append_ne_nil_of_right_ne_nil _ (List.cons_ne_nil _ _)

theorem dir_ne_nil {dir : OsString} (listed : dir ∈ searchDirs home) : dir ≠ [] := by
  cases home with
  | none =>
    revert dir
    decide
  | some home =>
    simp only [searchDirs, List.cons_append, List.nil_append, List.mem_cons, List.not_mem_nil, or_false] at listed
    rcases listed with rfl | rfl | rfl | rfl | rfl
    · exact join_ne_nil _ (by decide)
    · exact join_ne_nil _ (by decide)
    · decide
    · decide
    · decide

theorem components_home (home : OsString) {t : OsString} (relative : t.head? ≠ some 0x2F) (bare : lead t = []) :
    (ofText (join home t)).components = (ofText home).components ++ pieces t :=
  components_join relative fun _ => bare

/- A directory of the user has a name that those of the system do not have. -/
theorem user_apart (home : OsString) {dir : OsString}
    (system : .normal (text ".local") ∉ (ofText dir).components) :
    ¬(ofText (join home (text ".local/share/applications"))).components <+: (ofText dir).components := by
  rw [components_home home (by decide) (by decide)]
  rintro front
  refine system (front.subset (List.mem_append_right _ ?_))
  decide

/-- No directory lies below the one that is looked into first. -/
theorem first_apart (home : Option OsString) :
    ∃ first rest, searchDirs home = first :: rest ∧ ∀ dir ∈ searchDirs home,
      (ofText first).components <+: (ofText dir).components →
        (ofText dir).components = (ofText first).components := by
  cases home with
  | none => exact ⟨_, _, rfl, by decide⟩
  | some home =>
    refine ⟨_, _, rfl, fun dir listed front => ?_⟩
    simp only [searchDirs, List.cons_append, List.nil_append, List.mem_cons, List.not_mem_nil, or_false] at listed
    rcases listed with rfl | rfl | rfl | rfl | rfl
    · rfl
    · rw [components_home home (by decide) (by decide), components_home home (by decide) (by decide),
        List.prefix_append_right_inj] at front
      exact absurd front (by decide)
    · exact absurd front (user_apart home (by decide))
    · exact absurd front (user_apart home (by decide))
    · exact absurd front (user_apart home (by decide))

end Dirs

section Contained

variable (tables : Tables) (home : Option OsString) (read : OsString → Option (List Char)) (unit : List Char)

/- One name in one of the directories, whatever is read. -/
theorem isEntry_join {dir : OsString} (listed : dir ∈ searchDirs home)
    (relative : (entry unit).head? ≠ some 0x2F) (one : (pieces (entry unit)).length = 1) :
    IsEntry home (join dir (entry unit)) := by
  obtain ⟨front, stem, last, whole⟩ := parent_join (dir_ne_nil listed) relative
  have none : front = [] := by
    rw [entry, last, List.length_append, List.length_singleton] at one
    exact List.length_eq_zero_iff.mp (by omega)
  rw [none, List.append_nil] at whole
  refine ⟨⟨dir, listed, parent_eq_some.mpr ⟨_, Component.noConfusion, whole⟩⟩, stem, ?_⟩
  rw [fileName, entry, whole, List.getLast?_concat]

/- An absolute path is the only file there is to try. -/
theorem isEntry_whole (absolute : (entry unit).head? = some 0x2F) (dir : OsString) :
    IsEntry home (join dir (entry unit)) ↔
      ∃ dir ∈ searchDirs home, (ofText (entry unit)).parent = some (ofText dir) := by
  obtain ⟨front, stem, last⟩ := pieces_entry (bytes (base unit))
  have named : (ofText (entry unit)).fileName = some (stem ++ text ".desktop") := by
    rw [fileName, components_ofText, entry, last, ← List.append_assoc, List.getLast?_concat]
  rw [join, if_pos absolute]
  exact and_iff_left ⟨stem, named⟩

variable {home unit}

/- More than one name leads below the directory that is looked into first. -/
theorem one_name {first : OsString} {rest : List OsString} (dirs : searchDirs home = first :: rest)
    (apart : ∀ dir ∈ searchDirs home, (ofText first).components <+: (ofText dir).components →
      (ofText dir).components = (ofText first).components)
    (relative : (entry unit).head? ≠ some 0x2F) (inside : IsEntry home (join first (entry unit))) :
    (pieces (entry unit)).length = 1 := by
  obtain ⟨⟨dir, listed, up⟩, _⟩ := inside
  have here : first ∈ searchDirs home := dirs ▸ List.mem_cons_self
  obtain ⟨front, stem, last, whole⟩ := parent_join (dir_ne_nil here) relative
  obtain ⟨c, _, split⟩ := parent_eq_some.mp up
  rw [entry, whole] at split
  have same := (List.append_inj' split rfl).1
  have below := apart dir listed ⟨front, same⟩
  rw [below, List.append_right_eq_self] at same
  rw [entry, last, same]
  rfl

variable (home unit)

/-- Every file that is tried is an entry of one of the directories exactly when the unit has
no identifier, or it is one name, or the path of an entry. -/
theorem tried_iff :
    (∀ file ∈ (humanName tables home read unit).1, IsEntry home file) ↔ Contained home unit := by
  by_cases none : base unit = []
  · exact iff_of_true (by simp [humanName, none]) (.inl none)
  obtain ⟨first, rest, dirs, apart⟩ := first_apart home
  have tried : (humanName tables home read unit).1 = (lookup read (entry unit) (searchDirs home)).1 := by
    rw [humanName, if_neg none]
  rw [tried, Contained, or_iff_right none]
  constructor
  · intro all
    have here := all _ (dirs ▸ lookup_first first)
    by_cases absolute : (entry unit).head? = some 0x2F
    · exact .inr ⟨absolute, (isEntry_whole home unit absolute first).mp here⟩
    · exact .inl ⟨absolute, one_name dirs apart absolute here⟩
  · rintro contained file among
    obtain ⟨dir, listed, rfl⟩ := mem_lookup among
    rcases contained with ⟨relative, one⟩ | ⟨absolute, inside⟩
    · exact isEntry_join home unit listed relative one
    · exact (isEntry_whole home unit absolute dir).mpr inside

/-- For the unit of a cgroup, which its directory name is decoded to. -/
theorem lookup_contained_iff (cgroup : PathBuf) :
    (∀ unit, Cgroup.friendlyName cgroup = .ok unit →
      ∀ file ∈ (humanName tables home read unit.toList).1, IsEntry home file) ↔
    ∀ unit, Cgroup.friendlyName cgroup = .ok unit → Contained home unit.toList :=
  forall_congr' fun _ => imp_congr_right fun _ => tried_iff tables home read _

end Contained

/-- A service with a plain name. -/
theorem lookup_contained_ghostty :
    Cgroup.friendlyName (.absolute ["sys", "fs", "cgroup", "app-ghostty.service"]) = .ok "ghostty" ∧
      ∀ file ∈ (humanName ⟨Char.isAlpha, fun c => [c.toUpper]⟩ (some (text "/home/alice")) (fun _ => none)
        "ghostty".toList).1, IsEntry (some (text "/home/alice")) file := by
  have named : Cgroup.friendlyName (.absolute ["sys", "fs", "cgroup", "app-ghostty.service"]) = .ok "ghostty" := by
    decide +kernel
  refine ⟨named, (lookup_contained_iff _ _ _ _).mpr (fun unit here => ?_) _ named⟩
  cases named.symm.trans here
  exact .inr (.inl ⟨by decide, by decide⟩)

/-- An escaped slash in a directory name leads to any place. -/
theorem not_lookup_contained :
    Cgroup.friendlyName (.absolute ["sys", "fs", "cgroup", "\\x2fhome\\x2fmallory\\x2fx.service"]) =
      .ok "/home/mallory/x" ∧
    (humanName ⟨Char.isAlpha, fun c => [c.toUpper]⟩ (some (text "/home/alice")) (fun _ => none)
      "/home/mallory/x".toList).1 = List.replicate 5 (text "/home/mallory/x.desktop") ∧
    ¬IsEntry (some (text "/home/alice")) (text "/home/mallory/x.desktop") := by
  have outside : ∀ dir ∈ searchDirs (some (text "/home/alice")),
      (ofText (text "/home/mallory/x.desktop")).parent ≠ some (ofText dir) := by decide +kernel
  refine ⟨by decide +kernel, by decide +kernel, ?_⟩
  rintro ⟨⟨dir, listed, up⟩, _⟩
  exact outside dir listed up

end Stallwatch.Appname
