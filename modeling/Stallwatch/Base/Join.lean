import Stallwatch.Base.Path

/-! Paths as they are written: how a text is read into components, and how one path is
joined to another. -/
namespace Stallwatch.PathBuf

def piece (name : OsString) : Option Component :=
  if name = [] ∨ name = [0x2E] then none
  else if name = [0x2E, 0x2E] then some .parentDir else some (.normal name)

/-- The names between the slashes; what is empty and the current directory are passed over. -/
def pieces (t : OsString) : List Component := (t.splitOn 0x2F).filterMap piece

/-- The root, or the current directory in front of a relative path. -/
def lead (t : OsString) : List Component :=
  if t.head? = some 0x2F then [.rootDir]
  else if t.takeWhile (· ≠ 0x2F) = [0x2E] then [.curDir] else []

theorem rootDir_not_mem_pieces (t : OsString) : .rootDir ∉ pieces t := by
  intro member
  obtain ⟨name, _, read⟩ := List.mem_filterMap.mp member
  unfold piece at read
  split at read
  · cases read
  split at read <;> cases read

/-- `Path::new`. -/
def ofText (t : OsString) : PathBuf where
  components := lead t ++ pieces t
  rootFirst := by
    have pieces := rootDir_not_mem_pieces t
    unfold lead
    split
    · exact pieces
    split
    · exact pieces
    · exact fun member => pieces (List.mem_of_mem_tail member)

/-- `dir.join(t)`; an absolute path replaces the other. -/
def join (dir t : OsString) : OsString :=
  if t.head? = some 0x2F then t
  else if dir = [] ∨ dir.getLast? = some 0x2F then dir ++ t
  else dir ++ 0x2F :: t

theorem pieces_slash (a b : OsString) : pieces (a ++ 0x2F :: b) = pieces a ++ pieces b := by
  rw [pieces, List.splitOn_append_cons_self, List.filterMap_append]
  rfl

theorem pieces_nil : pieces [] = [] := by decide

/- A text without a slash is one name. -/
theorem pieces_name {name : OsString} (whole : 0x2F ∉ name) : pieces name = (piece name).toList := by
  rw [pieces, List.splitOn_eq_singleton whole, List.filterMap_cons]
  cases piece name <;> rfl

theorem components_ofText (t : OsString) : (ofText t).components = lead t ++ pieces t := rfl

theorem takeWhile_slash (a b : OsString) :
    (a ++ 0x2F :: b).takeWhile (· ≠ 0x2F) = a.takeWhile (· ≠ 0x2F) := by
  induction a with
  | nil => rfl
  | cons c a ih =>
    rw [List.cons_append, List.takeWhile_cons, List.takeWhile_cons, ih]

/- What stands behind the first slash does not matter. -/
theorem lead_slash (a b : OsString) : lead (a ++ 0x2F :: b) = lead (a ++ [0x2F]) := by
  rw [lead, lead, takeWhile_slash, takeWhile_slash]
  cases a <;> rfl

theorem lead_append {a : OsString} (some : a ≠ []) (b : OsString) : lead (a ++ 0x2F :: b) = lead a := by
  rw [lead, lead, takeWhile_slash]
  cases a with
  | nil => exact absurd rfl some
  | cons c cs => rfl

/- The components of a relative path follow those of the directory. -/
theorem components_join {dir t : OsString} (relative : t.head? ≠ some 0x2F) (named : dir = [] → lead t = []) :
    (ofText (join dir t)).components = (ofText dir).components ++ pieces t := by
  rw [join, if_neg relative]
  split
  · rename_i ends
    rcases ends with none | slash
    · rw [none, List.nil_append, components_ofText, components_ofText, named none, pieces_nil]
      rfl
    · obtain ⟨front, rfl⟩ := List.getLast?_eq_some_iff.mp slash
      have whole : front ++ [0x2F] ++ t = front ++ 0x2F :: t := by simp
      rw [whole, components_ofText, components_ofText, pieces_slash, pieces_slash, pieces_nil,
        lead_slash, List.append_nil, List.append_assoc]
  · rename_i bare
    rw [not_or] at bare
    rw [components_ofText, components_ofText, pieces_slash, lead_append bare.1, List.append_assoc]

end Stallwatch.PathBuf
