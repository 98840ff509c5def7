import Mathlib.Data.List.DropRight
import Stallwatch.Base.Join

/-! Files in a directory, and the extensions of their names. -/
namespace Stallwatch.PathBuf

/-- A name that a file can have. -/
def IsName (name : OsString) : Prop := name ≠ [] ∧ name ≠ [0x2E] ∧ name ≠ [0x2E, 0x2E] ∧ 0x2F ∉ name

instance (name : OsString) : Decidable (IsName name) := by
  unfold IsName
  infer_instance

/-- What stands before the last dot, unless that dot is the first character or there is none. -/
def stem (name : OsString) : OsString :=
  if 0x2E ∈ name.tail then (name.rdropWhile fun b => b ≠ 0x2E).dropLast else name

/-- `set_extension`, for an extension that is not empty. What follows the name is dropped. -/
def setExtension (t ext : OsString) : OsString :=
  match (ofText t).fileName with
  | none => t
  | some name =>
    [0x2F].intercalate (((t.splitOn 0x2F).rdropWhile fun part => (piece part).isNone).dropLast ++
      [stem name ++ 0x2E :: ext])

variable {dir dir' name name' ext : OsString}

theorem IsName.relative (named : IsName name) : name.head? ≠ some 0x2F := fun slash =>
  named.2.2.2 (List.mem_of_mem_head? slash)

theorem IsName.piece (named : IsName name) : piece name = some (.normal name) := by
  rw [PathBuf.piece, if_neg (not_or.mpr ⟨named.1, named.2.1⟩), if_neg named.2.2.1]

theorem IsName.pieces (named : IsName name) : pieces name = [.normal name] := by
  rw [pieces_name named.2.2.2, named.piece]
  rfl

theorem takeWhile_whole (whole : 0x2F ∉ name) : name.takeWhile (· ≠ 0x2F) = name :=
  List.takeWhile_eq_self_iff.mpr fun _ member => decide_eq_true fun slash => whole (slash ▸ member)

theorem IsName.lead (named : IsName name) : lead name = [] := by
  rw [PathBuf.lead, if_neg named.relative, takeWhile_whole named.2.2.2, if_neg named.2.1]

/- The extension behind the last dot. -/
theorem stem_dot (there : name ≠ []) (last : 0x2E ∉ ext) : stem (name ++ 0x2E :: ext) = name := by
  have dotted : 0x2E ∈ (name ++ 0x2E :: ext).tail := by
    obtain ⟨c, cs, rfl⟩ := List.exists_cons_of_ne_nil there
    simp
  have cut : ((name ++ 0x2E :: ext).rdropWhile fun b => b ≠ 0x2E) = name ++ [0x2E] := by
    have behind : ∀ b ∈ ext.reverse, decide (b ≠ 0x2E) = true := fun b member =>
      decide_eq_true fun same => last (same ▸ List.mem_reverse.mp member)
    rw [List.rdropWhile, List.reverse_append, List.reverse_cons, List.append_assoc,
      List.dropWhile_append_of_pos behind]
    simp
  rw [stem, if_pos dotted, cut, List.dropLast_concat]

/- What is joined to a directory stands behind a slash. -/
theorem join_slash (there : dir ≠ []) : ∃ front,
    (ofText dir).components = lead (front ++ [0x2F]) ++ pieces front ∧
    ∀ t : OsString, t.head? ≠ some 0x2F → join dir t = front ++ 0x2F :: t := by
  by_cases slash : dir.getLast? = some 0x2F
  · obtain ⟨front, rfl⟩ := List.getLast?_eq_some_iff.mp slash
    refine ⟨front, ?_, fun t relative => ?_⟩
    · rw [components_ofText, pieces_slash, pieces_nil, List.append_nil]
    · rw [join, if_neg relative, if_pos (.inr slash), List.append_assoc]
      rfl
  · refine ⟨dir, ?_, fun t relative => ?_⟩
    · rw [components_ofText, lead_append there]
    · rw [join, if_neg relative, if_neg (not_or.mpr ⟨there, slash⟩)]

theorem components_file (dir : OsString) (named : IsName name) :
    (ofText (join dir name)).components = (ofText dir).components ++ [.normal name] := by
  rw [components_join named.relative fun _ => named.lead, named.pieces]

/-- Two files are the same where they have the same name in the same directory. -/
theorem file_inj (named : IsName name) (named' : IsName name') :
    ofText (join dir name) = ofText (join dir' name') ↔ ofText dir = ofText dir' ∧ name = name' := by
  constructor
  · intro same
    have components := congrArg components same
    rw [components_file _ named, components_file _ named'] at components
    obtain ⟨above, last⟩ := List.append_inj' components rfl
    cases last
    exact ⟨components_injective above, rfl⟩
  · rintro ⟨above, rfl⟩
    apply components_injective
    rw [components_file dir named, components_file dir' named, above]

theorem fileName_file (dir : OsString) (named : IsName name) :
    (ofText (join dir name)).fileName = some name := by
  unfold fileName
  rw [components_file dir named, List.getLast?_concat]

/- A text goes on behind its last slash, or has none. -/
theorem last_slash (t : OsString) : 0x2F ∉ t ∨ ∃ front name, t = front ++ 0x2F :: name ∧ 0x2F ∉ name := by
  induction t using List.reverseRecOn with
  | nil => exact .inl (List.not_mem_nil)
  | append_singleton t b ih =>
    by_cases slash : b = 0x2F
    · exact .inr ⟨t, [], by rw [slash], List.not_mem_nil⟩
    · have other : 0x2F ≠ b := fun same => slash same.symm
      rcases ih with clean | ⟨front, name, rfl, clean⟩
      · exact .inl (by simp [clean, other])
      · exact .inr ⟨front, name ++ [b], by simp, by simp [clean, other]⟩

theorem isName_longer {c : UInt8} (slash : c ≠ 0x2F) (dot : c ≠ 0x2E) (whole : 0x2F ∉ name)
    {more : OsString} (clean : 0x2F ∉ more) : IsName (name ++ c :: more) := by
  have there : c ∈ name ++ c :: more := by simp
  refine ⟨List.ne_nil_of_mem there, fun same => ?_, fun same => ?_, ?_⟩
  · rw [same] at there
    exact dot (List.mem_singleton.mp there)
  · rw [same] at there
    exact dot (by simpa using there)
  · simp [whole, clean, slash.symm]

/- A name that goes on is a longer one. -/
theorem pieces_longer {c : UInt8} (slash : c ≠ 0x2F) (dot : c ≠ 0x2E) (whole : 0x2F ∉ name)
    (more : OsString) :
    ∃ longer rest, pieces (name ++ c :: more) = .normal longer :: rest ∧ name.length < longer.length := by
  by_cases member : 0x2F ∈ more
  · obtain ⟨as, bs, rfl, first⟩ := List.eq_append_cons_of_mem member
    refine ⟨name ++ c :: as, pieces bs, ?_, by simp⟩
    have cut : name ++ c :: (as ++ 0x2F :: bs) = (name ++ c :: as) ++ 0x2F :: bs := by simp
    rw [cut, pieces_slash, (isName_longer slash dot whole first).pieces]
    rfl
  · exact ⟨name ++ c :: more, [], (isName_longer slash dot whole member).pieces, by simp⟩

theorem pieces_of_name (whole : 0x2F ∉ name) : ∀ c ∈ pieces name, ∀ n, c = .normal n → n = name := by
  rw [pieces_name whole]
  rintro c member n rfl
  rw [Option.mem_toList, piece] at member
  split at member
  · cases member
  split at member <;> cases member
  rfl

theorem lead_normal (t n : OsString) : .normal n ∉ lead t := by
  unfold lead
  split
  · simp
  split <;> simp

/-- A text that goes on with another character than a slash or a dot is another path. -/
theorem ofText_longer {c : UInt8} (slash : c ≠ 0x2F) (dot : c ≠ 0x2E) (t more : OsString) :
    ofText t ≠ ofText (t ++ c :: more) := by
  intro same
  have components := congrArg components same
  rw [components_ofText, components_ofText] at components
  rcases last_slash t with clean | ⟨front, name, rfl, clean⟩
  · obtain ⟨longer, rest, first, length⟩ := pieces_longer slash dot clean more
    have there : .normal longer ∈ lead t ++ pieces t := by
      rw [components, first]
      simp
    rcases List.mem_append.mp there with leads | follows
    · exact lead_normal _ _ leads
    · rw [pieces_of_name clean _ follows _ rfl] at length
      exact lt_irrefl _ length
  · obtain ⟨longer, rest, first, length⟩ := pieces_longer slash dot clean more
    have cut : front ++ 0x2F :: name ++ c :: more = front ++ 0x2F :: (name ++ c :: more) := by simp
    rw [cut, pieces_slash, pieces_slash, lead_slash, lead_slash front (name ++ c :: more),
      first] at components
    have tails := List.append_cancel_left (List.append_cancel_left components)
    have there : .normal longer ∈ pieces name := by
      rw [tails]
      exact List.mem_cons_self
    rw [pieces_of_name clean _ there _ rfl] at length
    exact lt_irrefl _ length

theorem splitOn_file (front : OsString) (named : IsName name) :
    (front ++ 0x2F :: name).splitOn 0x2F = front.splitOn 0x2F ++ [name] := by
  rw [List.splitOn_append_cons_self, List.splitOn_eq_singleton named.2.2.2]

/-- The extension of a file is set within its directory. -/
theorem setExtension_join (there : dir ≠ []) (named : IsName name)
    (whole : IsName (stem name ++ 0x2E :: ext)) :
    setExtension (join dir name) ext = join dir (stem name ++ 0x2E :: ext) := by
  obtain ⟨front, _, joined⟩ := join_slash there
  have kept : ((front.splitOn 0x2F ++ [name]).rdropWhile fun part => (piece part).isNone) =
      front.splitOn 0x2F ++ [name] := List.rdropWhile_concat_neg _ _ _ (by simp [named.piece])
  have file := fileName_file dir named
  rw [joined _ named.relative] at file ⊢
  rw [joined _ whole.relative, setExtension, file]
  simp only [splitOn_file front named, kept, List.dropLast_concat]
  rw [← splitOn_file front whole, List.intercalate_splitOn]

end Stallwatch.PathBuf
