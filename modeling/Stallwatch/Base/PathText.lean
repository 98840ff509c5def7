import Stallwatch.Base.Path

/-! Which paths their text tells apart. -/
namespace Stallwatch

open Utf8

/-- A name as a directory has it: some bytes, no slash, and neither `.` nor `..`. -/
def Component.Proper : Component → Prop
  | .normal name => name ≠ [] ∧ name ≠ [0x2E] ∧ name ≠ [0x2E, 0x2E] ∧ 0x2F ∉ name
  | _ => True

instance : DecidablePred Component.Proper := fun c => by
  cases c <;> unfold Component.Proper <;> infer_instance

namespace PathBuf

/-- All names of the path are such as a directory can have. -/
def Proper (p : PathBuf) : Prop := ∀ c ∈ p.components, c.Proper

instance : DecidablePred Proper := fun p => inferInstanceAs (Decidable (∀ c ∈ p.components, c.Proper))

theorem componentText_clean {c : Component} (proper : c.Proper) : 0x2F ∉ componentText c := by
  cases c with
  | normal name => exact proper.2.2.2
  | rootDir | curDir | parentDir => decide

theorem componentText_injective {c d : Component} (hc : c.Proper) (hd : d.Proper)
    (same : componentText c = componentText d) : c = d := by
  cases c <;> cases d <;> simp_all [componentText, Component.Proper]

theorem map_componentText_injective {cs ds : List Component} (hc : ∀ c ∈ cs, c.Proper)
    (hd : ∀ d ∈ ds, d.Proper) (same : cs.map componentText = ds.map componentText) : cs = ds := by
  induction cs generalizing ds with
  | nil => exact (List.map_eq_nil_iff.mp same.symm).symm
  | cons c cs ih =>
    cases ds with
    | nil => cases same
    | cons d ds =>
      obtain ⟨head, tail⟩ := List.cons.inj same
      obtain ⟨hc, hcs⟩ := List.forall_mem_cons.mp hc
      obtain ⟨hd, hds⟩ := List.forall_mem_cons.mp hd
      rw [componentText_injective hc hd head, ih hcs hds tail]

/- The pieces between slashes, apart from `/` itself and the empty path. -/
theorem splitOn_text {p : PathBuf} (proper : p.Proper) (some : p.components ≠ [])
    (more : p.components ≠ [.rootDir]) : p.text.splitOn 0x2F = p.components.map componentText := by
  rw [text, if_neg more, List.splitOn_intercalate]
  · intro l member
    obtain ⟨c, listed, rfl⟩ := List.mem_map.mp member
    exact componentText_clean (proper c listed)
  · simpa using some

theorem componentText_nil {c : Component} (proper : c.Proper) (none : componentText c = []) :
    c = .rootDir := by
  cases c <;> simp_all [componentText, Component.Proper]

theorem text_nil {p : PathBuf} (proper : p.Proper) (none : p.text = []) : p.components = [] := by
  by_contra some
  have more : p.components ≠ [.rootDir] := by
    intro root
    simp [text, root] at none
  have pieces := splitOn_text proper some more
  obtain ⟨c, hc, first⟩ : ∃ c, p.components = [c] ∧ componentText c = [] := by
    rw [none, List.splitOn_nil, eq_comm, List.map_eq_singleton_iff] at pieces
    exact pieces
  have root := componentText_nil (proper c (by simp [hc])) first
  exact more (by rw [hc, root])

theorem text_root {p : PathBuf} (proper : p.Proper) (slash : p.text = [0x2F]) :
    p.components = [.rootDir] := by
  by_contra more
  have some : p.components ≠ [] := by
    intro none
    simp [text, none] at slash
  have pieces := splitOn_text proper some more
  have halves : ([0x2F] : OsString).splitOn 0x2F = [[], []] := by decide
  rw [slash, halves] at pieces
  match shape : p.components with
  | [] | [_] | _ :: _ :: _ :: _ => simp [shape] at pieces
  | [c, d] =>
    simp only [shape, List.map_cons, List.map_nil, List.cons.injEq, and_true] at pieces
    have second := componentText_nil (proper d (by simp [shape])) pieces.2.symm
    exact p.rootFirst (by simp [shape, second])

theorem text_injective {p q : PathBuf} (hp : p.Proper) (hq : q.Proper) (same : p.text = q.text) :
    p = q := by
  apply components_injective
  by_cases none : p.components = []
  · have empty : q.text = [] := by rw [← same, text, none]; rfl
    rw [none, text_nil hq empty]
  by_cases root : p.components = [.rootDir]
  · have slash : q.text = [0x2F] := by rw [← same, text, if_pos root]
    rw [root, text_root hq slash]
  have some : q.components ≠ [] := fun h => none (text_nil hp (by rw [same, text, h]; rfl))
  have more : q.components ≠ [.rootDir] := fun h => root (text_root hp (by rw [same, text, if_pos h]))
  refine map_componentText_injective hp hq ?_
  rw [← splitOn_text hp none root, ← splitOn_text hq some more, same]

/-- The path is text. -/
def IsUtf8 (p : PathBuf) : Prop := (fromUtf8 p.text).isSome = true

instance : DecidablePred IsUtf8 := fun p => inferInstanceAs (Decidable ((fromUtf8 p.text).isSome = true))

/- Text that shows no replacement is that of the bytes. -/
theorem isUtf8_of_toStringLossy {p : PathBuf} (clean : '\uFFFD' ∉ p.toStringLossy.toList) : p.IsUtf8 := by
  rw [toStringLossy, String.toList_ofList] at clean
  rw [IsUtf8, fromUtf8_of_lossy clean]
  rfl

theorem toStringLossy_injective {p q : PathBuf} (hp : p.Proper) (hq : q.Proper) (left : p.IsUtf8)
    (right : q.IsUtf8) (same : p.toStringLossy = q.toStringLossy) : p = q := by
  obtain ⟨cs, decoded⟩ := Option.isSome_iff_exists.mp left
  obtain ⟨ds, decoded'⟩ := Option.isSome_iff_exists.mp right
  have characters : fromUtf8Lossy p.text = fromUtf8Lossy q.text := String.ofList_injective same
  rw [lossy_of_fromUtf8 decoded, lossy_of_fromUtf8 decoded'] at characters
  refine text_injective hp hq ?_
  rw [← bytes_fromUtf8 decoded, ← bytes_fromUtf8 decoded', characters]

end PathBuf

end Stallwatch
