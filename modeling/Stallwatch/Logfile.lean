import Stallwatch.Base.Generations
import Stallwatch.Base.Text
import Stallwatch.Base.Utf8
import Mathlib.Data.UInt

/-! Appending to a log that is rotated by its size, with one previous generation kept. -/
namespace Stallwatch

open Text Utf8

/-- The cap of one generation of the incident log. -/
def defaultMaxBytes : UInt64 := 64 * 1024 * 1024

/-- The log and its previous generation. A file that does not exist is none. -/
structure Files where
  live : Option (List Char)
  previous : Option (List Char)
  deriving DecidableEq

namespace Files

def absent : Files := ⟨none, none⟩

/-- The length of the live file in bytes, zero where there is none. -/
def size (fs : Files) : ℕ := fs.live.elim 0 fun text => (bytes text).length

def full (fs : Files) (maxBytes : UInt64) : Bool := 0 < maxBytes && maxBytes.toNat ≤ fs.size

/-- `renames` says whether the rename of a full file succeeds; a failure is ignored. -/
def rotate (fs : Files) (maxBytes : UInt64) (renames : Bool) : Files :=
  if fs.full maxBytes && renames then ⟨none, fs.live⟩ else fs

def appendLine (fs : Files) (maxBytes : UInt64) (renames : Bool) (line : List Char) : Files :=
  let fs := fs.rotate maxBytes renames
  { fs with live := some (fs.live.getD [] ++ (line ++ ['\n'])) }

variable {α : Type} (write : α → List Char)

/-- Appending the line of every record in turn. -/
def appendAll (maxBytes : UInt64) (fs : Files) (calls : List (Bool × α)) : Files :=
  calls.foldl (fun fs call => fs.appendLine maxBytes call.1 (write call.2)) fs

/-- The text of a file with these records; without any the file was never made. -/
def written (xs : List α) : Option (List Char) :=
  if xs = [] then none else some (xs.flatMap fun x => write x ++ ['\n'])

/-- The files hold the records of the log. -/
structure Holds (fs : Files) (g : Generations α) : Prop where
  live : fs.live = written write g.live
  previous : fs.previous = written write g.previous

theorem written_getD (xs : List α) :
    (written write xs).getD [] = xs.flatMap fun x => write x ++ ['\n'] := by
  unfold written
  split
  · rename_i none
    rw [none]
    rfl
  · rfl

theorem written_append (xs : List α) (x : α) :
    written write (xs ++ [x]) = some ((written write xs).getD [] ++ (write x ++ ['\n'])) := by
  rw [written_getD, written, if_neg (by simp), List.flatMap_append]
  simp

theorem appendLine_holds {fs : Files} {g : Generations α} (holds : Holds write fs g)
    (maxBytes : UInt64) (renames : Bool) (x : α) :
    Holds write (fs.appendLine maxBytes renames (write x))
      (g.append (fs.full maxBytes && renames) x) := by
  unfold appendLine rotate Generations.append
  split
  · exact ⟨(written_append write [] x).symm, holds.live⟩
  · refine ⟨?_, holds.previous⟩
    rw [written_append, ← holds.live]

/-- In every run the files hold a log whose records are the end of those appended. -/
theorem appendAll_holds (maxBytes : UInt64) (calls : List (Bool × α)) :
    ∃ g : Generations α, Holds write (appendAll write maxBytes absent calls) g ∧
      g.kept <:+ calls.map Prod.snd := by
  induction calls using List.reverseRecOn with
  | nil => exact ⟨.empty, ⟨rfl, rfl⟩, List.suffix_rfl⟩
  | append_singleton calls call ih =>
    obtain ⟨g, holds, kept⟩ := ih
    rw [appendAll, List.foldl_append, List.map_append]
    exact ⟨_, appendLine_holds write holds maxBytes call.1 call.2,
      (g.append_kept _ _).trans (List.suffix_append_self_iff.mpr kept)⟩

/- Reading the live file back gives its lines. -/
theorem lines_written {xs : List α} (clean : ∀ x ∈ xs, '\n' ∉ write x)
    (ends : ∀ x ∈ xs, (write x).getLast? ≠ some '\r') {text : List Char}
    (holds : written write xs = some text) : lines text = xs.map write := by
  have read := lines_write (xs.map write) (List.forall_mem_map.mpr clean) (List.forall_mem_map.mpr ends)
  rw [List.flatMap_map] at read
  rw [← read, ← written_getD, holds]
  rfl

end Files

end Stallwatch
