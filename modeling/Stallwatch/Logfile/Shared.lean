import Stallwatch.Logfile.Rotation
import Mathlib.Logic.Function.Basic

/-! Logs side by side in one file system. Each has its own place and that of its previous
generation, and logs that share no place do not disturb each other. -/
namespace Stallwatch.Logfile

open Files

/-- The files of a directory tree. Several paths can lead to one place. -/
abbrev Store (κ : Type) := κ → Option (List Char)

/-- The path of the previous generation. -/
def previousGeneration (path : List Char) : List Char := path ++ ".1".toList

variable {κ : Type} [DecidableEq κ] (place : List Char → κ)

/-- The log under a path, with its previous generation. -/
def view (fs : Store κ) (path : List Char) : Files :=
  ⟨fs (place path), fs (place (previousGeneration path))⟩

/-- What stood at the new place is replaced. -/
def rename (fs : Store κ) (source target : κ) : Store κ :=
  Function.update (Function.update fs target (fs source)) source none

/-- `renames` says whether the rename of a full file succeeds; a failure is ignored. -/
def appendLine (fs : Store κ) (path : List Char) (maxBytes : UInt64) (renames : Bool) (line : List Char) :
    Store κ :=
  let fs := if (view place fs path).full maxBytes && renames then
    rename fs (place path) (place (previousGeneration path)) else fs
  Function.update fs (place path) (some ((fs (place path)).getD [] ++ (line ++ ['\n'])))

/-- A line for one of the logs, and whether its rename succeeds where one is tried. -/
structure Call where
  path : List Char
  renames : Bool
  line : List Char

def appendAll (maxBytes : UInt64) (fs : Store κ) (calls : List Call) : Store κ :=
  calls.foldl (fun fs c => appendLine place fs c.path maxBytes c.renames c.line) fs

/-- The two logs have no place in common. -/
structure Apart (p q : List Char) : Prop where
  live : place p ≠ place q
  rotates : place p ≠ place (previousGeneration q)
  overwrites : place (previousGeneration p) ≠ place q
  previous : place (previousGeneration p) ≠ place (previousGeneration q)

/-- A log is not its own previous generation. -/
def Proper (p : List Char) : Prop := place (previousGeneration p) ≠ place p

/-- What goes to a log, in its order. -/
def callsTo (path : List Char) (calls : List Call) : List Append :=
  (calls.filter fun c => c.path = path).map fun c => (c.renames, c.line)

variable {place} {fs : Store κ} {p q : List Char}

/-- In its own places the log is appended to as if it were alone. -/
theorem view_appendLine (proper : Proper place p) (maxBytes : UInt64) (renames : Bool)
    (line : List Char) :
    view place (appendLine place fs p maxBytes renames line) p =
      (view place fs p).appendLine maxBytes renames line := by
  unfold appendLine Files.appendLine Files.rotate
  split
  · have live : Function.update (rename fs (place p) (place (previousGeneration p))) (place p)
        (some ((rename fs (place p) (place (previousGeneration p)) (place p)).getD [] ++
          (line ++ ['\n'])))
          (place p) = some ([] ++ (line ++ ['\n'])) := by
      rw [Function.update_self, rename, Function.update_self]
      rfl
    have previous : Function.update (rename fs (place p) (place (previousGeneration p))) (place p)
        (some ((rename fs (place p) (place (previousGeneration p)) (place p)).getD [] ++
          (line ++ ['\n'])))
          (place (previousGeneration p)) = fs (place p) := by
      rw [Function.update_of_ne proper, rename, Function.update_of_ne proper, Function.update_self]
    exact congrArg₂ Files.mk live previous
  · exact congrArg₂ Files.mk (Function.update_self _ _ _) (Function.update_of_ne proper _ _)

/-- Everywhere else nothing changes. -/
theorem appendLine_other {k : κ} (live : k ≠ place p) (previous : k ≠ place (previousGeneration p))
    (maxBytes : UInt64) (renames : Bool) (line : List Char) :
    appendLine place fs p maxBytes renames line k = fs k := by
  unfold appendLine
  rw [Function.update_of_ne live]
  split
  · rw [rename, Function.update_of_ne live, Function.update_of_ne previous]
  · rfl

theorem view_apart (apart : Apart place q p) (maxBytes : UInt64) (renames : Bool) (line : List Char) :
    view place (appendLine place fs p maxBytes renames line) q = view place fs q :=
  congrArg₂ Files.mk (appendLine_other apart.live apart.rotates _ _ _)
    (appendLine_other apart.overwrites apart.previous _ _ _)

/-- Through every run a log holds what it would hold alone, whatever is written to logs that
are apart from it. -/
theorem view_appendAll {calls : List Call} (proper : Proper place p)
    (apart : ∀ c ∈ calls, c.path = p ∨ Apart place p c.path) (maxBytes : UInt64) (fs : Store κ) :
    view place (appendAll place maxBytes fs calls) p =
      Files.appendAll id maxBytes (view place fs p) (callsTo p calls) := by
  induction calls generalizing fs with
  | nil => rfl
  | cons c calls ih =>
    obtain ⟨here, others⟩ := List.forall_mem_cons.mp apart
    have rest := ih others (appendLine place fs c.path maxBytes c.renames c.line)
    rw [appendAll, List.foldl_cons, ← appendAll, rest]
    rcases here with rfl | away
    · rw [view_appendLine proper, callsTo, callsTo, List.filter_cons, if_pos (by simp)]
      rfl
    · have other : c.path ≠ p := fun same => away.live (congrArg place same.symm)
      rw [view_apart away, callsTo, callsTo, List.filter_cons, if_neg (by simpa using other)]

end Stallwatch.Logfile
