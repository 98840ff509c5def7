import Stallwatch.Logfile

/-! What the log keeps of all the lines that were appended, and how large it gets. -/
namespace Stallwatch.Files

open Utf8

/-- A line to append, and whether the rename succeeds if the file is full. -/
abbrev Append := Bool × List Char

def text (lines : List (List Char)) : List Char := lines.flatMap fun line => line ++ ['\n']

/-- The previous generation and the live file after it. -/
def contents (fs : Files) : List Char := fs.previous.getD [] ++ fs.live.getD []

/-- The length of the previous generation in bytes. -/
def previousSize (fs : Files) : ℕ := fs.previous.elim 0 fun text => (bytes text).length

/-- The files after these lines, from none. -/
def log (maxBytes : UInt64) (calls : List Append) : Files := appendAll id maxBytes absent calls

/-- The longest line in bytes. -/
def longest (calls : List Append) : ℕ := (calls.map fun call => (bytes call.2).length).foldr max 0

/-- Every rename that was needed succeeded. -/
def Renamed (maxBytes : UInt64) (calls : List Append) : Prop :=
  ∀ past call rest, calls = past ++ call :: rest → (log maxBytes past).full maxBytes = true →
    call.1 = true

@[simp] theorem log_concat (maxBytes : UInt64) (calls : List Append) (call : Append) :
    log maxBytes (calls ++ [call]) = (log maxBytes calls).appendLine maxBytes call.1 call.2 := by
  rw [log, appendAll, List.foldl_append]
  rfl

theorem size_eq (fs : Files) : fs.size = (bytes (fs.live.getD [])).length := by
  cases h : fs.live <;> simp [size, h]

theorem le_longest {calls : List Append} {call : Append} (member : call ∈ calls) :
    (bytes call.2).length ≤ longest calls := by
  induction calls with
  | nil => cases member
  | cons first calls ih =>
    rcases List.mem_cons.mp member with here | later
    · rw [here]
      exact le_max_left _ _
    · exact (ih later).trans (le_max_right _ _)

/-- A successful rotation replaces the previous generation, and nothing else is lost. -/
theorem appendLine_contents (fs : Files) (maxBytes : UInt64) (renames : Bool) (line : List Char) :
    (fs.full maxBytes = true → renames = true →
        fs.appendLine maxBytes renames line = ⟨some (line ++ ['\n']), fs.live⟩) ∧
      (¬ (fs.full maxBytes = true ∧ renames = true) →
        fs.appendLine maxBytes renames line =
          ⟨some (fs.live.getD [] ++ (line ++ ['\n'])), fs.previous⟩) := by
  constructor
  · intro full renamed
    rw [appendLine, rotate, if_pos (by rw [full, renamed]; rfl)]
    rfl
  · intro kept
    rw [appendLine, rotate, if_neg (by simpa using kept)]

/-- Both generations are within the cap and one line. -/
structure Within (fs : Files) (bound : ℕ) : Prop where
  live : fs.size ≤ bound
  previous : fs.previousSize ≤ bound

theorem bytes_line (line : List Char) : (bytes (line ++ ['\n'])).length = (bytes line).length + 1 := by
  rw [bytes_append, List.length_append]
  rfl

theorem appendLine_within {fs : Files} {maxBytes : UInt64} {renames : Bool} {line : List Char} {l : ℕ}
    (within : Within fs (maxBytes.toNat + l)) (positive : 0 < maxBytes.toNat)
    (short : (bytes line).length ≤ l) (renamed : fs.full maxBytes = true → renames = true) :
    Within (fs.appendLine maxBytes renames line) (maxBytes.toNat + l) := by
  obtain ⟨rotated, extended⟩ := appendLine_contents fs maxBytes renames line
  have length := bytes_line line
  by_cases full : fs.full maxBytes = true
  · rw [rotated full (renamed full)]
    refine ⟨?_, within.live⟩
    rw [size_eq, Option.getD_some]
    omega
  · have room : fs.size < maxBytes.toNat := by
      simpa [Files.full, UInt64.lt_iff_toNat_lt, positive] using full
    rw [extended fun both => full both.1]
    refine ⟨?_, within.previous⟩
    rw [size_eq] at room ⊢
    rw [Option.getD_some, bytes_append, List.length_append]
    omega

theorem log_within {maxBytes : UInt64} {calls : List Append} (positive : 0 < maxBytes.toNat)
    (renamed : Renamed maxBytes calls) {l : ℕ} (short : ∀ call ∈ calls, (bytes call.2).length ≤ l) :
    Within (log maxBytes calls) (maxBytes.toNat + l) := by
  induction calls using List.reverseRecOn with
  | nil => exact ⟨Nat.zero_le _, Nat.zero_le _⟩
  | append_singleton calls call ih =>
    have earlier : Renamed maxBytes calls := fun past c rest split =>
      renamed past c (rest ++ [call]) (by simp [split])
    have within := ih earlier fun c member => short c (List.mem_append_left _ member)
    rw [log_concat]
    exact appendLine_within within positive (short call (by simp)) (renamed calls call [] rfl)

theorem written_text (lines : List (List Char)) : (written id lines).getD [] = text lines :=
  written_getD id lines

theorem appendLine_live (fs : Files) (maxBytes : UInt64) (renames : Bool) (line : List Char) :
    (fs.appendLine maxBytes renames line).live ≠ none := by
  rw [appendLine]
  exact Option.some_ne_none _

/-- The files hold the end of what was appended. -/
theorem log_suffix (maxBytes : UInt64) (calls : List Append) :
    ∃ kept, kept <:+ calls.map Prod.snd ∧ (calls ≠ [] → kept ≠ []) ∧
      (log maxBytes calls).contents = text kept := by
  obtain ⟨g, holds, suffix⟩ := appendAll_holds id maxBytes calls
  refine ⟨g.kept, suffix, ?_, ?_⟩
  · intro some none
    obtain ⟨past, call, split⟩ := List.eq_nil_or_concat calls |>.resolve_left some
    have live := appendLine_live (log maxBytes past) maxBytes call.1 call.2
    rw [← log_concat, ← List.concat_eq_append, ← split, log, holds.live,
      (List.append_eq_nil_iff.mp none).2] at live
    exact live rfl
  · rw [contents, log, holds.live, holds.previous, written_text, written_text, Generations.kept, text,
      text, text, List.flatMap_append]

/-- A line is added at the end, and only a successful rotation drops anything: the previous
generation, as a whole. -/
theorem log_step (maxBytes : UInt64) (past : List Append) (call : Append) :
    (((log maxBytes past).full maxBytes = true ∧ call.1 = true) →
        (log maxBytes past).contents ++ (call.2 ++ ['\n']) =
          (log maxBytes past).previous.getD [] ++ (log maxBytes (past ++ [call])).contents) ∧
      (¬ ((log maxBytes past).full maxBytes = true ∧ call.1 = true) →
        (log maxBytes (past ++ [call])).contents =
          (log maxBytes past).contents ++ (call.2 ++ ['\n'])) := by
  obtain ⟨rotated, extended⟩ := appendLine_contents (log maxBytes past) maxBytes call.1 call.2
  rw [log_concat]
  constructor
  · rintro ⟨full, renamed⟩
    rw [rotated full renamed]
    simp [contents]
  · intro kept
    rw [extended kept]
    simp [contents]

theorem log_uncapped (calls : List Append) : (log 0 calls).contents = text (calls.map Prod.snd) := by
  induction calls using List.reverseRecOn with
  | nil => rfl
  | append_singleton calls call ih =>
    rw [(log_step 0 calls call).2 (by simp [full]), ih, List.map_append, text, text,
      List.flatMap_append]
    simp

section Turn

variable {maxBytes : UInt64} (line : List Char)

variable (maxBytes) in
/-- So many times the line makes the log full, and no fewer. -/
def turn : ℕ := (maxBytes.toNat - 1) / ((bytes line).length + 1) + 1

theorem bytes_repeated (n : ℕ) :
    (bytes (text (List.replicate n line))).length = n * ((bytes line).length + 1) := by
  induction n with
  | zero => rw [List.replicate_zero, Nat.zero_mul]; rfl
  | succ n ih =>
    rw [List.replicate_succ, text, List.flatMap_cons, bytes_append, List.length_append, bytes_line,
      ← text, ih, Nat.succ_mul, Nat.add_comm]

/- Nothing is rotated before the log is full. -/
theorem log_filling (renames : Bool) (n : ℕ)
    (room : (n - 1) * ((bytes line).length + 1) < maxBytes.toNat) :
    (log maxBytes (List.replicate n (renames, line))).live.getD [] = text (List.replicate n line) := by
  induction n with
  | zero => rfl
  | succ n ih =>
    have before := ih (lt_of_le_of_lt (Nat.mul_le_mul_right _ (Nat.sub_le_sub_right n.le_succ 1)) room)
    have kept : ¬ ((log maxBytes (List.replicate n (renames, line))).full maxBytes = true ∧
        renames = true) := by
      rw [full, size_eq, before, bytes_repeated, Bool.and_eq_true, decide_eq_true_eq, decide_eq_true_eq]
      exact fun most => absurd most.1.2 (not_le.mpr room)
    rw [List.replicate_succ', log_concat, (appendLine_contents _ _ _ _).2 kept, before,
      List.replicate_succ', text, text, List.flatMap_append]
    simp

/-- What comes after a full turn is the first line of the next generation. -/
theorem log_turn (positive : 0 < maxBytes.toNat) (renames : Bool) (next : List Char) :
    (log maxBytes (List.replicate (turn maxBytes line) (renames, line) ++ [(true, next)])).live =
        some (next ++ ['\n']) ∧
      (log maxBytes (List.replicate (turn maxBytes line) (renames, line) ++ [(true, next)])).previous.getD [] =
        text (List.replicate (turn maxBytes line) line) := by
  have few := Nat.div_mul_le_self (maxBytes.toNat - 1) ((bytes line).length + 1)
  have many := Nat.lt_div_mul_add (a := maxBytes.toNat - 1) (Nat.succ_pos (bytes line).length)
  have filled := log_filling line renames (turn maxBytes line)
    (show (maxBytes.toNat - 1) / ((bytes line).length + 1) * ((bytes line).length + 1) <
      maxBytes.toNat by omega)
  have full : (log maxBytes (List.replicate (turn maxBytes line) (renames, line))).full maxBytes = true := by
    rw [full, size_eq, filled, bytes_repeated, turn, Bool.and_eq_true, decide_eq_true_eq,
      decide_eq_true_eq, Nat.succ_mul]
    exact ⟨UInt64.lt_iff_toNat_lt.mpr positive, Nat.le_of_pred_lt many⟩
  rw [log_concat, (appendLine_contents _ _ _ _).1 full rfl]
  exact ⟨rfl, filled⟩

end Turn

/-- The log ends in the newest line, drops whole generations only, and stays bounded. -/
theorem log_rotation (maxBytes : UInt64) (calls : List Append) :
    (∃ kept, kept <:+ calls.map Prod.snd ∧ (calls ≠ [] → kept ≠ []) ∧
        (log maxBytes calls).contents = text kept) ∧
      (∀ past call rest, calls = past ++ call :: rest →
        (((log maxBytes past).full maxBytes = true ∧ call.1 = true) →
            (log maxBytes past).contents ++ (call.2 ++ ['\n']) =
              (log maxBytes past).previous.getD [] ++ (log maxBytes (past ++ [call])).contents) ∧
          (¬ ((log maxBytes past).full maxBytes = true ∧ call.1 = true) →
            (log maxBytes (past ++ [call])).contents =
              (log maxBytes past).contents ++ (call.2 ++ ['\n']))) ∧
      (0 < maxBytes → Renamed maxBytes calls →
        (log maxBytes calls).size ≤ maxBytes.toNat + longest calls ∧
          (log maxBytes calls).previousSize ≤ maxBytes.toNat + longest calls ∧
          (log maxBytes calls).previousSize + (log maxBytes calls).size ≤
            2 * (maxBytes.toNat + longest calls)) ∧
      (maxBytes = 0 → (log maxBytes calls).contents = text (calls.map Prod.snd)) := by
  refine ⟨log_suffix maxBytes calls, fun past call _ _ => log_step maxBytes past call, ?_, ?_⟩
  · intro positive renamed
    obtain ⟨live, previous⟩ := log_within (UInt64.lt_iff_toNat_lt.mp positive) renamed
      fun call member => le_longest member
    exact ⟨live, previous, by omega⟩
  · rintro rfl
    exact log_uncapped calls

end Stallwatch.Files
