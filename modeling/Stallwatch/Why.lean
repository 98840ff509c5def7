import Stallwatch.Incident.RoundTrip
import Stallwatch.Logfile

/-! What just happened: the newest incidents of the log, explained. -/
namespace Stallwatch

open Text

/-- One thing that is printed. An explanation keeps the line it was read from. -/
inductive Piece where
  | blank
  | explained (line : List Char) (incident : Incident)
  | nothing

def nothingMatches : List Char :=
  "Nothing recorded that matches. ".toList ++
    "The machine has not stalled, or the filter excluded everything.\n".toList

def Piece.text (f : Rounding) (now : UInt64) : Piece → List Char
  | .blank => ['\n']
  | .explained _ incident => incident.explain f now
  | .nothing => nothingMatches

/-- Without a log there is only a hint on the error stream. -/
inductive Answer where
  | noLog
  | printed (pieces : List Piece)

def Answer.pieces : Answer → List Piece
  | .noLog => []
  | .printed pieces => pieces

/-- What follows the first `-n`, if it is a number. -/
def whyCount (args : List (List Char)) : ℕ :=
  (((args.dropWhile (· ≠ ['-', 'n'])).tail.head?).bind (parseUnsigned 64)).getD 1

/- Every count can be asked for. -/
theorem whyCount_decimal {k : ℕ} (small : k < 2 ^ 64) : whyCount [['-', 'n'], decimal k] = k := by
  simp [whyCount, parseUnsigned_decimal 64 k small]

/-- The loop over the lines, newest first, after `shown` explanations. -/
def explainLines (f : Rounding) (filter : Option (Stall → Bool)) (count : ℕ) :
    ℕ → List (List Char) → Outcome Empty (List Piece)
  | shown, [] => return if shown = 0 then [.nothing] else []
  | shown, line :: older =>
    if trim line = [] then explainLines f filter count shown older
    else do
      match ← parseIncident f line with
      | none => explainLines f filter count shown older
      | some incident =>
        if filter.any fun passes => !incident.stalls.any passes then
          explainLines f filter count shown older
        else
          let pieces := (if 0 < shown then [.blank] else []) ++ [.explained line incident]
          if count ≤ shown + 1 then return pieces
          else return pieces ++ (← explainLines f filter count (shown + 1) older)

def why (f : Rounding) (args : List (List Char)) (filter : Option (Stall → Bool)) :
    Option (List Char) → Outcome Empty Answer
  | none => .ok .noLog
  | some body => do
    let pieces ← explainLines f filter (whyCount args) 0 (lines body).reverse
    return .printed pieces

/-- The line and the incident of an explanation. -/
def Piece.source : Piece → Option (List Char × Incident)
  | .explained line incident => some (line, incident)
  | _ => none

/-- What an answer explains, in order. -/
def Answer.explained (answer : Answer) : List (List Char × Incident) :=
  answer.pieces.filterMap Piece.source

def Answer.texts (f : Rounding) (now : UInt64) (answer : Answer) : List (List Char) :=
  answer.pieces.map (·.text f now)

namespace Incident

variable (f : Rounding)

/-- An incident with the line it is recorded on, as both are read. -/
def onRecord (i : Incident) : List Char × Incident := (i.toJsonl, i.recorded f)

theorem parseIncident_record (i : Incident) :
    parseIncident f i.toJsonl = .ok (if i.finite then some (i.recorded f) else none) := by
  cases finite : i.finite with
  | true => exact parseIncident_toJsonl f finite
  | false => exact parseIncident_odd f finite

theorem onRecord_tells {i j : Incident} (same : i.onRecord f = j.onRecord f) :
    i.finite = j.finite := by
  have reads := parseIncident_record f i
  rw [(Prod.mk.inj same).1, parseIncident_record] at reads
  cases hi : i.finite <;> cases hj : j.finite <;> simp_all

theorem trim_toJsonl (i : Incident) : trim i.toJsonl ≠ [] := by
  obtain ⟨rest, text⟩ : ∃ rest, i.toJsonl = '{' :: rest := ⟨_, rfl⟩
  have start : trimStartMatches isWhitespace ('{' :: rest) = '{' :: rest := rfl
  rw [text, trim, start, trimEndMatches, List.reverse_ne_nil_iff]
  intro blank
  rw [List.dropWhile_eq_nil_iff] at blank
  exact absurd (blank '{' (by simp)) (by decide)

/- Read from the newest on, every readable record is explained until there are enough. -/
theorem explainLines_records (count : ℕ) (is : List Incident) :
    ∀ shown, shown < count → ∃ pieces,
      explainLines f none count shown (is.map toJsonl) = .ok pieces ∧
        pieces.filterMap Piece.source =
          ((is.filter (·.finite)).take (count - shown)).map (onRecord f) := by
  induction is with
  | nil =>
    intro shown _
    refine ⟨_, rfl, ?_⟩
    rw [List.filter_nil, List.take_nil]
    split <;> rfl
  | cons i is ih =>
    intro shown more
    rw [List.map_cons, explainLines, if_neg i.trim_toJsonl, parseIncident_record]
    cases finite : i.finite with
    | false =>
      obtain ⟨pieces, ran, same⟩ := ih shown more
      rw [List.filter_cons_of_neg (by simp [finite])]
      exact ⟨pieces, ran, same⟩
    | true =>
      obtain ⟨left, enough⟩ := Nat.exists_eq_add_of_lt more
      have first : ((if 0 < shown then [Piece.blank] else []) ++
          [Piece.explained i.toJsonl (i.recorded f)]).filterMap Piece.source = [i.onRecord f] := by
        split <;> rfl
      have remaining : count - shown = left + 1 := by omega
      rw [List.filter_cons_of_pos finite, remaining, List.take_succ_cons, List.map_cons]
      by_cases last : count ≤ shown + 1
      · have none : left = 0 := by omega
        refine ⟨_, if_pos last, ?_⟩
        rw [first, none, List.take_zero, List.map_nil]
      · have fewer : count - (shown + 1) = left := by omega
        obtain ⟨pieces, ran, same⟩ := ih (shown + 1) (by omega)
        refine ⟨(if 0 < shown then [.blank] else []) ++ [.explained i.toJsonl (i.recorded f)] ++ pieces,
          ?_, ?_⟩
        · simp [last, ran]
        · rw [List.filterMap_append, first, same, fewer]
          rfl

end Incident

variable (f : Rounding)

open Incident Files

/- Only the live file is read. -/
theorem why_live {fs : Files} {g : Generations Incident} (holds : Holds toJsonl fs g)
    {args : List (List Char)} (one : 1 ≤ whyCount args) :
    ∃ answer, why f args none fs.live = .ok answer ∧ answer.explained =
      ((g.live.reverse.filter (·.finite)).take (whyCount args)).map (onRecord f) := by
  cases file : fs.live with
  | none =>
    have empty : g.live = [] := by
      by_contra filled
      have live := holds.live
      rw [file, written, if_neg filled] at live
      contradiction
    rw [empty]
    exact ⟨.noLog, rfl, by simp [Answer.explained, Answer.pieces]⟩
  | some body =>
    have clean : ∀ i ∈ g.live, i.toJsonl.getLast? ≠ some '\r' := by
      intro i _
      rw [i.toJsonl_last]
      decide
    have read := lines_written toJsonl (fun i _ => i.toJsonl_oneLine) clean (holds.live.symm.trans file)
    obtain ⟨pieces, ran, same⟩ := explainLines_records f (whyCount args) g.live.reverse 0 one
    refine ⟨.printed pieces, ?_, same⟩
    rw [why, read, ← List.map_reverse, ran]
    rfl

/-- The answer is the newest records of both generations exactly when they are all in the
live file and readable. -/
theorem why_newest_iff (maxBytes : UInt64) (calls : List (Bool × Incident))
    {args : List (List Char)} (one : 1 ≤ whyCount args) :
    ∃ g : Generations Incident,
      Holds toJsonl (appendAll toJsonl maxBytes absent calls) g ∧
      g.kept <:+ calls.map Prod.snd ∧
      ∃ answer, why f args none (appendAll toJsonl maxBytes absent calls).live = .ok answer ∧
        (answer.explained = (g.newest (whyCount args)).map (onRecord f) ↔
          (whyCount args ≤ g.live.length ∨ g.previous = []) ∧
            ∀ i ∈ g.newest (whyCount args), i.finite = true) := by
  obtain ⟨g, holds, kept⟩ := appendAll_holds toJsonl maxBytes calls
  obtain ⟨answer, answered, same⟩ := why_live f holds one
  refine ⟨g, holds, kept, answer, answered, ?_⟩
  rw [same]
  exact g.newest_seen_iff (fun _ _ => onRecord_tells f) (whyCount args)

/-- A capture of one stalled unit. -/
def frozen : Incident where
  atUnix := 1700000000
  windowUsec := 1000000
  wokeOn := ["io"]
  stalls := [⟨"a.service", "/a.service", .io, .full, 500000, .whole 50, .whole 50⟩]
  warnings := []
  culprits := []
  causes := []

def later : Incident := { frozen with atUnix := 1700000060 }

/-- A capture that found nothing. -/
def quiet : Incident := { frozen with atUnix := 1700000060, stalls := [] }

theorem why_newest_iff_two : ∃ g : Generations Incident,
    Holds toJsonl (appendAll toJsonl 1 absent [(true, frozen), (true, later)]) g ∧
    g.kept <:+ [frozen, later] ∧
    ∃ answer, why .exact [['-', 'n'], ['2']] none
        (appendAll toJsonl 1 absent [(true, frozen), (true, later)]).live = .ok answer ∧
      (answer.explained = (g.newest (whyCount [['-', 'n'], ['2']])).map (onRecord .exact) ↔
        (whyCount [['-', 'n'], ['2']] ≤ g.live.length ∨ g.previous = []) ∧
          ∀ i ∈ g.newest (whyCount [['-', 'n'], ['2']]), i.finite = true) :=
  why_newest_iff .exact 1 [(true, frozen), (true, later)] (by decide)

/-- The second append rotates, and the first incident is on disk but not in the answer. -/
theorem why_rotated :
    appendAll toJsonl 1 absent [(true, frozen), (true, later)] =
      ⟨written toJsonl [later], written toJsonl [frozen]⟩ ∧
    frozen.stalls ≠ [] ∧ later.stalls ≠ [] ∧ whyCount [['-', 'n'], ['2']] = 2 ∧
    ∃ answer, why .exact [['-', 'n'], ['2']] none
        (appendAll toJsonl 1 absent [(true, frozen), (true, later)]).live = .ok answer ∧
      answer.explained = [later].map (onRecord .exact) ∧
      answer.explained ≠ [later, frozen].map (onRecord .exact) := by
  have files : appendAll toJsonl 1 absent [(true, frozen), (true, later)] =
      ⟨written toJsonl [later], written toJsonl [frozen]⟩ := by decide +kernel
  have holds : Holds toJsonl (appendAll toJsonl 1 absent [(true, frozen), (true, later)])
      ⟨[frozen], [later]⟩ := by
    rw [files]
    exact ⟨rfl, rfl⟩
  have count : 1 ≤ whyCount [['-', 'n'], ['2']] := by decide
  obtain ⟨answer, answered, same⟩ := why_live .exact holds count
  have one : answer.explained = [later].map (onRecord .exact) := same
  refine ⟨files, by decide, by decide, by decide, answer, answered, one, ?_⟩
  rw [one]
  exact fun h => by simpa using congrArg List.length h

/- Only an incident without a stall is explained by the denial. -/
theorem explain_denies (now : UInt64) (i : Incident) :
    i.explain f now = nothingRecorded ↔ i.stalls = [] := by
  constructor
  · intro denied
    cases stalls : i.stalls with
    | nil => rfl
    | cons worst others =>
      have head : (i.explain f now).head? = some 'Y' := by
        simp only [explain, Incident.worst, stalls, List.head?_cons]
        rfl
      rw [denied] at head
      exact absurd head (by decide)
  · intro none
    simp only [explain, Incident.worst, none, List.head?_nil]

theorem denies_iff (now : UInt64) (answer : Answer) :
    nothingRecorded ∈ answer.texts f now ↔ ∃ e ∈ answer.explained, e.2.stalls = [] := by
  simp only [Answer.texts, Answer.explained, List.mem_map, List.mem_filterMap]
  constructor
  · rintro ⟨piece, printed, denied⟩
    cases piece with
    | blank => exact absurd denied (by decide : ['\n'] ≠ nothingRecorded)
    | nothing => exact absurd denied (by decide : nothingMatches ≠ nothingRecorded)
    | explained line incident =>
      exact ⟨_, ⟨_, printed, rfl⟩, (explain_denies f now incident).mp denied⟩
  · rintro ⟨e, ⟨piece, printed, source⟩, empty⟩
    cases piece with
    | blank => contradiction
    | nothing => contradiction
    | explained line incident =>
      cases source
      exact ⟨_, printed, (explain_denies f now incident).mpr empty⟩

/-- A recorded stall is denied exactly when a record without one is among those explained. -/
theorem why_denies_iff (maxBytes : UInt64) (calls : List (Bool × Incident)) (now : UInt64)
    {args : List (List Char)} (one : 1 ≤ whyCount args) :
    ∃ g : Generations Incident,
      Holds toJsonl (appendAll toJsonl maxBytes absent calls) g ∧
      g.kept <:+ calls.map Prod.snd ∧
      ∃ answer, why f args none (appendAll toJsonl maxBytes absent calls).live = .ok answer ∧
        (nothingRecorded ∉ answer.texts f now ↔
          ∀ i ∈ (g.live.reverse.filter (·.finite)).take (whyCount args), i.stalls ≠ []) := by
  obtain ⟨g, holds, kept⟩ := appendAll_holds toJsonl maxBytes calls
  obtain ⟨answer, answered, same⟩ := why_live f holds one
  refine ⟨g, holds, kept, answer, answered, ?_⟩
  rw [denies_iff, same]
  constructor
  · intro never i member empty
    exact never ⟨_, List.mem_map_of_mem member, List.map_eq_nil_iff.mpr empty⟩
  · rintro stalled ⟨e, shown, empty⟩
    obtain ⟨i, member, rfl⟩ := List.mem_map.mp shown
    exact stalled i member (List.map_eq_nil_iff.mp empty)

theorem why_denies_iff_two : ∃ g : Generations Incident,
    Holds toJsonl (appendAll toJsonl defaultMaxBytes absent [(true, frozen), (true, quiet)]) g ∧
    g.kept <:+ [frozen, quiet] ∧
    ∃ answer, why .exact [] none
        (appendAll toJsonl defaultMaxBytes absent [(true, frozen), (true, quiet)]).live = .ok answer ∧
      (nothingRecorded ∉ answer.texts .exact 1700000120 ↔
        ∀ i ∈ (g.live.reverse.filter (·.finite)).take (whyCount []), i.stalls ≠ []) :=
  why_denies_iff .exact defaultMaxBytes [(true, frozen), (true, quiet)] 1700000120 (by decide)

/-- The newest capture found nothing, and the stall recorded before it is denied. -/
theorem why_denied :
    appendAll toJsonl defaultMaxBytes absent [(true, frozen), (true, quiet)] =
      ⟨written toJsonl [frozen, quiet], none⟩ ∧
    frozen.stalls ≠ [] ∧ whyCount [] = 1 ∧
    ∃ answer, why .exact [] none
        (appendAll toJsonl defaultMaxBytes absent [(true, frozen), (true, quiet)]).live = .ok answer ∧
      nothingRecorded ∈ answer.texts .exact 1700000120 := by
  have files : appendAll toJsonl defaultMaxBytes absent [(true, frozen), (true, quiet)] =
      ⟨written toJsonl [frozen, quiet], none⟩ := by decide +kernel
  have holds : Holds toJsonl
      (appendAll toJsonl defaultMaxBytes absent [(true, frozen), (true, quiet)])
      ⟨[], [frozen, quiet]⟩ := by
    rw [files]
    exact ⟨rfl, rfl⟩
  have count : 1 ≤ whyCount [] := by decide
  obtain ⟨answer, answered, same⟩ := why_live .exact holds count
  have one : answer.explained = [quiet].map (onRecord .exact) := same
  refine ⟨files, by decide, by decide, answer, answered, ?_⟩
  rw [denies_iff, one]
  exact ⟨_, List.mem_singleton_self _, rfl⟩

end Stallwatch
