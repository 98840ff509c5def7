import Stallwatch.Base.Utf8

/-! Reading a stream of bytes line by line. -/
namespace Stallwatch.Utf8

/-- Up to the first newline, and with it. -/
def splitLine : List UInt8 → List UInt8 × List UInt8
  | [] => ([], [])
  | b :: input =>
    if b = 0x0A then ([b], input)
    else
      let (line, rest) := splitLine input
      (b :: line, rest)

theorem splitLine_line {line : List UInt8} (clean : 0x0A ∉ line) (rest : List UInt8) :
    splitLine (line ++ 0x0A :: rest) = (line ++ [0x0A], rest) := by
  induction line with
  | nil => rfl
  | cons b line ih =>
    rw [List.mem_cons, not_or] at clean
    rw [List.cons_append, splitLine, if_neg (Ne.symm clean.1), ih clean.2]
    rfl

theorem splitLine_last {line : List UInt8} (clean : 0x0A ∉ line) : splitLine line = (line, []) := by
  induction line with
  | nil => rfl
  | cons b line ih =>
    rw [List.mem_cons, not_or] at clean
    rw [splitLine, if_neg (Ne.symm clean.1), ih clean.2]

/- The line is ended where there is a newline. -/
theorem splitLine_ended (input : List UInt8) :
    (splitLine input).1.getLast? = some 0x0A ↔ 0x0A ∈ input := by
  by_cases ended : 0x0A ∈ input
  · obtain ⟨line, rest, rfl, clean⟩ := List.eq_append_cons_of_mem ended
    rw [splitLine_line clean]
    simp
  · rw [splitLine_last ended]
    exact iff_of_false (fun last => ended (List.mem_of_getLast? last)) ended

theorem newline_bytes {cs : List Char} (clean : '\n' ∉ cs) : 0x0A ∉ bytes cs := fun member =>
  clean (mem_bytes_ascii (c := '\n') (by decide) member)

theorem bytes_newline (cs : List Char) : bytes (cs ++ ['\n']) = bytes cs ++ [0x0A] := by
  rw [bytes_append]
  rfl

/-- A line that is written in front of anything is read alone. -/
theorem splitLine_written {cs : List Char} (clean : '\n' ∉ cs) (rest : List UInt8) :
    splitLine (bytes (cs ++ ['\n']) ++ rest) = (bytes (cs ++ ['\n']), rest) := by
  rw [bytes_newline, List.append_assoc]
  exact splitLine_line (newline_bytes clean) rest

end Stallwatch.Utf8

namespace Stallwatch

open Utf8

/-- What a peer has sent when the reader stops waiting for more: it has closed its side, or
the reading times out. -/
structure Arrival where
  received : List UInt8
  closed : Bool

namespace Arrival

/-- Why no line could be read. -/
inductive Failure where
  | notText | timedOut
  deriving DecidableEq, Repr

/-- `read_line`; at the end of a closed stream it reads an empty line. What is left is left for
the same reader, which may have it in its buffer already. -/
def readLine (a : Arrival) : Except Failure (List Char × Arrival) :=
  let (line, rest) := splitLine a.received
  if line.getLast? = some 0x0A ∨ a.closed = true then
    match fromUtf8 line with
    | some text => .ok (text, ⟨rest, a.closed⟩)
    | none => .error .notText
  else .error .timedOut

theorem readLine_written {line : List Char} (clean : '\n' ∉ line) (rest : List UInt8) (closed : Bool) :
    (Arrival.mk (bytes (line ++ ['\n']) ++ rest) closed).readLine =
      .ok (line ++ ['\n'], ⟨rest, closed⟩) := by
  have ends : (bytes (line ++ ['\n'])).getLast? = some 0x0A := by
    rw [bytes_newline, List.getLast?_concat]
  unfold readLine
  simp only [splitLine_written clean, ends, true_or, if_true, fromUtf8_bytes]

/- Nothing is read from a line that is no text, or that a peer who stays does not end. -/
theorem readLine_fails (a : Arrival) : (∃ e, a.readLine = .error e) ↔
    fromUtf8 (splitLine a.received).1 = none ∨ 0x0A ∉ a.received ∧ a.closed = false := by
  unfold readLine
  simp only [splitLine_ended]
  by_cases whole : 0x0A ∈ a.received ∨ a.closed = true
  · have never : ¬(0x0A ∉ a.received ∧ a.closed = false) := by simpa [or_iff_not_imp_left] using whole
    rw [if_pos whole, or_iff_left never]
    cases fromUtf8 (splitLine a.received).1 <;> simp
  · rw [if_neg whole]
    exact iff_of_true ⟨_, rfl⟩ (.inr (by simpa using whole))

theorem readLine_text {a rest : Arrival} {line : List Char} (read : a.readLine = .ok (line, rest)) :
    fromUtf8 (splitLine a.received).1 = some line := by
  unfold readLine at read
  dsimp only at read
  split at read
  · split at read
    · rename_i text decoded
      cases read
      exact decoded
    · cases read
  · cases read

theorem readLine_closed {a rest : Arrival} {line : List Char} (read : a.readLine = .ok (line, rest)) :
    rest.closed = a.closed := by
  unfold readLine at read
  dsimp only at read
  split at read
  · split at read <;> cases read
    rfl
  · cases read

theorem readLine_timedOut {a : Arrival} (waited : a.readLine = .error .timedOut) : a.closed = false := by
  unfold readLine at waited
  dsimp only at waited
  split at waited
  · split at waited <;> cases waited
  · rename_i silent
    exact Bool.eq_false_iff.mpr fun closed => silent (.inr closed)

end Arrival

end Stallwatch
