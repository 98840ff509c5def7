import Stallwatch.Base.Lines
import Stallwatch.Base.Words
import Stallwatch.Report.Pretty
import Stallwatch.Report.Text
import Stallwatch.Varlink.Serve

/-! The query protocol of the daemon: one request line in, one reply out. -/
namespace Stallwatch

open Text Utf8

/-- `to_ascii_uppercase`. -/
def Text.asciiUpper (cs : List Char) : List Char := cs.map Char.toUpper

/-- How the daemon renders its reply. -/
inductive Format where
  | json | text
  deriving DecidableEq, Repr

inductive Request where
  | ping
  | now (fmt : Format)
  | since (secs : UInt64) (fmt : Format)
  deriving DecidableEq, Repr

protected def Format.parse (tok : Option (List Char)) : Format :=
  match tok.map asciiUpper with
  | some t => if t = "TEXT".toList then .text else .json
  | none => .json

def Format.token : Format → List Char
  | .json => "json".toList
  | .text => "text".toList

/-- Unknown verbs are rejected. -/
protected def Request.parse (line : List Char) : Option Request :=
  match splitWhitespace (trim line) with
  | [] => none
  | verb :: rest =>
    let verb := asciiUpper verb
    if verb = "PING".toList then some .ping
    else if verb = "NOW".toList then some (.now (.parse rest.head?))
    else if verb = "SINCE".toList then
      match rest with
      | [] => none
      | secs :: rest => (parseUnsigned 64 secs).map fun n => .since (.ofNat n) (.parse rest.head?)
    else none

namespace Ipc

variable {f : Rounding}

/-- What the daemon finds when it answers a line: the clock, the history unless its lock is
poisoned, and the findings of a scan. -/
structure Moment where
  nowUnix : UInt64
  ring : Option Ring
  order : Shuffle Stall.Key Total
  scan : List Warning

def render (f : Rounding) (r : Report) : Format → List Char
  | .json => r.toJson
  | .text => r.toText f

/-- The newest frame as a report. -/
def newest (m : Moment) : Report :=
  match m.ring.bind Ring.newest with
  | some frame => ⟨frame.windowUsec, frame.stalls, [], []⟩
  | none => .default

/-- The frames of the last seconds as a report. -/
def since (f : Rounding) (m : Moment) (secs : UInt64) : Report :=
  let since := Counter.saturatingSub m.nowUnix secs
  let r := m.ring.elim .default (·.aggregate f m.order since)
  { r with warnings := m.scan }

def expected : List Char := "\x7b\"error\": \"expected PING | NOW | SINCE <secs>\"\x7d".toList

def answer (f : Rounding) (m : Moment) : Option Request → List Char
  | some .ping => "PONG".toList
  | some (.now fmt) => render f (newest m) fmt
  | some (.since secs fmt) => render f (since f m secs) fmt
  | none => expected

/-- A connection: what does not read as a line is left without a reply. -/
def handle (f : Rounding) (m : Moment) (a : Arrival) : List UInt8 :=
  match a.readLine with
  | .error _ => []
  | .ok (line, _) => bytes (answer f m (Request.parse line) ++ ['\n'])

/-- What the command line sends. -/
def ask (secs : ℕ) (json : Bool) : List Char :=
  "SINCE".toList ++ [' '] ++ decimal secs ++ [' '] ++ (if json then Format.json else .text).token ++ ['\n']

/-- It reads lines until there are none. -/
def readLines : ℕ → List UInt8 → Option (List Char)
  | 0, _ => none
  | fuel + 1, input =>
    let (line, rest) := splitLine input
    if line = [] then some []
    else do
      let line ← fromUtf8 line
      let out ← readLines fuel rest
      return line ++ out

/-- One exchange over the socket, which the command line keeps open. -/
def queryDaemon (f : Rounding) (m : Moment) (secs : ℕ) (json : Bool) : Except String String :=
  let reply := handle f m ⟨bytes (ask secs json), false⟩
  match readLines (reply.length + 1) reply with
  | some out => .ok (String.ofList out)
  | none => .error "stream did not contain valid UTF-8"

section Lines

/- One turn of the loop takes one line. -/
theorem readLines_step {line : List Char} (some : line ≠ []) {input rest : List UInt8}
    (split : splitLine input = (bytes line, rest)) (fuel : ℕ) :
    readLines (fuel + 1) input = (readLines fuel rest).map (line ++ ·) := by
  have nonempty : bytes line ≠ [] := by
    obtain ⟨c, cs, rfl⟩ := List.exists_cons_of_ne_nil some
    simp
  rw [readLines, split]
  dsimp only
  rw [if_neg nonempty, fromUtf8_bytes]
  cases readLines fuel rest <;> rfl

/- A text comes back, however it is cut into lines. -/
theorem readLines_bytes (cs : List Char) {fuel : ℕ} (enough : (bytes cs).length < fuel) :
    readLines fuel (bytes cs) = some cs := by
  induction cs using split_induct '\n' generalizing fuel with
  | whole cs clean =>
    obtain ⟨fuel, rfl⟩ := Nat.exists_eq_add_of_le' (by omega : 1 ≤ fuel)
    by_cases empty : cs = []
    · rw [empty]
      rfl
    · obtain ⟨fuel, rfl⟩ : ∃ m, fuel = m + 1 := by
        obtain ⟨c, cs, rfl⟩ := List.exists_cons_of_ne_nil empty
        have pos := List.length_pos_iff.mpr (encode_ne_nil c)
        rw [bytes_cons, List.length_append] at enough
        exact ⟨fuel - 1, by omega⟩
      rw [readLines_step empty (splitLine_last (newline_bytes clean))]
      simp [readLines, splitLine]
  | cut as bs clean _ ih =>
    obtain ⟨fuel, rfl⟩ := Nat.exists_eq_add_of_le' (by omega : 1 ≤ fuel)
    have shape : bytes (as ++ '\n' :: bs) = bytes (as ++ ['\n']) ++ bytes bs := by
      rw [← bytes_append, List.append_assoc]
      rfl
    have split := splitLine_written clean (bytes bs)
    rw [shape] at enough ⊢
    rw [List.length_append, bytes_newline, List.length_append, List.length_singleton] at enough
    rw [readLines_step (by simp) split, ih (by omega)]
    simp

end Lines

section Exchange

theorem since_word : IsWord "SINCE".toList := by simp [IsWord, isWhitespace]

theorem token_word (fmt : Format) : IsWord fmt.token := by
  cases fmt <;> simp [Format.token, IsWord, isWhitespace]

theorem parse_since {line verb secs : List Char} {rest : List (List Char)}
    (words : splitWhitespace (trim line) = verb :: secs :: rest)
    (since : asciiUpper verb = "SINCE".toList) : Request.parse line =
      (parseUnsigned 64 secs).map fun n => .since (.ofNat n) (.parse rest.head?) := by
  have ping : "SINCE".toList ≠ "PING".toList := by decide
  have now : "SINCE".toList ≠ "NOW".toList := by decide
  unfold Request.parse
  simp only [words, since, if_neg ping, if_neg now, if_true]

theorem parse_token (fmt : Format) : Format.parse (some fmt.token) = fmt := by
  cases fmt <;> decide

/-- The daemon reads what the command line asks. -/
theorem parse_ask {secs : ℕ} (small : secs < 2 ^ 64) (json : Bool) :
    Request.parse (ask secs json) = some (.since (.ofNat secs) (if json then .json else .text)) := by
  have words := words_three since_word (decimal_word secs) (token_word (if json then .json else .text))
    (blank_char (c := '\n') rfl)
  have parsed := parse_since ((words_trim (ask secs json)).trans words) (by decide)
  rw [parseUnsigned_decimal 64 secs small, Option.map_some, List.head?_cons, parse_token] at parsed
  exact parsed

/- A line is answered as soon as it is ended. -/
theorem handle_line (m : Moment) {line : List Char} (clean : '\n' ∉ line) (rest : List UInt8)
    (closed : Bool) : handle f m ⟨bytes (line ++ ['\n']) ++ rest, closed⟩ =
      bytes (answer f m (Request.parse (line ++ ['\n'])) ++ ['\n']) := by
  unfold handle
  rw [Arrival.readLine_written clean]

theorem handle_ask (m : Moment) (secs : ℕ) (json : Bool) :
    handle f m ⟨bytes (ask secs json), false⟩ =
      bytes (answer f m (Request.parse (ask secs json)) ++ ['\n']) := by
  have blank : '\n' ∉ [' '] := by decide
  have clean : '\n' ∉ "SINCE".toList ++ [' '] ++ decimal secs ++ [' '] ++
      (if json then Format.json else .text).token := by
    simp only [List.mem_append, not_or]
    exact ⟨⟨⟨⟨word_line since_word, blank⟩, word_line (decimal_word secs)⟩, blank⟩,
      word_line (token_word _)⟩
  have alone := handle_line (f := f) m clean [] false
  rwa [List.append_nil] at alone

/-- One exchange brings the whole reply. -/
theorem queryDaemon_eq (m : Moment) {secs : ℕ} (small : secs < 2 ^ 64) (json : Bool) :
    queryDaemon f m secs json = .ok (String.ofList
      (render f (since f m (.ofNat secs)) (if json then .json else .text) ++ ['\n'])) := by
  have reply := handle_ask (f := f) m secs json
  have read := readLines_bytes (answer f m (Request.parse (ask secs json)) ++ ['\n']) (Nat.lt_succ_self _)
  unfold queryDaemon
  simp only [reply, read]
  rw [parse_ask small]
  rfl

end Exchange

end Ipc

end Stallwatch
