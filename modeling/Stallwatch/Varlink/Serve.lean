import Stallwatch.Json.Written
import Stallwatch.Report.Finite

/-! A Varlink connection: requests and replies end with a NUL. The code answers each request
with one frame, whatever its names and the names in the reports are. -/
namespace Stallwatch.Varlink

open Json Text Utf8

/-- What the daemon finds when it answers a call: the observation for a window, the clock,
the history unless its lock is poisoned, and the findings of a scan. -/
structure Scene (f : Rounding) where
  observe : UInt64 → Report
  observed : ∀ windowMs, Observed f (observe windowMs)
  nowUnix : UInt64
  ring : Option Ring
  sampled : ∀ r ∈ ring, ∀ fr ∈ r.frames, Sampled f fr
  order : Shuffle Stall.Key Total
  scan : List Warning

variable {f : Rounding}

def history (scene : Scene f) (seconds : UInt64) : Report :=
  let since := Counter.saturatingSub scene.nowUnix seconds
  let r := scene.ring.elim .default (·.aggregate f scene.order since)
  { r with warnings := scene.scan }

def answer (scene : Scene f) : Call → List Char
  | .getInfo => replyInfo
  | .getInterfaceDescription iface =>
    if iface = interface then replyInterfaceDescription else errorFor (.unknownInterface iface)
  | .getStalls windowMs => replyReport (scene.observe windowMs)
  | .getHistory seconds => replyReport (history scene seconds)

def reply (scene : Scene f) (text : List Char) : Outcome Empty (List Char) :=
  match parseCall f text with
  | .ok call => .ok (answer scene call)
  | .err e => .ok (errorFor e)
  | .panic => .panic

/-- Up to the first NUL, and with it; at the end of the input there may be none. -/
def readUntil : List UInt8 → List UInt8 × List UInt8
  | [] => ([], [])
  | b :: input =>
    if b = 0 then ([b], input)
    else
      let (frame, rest) := readUntil input
      (b :: frame, rest)

def writeFrame (text : List Char) : List UInt8 := bytes text ++ [0]

/-- The loop, at the request with this index. A read that fails ends the input. -/
def serve (scenes : ℕ → Scene f) : ℕ → ℕ → List UInt8 → Outcome Empty (List UInt8)
  | 0, _, _ => .panic
  | fuel + 1, index, input =>
    let (frame, rest) := readUntil input
    if frame = [] then .ok []
    else
      let frame := if frame.getLast? = some 0 then frame.dropLast else frame
      match fromUtf8 frame with
      | none => .ok (writeFrame (errorFor (.malformed "not UTF-8")))
      | some text =>
        if trim text = [] then .ok []
        else do
          let text ← reply (scenes index) text
          let out ← serve scenes fuel (index + 1) rest
          return writeFrame text ++ out

def handleVarlink (scenes : ℕ → Scene f) (input : List UInt8) : Outcome Empty (List UInt8) :=
  serve scenes (input.length + 1) 0 input

/-- The request is no call, or asks for the description of another interface. -/
def Rejected (f : Rounding) (text : List Char) : Prop :=
  (∃ e, parseCall f text = .err e) ∨
    ∃ iface, iface ≠ interface ∧ parseCall f text = .ok (.getInterfaceDescription iface)

/-- A frame that is JSON without a control character, with an error key or without. -/
structure Framed (f : Rounding) (failed : Prop) (text : List Char) : Prop where
  printed : Printed text
  parsed : ∃ j, parse f text = .ok j ∧ ((j.get "error".toList).isSome = true ↔ failed)

theorem Framed.congr {p q : Prop} {text : List Char} (framed : Framed f p text) (same : p ↔ q) :
    Framed f q text := by
  obtain ⟨j, parsed, error⟩ := framed.parsed
  exact ⟨framed.printed, j, parsed, error.trans same⟩

theorem framed_parameters {params : List Char} {j : Json} (read : Reads f params j)
    (printed : Printed params) : Framed f False (record [("parameters", params)]) := by
  have fields : FieldsRead f [("parameters", params)] [("parameters", j)] := .field rfl read .nil
  refine ⟨?_, _, parse_reads (reads_record fields), ?_⟩
  · apply printed_record
    · simp only [List.forall_mem_singleton]
      rfl
    · simpa using printed
  · rw [get_ofEntries (by simp)]
    simp

theorem framed_error {name : String} {params : List Char} {j : Json} (read : Reads f params j)
    (printed : Printed params) : Framed f True (replyError name params) := by
  have fields : FieldsRead f [("error", esc name.toList), ("parameters", params)]
      [("error", .str name.toList), ("parameters", j)] :=
    .field rfl (esc_escaper.reads f _) (.field rfl read .nil)
  refine ⟨?_, _, parse_reads (reads_record fields), ?_⟩
  · apply printed_record
    · simp only [List.forall_mem_cons]
      exact ⟨rfl, rfl, List.forall_mem_nil _⟩
    · simp only [List.forall_mem_cons]
      exact ⟨esc_escaper.printed _, printed, List.forall_mem_nil _⟩
  · rw [get_ofEntries (by simp)]
    simp

/- A name of the client's choosing is escaped. -/
theorem framed_named {name k : String} (plain : jstr k.toList = bare k) (s : List Char) :
    Framed f True (replyError name (record [(k, esc s)])) := by
  have fields : FieldsRead f [(k, esc s)] [(k, .str s)] := .field plain (esc_escaper.reads f s) .nil
  refine framed_error (reads_record fields) (printed_record ?_ ?_)
  · simpa using plain
  · simpa using esc_escaper.printed s

theorem framed_errorFor (e : CallError) : Framed f True (errorFor e) := by
  cases e with
  | malformed why => exact framed_named rfl _
  | unknownMethod m => exact framed_named rfl _
  | unknownInterface i => exact framed_named rfl _

theorem framed_info : Framed f False replyInfo := by
  have interfaces : Reads f (list [bare serviceInterface, bare interface])
      (.arr [.str serviceInterface.toList, .str interface.toList]) :=
    reads_list (.cons (reads_bare rfl) (.cons (reads_bare rfl) .nil))
  have fields : FieldsRead f [("vendor", bare "stallwatch"), ("product", bare "stallwatch"),
      ("version", esc version.toList), ("url", bare "https://github.com/varbees/stallwatch"),
      ("interfaces", list [bare serviceInterface, bare interface])]
      [("vendor", .str "stallwatch".toList), ("product", .str "stallwatch".toList),
        ("version", .str version.toList), ("url", .str "https://github.com/varbees/stallwatch".toList),
        ("interfaces", .arr [.str serviceInterface.toList, .str interface.toList])] := by
    apply FieldsRead.field rfl (reads_bare rfl)
    apply FieldsRead.field rfl (reads_bare rfl)
    apply FieldsRead.field rfl (esc_escaper.reads f _)
    apply FieldsRead.field rfl (reads_bare rfl)
    exact .field rfl interfaces .nil
  refine framed_parameters (reads_record fields) (printed_record ?_ ?_)
  · simp only [List.forall_mem_cons]
    exact ⟨rfl, rfl, rfl, rfl, rfl, List.forall_mem_nil _⟩
  · simp only [List.forall_mem_cons]
    exact ⟨rfl, rfl, esc_escaper.printed _, rfl, rfl, List.forall_mem_nil _⟩

theorem framed_description : Framed f False replyInterfaceDescription := by
  have fields : FieldsRead f [("description", esc interfaceDescription.toList)]
      [("description", .str interfaceDescription.toList)] := .field rfl (esc_escaper.reads f _) .nil
  refine framed_parameters (reads_record fields) (printed_record ?_ ?_)
  · simp only [List.forall_mem_singleton]
    rfl
  · simpa using esc_escaper.printed _

theorem framed_report {r : Report} (finite : r.finite = true) : Framed f False (replyReport r) :=
  framed_parameters (r.reads_compact f finite) r.toJsonCompact_printed

theorem history_finite (scene : Scene f) (seconds : UInt64) : (history scene seconds).finite = true := by
  unfold history
  cases ring : scene.ring with
  | none => rfl
  | some r =>
    exact Ring.aggregate_finite f scene.order
      (fun fr frame => (scene.sampled r (by simp [ring]) fr frame).finite) _

theorem framed_answer (scene : Scene f) (call : Call) :
    Framed f (∃ iface, iface ≠ interface ∧ call = .getInterfaceDescription iface)
      (answer scene call) := by
  cases call with
  | getInfo => exact framed_info.congr (by simp)
  | getInterfaceDescription iface =>
    rw [answer]
    split
    · rename_i known
      exact framed_description.congr (by simp [known])
    · rename_i other
      exact (framed_errorFor _).congr (by simp [other])
  | getStalls windowMs => exact (framed_report (scene.observed windowMs).finite).congr (by simp)
  | getHistory seconds => exact (framed_report (history_finite scene seconds)).congr (by simp)

theorem call_total (params : Option Json) (method : String) : call params method ≠ .panic := by
  unfold call
  split
  · exact nofun
  · split <;> exact nofun
  · exact nofun
  · split <;> exact nofun
  · exact nofun

theorem parseCall_total (f : Rounding) (text : List Char) : parseCall f text ≠ .panic := by
  unfold parseCall
  split
  · rename_i panicked
    exact absurd panicked (parse_total f text)
  · exact nofun
  · split
    · exact nofun
    · exact call_total _ _

theorem framed_reply (scene : Scene f) (request : List Char) :
    ∃ text, reply scene request = .ok text ∧ Framed f (Rejected f request) text := by
  cases parsed : parseCall f request with
  | ok call =>
    refine ⟨answer scene call, by rw [reply, parsed], (framed_answer scene call).congr ?_⟩
    simp [Rejected, parsed]
  | err e =>
    refine ⟨errorFor e, by rw [reply, parsed], (framed_errorFor e).congr ?_⟩
    simp [Rejected, parsed]
  | panic => exact absurd parsed (parseCall_total f request)

theorem readUntil_frame {frame : List UInt8} (clean : 0 ∉ frame) (rest : List UInt8) :
    readUntil (frame ++ 0 :: rest) = (frame ++ [0], rest) := by
  induction frame with
  | nil => rfl
  | cons b frame ih =>
    rw [List.mem_cons, not_or] at clean
    rw [List.cons_append, readUntil, if_neg (Ne.symm clean.1), ih clean.2]
    rfl

theorem zero_bytes {text : List Char} (clean : '\x00' ∉ text) : 0 ∉ bytes text := fun member =>
  clean (mem_bytes_ascii (c := '\x00') (by decide) member)

/- A request that is a frame of its own is answered, and the loop goes on behind it. -/
theorem serve_frame (scenes : ℕ → Scene f) {request : List Char} (clean : '\x00' ∉ request)
    (filled : trim request ≠ []) (fuel index : ℕ) (rest : List UInt8) :
    serve scenes (fuel + 1) index (writeFrame request ++ rest) =
      (reply (scenes index) request >>= fun text =>
        serve scenes fuel (index + 1) rest >>= fun out => .ok (writeFrame text ++ out)) := by
  have frame := readUntil_frame (zero_bytes clean) rest
  rw [serve, writeFrame, List.append_assoc, List.singleton_append, frame]
  dsimp only
  rw [if_neg (by simp), if_pos (by simp), List.dropLast_concat, fromUtf8_bytes]
  dsimp only
  rw [if_neg filled]
  rfl

/-- The replies are those to the requests, in their order. -/
abbrev Replies (scenes : ℕ → Scene f) : List (List Char × ℕ) → List (List Char) → Prop :=
  List.Forall₂ fun request text => reply (scenes request.2) request.1 = .ok text

theorem serve_frames (scenes : ℕ → Scene f) {requests : List (List Char)}
    (clean : ∀ r ∈ requests, '\x00' ∉ r) (filled : ∀ r ∈ requests, trim r ≠ []) (index : ℕ) {fuel : ℕ}
    (enough : requests.length < fuel) : ∃ texts, Replies scenes (requests.zipIdx index) texts ∧
      serve scenes fuel index (requests.flatMap writeFrame) = .ok (texts.flatMap writeFrame) := by
  induction requests generalizing fuel index with
  | nil =>
    obtain ⟨fuel, rfl⟩ := Nat.exists_eq_add_of_le' (by omega : 1 ≤ fuel)
    exact ⟨[], .nil, rfl⟩
  | cons request requests ih =>
    obtain ⟨fuel, rfl⟩ := Nat.exists_eq_add_of_le' (by omega : 1 ≤ fuel)
    rw [List.length_cons] at enough
    obtain ⟨here, others⟩ := List.forall_mem_cons.mp clean
    obtain ⟨some, nonblank⟩ := List.forall_mem_cons.mp filled
    have room : requests.length < fuel := by omega
    obtain ⟨text, replied, _⟩ := framed_reply (scenes index) request
    obtain ⟨texts, replies, served⟩ := ih others nonblank (index + 1) room
    refine ⟨text :: texts, .cons replied replies, ?_⟩
    rw [List.flatMap_cons, serve_frame scenes here some, replied, Outcome.ok_bind, served]
    rfl

theorem frames_length (texts : List (List Char)) : texts.length ≤ (texts.flatMap writeFrame).length := by
  induction texts with
  | nil => exact le_rfl
  | cons text texts ih =>
    rw [List.flatMap_cons, List.length_append, List.length_cons, writeFrame, List.length_append,
      List.length_singleton]
    omega

theorem split_frames {texts : List (List Char)} (clean : ∀ t ∈ texts, 0 ∉ bytes t) :
    (texts.flatMap writeFrame).splitOn 0 = texts.map bytes ++ [[]] := by
  induction texts with
  | nil => rfl
  | cons text texts ih =>
    obtain ⟨here, others⟩ := List.forall_mem_cons.mp clean
    rw [List.flatMap_cons, writeFrame, List.append_assoc, List.singleton_append,
      List.splitOn_append_cons_self_of_not_mem here, ih others]
    rfl

theorem Replies.framed {scenes : ℕ → Scene f} {requests : List (List Char)} {index : ℕ}
    {texts : List (List Char)} (replies : Replies scenes (requests.zipIdx index) texts) :
    List.Forall₂ (fun request text => Framed f (Rejected f request) text) requests texts := by
  have each : List.Forall₂ (fun request text => Framed f (Rejected f request.1) text)
      (requests.zipIdx index) texts := by
    refine replies.imp fun request text replied => ?_
    obtain ⟨text', replied', framed⟩ := framed_reply (scenes request.2) request.1
    rw [replied, Outcome.ok.injEq] at replied'
    rwa [replied']
  rw [← List.zipIdx_map_fst index requests, List.forall₂_map_left_iff]
  exact each

theorem forall₂_right {α β : Type} {r : α → β → Prop} {p : β → Prop} {xs : List α} {ys : List β}
    (related : List.Forall₂ r xs ys) (all : ∀ x y, r x y → p y) : ∀ y ∈ ys, p y := by
  induction related with
  | nil => exact nofun
  | cons first _ ih => exact List.forall_mem_cons.mpr ⟨all _ _ first, ih⟩

theorem Framed.clean {failed : Prop} {text : List Char} (framed : Framed f failed text) :
    0 ∉ bytes text :=
  zero_bytes (framed.printed.without (by decide))

/-- Each request of a connection is answered with one frame, in order; every frame is JSON
without a NUL, with an error key exactly where the request is rejected. -/
theorem one_frame_each (scenes : ℕ → Scene f) {requests : List (List Char)}
    (clean : ∀ r ∈ requests, '\x00' ∉ r) (filled : ∀ r ∈ requests, trim r ≠ []) :
    ∃ out texts, handleVarlink scenes (requests.flatMap writeFrame) = .ok out ∧
      out.splitOn 0 = texts.map bytes ++ [[]] ∧ Replies scenes requests.zipIdx texts ∧
      List.Forall₂ (fun request text => 0 ∉ bytes text ∧ ∃ j, parse f text = .ok j ∧
        ((j.get "error".toList).isSome = true ↔ Rejected f request)) requests texts := by
  have enough := Nat.lt_succ_of_le (frames_length requests)
  obtain ⟨texts, replies, served⟩ := serve_frames scenes clean filled 0 enough
  have framed := replies.framed
  refine ⟨_, texts, served, split_frames (forall₂_right framed fun _ _ => Framed.clean), replies, ?_⟩
  exact framed.imp fun _ _ framed => ⟨framed.clean, framed.parsed⟩

/-- A machine with nothing to report. -/
def idle : Scene .exact where
  observe _ := .default
  observed _ := ⟨fun _ => .same, .same, .collect some [], .collect some [], .collect some [],
    .collect some [], 0, rfl⟩
  nowUnix := 0
  ring := some (.new 60)
  sampled := by
    rintro r ⟨rfl⟩
    exact nofun
  order := .same
  scan := [⟨"thermal\x00", .note, true, "\x7f"⟩]

/-- A call, a method nobody knows, and no JSON. -/
def session : List (List Char) :=
  ["\x7b\"method\":\"dev.stallwatch.Monitor.GetStalls\"\x7d".toList,
    "\x7b\"method\":\"a.\\u0000\"\x7d".toList, "\x7b".toList]

theorem one_frame_each_session : ∃ out texts,
    handleVarlink (fun _ => idle) (session.flatMap writeFrame) = .ok out ∧
      out.splitOn 0 = texts.map bytes ++ [[]] ∧ Replies (fun _ => idle) session.zipIdx texts ∧
      List.Forall₂ (fun request text => 0 ∉ bytes text ∧ ∃ j, parse .exact text = .ok j ∧
        ((j.get "error".toList).isSome = true ↔ Rejected .exact request)) session texts :=
  one_frame_each _ (by decide +kernel) (by decide +kernel)

end Stallwatch.Varlink
