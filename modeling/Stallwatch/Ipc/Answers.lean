import Stallwatch.Cli.Honoured
import Stallwatch.Ipc
import Stallwatch.Ring.Ties

/-! What the clients of the daemon get to read: the command line prints the report of the
history, and the two sockets answer alike. -/
namespace Stallwatch.Ipc

open Text Json

variable {f : Rounding}

/-- What the daemon finds for a Varlink call, as the line protocol finds it. Each answer is made of
a map of its own, which is iterated in an order of its own. -/
def moment (scene : Varlink.Scene f) (order : Shuffle Stall.Key Total) : Moment :=
  ⟨scene.nowUnix, scene.ring, order, scene.scan⟩

/-- Every frame of the history was recorded by a tick or by a capture. -/
def Recorded (f : Rounding) (m : Moment) : Prop := ∀ r ∈ m.ring, ∀ fr ∈ r.frames, Sampled f fr

theorem recorded_moment (scene : Varlink.Scene f) (order : Shuffle Stall.Key Total) :
    Recorded f (moment scene order) := scene.sampled

theorem since_finite {m : Moment} (recorded : Recorded f m) (secs : UInt64) :
    (since f m secs).finite = true := by
  unfold since
  cases ring : m.ring with
  | none => rfl
  | some r =>
    exact Ring.aggregate_finite f m.order (fun fr frame =>
      (recorded r (by simp [ring]) fr frame).finite) _

theorem newest_finite {m : Moment} (recorded : Recorded f m) : (newest m).finite = true := by
  unfold newest
  cases found : m.ring.bind Ring.newest with
  | none => rfl
  | some frame =>
    obtain ⟨r, ring, last⟩ := Option.bind_eq_some_iff.mp found
    have sampled := recorded r (by simp [ring]) frame (List.mem_of_getLast? last)
    simp only [Report.finite, Bool.and_eq_true, List.all_eq_true]
    exact ⟨sampled.finite, List.forall_mem_nil _⟩

theorem parse_toJson {r : Report} (finite : r.finite = true) :
    parse f r.toJson = .ok (ofEntries (r.entries f)) := parse_reads (r.reads_pretty f finite)

theorem expected_read (f : Rounding) :
    parse f expected = .ok (ofEntries [("error", .str "expected PING | NOW | SINCE <secs>".toList)]) := by
  have field : FieldsRead f [("error", bare "expected PING | NOW | SINCE <secs>")]
      [("error", .str "expected PING | NOW | SINCE <secs>".toList)] := .field rfl (reads_bare rfl) .nil
  exact parse_reads (reads_spaced field)

/-- A greeting is answered with a word, and no format is asked for. -/
def format : Request → Format
  | .ping => .text
  | .now fmt => fmt
  | .since _ fmt => fmt

theorem report_read {r : Report} (finite : r.finite = true) :
    ∃ j, parse f r.toJson = .ok j ∧ ((j.get "error".toList).isSome = true ↔ False) := by
  refine ⟨_, parse_toJson finite, ?_⟩
  rw [get_ofEntries (by simp [Report.entries])]
  simp [Report.entries]

/- What is not asked for as text is JSON, with an error key exactly where nothing was asked. -/
theorem answer_read {m : Moment} (recorded : Recorded f m) {asked : Option Request}
    (json : ∀ r ∈ asked, format r = .json) : ∃ j, parse f (answer f m asked) = .ok j ∧
      ((j.get "error".toList).isSome = true ↔ asked = none) := by
  cases asked with
  | none =>
    refine ⟨_, expected_read f, ?_⟩
    rw [get_ofEntries (by simp)]
    simp
  | some r =>
    have json := json r rfl
    cases r with
    | ping => cases json
    | now fmt =>
      obtain rfl : fmt = .json := json
      simpa [answer, render] using report_read (f := f) (newest_finite recorded)
    | since secs fmt =>
      obtain rfl : fmt = .json := json
      simpa [answer, render] using report_read (f := f) (since_finite recorded secs)

/-- A connection is left without a reply exactly when its first line is no text, or is not ended
while the client stays. Else the reply is one text and a newline, JSON where text is not asked for,
with an error key exactly where the line is no request. -/
theorem line_answered {m : Moment} (recorded : Recorded f m) (a : Arrival) :
    (handle f m a = [] ↔ Utf8.fromUtf8 (Utf8.splitLine a.received).1 = none ∨
        0x0A ∉ a.received ∧ a.closed = false) ∧
      ∀ line rest, a.readLine = .ok (line, rest) →
        Utf8.fromUtf8 (Utf8.splitLine a.received).1 = some line ∧
        ∃ text, handle f m a = Utf8.bytes (text ++ ['\n']) ∧
          ((∀ r ∈ Request.parse line, format r = .json) → ∃ j, parse f text = .ok j ∧
            ((j.get "error".toList).isSome = true ↔ Request.parse line = none)) := by
  rw [← a.readLine_fails]
  cases read : a.readLine with
  | error e => exact ⟨iff_of_true (by rw [handle, read]) ⟨e, rfl⟩, nofun⟩
  | ok found =>
    obtain ⟨line, rest⟩ := found
    have reply : handle f m a = Utf8.bytes (answer f m (Request.parse line) ++ ['\n']) := by
      rw [handle, read]
    refine ⟨iff_of_false ?_ nofun, fun line' rest' same => ?_⟩
    · rw [reply, Utf8.bytes_newline]
      exact List.concat_ne_nil _ _
    · cases same
      exact ⟨Arrival.readLine_text read, _, reply, answer_read recorded⟩

theorem num_small {args : List String} {name : String} {n : ℕ} (read : Cli.num args name = some n) :
    n < 2 ^ 64 := by
  obtain ⟨i, _, value⟩ := Option.bind_eq_some_iff.mp read
  obtain ⟨v, _, parsed⟩ := Option.bind_eq_some_iff.mp value
  rw [parseUnsigned] at parsed
  split at parsed
  · rename_i good
    cases parsed
    exact good.2.2
  · cases parsed

/-- The command line prints the report that the daemon has at the time. -/
theorem history_printed (m : Moment) (psi : Bool) {args : List String} (plain : Cli.Plain args)
    (straight : ¬ Cli.Stray args) {filter : Option Filter} (parsed : Cli.filterOf f args = .ok filter)
    {secs : ℕ} (asked : Cli.num args "--since" = some secs) :
    Cli.main f ⟨queryDaemon f m, psi⟩ args = .ok (.history (String.ofList
      (render f (since f m (.ofNat secs)) (if "--json" ∈ args then .json else .text) ++ ['\n']))) := by
  have exchanged := queryDaemon_eq (f := f) m (num_small asked) (decide ("--json" ∈ args))
  rw [Cli.main_plain plain]
  rcases Cli.rejectUnknown_plain plain with ⟨accepted, _⟩ | ⟨_, stray⟩
  · rw [accepted, Outcome.ok_bind, parsed, Outcome.ok_bind, Cli.report, asked]
    dsimp only
    rw [exchanged]
    simp
  · exact absurd stray straight

section Sockets

/-- The same moment, in which the map is iterated in another order. -/
def ordered (scene : Varlink.Scene f) (order : Shuffle Stall.Key Total) : Varlink.Scene f :=
  { scene with order }

/-- What is read of the parameters of the reply to a call, and of the reply to a line. -/
structure Sent (scene : Varlink.Scene f) (order order' : Shuffle Stall.Key Total)
    (frame line : List Char) (v v' : Json) : Prop where
  called : ∃ reply j, Varlink.reply (ordered scene order) frame = .ok reply ∧ parse f reply = .ok j ∧
    j.get "parameters".toList = some v
  asked : parse f (answer f (moment scene order') (Request.parse line)) = .ok v'

theorem Sent.unique {scene : Varlink.Scene f} {order order' : Shuffle Stall.Key Total}
    {frame line : List Char} {v v' w w' : Json} (sent : Sent scene order order' frame line v v')
    (again : Sent scene order order' frame line w w') : v = w ∧ v' = w' := by
  obtain ⟨⟨reply, j, replied, parsed, found⟩, asked⟩ := sent
  obtain ⟨⟨reply', j', replied', parsed', found'⟩, asked'⟩ := again
  cases replied.symm.trans replied'
  cases parsed.symm.trans parsed'
  cases found.symm.trans found'
  cases asked.symm.trans asked'
  exact ⟨rfl, rfl⟩

theorem sent (scene : Varlink.Scene f) {secs : UInt64} {frame line : List Char}
    (called : Varlink.parseCall f frame = .ok (.getHistory secs))
    (asked : Request.parse line = some (.since secs .json)) (order order' : Shuffle Stall.Key Total) :
    Sent scene order order' frame line (ofEntries ((since f (moment scene order) secs).entries f))
      (ofEntries ((since f (moment scene order') secs).entries f)) where
  called := by
    have finite := since_finite (recorded_moment scene order) secs
    have fields : FieldsRead f [("parameters", (since f (moment scene order) secs).toJsonCompact)]
        [("parameters", ofEntries ((since f (moment scene order) secs).entries f))] :=
      .field rfl (Report.reads_compact f finite) .nil
    refine ⟨Varlink.replyReport (since f (moment scene order) secs), _, ?_,
      parse_reads (reads_record fields), ?_⟩
    · simp only [Varlink.reply, called]
      rfl
    · rw [get_ofEntries (by simp)]
      simp
  asked := by
    rw [asked]
    exact parse_toJson (since_finite (recorded_moment scene order') secs)

/-- What names a stall in a report. -/
def named (j : Json) : Option Json × Option Json × Option Json :=
  (j.get "cgroup".toList, j.get "resource".toList, j.get "type".toList)

theorem named_entries (s : Stall) : named (ofEntries (s.entries f)) =
    (some (.str s.cgroup.toList), some (.str s.resource.display.toList),
      some (.str s.kind.display.toList)) := by
  have distinct : ((s.entries f).map Prod.fst).Nodup := by simp [Stall.entries]
  simp only [named, get_ofEntries distinct]
  rfl

theorem key_of_named {s t : Stall}
    (same : named (ofEntries (s.entries f)) = named (ofEntries (t.entries f))) : s.key = t.key := by
  rw [named_entries, named_entries] at same
  simp only [Prod.mk.injEq, Option.some.injEq, str.injEq, String.toList_inj] at same
  obtain ⟨cgroup, resource, kind⟩ := same
  have resources : s.resource = t.resource := by
    revert resource
    cases s.resource <;> cases t.resource <;> decide
  have kinds : s.kind = t.kind := by
    revert kind
    cases s.kind <;> cases t.kind <;> decide
  rw [Stall.key, Stall.key, cgroup, resources, kinds]

theorem get_stalls (r : Report) : (ofEntries (r.entries f)).get "stalls".toList =
    some (.arr (r.stalls.map fun s => ofEntries (s.entries f))) := by
  rw [get_ofEntries (by simp [Report.entries])]
  rfl

/- A report that is read names the keys of its stalls. -/
theorem keys_of_value {r r' : Report} (same : ofEntries (r.entries f) = ofEntries (r'.entries f)) :
    r.stalls.map Stall.key = r'.stalls.map Stall.key := by
  have listed := congrArg (fun j : Json => j.get "stalls".toList) same
  simp only [get_stalls, Option.some.injEq, arr.injEq] at listed
  refine List.ext_getElem (by simpa using congrArg List.length listed) fun i inside inside' => ?_
  have here := List.getElem_of_eq listed (by simpa using inside)
  rw [List.getElem_map, List.getElem_map] at here ⊢
  exact key_of_named (congrArg named here)

/- The order shows in the stalls alone. -/
theorem since_order (scene : Varlink.Scene f) (order order' : Shuffle Stall.Key Total) (secs : UInt64) :
    since f (moment scene order) secs =
      { since f (moment scene order') secs with stalls := (since f (moment scene order) secs).stalls } := by
  unfold since moment
  cases scene.ring with
  | none => rfl
  | some r =>
    simp only [Option.elim_some, Ring.aggregate]
    split <;> rfl

/-- The answer of a history does not depend on the order of its map. -/
def Steady (r : Ring) (sinceUnix : UInt64) : Prop :=
  ((r.recent sinceUnix).map Frame.windowUsec).sum = 0 ∨
    ¬Ranking.Tied (Stall.worst ((r.recent sinceUnix).flatMap Frame.stalls)) maxStalls
      (Stall.qualifying ((r.recent sinceUnix).flatMap Frame.stalls))

/-- A history asked for over both sockets at one moment is the same in all but its stalls, and the
same value whatever the order of the maps exactly if no two keys tie within reach of the answer. -/
theorem sockets_agree (scene : Varlink.Scene f) {secs : UInt64} {frame line : List Char}
    (called : Varlink.parseCall f frame = .ok (.getHistory secs))
    (asked : Request.parse line = some (.since secs .json)) :
    (∀ order order', ∃ v v', Sent scene order order' frame line v v' ∧
      ∀ key ≠ "stalls", v.get key.toList = v'.get key.toList) ∧
    ((∀ order order', ∃ v, Sent scene order order' frame line v v) ↔
      ∀ r ∈ scene.ring, Steady r (Counter.saturatingSub scene.nowUnix secs)) := by
  have both := sent scene called asked
  refine ⟨fun order order' => ⟨_, _, both order order', fun key other => ?_⟩, ?_⟩
  · rw [get_ofEntries (by simp [Report.entries]), get_ofEntries (by simp [Report.entries]),
      since_order scene order order']
    simp [Report.entries, List.lookup_cons, beq_eq_false_iff_ne.mpr other]
  constructor
  · intro same r ring
    refine or_iff_not_imp_left.mpr fun window tied => ?_
    obtain ⟨order, order', differ⟩ := Ring.stalls_differ f window tied
    obtain ⟨v, one⟩ := same order order'
    obtain ⟨mine, yours⟩ := one.unique (both order order')
    have keys := keys_of_value (mine.symm.trans yours)
    simp only [since, moment, Option.mem_def.mp ring, Option.elim_some] at keys
    exact differ (Ring.stalls_keys keys)
  · intro steady order order'
    have stalls : (since f (moment scene order) secs).stalls = (since f (moment scene order') secs).stalls := by
      cases ring : scene.ring with
      | none => simp only [since, moment, ring, Option.elim_none]
      | some r =>
        simp only [since, moment, ring, Option.elim_some]
        exact Ring.stalls_same f (steady r ring) order order'
    have equal : since f (moment scene order) secs = since f (moment scene order') secs := by
      rw [since_order scene order order', stalls]
    have answered := both order order'
    rw [equal] at answered
    exact ⟨_, answered⟩

end Sockets

/-- A machine without a history yet, a client that has not ended its line, and one that has. -/
theorem line_answered_halted :
    handle .exact (moment Varlink.idle .same) ⟨Utf8.bytes "NOW json".toList, false⟩ = [] ∧
      ∃ text, handle .exact (moment Varlink.idle .same) ⟨Utf8.bytes "NOW json\n".toList, false⟩ =
          Utf8.bytes (text ++ ['\n']) ∧
        ∃ j, parse .exact text = .ok j ∧ ((j.get "error".toList).isSome = true ↔ False) := by
  have halted := (line_answered (recorded_moment Varlink.idle .same)
    ⟨Utf8.bytes "NOW json".toList, false⟩).1.mpr (.inr ⟨by decide, rfl⟩)
  have read : (Arrival.mk (Utf8.bytes "NOW json\n".toList) false).readLine =
      .ok ("NOW json\n".toList, ⟨[], false⟩) :=
    Arrival.readLine_written (by decide : '\n' ∉ "NOW json".toList) [] false
  have asked : Request.parse "NOW json\n".toList = some (.now .json) := by decide +kernel
  obtain ⟨_, text, reply, answered⟩ := (line_answered (recorded_moment Varlink.idle .same) _).2 _ _ read
  obtain ⟨j, parsed, error⟩ := answered (by rw [asked]; simp [format])
  refine ⟨halted, text, reply, j, parsed, ?_⟩
  rw [error, asked]
  exact iff_of_false nofun id

theorem history_printed_minute :
    Cli.main .exact ⟨queryDaemon .exact (moment Varlink.idle .same), true⟩ ["--since", "60", "--json"] =
      .ok (.history (String.ofList (render .exact (since .exact (moment Varlink.idle .same) (.ofNat 60))
        (if "--json" ∈ ["--since", "60", "--json"] then .json else .text) ++ ['\n']))) :=
  history_printed (moment Varlink.idle .same) true (by decide) (by decide) rfl (by decide)

/-- A machine whose history holds two ticks in which one service stalled. -/
def stalling : Varlink.Scene .exact where
  observe _ := .default
  observed _ := Varlink.idle.observed 0
  nowUnix := 1030
  ring := some ⟨[⟨1000, 5000, [Sampler.ioStall 5000]⟩, ⟨1001, 5000, [Sampler.ioStall 4000]⟩], 60⟩
  sampled := by
    rintro r ⟨rfl⟩ fr member
    rcases List.mem_pair.mp member with rfl | rfl
    · exact .inl ⟨_, _, _, Sampler.fullTick_tick⟩
    · exact .inl ⟨_, _, _, Sampler.nextTick_tick⟩
  order := .same
  scan := []

/- There is but one key. -/
theorem stalling_steady : ∀ r ∈ stalling.ring, Steady r (Counter.saturatingSub stalling.nowUnix 60) := by
  rintro r ⟨rfl⟩
  refine .inr ?_
  rintro ⟨x, here, y, there, differ, _⟩
  have one {k : Stall.Key} (listed : k ∈ List.replicate 2 (Sampler.ioStall 5000).key) :
      k = (Sampler.ioStall 5000).key := List.eq_of_mem_replicate listed
  exact differ ((one (Stall.mem_qualifying.mp here).1).trans (one (Stall.mem_qualifying.mp there).1).symm)

theorem sockets_agree_minute : ∃ v, Sent stalling .same (.first (Sampler.ioStall 5000).key)
    ("\x7b\"method\":\"dev.stallwatch.Monitor.GetHistory\"," ++
      "\"parameters\":\x7b\"seconds\":60\x7d\x7d").toList "since +060\tJson\r\n".toList v v :=
  (@sockets_agree .exact stalling 60 _ _ (by decide +kernel) (by decide +kernel)).2.mpr
    stalling_steady _ _

end Stallwatch.Ipc
