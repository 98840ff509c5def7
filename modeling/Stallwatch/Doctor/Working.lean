import Stallwatch.Doctor.Honest

/-! What the probes find where everything works, and how a person reads what does not. -/
namespace Stallwatch.Doctor

open Text Utf8

/-- Asking the daemon: a line is sent and a line is read. -/
def ping (f : Rounding) (moment : Ipc.Moment) : Option (List Char) :=
  fromUtf8 (splitLine (Ipc.handle f moment ⟨bytes "PING\n".toList, false⟩)).1

/-- The incident log as its two files are. -/
def LogFile.of (path : List Char) (fs : Files) : LogFile where
  path := path
  found := fs.live.isSome
  live := fs.live.map fun text => .ofNat (bytes text).length
  previous := fs.previous.map fun text => .ofNat (bytes text).length

theorem ping_line (f : Rounding) (moment : Ipc.Moment) : ping f moment = some "PONG\n".toList := by
  have clean : '\n' ∉ "PING".toList := by decide
  have asked : Request.parse "PING\n".toList = some .ping := by decide
  have reply : Ipc.handle f moment ⟨bytes "PING\n".toList, false⟩ =
      bytes (Ipc.answer f moment (Request.parse "PING\n".toList) ++ ['\n']) :=
    Ipc.handle_line moment clean [] false
  rw [asked] at reply
  have pong : Ipc.answer f moment (some .ping) = "PONG".toList := rfl
  rw [ping, reply, pong]
  decide

theorem getD_size (file : Option (List Char))
    (small : (file.elim 0 fun text => (bytes text).length) < 2 ^ 64) :
    ((file.map fun text => UInt64.ofNat (bytes text).length).getD 0).toNat =
      file.elim 0 fun text => (bytes text).length := by
  cases file with
  | none => rfl
  | some text => exact Nat.mod_eq_of_lt small

theorem LogFile.total_of (path : List Char) {fs : Files} {bound : ℕ} (within : Files.Within fs bound)
    (small : bound + bound < 2 ^ 64) : (LogFile.of path fs).total.toNat ≤ bound + bound := by
  have live := within.live
  have previous := within.previous
  unfold Files.size at live
  unfold Files.previousSize at previous
  rw [LogFile.total, LogFile.of, UInt64.toNat_add, getD_size _ (by omega), getD_size _ (by omega),
    Nat.mod_eq_of_lt (by omega)]
  omega

/- A twentieth of the cap above it in each generation is the tenth that is let pass. -/
theorem LogFile.within_cap (path : List Char) {fs : Files}
    (within : Files.Within fs (defaultMaxBytes.toNat + 6710886)) : (LogFile.of path fs).over = false := by
  have total := LogFile.total_of path within (by decide)
  have cap : (logCap + logCap / 10).toNat = 147639500 := by decide
  have one : defaultMaxBytes.toNat = 67108864 := by decide
  rw [LogFile.over, decide_eq_false_iff_not, UInt64.lt_iff_toNat_lt, cap]
  omega

theorem splitWhitespace_solid (cs : List Char) : ∀ word ∈ splitWhitespace cs, word ≠ [] :=
  fun word member => by
  simpa using (List.mem_filter.mp member).2

theorem checkLines_bad {c : Check} (bad : c.status ≠ .ok) (some : c.consequence ≠ "") :
    ∃ rows,
      Wrap.Filled ' ' (fun line => (bytes line).length ≤ 74) (splitWhitespace c.consequence.toList) rows ∧
      checkLines c = headline c :: rows.map fun row => "      ".toList ++ Wrap.joined ' ' row := by
  have laid : ∃ rows,
      Wrap.Filled ' ' (fun line => (bytes line).length ≤ 74) (splitWhitespace c.consequence.toList) rows ∧
      wrap c.consequence.toList 74 = rows.map (Wrap.joined ' ') :=
    Wrap.wrap_filled (splitWhitespace_solid c.consequence.toList)
  obtain ⟨rows, filled, same⟩ := laid
  refine ⟨rows, filled, ?_⟩
  rw [checkLines, if_pos ⟨bad, some⟩, same, List.map_map]
  rfl

theorem unlines_append (as bs : List (List Char)) : unlines (as ++ bs) = unlines as ++ unlines bs :=
  List.flatMap_append

theorem toText_split {checks : List Check} {c : Check} (member : c ∈ checks) :
    ∃ before after, toText checks = before ++ unlines (checkLines c) ++ after := by
  obtain ⟨earlier, later, rfl⟩ := List.append_of_mem member
  rw [toText, List.flatMap_append, List.flatMap_cons]
  simp only [unlines_append, List.append_assoc]
  refine ⟨unlines ["What stallwatch can and cannot see on this machine:".toList, []] ++
    unlines (earlier.flatMap checkLines),
    unlines (later.flatMap checkLines) ++ unlines [[], verdict (earlier ++ c :: later)], ?_⟩
  simp only [List.append_assoc]

section Machine

variable (f : Rounding) (debug : List Char → List Char) {m : Machine}

/-- Where the daemon answers, and has written the log with lines of a few megabytes at most and
every rename succeeding, neither is reported. So the doctor blames the rotation only if a rename
of a full file has failed or a record is longer than that. -/
theorem working_in_order {moment : Ipc.Moment} {reply path : List Char} {calls : List Files.Append}
    (asked : ping f moment = some reply) (answered : m.daemon = .ok reply) (some : calls ≠ [])
    (renamed : Files.Renamed defaultMaxBytes calls)
    (short : ∀ call ∈ calls, (bytes call.2).length ≤ 6710886)
    (log : m.log = .of path (Files.log defaultMaxBytes calls)) :
    (daemon debug m).status = .ok ∧ (incidentLog f m).status = .ok := by
  constructor
  · cases (ping_line f moment).symm.trans asked
    have pong : trim "PONG\n".toList = "PONG".toList := by decide
    simp only [daemon, answered, pong, if_true]
  · have within := LogFile.within_cap path (Files.log_within (by decide) renamed short)
    have found : (LogFile.of path (Files.log defaultMaxBytes calls)).found = true := by
      obtain ⟨past, call, rfl⟩ := List.eq_nil_or_concat' calls |>.resolve_left some
      rw [LogFile.of, Files.log_concat, Option.isSome_iff_ne_none]
      exact Files.appendLine_live _ _ _ _
    simp only [incidentLog, log, found, within, Bool.true_eq_false, Bool.false_eq_true, if_false]

/-- What a check that is not in order costs is printed behind its line, word by word, on lines
that are no longer than 74 bytes and no shorter than they have to be. -/
theorem consequences_printed (c : Check) (member : c ∈ diagnose f debug m) (bad : c.status ≠ .ok) :
    ∃ rows before after,
      Wrap.Filled ' ' (fun line => (bytes line).length ≤ 74) (splitWhitespace c.consequence.toList) rows ∧
        toText (diagnose f debug m) = before ++
          unlines (headline c :: rows.map fun row => "      ".toList ++ Wrap.joined ' ' row) ++
            after := by
  obtain ⟨rows, filled, lines⟩ := checkLines_bad bad ((explained f debug m c member).consequence bad)
  obtain ⟨before, after, split⟩ := toText_split member
  exact ⟨rows, before, after, filled, lines ▸ split⟩

end Machine

/-- As many records as make the log full, and one more. -/
def recorded : List Files.Append :=
  List.replicate (Files.turn defaultMaxBytes ['1']) (true, ['1']) ++ [(true, ['2'])]

/-- The log has been rotated, and a daemon answers. -/
def fresh : Machine where
  controllers := true
  pressure := true
  ioPressure := [true, true]
  ioStat := [true, false]
  procIo := [true, false]
  systemTrigger := none
  cgroupTrigger := some "EACCES".toList
  delayacct := none
  socket := "/run/user/1000/stallwatch.sock".toList
  daemon := .ok "PONG\n".toList
  log := .of "incidents.jsonl".toList (Files.log defaultMaxBytes recorded)

theorem mem_recorded {call : Files.Append} (member : call ∈ recorded) :
    call = (true, ['1']) ∨ call = (true, ['2']) :=
  (List.mem_append.mp member).imp List.eq_of_mem_replicate List.mem_singleton.mp

theorem recorded_ne_nil : recorded ≠ [] := List.append_ne_nil_of_right_ne_nil _ (List.cons_ne_nil _ _)

theorem working_in_order_fresh :
    (Files.log defaultMaxBytes recorded).live = some ['2', '\n'] ∧
      (Files.log defaultMaxBytes recorded).previous.getD [] =
        Files.text (List.replicate (Files.turn defaultMaxBytes ['1']) ['1']) ∧
      (daemon id fresh).status = .ok ∧ (incidentLog .exact fresh).status = .ok := by
  have rotated := Files.log_turn ['1'] (by decide : 0 < defaultMaxBytes.toNat) true ['2']
  have renamed : Files.Renamed defaultMaxBytes recorded := by
    intro past call rest split _
    have member : call ∈ recorded := split ▸ List.mem_append_right _ List.mem_cons_self
    rcases mem_recorded member with rfl | rfl <;> rfl
  have short : ∀ call ∈ recorded, (bytes call.2).length ≤ 6710886 := by
    intro call member
    rcases mem_recorded member with rfl | rfl <;> decide
  exact ⟨rotated.1, rotated.2, working_in_order .exact id (ping_line .exact ⟨0, none, .same, []⟩) rfl
    recorded_ne_nil renamed short rfl⟩

theorem consequences_printed_fresh : ∃ rows before after,
    Wrap.Filled ' ' (fun line => (bytes line).length ≤ 74)
        (splitWhitespace (procIo .exact fresh).consequence.toList) rows ∧
      toText (diagnose .exact id fresh) = before ++
        unlines (headline (procIo .exact fresh) :: rows.map fun row => "      ".toList ++
          Wrap.joined ' ' row) ++
          after :=
  consequences_printed .exact id (procIo .exact fresh) (by simp [diagnose]) (procIo_status .exact fresh)

end Stallwatch.Doctor
