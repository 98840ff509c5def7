import Stallwatch.Appname
import Stallwatch.Base.Extension
import Stallwatch.Base.Words

/-! Where the processes of a session find each other: the sockets, and the log of incidents. -/
namespace Stallwatch.Ipc

open Text Utf8 PathBuf

/-- The user, from `/proc/self/status`. -/
def getuid (status : Option (List Char)) : UInt32 :=
  let line := status.bind fun s => (lines s).find? fun line => "Uid:".toList.isPrefixOf line
  ((line.bind fun line => (splitWhitespace line)[1]?).bind (parseUnsigned 32)).elim 0 .ofNat

section Paths

variable (vars : List Char → Option (List Char))

/-- A variable that is set to something. -/
def filled (name : String) : Option (List Char) := (vars name.toList).filter (· ≠ [])

def socketPath (status : Option (List Char)) : OsString :=
  match filled vars "XDG_RUNTIME_DIR" with
  | some dir => join (bytes dir) (Appname.text "stallwatch.sock")
  | none => bytes ("/tmp/stallwatch-".toList ++ decimal (getuid status).toNat ++ ".sock".toList)

def varlinkSocketPath (status : Option (List Char)) : OsString :=
  setExtension (socketPath vars status) (Appname.text "varlink")

/-- Under a service manager the first of the directories it gives, else the home of the state. -/
def incidentLogPath : OsString :=
  match filled vars "STATE_DIRECTORY" with
  | some dir => join (bytes (dir.takeWhile (· ≠ ':'))) (Appname.text "incidents.jsonl")
  | none =>
    let base := (((filled vars "XDG_STATE_HOME").map bytes).or
      ((vars "HOME".toList).map fun h =>
        join (bytes h) (Appname.text ".local/state"))).getD (Appname.text "/tmp")
    join (join base (Appname.text "stallwatch")) (Appname.text "incidents.jsonl")

end Paths

section User

/-- The line of the real user and of the others. -/
def uidLine (ids : List UInt32) : List Char :=
  "Uid:".toList ++ spaced (ids.map fun n => (['\t'], decimal n.toNat))

/-- A status that tells the user, behind lines about something else. -/
def Tells (status : List Char) (uid : UInt32) : Prop :=
  ∃ (before : List (List Char)) (others : List UInt32) (after : List Char),
    status = before.flatMap (fun line => line ++ ['\n']) ++ (uidLine (uid :: others) ++ '\n' :: after) ∧
      ∀ line ∈ before, '\n' ∉ line ∧ ¬"Uid:".toList <+: line

theorem words_uidLine (ids : List UInt32) :
    splitWhitespace (uidLine ids) = "Uid:".toList :: ids.map fun n => decimal n.toNat := by
  have apart : Spaced (ids.map fun n => (['\t'], decimal n.toNat)) := by
    intro w member
    obtain ⟨n, _, rfl⟩ := List.mem_map.mp member
    exact ⟨List.cons_ne_nil _ _, blank_char (by decide), decimal_word _⟩
  have word : IsWord "Uid:".toList := by simp [IsWord, isWhitespace]
  rw [uidLine, words_append_spaced _ apart, words_word word, List.map_map]
  rfl

theorem uidLine_single (ids : List UInt32) : '\n' ∉ uidLine ids := by
  intro member
  rcases List.mem_append.mp member with label | listed
  · exact absurd label (by decide)
  · obtain ⟨w, among, inside⟩ := List.mem_flatMap.mp listed
    obtain ⟨n, _, rfl⟩ := List.mem_map.mp among
    rcases List.mem_cons.mp inside with tab | digit
    · cases tab
    · exact word_line (decimal_word _) digit

/- A carriage return at the end of a line is not at its front. -/
theorem label_stripped (line : List Char) :
    "Uid:".toList <+: (stripSuffix ['\r'] line).getD line ↔ "Uid:".toList <+: line := by
  unfold stripSuffix
  split
  · rename_i ends
    obtain ⟨text, rfl⟩ := List.isSuffixOf_iff_suffix.mp ends
    have taken : (text ++ ['\r']).take ((text ++ ['\r']).length - ['\r'].length) = text := by simp
    rw [taken, Option.getD_some, List.prefix_concat_iff]
    refine ⟨.inr, fun front => front.resolve_left fun whole => ?_⟩
    have last := congrArg List.getLast? whole
    rw [List.getLast?_concat] at last
    exact absurd last (by decide)
  · rfl

theorem find_uidLine (before : List (List Char)) (ids : List UInt32) (after : List Char)
    (other : ∀ line ∈ before, '\n' ∉ line ∧ ¬"Uid:".toList <+: line) :
    ((lines (before.flatMap (fun line => line ++ ['\n']) ++ (uidLine ids ++ '\n' :: after))).find?
      fun line => "Uid:".toList.isPrefixOf line).map splitWhitespace =
        some (splitWhitespace (uidLine ids)) := by
  induction before with
  | nil =>
    have label :
        "Uid:".toList.isPrefixOf ((stripSuffix ['\r'] (uidLine ids)).getD (uidLine ids)) = true :=
      List.isPrefixOf_iff_prefix.mpr ((label_stripped _).mpr (List.prefix_append _ _))
    rw [List.flatMap_nil, List.nil_append, lines_cut after (uidLine_single ids),
      List.find?_cons_of_pos label,
      Option.map_some, words_stripSuffix]
  | cons line before ih =>
    obtain ⟨⟨clean, unlabelled⟩, rest⟩ := List.forall_mem_cons.mp other
    have label : ¬"Uid:".toList.isPrefixOf ((stripSuffix ['\r'] line).getD line) = true := fun front =>
      unlabelled ((label_stripped line).mp (List.isPrefixOf_iff_prefix.mp front))
    have cut : (line :: before).flatMap (fun line => line ++ ['\n']) ++ (uidLine ids ++ '\n' :: after) =
        line ++ '\n' :: (before.flatMap (fun line => line ++ ['\n']) ++
          (uidLine ids ++ '\n' :: after)) := by
      simp
    rw [cut, lines_cut _ clean, List.find?_cons_of_neg label]
    exact ih rest

theorem getuid_told {status : List Char} {uid : UInt32} (told : Tells status uid) :
    getuid (some status) = uid := by
  obtain ⟨before, others, after, rfl, other⟩ := told
  obtain ⟨line, found, words⟩ := Option.map_eq_some_iff.mp (find_uidLine before (uid :: others) after other)
  have number : parseUnsigned 32 (decimal uid.toNat) = some uid.toNat :=
    parseUnsigned_decimal 32 _ uid.toNat_lt
  rw [getuid, Option.bind_some, found]
  simp only [Option.bind_some, words, words_uidLine, List.map_cons, List.getElem?_cons_succ,
    List.getElem?_cons_zero, number, Option.elim_some, UInt32.ofNat_toNat]

end User

section Sockets

/-- A process, with the variables and the user that it has. -/
structure Seat where
  vars : List Char → Option (List Char)
  uid : UInt32
  status : List Char
  told : Tells status uid

variable (s : Seat)

def Seat.socket : OsString := socketPath s.vars (some s.status)

def Seat.varlink : OsString := varlinkSocketPath s.vars (some s.status)

def Seat.runtime : Option (List Char) := filled s.vars "XDG_RUNTIME_DIR"

/-- One directory for both, or one user where there is no directory. -/
def Seat.Meets (a b : Seat) : Prop :=
  match a.runtime, b.runtime with
  | some dir, some dir' => ofText (bytes dir) = ofText (bytes dir')
  | none, none => a.uid = b.uid
  | _, _ => False

def Seat.place : OsString := s.runtime.elim (Appname.text "/tmp") bytes

def Seat.base : OsString :=
  s.runtime.elim (bytes ("stallwatch-".toList ++ decimal s.uid.toNat)) fun _ => Appname.text "stallwatch"

theorem filled_ne_nil {vars : List Char → Option (List Char)} {name : String} {value : List Char}
    (set : filled vars name = some value) : value ≠ [] := by
  have kept := (Option.filter_eq_some_iff.mp set).2
  exact of_decide_eq_true kept

theorem bytes_ne_nil {cs : List Char} (there : cs ≠ []) : bytes cs ≠ [] := fun none =>
  there (bytes_injective (none.trans bytes_nil.symm))

theorem place_ne_nil : s.place ≠ [] := by
  cases runtime : s.runtime with
  | none =>
    rw [Seat.place, runtime]
    decide
  | some dir =>
    rw [Seat.place, runtime]
    exact bytes_ne_nil (filled_ne_nil runtime)

theorem base_clean : s.base ≠ [] ∧ 0x2F ∉ s.base := by
  unfold Seat.base
  cases s.runtime with
  | none =>
    refine ⟨bytes_ne_nil (by simp), fun slash => ?_⟩
    rcases List.mem_append.mp (mem_bytes_ascii (c := '/') (by decide) slash) with front | digit
    · exact absurd front (by decide)
    · exact absurd (decimal_isDigit digit) (by decide)
  | some dir =>
    rw [Option.elim_some]
    decide

theorem isName_base {ext : OsString} (clean : 0x2F ∉ ext) (long : 2 ≤ ext.length) :
    IsName (s.base ++ 0x2E :: ext) := by
  obtain ⟨there, whole⟩ := base_clean s
  refine ⟨by simp, fun same => ?_, fun same => ?_, by simp [whole, clean]⟩
  · have length := congrArg List.length same
    simp only [List.length_append, List.length_cons, List.length_nil] at length
    omega
  · have length := congrArg List.length same
    simp only [List.length_append, List.length_cons, List.length_nil] at length
    omega

theorem isName_sock : IsName (s.base ++ 0x2E :: Appname.text "sock") :=
  isName_base s (by decide) (by decide)

theorem isName_varlink : IsName (s.base ++ 0x2E :: Appname.text "varlink") :=
  isName_base s (by decide) (by decide)

theorem stem_sock : stem (s.base ++ 0x2E :: Appname.text "sock") = s.base :=
  stem_dot (base_clean s).1 (by decide)

theorem join_tmp {t : OsString} (relative : t.head? ≠ some 0x2F) :
    join (Appname.text "/tmp") t = Appname.text "/tmp" ++ 0x2F :: t := by
  rw [join, if_neg relative, if_neg (by decide)]

theorem socket_eq : s.socket = join s.place (s.base ++ 0x2E :: Appname.text "sock") := by
  have named := isName_sock s
  have extension : bytes ".sock".toList = 0x2E :: Appname.text "sock" := by decide
  cases runtime : s.runtime with
  | none =>
    have path : s.socket = bytes ("/tmp/stallwatch-".toList ++
      decimal (getuid (some s.status)).toNat ++ ".sock".toList) := by
      rw [Seat.runtime] at runtime
      rw [Seat.socket, socketPath, runtime]
    have front : bytes "/tmp/stallwatch-".toList =
      Appname.text "/tmp" ++ 0x2F :: bytes "stallwatch-".toList := by
      decide
    have place : s.place = Appname.text "/tmp" := by rw [Seat.place, runtime, Option.elim_none]
    have base : s.base = bytes "stallwatch-".toList ++ bytes (decimal s.uid.toNat) := by
      rw [Seat.base, runtime, Option.elim_none, bytes_append]
    rw [path, getuid_told s.told, place, join_tmp named.relative, base, bytes_append, bytes_append,
      front, extension]
    simp
  | some dir =>
    have path : s.socket = join (bytes dir) (Appname.text "stallwatch.sock") := by
      rw [Seat.runtime] at runtime
      rw [Seat.socket, socketPath, runtime]
    have place : s.place = bytes dir := by rw [Seat.place, runtime, Option.elim_some]
    have base : s.base = Appname.text "stallwatch" := by rw [Seat.base, runtime, Option.elim_some]
    have whole :
        Appname.text "stallwatch.sock" = Appname.text "stallwatch" ++ 0x2E :: Appname.text "sock" := by decide
    rw [path, place, base, whole]

theorem varlink_eq : s.varlink = join s.place (s.base ++ 0x2E :: Appname.text "varlink") := by
  have before : s.varlink = setExtension s.socket (Appname.text "varlink") := rfl
  have named : IsName (stem (s.base ++ 0x2E :: Appname.text "sock") ++
    0x2E :: Appname.text "varlink") := by
    rw [stem_sock]
    exact isName_varlink s
  rw [before, socket_eq, setExtension_join (place_ne_nil s) (isName_sock s) named, stem_sock]

theorem userBase_inj {n m : ℕ} :
    bytes ("stallwatch-".toList ++ decimal n) = bytes ("stallwatch-".toList ++ decimal m) ↔ n = m := by
  refine ⟨fun same => ?_, fun same => same ▸ rfl⟩
  have digits := List.append_cancel_left (bytes_injective same)
  have value := congrArg (Nat.ofDigitChars 10 · 0) digits
  simpa [decimal_value] using value

theorem userBase_longer (n : ℕ) :
    bytes ("stallwatch-".toList ++ decimal n) ≠ Appname.text "stallwatch" := by
  intro same
  have text := congrArg List.length (bytes_injective same)
  rw [List.length_append] at text
  exact absurd text (Nat.ne_of_gt (Nat.lt_add_right _ (by decide)))

theorem meets_iff (a b : Seat) : a.Meets b ↔ ofText a.place = ofText b.place ∧ a.base = b.base := by
  unfold Seat.Meets Seat.place Seat.base
  cases a.runtime with
  | none =>
    cases b.runtime with
    | none =>
      simp only [Option.elim_none, true_and]
      rw [userBase_inj, UInt32.toNat_inj]
    | some dir => exact iff_of_false not_false fun same => userBase_longer _ same.2
  | some dir =>
    cases b.runtime with
    | none => exact iff_of_false not_false fun same => userBase_longer _ same.2.symm
    | some dir' => simp

/-- Two processes have the same sockets exactly where they meet, and no socket of one protocol is
ever one of the other. -/
theorem sockets_meet (a b : Seat) : (ofText a.socket = ofText b.socket ↔ a.Meets b) ∧
    (ofText a.varlink = ofText b.varlink ↔ a.Meets b) ∧ ofText a.socket ≠ ofText b.varlink := by
  rw [socket_eq, socket_eq, varlink_eq, varlink_eq, file_inj (isName_sock a) (isName_sock b),
    file_inj (isName_varlink a) (isName_varlink b), meets_iff, List.append_cancel_right_eq,
      List.append_cancel_right_eq]
  refine ⟨Iff.rfl, Iff.rfl, fun same => ?_⟩
  have names := ((file_inj (isName_sock a) (isName_varlink b)).mp same).2
  have bases : a.base = b.base := by
    rw [← stem_sock a, names, stem_dot (base_clean b).1 (by decide)]
  rw [bases, List.append_cancel_left_eq] at names
  exact absurd names (by decide)

/-- A process whose user has no directory at run time. -/
def loggedOut (name : String) (plain : '\n' ∉ name.toList) (uid : UInt32) : Seat where
  vars _ := none
  uid := uid
  status := "Name:\t".toList ++ name.toList ++ '\n' :: uidLine [uid, uid, uid, uid] ++
    '\n' :: "Gid:\t0\n".toList
  told := by
    refine ⟨["Name:\t".toList ++ name.toList], [uid, uid, uid], "Gid:\t0\n".toList, by simp, ?_⟩
    intro line member
    cases List.mem_singleton.mp member
    refine ⟨fun newline => ?_, fun front => ?_⟩
    · rcases List.mem_append.mp newline with label | inside
      · exact absurd label (by decide)
      · exact plain inside
    · exact absurd (List.isPrefixOf_iff_prefix.mpr front) (by simp [List.isPrefixOf])

example : ¬(loggedOut "stallwatch" (by decide) 1000).Meets (loggedOut "stallwatch" (by decide) 1001) :=
  fun same => absurd (show (1000 : UInt32) = 1001 from same) (by decide)

end Sockets

section Log

variable {vars : List Char → Option (List Char)}

/-- The directory of the log. -/
def stateDir (vars : List Char → Option (List Char)) : OsString :=
  match filled vars "STATE_DIRECTORY" with
  | some dir => bytes (dir.takeWhile (· ≠ ':'))
  | none =>
    join ((((filled vars "XDG_STATE_HOME").map bytes).or
      ((vars "HOME".toList).map fun h =>
        join (bytes h) (Appname.text ".local/state"))).getD (Appname.text "/tmp"))
      (Appname.text "stallwatch")

theorem incidentLogPath_eq (vars : List Char → Option (List Char)) :
    incidentLogPath vars = join (stateDir vars) (Appname.text "incidents.jsonl") := by
  unfold incidentLogPath stateDir
  split <;> rfl

/-- The service manager gives the daemon its own directory, and maybe others behind it. -/
def managed (vars : List Char → Option (List Char)) (dir : List Char) (others : List (List Char)) :
    List Char → Option (List Char) :=
  Function.update vars "STATE_DIRECTORY".toList (some (dir ++ others.flatMap fun other => ':' :: other))

theorem takeWhile_colon {front : List Char} (clean : ':' ∉ front) (more : List Char) :
    (front ++ ':' :: more).takeWhile (· ≠ ':') = front := by
  have before : ∀ c ∈ front, decide (c ≠ ':') = true := fun c member =>
    decide_eq_true fun same => clean (same ▸ member)
  rw [List.takeWhile_append_of_pos before]
  simp

theorem takeWhile_clean {dir : List Char} (clean : ':' ∉ dir) : dir.takeWhile (· ≠ ':') = dir :=
  List.takeWhile_eq_self_iff.mpr fun _ member => decide_eq_true fun same => clean (same ▸ member)

/- Only the first directory counts. -/
theorem takeWhile_others (dir : List Char) (others : List (List Char)) :
    (dir ++ others.flatMap fun other => ':' :: other).takeWhile (· ≠ ':') = dir.takeWhile (· ≠ ':') := by
  by_cases colon : ':' ∈ dir
  · obtain ⟨front, more, rfl, clean⟩ := List.eq_append_cons_of_mem colon
    rw [takeWhile_colon clean, List.append_assoc, List.cons_append, takeWhile_colon clean]
  · rw [takeWhile_clean colon]
    cases others with
    | nil => rw [List.flatMap_nil, List.append_nil, takeWhile_clean colon]
    | cons other others => rw [List.flatMap_cons, List.cons_append, takeWhile_colon colon]

theorem stateDir_managed {dir : List Char} (there : dir ≠ []) (others : List (List Char)) :
    stateDir (managed vars dir others) = bytes (dir.takeWhile (· ≠ ':')) := by
  have value : filled (managed vars dir others) "STATE_DIRECTORY" =
      some (dir ++ others.flatMap fun other => ':' :: other) := by
    rw [filled, managed, Function.update_self]
    exact if_pos (decide_eq_true (by simp [there]))
  rw [stateDir, value]
  exact congrArg bytes (takeWhile_others dir others)

theorem stateDir_ne_nil (client : filled vars "STATE_DIRECTORY" = none) : stateDir vars ≠ [] := by
  rw [stateDir, client]
  dsimp only
  rw [join, if_neg (by decide)]
  split <;> simp [Appname.text]

/-- The daemon under a service manager and a client without one use the same log, provided that the
directory has no colon. -/
theorem log_shared {dir : List Char} {others : List (List Char)}
    (client : filled vars "STATE_DIRECTORY" = none)
    (given : bytes dir = stateDir vars) :
    ofText (incidentLogPath (managed vars dir others)) = ofText (incidentLogPath vars) ↔ ':' ∉ dir := by
  have named : IsName (Appname.text "incidents.jsonl") := by decide
  have there : dir ≠ [] := by
    rintro rfl
    exact stateDir_ne_nil client given.symm
  have first : stateDir (managed vars dir others) = bytes (dir.takeWhile (· ≠ ':')) :=
    stateDir_managed there others
  rw [incidentLogPath_eq, incidentLogPath_eq, file_inj named named, first, ← given]
  by_cases colon : ':' ∈ dir
  · obtain ⟨front, more, rfl, clean⟩ := List.eq_append_cons_of_mem colon
    rw [takeWhile_colon clean, bytes_append]
    refine iff_of_false (fun same => ?_) (fun none => none colon)
    exact ofText_longer (c := 0x3A) (by decide) (by decide) (bytes front) (bytes more) same.1
  · rw [takeWhile_clean colon]
    exact iff_of_true ⟨rfl, rfl⟩ colon

def home (name : List Char) : Option (List Char) :=
  if name = "HOME".toList then some "/home/ann".toList else none

theorem log_shared_home :
    ofText (incidentLogPath (managed home "/home/ann/.local/state/stallwatch".toList ["/run/shared".toList])) =
      ofText (incidentLogPath home) ↔ ':' ∉ "/home/ann/.local/state/stallwatch".toList :=
  log_shared rfl (by decide)

end Log

end Stallwatch.Ipc
