import Stallwatch.Cli

/-! Whether a value that cannot be read is refused. What a flag and its value are is said here by
the pairs they form from left to right, and the scan and the lookups are compared with the pairs. -/
namespace Stallwatch.Cli

open Text

structure Occurrence where
  flag : String
  value : Option String
  deriving DecidableEq, Repr

/-- The arguments that are not values, each with the value it takes. -/
def occurrences : List String → List Occurrence
  | [] => []
  | [a] => [⟨a, none⟩]
  | a :: v :: rest =>
    if a ∈ valued then ⟨a, some v⟩ :: occurrences rest else ⟨a, none⟩ :: occurrences (v :: rest)

def Occurrence.number (o : Occurrence) : Option ℕ := o.value.bind fun v => parseUnsigned 64 v.toList

/-- A flag that takes a number comes without one. -/
def Unreadable (args : List String) : Prop :=
  ∃ o ∈ occurrences args, o.flag ∈ ["--since", "--window", "-n"] ∧ o.number = none

instance : DecidablePred Unreadable := fun args =>
  inferInstanceAs (Decidable (∃ o ∈ occurrences args, _ ∧ _))

/-- Neither help nor a version, no list of fields and no subcommand is asked for. -/
def Plain (args : List String) : Prop :=
  (∀ a ∈ args, a ∉ ["-h", "--help", "-V", "--version", "--fields"]) ∧
    ∀ c ∈ commands, args.head? ≠ some c

instance : DecidablePred Plain := fun _ => inferInstanceAs (Decidable (_ ∧ _))

def Refused (x : Outcome Refusal Action) : Prop := ∃ r : Refusal, x = .err r ∧ r.code ≠ 0

def Live (x : Outcome Refusal Action) : Prop :=
  ∃ windowMs json watch processes filter, x = .ok (.live windowMs json watch processes filter)

/-- What a caller may rely on. -/
structure Honoured (f : Rounding) (m : Machine) (args : List String) : Prop where
  refused : Unreadable args → Refused (main f m args)
  recorded : (∃ o ∈ occurrences args, o.flag = "--since") → ¬ Live (main f m args)

/-- A word that is not a value is no flag. -/
def Stray (args : List String) : Prop := ∃ o ∈ occurrences args, o.flag ∉ flags

/-- The daemon is asked and does not answer, or is not asked and there are no pressure files. -/
def Unserved (m : Machine) (args : List String) : Prop :=
  (∃ secs e, num args "--since" = some secs ∧ m.queryDaemon secs (decide ("--json" ∈ args)) = .error e) ∨
    num args "--since" = none ∧ m.psiAvailable = false

/-- Something else than a number is wrong. -/
def Declined (f : Rounding) (m : Machine) (args : List String) : Prop :=
  Stray args ∨ (∃ r, filterOf f args = .err r) ∨
    (∃ filter, filterOf f args = .ok filter) ∧ Unserved m args

/-- `--since` is given, and the first argument that reads so has no number behind it. -/
def Shadowed (args : List String) : Prop :=
  (∃ o ∈ occurrences args, o.flag = "--since") ∧ num args "--since" = none

instance : DecidablePred Stray := fun args => inferInstanceAs (Decidable (∃ o ∈ occurrences args, _))

instance : DecidablePred Shadowed := fun args =>
  inferInstanceAs (Decidable ((∃ o ∈ occurrences args, _) ∧ _))

variable {f : Rounding} {m : Machine} {args : List String}

theorem valued_flags : ∀ a ∈ valued, a ∈ flags := by decide

theorem dash_flags : ∀ a ∈ flags, a.toList.head? = some '-' := by decide

/- One turn of the scan at a word that takes no value. -/
theorem rejectUnknown_word {i : ℕ} {a : String} {rest : List String} (single : a ∉ valued)
    (word : i = 0 → a ∉ commands) :
    rejectUnknown false i (a :: rest) = .ok () ↔
      a ∈ flags ∧ rejectUnknown false (i + 1) rest = .ok () := by
  have no : ¬ (i = 0 ∧ a ∈ commands) := fun h => word h.1 h.2
  simp only [rejectUnknown, if_neg single, if_neg no]
  by_cases flag : a ∈ flags
  · simp [flag, dash_flags a flag]
  · by_cases dash : a.toList.head? = some '-' <;> simp [flag, dash]

/- Induction over the pairs. Only the first word can be a command. -/
theorem rejectUnknown_ok_iff (i : ℕ) (args : List String)
    (word : i = 0 → ∀ c ∈ commands, args.head? ≠ some c) :
    rejectUnknown false i args = .ok () ↔ ∀ o ∈ occurrences args, o.flag ∈ flags := by
  induction args using occurrences.induct generalizing i with
  | case1 => simp [rejectUnknown, occurrences]
  | case2 a =>
    by_cases value : a ∈ valued
    · simp [rejectUnknown, occurrences, value, valued_flags a value]
    · rw [rejectUnknown_word value fun zero command => word zero a command rfl]
      simp [rejectUnknown, occurrences]
  | case3 a v rest value ih =>
    have later := ih (i + 1 + 1) (by omega)
    simpa [rejectUnknown, occurrences, value, valued_flags a value] using later
  | case4 a v rest single ih =>
    have later := ih (i + 1) (by omega)
    rw [rejectUnknown_word single fun zero command => word zero a command rfl, later]
    simp [occurrences, single]

/- The scan accepts, or exits with 2. -/
theorem rejectUnknown_cases (skip : Bool) (i : ℕ) (args : List String) :
    rejectUnknown skip i args = .ok () ∨ ∃ r : Refusal, rejectUnknown skip i args = .err r ∧ r.code = 2 := by
  induction args generalizing skip i with
  | nil => simp [rejectUnknown]
  | cons a rest ih =>
    cases skip with
    | true => exact ih false (i + 1)
    | false =>
      simp only [rejectUnknown]
      split_ifs
      · exact ih true (i + 1)
      · exact ih false (i + 1)
      · exact .inr ⟨_, rfl, rfl⟩
      · exact ih false (i + 1)
      · exact .inr ⟨_, rfl, rfl⟩

theorem rejectUnknown_plain (plain : Plain args) :
    rejectUnknown false 0 args = .ok () ∧ ¬ Stray args ∨
      (∃ r : Refusal, rejectUnknown false 0 args = .err r ∧ r.code = 2) ∧ Stray args := by
  have agree := rejectUnknown_ok_iff 0 args fun _ => plain.2
  have stray : ¬ Stray args ↔ rejectUnknown false 0 args = .ok () := by
    rw [agree]
    simp [Stray]
  rcases rejectUnknown_cases false 0 args with accepted | ⟨r, refused, code⟩
  · exact .inl ⟨accepted, stray.mpr accepted⟩
  · refine .inr ⟨⟨r, refused, code⟩, ?_⟩
    by_contra none
    simp [stray.mp none] at refused

theorem filterOf_code {r : Refusal} (bad : filterOf f args = .err r) : r.code = 2 := by
  revert bad
  unfold filterOf
  split
  · simp
  · split
    · rintro ⟨⟩
      rfl
    · split <;> rintro ⟨⟩
      rfl

/- What is left of the program without the subcommands. -/
theorem main_plain (plain : Plain args) :
    main f m args = rejectUnknown false 0 args >>= fun _ => filterOf f args >>= report m args := by
  have absent : ∀ a ∈ ["-h", "--help", "-V", "--version", "--fields"], a ∉ args :=
    fun a member inside => plain.1 a inside member
  simp only [List.forall_mem_cons] at absent
  have head := plain.2
  simp only [commands, List.forall_mem_cons] at head
  obtain ⟨h, help, V, version, fields, -⟩ := absent
  obtain ⟨why, doctor, config, -⟩ := head
  simp [main, h, help, V, version, fields, why, doctor, config]

theorem report_refused_iff (m : Machine) (args : List String) (filter : Option Filter) :
    Refused (report m args filter) ↔ Unserved m args := by
  cases since : num args "--since" with
  | none => cases psi : m.psiAvailable <;> simp [report, Refused, Unserved, missingPsi, since, psi]
  | some secs =>
    cases reply : m.queryDaemon secs (decide ("--json" ∈ args)) <;>
      simp [report, Refused, Unserved, unreachableDaemon, since, reply]

theorem report_live_iff (m : Machine) (args : List String) (filter : Option Filter) :
    Live (report m args filter) ↔ num args "--since" = none ∧ m.psiAvailable = true := by
  cases since : num args "--since" with
  | none => cases psi : m.psiAvailable <;> simp [report, Live, since, psi]
  | some secs =>
    cases reply : m.queryDaemon secs (decide ("--json" ∈ args)) <;> simp [report, Live, since, reply]

/- The program refuses for the reasons that have nothing to do with the numbers, and no others. -/
theorem main_refused_iff (plain : Plain args) : Refused (main f m args) ↔ Declined f m args := by
  rw [main_plain plain]
  rcases rejectUnknown_plain plain with ⟨accepted, straight⟩ | ⟨⟨r, rejected, code⟩, stray⟩
  · cases filter : filterOf f args with
    | ok parsed => simp [accepted, filter, Declined, straight, report_refused_iff]
    | err r => simp [accepted, filter, Declined, straight, Refused, filterOf_code filter]
    | panic => simp [accepted, filter, Declined, straight, Refused]
  · simp [rejected, Declined, stray, Refused, code]

theorem main_live_iff (plain : Plain args) :
    Live (main f m args) ↔ ¬ Stray args ∧ (∃ filter, filterOf f args = .ok filter) ∧
      num args "--since" = none ∧ m.psiAvailable = true := by
  rw [main_plain plain]
  rcases rejectUnknown_plain plain with ⟨accepted, straight⟩ | ⟨⟨r, rejected, -⟩, stray⟩
  · cases filter : filterOf f args with
    | ok parsed => simp [accepted, straight, report_live_iff]
    | err r => simp [accepted, Live]
    | panic => simp [accepted, Live]
  · simp [rejected, stray, Live]

/- Without a number of seconds nothing but a refusal or a crash keeps the program from sampling. -/
theorem live_of_shadowed (plain : Plain args) (shadowed : Shadowed args) (taken : ¬ Declined f m args)
    (safe : filterOf f args ≠ .panic) : Live (main f m args) := by
  have served : ∀ filter, filterOf f args = .ok filter → ¬ Unserved m args :=
    fun filter parsed unserved => taken (.inr (.inr ⟨⟨filter, parsed⟩, unserved⟩))
  refine (main_live_iff plain).mpr ⟨fun stray => taken (.inl stray), ?_⟩
  cases parsed : filterOf f args with
  | ok filter =>
    refine ⟨⟨filter, rfl⟩, shadowed.2, ?_⟩
    by_contra missing
    exact served filter parsed (.inr ⟨shadowed.2, by simpa using missing⟩)
  | err r => exact absurd (.inr (.inl ⟨r, parsed⟩)) taken
  | panic => exact absurd parsed safe

theorem honoured_of_declined (plain : Plain args) (declined : Declined f m args) : Honoured f m args := by
  have refused := (main_refused_iff plain).mpr declined
  obtain ⟨r, exits, -⟩ := id refused
  exact ⟨fun _ => refused, fun _ live => by simp [exits, Live] at live⟩

theorem honoured_of_readable (plain : Plain args) (readable : ¬ Unreadable args)
    (shadowed : Shadowed args → filterOf f args = .panic) : Honoured f m args := by
  refine ⟨fun unreadable => absurd unreadable readable, fun since live => ?_⟩
  obtain ⟨-, ⟨filter, parsed⟩, none, -⟩ := (main_live_iff plain).mp live
  simp [shadowed ⟨since, none⟩] at parsed

theorem readable_of_honoured (plain : Plain args) (honoured : Honoured f m args)
    (taken : ¬ Declined f m args) : ¬ Unreadable args :=
  fun unreadable => taken ((main_refused_iff plain).mp (honoured.refused unreadable))

/-- A number that cannot be read is never the reason for which the program refuses. -/
theorem honoured_iff (f : Rounding) (m : Machine) (args : List String) (plain : Plain args) :
    Honoured f m args ↔
      Declined f m args ∨ ¬ Unreadable args ∧ (Shadowed args → filterOf f args = .panic) := by
  constructor
  · intro honoured
    by_cases declined : Declined f m args
    · exact .inl declined
    · refine .inr ⟨readable_of_honoured plain honoured declined, fun shadowed => ?_⟩
      by_contra safe
      exact honoured.recorded shadowed.1 (live_of_shadowed plain shadowed declined safe)
  · rintro (declined | ⟨readable, shadowed⟩)
    · exact honoured_of_declined plain declined
    · exact honoured_of_readable plain readable shadowed

/-- A kernel with pressure files, and no daemon. -/
def withoutDaemon : Machine := ⟨fun _ _ => .error "Connection refused (os error 111)", true⟩

theorem honoured_iff_window :
    Plain ["--window", "250"] ∧
      (Honoured .exact withoutDaemon ["--window", "250"] ↔
        Declined .exact withoutDaemon ["--window", "250"] ∨
          ¬ Unreadable ["--window", "250"] ∧
            (Shadowed ["--window", "250"] → filterOf .exact ["--window", "250"] = .panic)) :=
  ⟨by decide, honoured_iff .exact withoutDaemon _ (by decide)⟩

theorem sampled_not_honoured (plain : Plain args ∧ ¬ Stray args ∧ Shadowed args)
    (filter : Option Filter) (parsed : filterOf .exact args = .ok filter) :
    Live (main .exact withoutDaemon args) ∧ ¬ Honoured .exact withoutDaemon args := by
  have live : Live (main .exact withoutDaemon args) :=
    (main_live_iff plain.1).mpr ⟨plain.2.1, ⟨filter, parsed⟩, plain.2.2.2, rfl⟩
  exact ⟨live, fun honoured => honoured.recorded plain.2.2.1 live⟩

/-- A value that is missing, one that is no number, and one behind another `--since` that is
itself a value: all three are answered with a live sample. -/
theorem not_honoured :
    (Plain ["--since"] ∧ Live (main .exact withoutDaemon ["--since"]) ∧
      ¬ Honoured .exact withoutDaemon ["--since"]) ∧
    (Plain ["--since", "abc"] ∧ Live (main .exact withoutDaemon ["--since", "abc"]) ∧
      ¬ Honoured .exact withoutDaemon ["--since", "abc"]) ∧
    Plain ["--filter", "unit", "--filter", "--since", "--since", "5"] ∧
      Live (main .exact withoutDaemon ["--filter", "unit", "--filter", "--since", "--since", "5"]) ∧
      ¬ Honoured .exact withoutDaemon ["--filter", "unit", "--filter", "--since", "--since", "5"] := by
  have parsed : filterOf .exact ["--filter", "unit", "--filter", "--since", "--since", "5"] =
      .ok (some ⟨.truthy "unit".toList, "unit".toList⟩) := by decide +kernel
  refine ⟨⟨by decide, sampled_not_honoured (by decide) none rfl⟩, ?_, by decide, ?_⟩
  · exact ⟨by decide, sampled_not_honoured (by decide) none rfl⟩
  · exact sampled_not_honoured (by decide) _ parsed

@[simp] theorem num_nil (name : String) : num [] name = none := rfl

/- A lookup one argument further. -/
theorem num_cons (a : String) (rest : List String) (name : String) :
    num (a :: rest) name =
      if a = name then rest.head?.bind fun v => parseUnsigned 64 v.toList else num rest name := by
  by_cases same : a = name
  · simp [num, List.findIdx?_cons, same, List.head?_eq_getElem?]
  · cases found : rest.findIdx? (· = name) <;> simp [num, List.findIdx?_cons, same, found]

/- A lookup finds the value of the first pair, unless a value reads like the flag. -/
theorem num_eq {name : String} (takes : name ∈ valued)
    (apart : ∀ o ∈ occurrences args, o.value ≠ some name) :
    num args name = ((occurrences args).find? (·.flag = name)).bind Occurrence.number := by
  induction args using occurrences.induct with
  | case1 => rfl
  | case2 a => by_cases same : a = name <;> simp [num_cons, occurrences, same, Occurrence.number]
  | case3 a v rest value ih =>
    simp only [occurrences, value, if_true, List.forall_mem_cons] at apart ⊢
    have other : v ≠ name := fun same => apart.1 (congrArg some same)
    by_cases same : a = name
    · simp [num_cons, same, Occurrence.number]
    · simp [num_cons, same, other, ih apart.2]
  | case4 a v rest single ih =>
    have other : a ≠ name := fun same => single (same ▸ takes)
    simp only [occurrences, single, if_false, List.forall_mem_cons] at apart ⊢
    rw [num_cons, if_neg other, ih apart.2]
    simp [other]

/- A lookup that finds nothing has met the first pair of its flag. -/
theorem unreadable_of_shadowed (apart : ∀ o ∈ occurrences args, o.value ≠ some "--since")
    (shadowed : Shadowed args) : Unreadable args := by
  obtain ⟨⟨o, member, since⟩, nothing⟩ := shadowed
  rw [num_eq (by decide) apart] at nothing
  obtain ⟨first, found⟩ : ∃ first, (occurrences args).find? (·.flag = "--since") = some first :=
    Option.isSome_iff_exists.mp (List.find?_isSome.mpr ⟨o, member, by simpa using since⟩)
  have flag : first.flag = "--since" := by simpa using List.find?_some found
  refine ⟨first, List.mem_of_find?_eq_some found, by simp [flag], ?_⟩
  simpa [found] using nothing

/-- As long as no value reads `--since`, the program does what a caller may rely on exactly when
it refuses anyway or can read every number. -/
theorem honoured_iff_readable (plain : Plain args)
    (apart : ∀ o ∈ occurrences args, o.value ≠ some "--since") :
    Honoured f m args ↔ Declined f m args ∨ ¬ Unreadable args := by
  constructor
  · intro honoured
    by_cases declined : Declined f m args
    · exact .inl declined
    · exact .inr (readable_of_honoured plain honoured declined)
  · rintro (declined | readable)
    · exact honoured_of_declined plain declined
    · exact honoured_of_readable plain readable fun shadowed =>
        absurd (unreadable_of_shadowed apart shadowed) readable

end Stallwatch.Cli
