import Stallwatch.Json.Cursor
import Stallwatch.Json.Sound
import Stallwatch.Json.Total

/-! The walks of the cursor over the bytes of a text. They return what the reader returns, and
the bytes in front of the cursor are at all times those of whole characters. -/
namespace Stallwatch.Json.Cursor

open Utf8 Text Walk

/-- A place between two characters of the text, or at an end of it. -/
def OnBoundary (input : List Char) (i : ℕ) : Prop := ∃ front, front <+: input ∧ i = (bytes front).length

theorem OnBoundary.within {input : List Char} {i : ℕ} (boundary : OnBoundary input i) :
    i ≤ (bytes input).length := by
  obtain ⟨front, ⟨rest, rfl⟩, rfl⟩ := boundary
  simp

/-- Marks of calls that are all left again; `n` is how many of `value` are open at most. -/
inductive Nests : List Mark → ℕ → Prop
  | nil : Nests [] 0
  | value {marks n} (i j : ℕ) : Nests marks n →
      Nests (⟨.value, true, i⟩ :: (marks ++ [⟨.value, false, j⟩])) (n + 1)
  | other {part marks n} (i j : ℕ) : part ≠ .value → Nests marks n →
      Nests (⟨part, true, i⟩ :: (marks ++ [⟨part, false, j⟩])) n
  | append {front marks m n} : Nests front m → Nests marks n → Nests (front ++ marks) (max m n)

section Walks

variable {input : List Char} {α β : Type}

/-- What is left to read is `rest`. -/
def Stands (input : List Char) (s : State) (rest : List Char) : Prop :=
  ∃ front, input = front ++ rest ∧ s.index = (bytes front).length

/-- What is noted between two states, and where the cursor stands at the end. -/
structure Kept (input : List Char) (n : ℕ) (s t : State) (rest : List Char) : Prop where
  noted : ∃ marks, t.marks = s.marks ++ marks ∧ Nests marks n ∧ ∀ m ∈ marks, OnBoundary input m.index
  stands : Stands input t rest

/-- Errors that say that the bytes are no text. -/
def Torn (e : String) : Prop := e = "truncated UTF-8" ∨ e = "bad UTF-8"

/-- The walk returns what the reader returns. -/
def Follows (input : List Char) (n : ℕ) (s : State) :
    Outcome String (α × List UInt8) → Outcome String α × State → Prop
  | .ok read, walked => walked.1 = .ok read.1 ∧ ∃ rest, read.2 = bytes rest ∧ Kept input n s walked.2 rest
  | .err e, walked => walked.1 = .err e ∧ ¬Torn e ∧ ∃ rest, Kept input n s walked.2 rest
  | .panic, _ => True

theorem Stands.boundary {s : State} {rest : List Char} (stands : Stands input s rest) :
    OnBoundary input s.index := by
  obtain ⟨front, rfl, here⟩ := stands
  exact ⟨front, List.prefix_append _ _, here⟩

theorem Stands.left {s : State} {rest : List Char} (stands : Stands input s rest) :
    (bytes input).drop s.index = bytes rest := by
  obtain ⟨front, rfl, here⟩ := stands
  rw [here, drop_bytes]

theorem Stands.length {s : State} {rest : List Char} (stands : Stands input s rest) :
    (bytes input).length = s.index + (bytes rest).length := by
  obtain ⟨front, rfl, here⟩ := stands
  rw [here, bytes_append, List.length_append]

theorem Stands.byte {s : State} {rest : List Char} (stands : Stands input s rest) :
    (bytes input)[s.index]? = (bytes rest).head? := by
  rw [← stands.left, List.head?_drop]

/- The index moves on by the bytes of the characters that are passed. -/
theorem Stands.advance {s : State} {passed rest : List Char} (stands : Stands input s (passed ++ rest)) :
    Stands input { s with index := s.index + (bytes passed).length } rest := by
  obtain ⟨front, rfl, here⟩ := stands
  exact ⟨front ++ passed, (List.append_assoc _ _ _).symm, by simp [here]⟩

theorem Stands.next {s : State} {c : Char} {rest : List Char} (ascii : c.toNat < 0x80)
    (stands : Stands input s (c :: rest)) : Stands input { s with index := s.index + 1 } rest := by
  have moved := @Stands.advance input s [c] rest stands
  rwa [bytes_ascii ascii] at moved

theorem Kept.refl {s : State} {rest : List Char} (stands : Stands input s rest) : Kept input 0 s s rest :=
  ⟨⟨[], (List.append_nil _).symm, .nil, nofun⟩, stands⟩

theorem Kept.moved {n k : ℕ} {s t : State} {rest left : List Char} (kept : Kept input n s t rest)
    (stands : Stands input { t with index := k } left) : Kept input n s { t with index := k } left :=
  ⟨kept.noted, stands⟩

theorem Kept.trans {m n : ℕ} {s t u : State} {rest left : List Char} (first : Kept input m s t rest)
    (next : Kept input n t u left) : Kept input (max m n) s u left := by
  obtain ⟨front, noted, nests, boundaries⟩ := first.noted
  obtain ⟨marks, more, deeper, others⟩ := next.noted
  refine ⟨⟨front ++ marks, by rw [more, noted, List.append_assoc], nests.append deeper, ?_⟩, next.stands⟩
  intro m member
  exact (List.mem_append.mp member).elim (boundaries m) (others m)

theorem Follows.stays {s : State} {rest : List Char} {a : α} (stands : Stands input s rest) :
    Follows input 0 s (.ok (a, bytes rest)) (.ok a, s) := ⟨rfl, rest, rfl, .refl stands⟩

theorem Follows.refuses {s : State} {rest : List Char} {e : String} (stands : Stands input s rest)
    (sound : ¬Torn e) : Follows input 0 s (.err e : Outcome String (α × List UInt8)) (.err e, s) :=
  ⟨rfl, sound, rest, .refl stands⟩

theorem Follows.passes {k : ℕ} {s : State} {rest left : List Char} {a : α} (stands : Stands input s rest)
    (behind : Stands input { s with index := k } left) :
    Follows input 0 s (.ok (a, bytes left)) (.ok a, { s with index := k }) :=
  ⟨rfl, left, rfl, (Kept.refl stands).moved behind⟩

/- Where the cursor stood at first does not matter. -/
theorem Follows.since {n : ℕ} {s t : State} {r : Outcome String (α × List UInt8)} {w : Outcome String α × State}
    (follows : Follows input n t r w) (same : t.marks = s.marks) : Follows input n s r w := by
  have back : ∀ {u rest}, Kept input n t u rest → Kept input n s u rest :=
    fun kept => ⟨same ▸ kept.noted, kept.stands⟩
  cases r with
  | panic => trivial
  | err e =>
    obtain ⟨failed, sound, rest, kept⟩ := follows
    exact ⟨failed, sound, rest, back kept⟩
  | ok read =>
    obtain ⟨returned, rest, left, kept⟩ := follows
    exact ⟨returned, rest, left, back kept⟩

theorem bind_eq {x : Walk α} {next : α → Walk β} {s : State} :
    (x >>= next) s = match x s with
      | (.ok a, s) => next a s
      | (.err e, s) => (.err e, s)
      | (.panic, s) => (.panic, s) := rfl

theorem bind_ok {x : Walk α} {next : α → Walk β} {s t : State} {a : α} (walked : x s = (.ok a, t)) :
    (x >>= next) s = next a t := by
  rw [bind_eq, walked]

theorem index_bind {next : ℕ → Walk β} {s : State} : (index >>= next) s = next s.index s := rfl

theorem look_bind {b : List UInt8} {next : Option UInt8 → Walk β} {s : State} :
    (look b >>= next) s = next b[s.index]? s := rfl

theorem advance_bind {n : ℕ} {next : Unit → Walk β} {s : State} :
    (advance n >>= next) s = next () { s with index := s.index + n } := rfl

/-- How deep two parts go that are read one after the other. -/
def deeper {α : Type} (n : ℕ) (r : Outcome String α) (next : α → ℕ) : ℕ :=
  match r with
  | .ok a => max n (next a)
  | _ => n

theorem Follows.bind {m : ℕ} {n : α × List UInt8 → ℕ} {s : State} {r : Outcome String (α × List UInt8)}
    {w : Walk α} {next : α × List UInt8 → Outcome String (β × List UInt8)} {then_ : α → Walk β}
    (first : Follows input m s r (w s))
    (step : ∀ a t rest, Kept input m s t rest →
      Follows input (n (a, bytes rest)) t (next (a, bytes rest)) (then_ a t)) :
    Follows input (deeper m r n) s (r >>= next) ((w >>= then_) s) := by
  rw [bind_eq]
  generalize w s = walked at first
  obtain ⟨result, t⟩ := walked
  cases r with
  | panic => trivial
  | err e =>
    obtain ⟨rfl, sound, rest, kept⟩ := first
    exact ⟨rfl, sound, rest, kept⟩
  | ok read =>
    obtain ⟨a, left⟩ := read
    obtain ⟨rfl, rest, rfl, kept⟩ := first
    have stepped := step a t rest kept
    revert stepped
    rw [Outcome.ok_bind]
    show Follows _ _ _ (next (a, bytes rest)) (then_ a t) → Follows _ _ _ (next (a, bytes rest)) (then_ a t)
    cases next (a, bytes rest) with
    | panic => exact fun _ => trivial
    | err e => exact fun ⟨same, sound, rest, more⟩ => ⟨same, sound, rest, kept.trans more⟩
    | ok read => exact fun ⟨same, rest, left, more⟩ => ⟨same, rest, left, kept.trans more⟩

theorem Kept.watched {part : Part} {m n : ℕ} {s t : State} {rest left : List Char}
    (nested : ∀ {marks} (i j : ℕ), Nests marks m → Nests (⟨part, true, i⟩ :: (marks ++ [⟨part, false, j⟩])) n)
    (stands : Stands input s rest) (kept : Kept input m (note part true s) t left) :
    Kept input n s (note part false t) left := by
  obtain ⟨marks, noted, nests, boundaries⟩ := kept.noted
  refine ⟨⟨⟨part, true, s.index⟩ :: (marks ++ [⟨part, false, t.index⟩]), ?_, nested _ _ nests, ?_⟩, kept.stands⟩
  · show t.marks ++ _ = _
    rw [noted]
    simp [note]
  · simp only [List.mem_cons, List.mem_append, List.not_mem_nil, or_false]
    rintro m (rfl | member | rfl)
    · exact stands.boundary
    · exact boundaries m member
    · exact kept.stands.boundary

theorem Follows.watched {part : Part} {m n : ℕ} {s : State} {rest : List Char}
    {r : Outcome String (α × List UInt8)} {w : Walk α}
    (nested : ∀ {marks} (i j : ℕ), Nests marks m → Nests (⟨part, true, i⟩ :: (marks ++ [⟨part, false, j⟩])) n)
    (stands : Stands input s rest) (follows : Follows input m (note part true s) r (w (note part true s))) :
    Follows input n s r (Walk.watched part w s) := by
  cases r with
  | panic => trivial
  | err e =>
    obtain ⟨same, sound, rest, kept⟩ := follows
    exact ⟨same, sound, rest, kept.watched nested stands⟩
  | ok read =>
    obtain ⟨same, rest, left, kept⟩ := follows
    exact ⟨same, rest, left, kept.watched nested stands⟩

theorem Follows.value {n : ℕ} {s : State} {rest : List Char} {r : Outcome String (α × List UInt8)} {w : Walk α}
    (stands : Stands input s rest) (follows : Follows input n (note .value true s) r (w (note .value true s))) :
    Follows input (n + 1) s r (Walk.watched .value w s) :=
  Follows.watched (fun i j nests => .value i j nests) stands follows

theorem Follows.other {part : Part} (other : part ≠ .value) {n : ℕ} {s : State} {rest : List Char}
    {r : Outcome String (α × List UInt8)} {w : Walk α} (stands : Stands input s rest)
    (follows : Follows input n (note part true s) r (w (note part true s))) :
    Follows input n s r (Walk.watched part w s) :=
  Follows.watched (fun i j nests => .other i j other nests) stands follows

theorem drop_cases (b : List UInt8) (i : ℕ) :
    (b.length ≤ i ∧ b[i]? = none ∧ b.drop i = []) ∨
      ∃ c, i < b.length ∧ b[i]? = some c ∧ b.drop i = c :: b.drop (i + 1) := by
  rcases Nat.lt_or_ge i b.length with inside | outside
  · have here := List.drop_eq_getElem_cons inside
    exact .inr ⟨b.get ⟨i, inside⟩, inside, List.getElem?_eq_getElem inside, here⟩
  · exact .inl ⟨outside, List.getElem?_eq_none outside, List.drop_eq_nil_of_le outside⟩

theorem scanWhile_stop {p : UInt8 → Bool} {b : List UInt8} {i : ℕ} (stop : ∀ c ∈ b[i]?, p c = false) :
    scanWhile p b i = i := by
  rw [scanWhile]
  rcases drop_cases b i with ⟨_, _, none⟩ | ⟨c, _, here, left⟩
  · rw [none, List.takeWhile_nil, List.length_nil, Nat.add_zero]
  · rw [left, List.takeWhile_cons_of_neg (by simp [stop c here]), List.length_nil, Nat.add_zero]

theorem scanWhile_next {p : UInt8 → Bool} {b : List UInt8} {i : ℕ} {c : UInt8} (here : b[i]? = some c)
    (holds : p c = true) : scanWhile p b i = scanWhile p b (i + 1) := by
  rcases drop_cases b i with ⟨_, none, _⟩ | ⟨d, _, same, left⟩
  · rw [here] at none
    contradiction
  · cases here.symm.trans same
    rw [scanWhile, left, List.takeWhile_cons_of_pos holds, List.length_cons, scanWhile]
    omega

def isSpace (c : UInt8) : Bool := asChar c ∈ [' ', '\t', '\n', '\r']

theorem skipFrom_scans {b : List UInt8} {fuel : ℕ} {s : State} (enough : b.length - s.index < fuel) :
    skipFrom b fuel s = (.ok (), { s with index := scanWhile isSpace b s.index }) := by
  induction fuel generalizing s with
  | zero => omega
  | succ fuel ih =>
    rw [skipFrom, index_bind]
    rcases drop_cases b s.index with ⟨outside, none, _⟩ | ⟨c, inside, here, _⟩
    · rw [if_neg (Nat.not_lt.mpr outside), scanWhile_stop (by simp [none])]
      rfl
    · have read : byte b s = (.ok c, s) := by rw [byte, here]
      rw [if_pos inside, bind_ok read]
      by_cases space : asChar c ∈ [' ', '\t', '\n', '\r']
      · rw [if_pos space, scanWhile_next here (decide_eq_true space)]
        exact @ih { s with index := s.index + 1 } (by show b.length - (s.index + 1) < fuel; omega)
      · rw [if_neg space, scanWhile_stop]
        · rfl
        · rintro d same
          cases here.symm.trans same
          exact decide_eq_false space

theorem scanFrom_scans {b : List UInt8} {fuel : ℕ} {s : State} (enough : b.length - s.index < fuel) :
    scanFrom b fuel s = (.ok (), { s with index := scanWhile isNumberByte b s.index }) := by
  induction fuel generalizing s with
  | zero => omega
  | succ fuel ih =>
    rw [scanFrom, look_bind]
    rcases drop_cases b s.index with ⟨outside, none, _⟩ | ⟨c, inside, here, _⟩
    · rw [none, scanWhile_stop (by simp [none])]
      rfl
    · rw [here]
      dsimp only
      by_cases number : isNumberByte c = true
      · rw [if_pos number, scanWhile_next here number]
        exact @ih { s with index := s.index + 1 } (by show b.length - (s.index + 1) < fuel; omega)
      · rw [if_neg number, scanWhile_stop]
        · rfl
        · rintro d same
          cases here.symm.trans same
          exact Bool.not_eq_true _ ▸ number

/-- The cursor behind the blanks. -/
theorem skipWs_walks {s : State} {rest : List Char} (stands : Stands input s rest) :
    ∃ i left, Cursor.skipWs (bytes input) s = (.ok (), { s with index := i }) ∧
      Stands input { s with index := i } left ∧ Json.skipWs (bytes rest) = bytes left := by
  obtain ⟨blanks, left, rfl, blank, skip⟩ := skipWs_sound rest
  have skipped : (bytes (blanks ++ left)).takeWhile isSpace = bytes blanks := by
    have cut := List.takeWhile_append_dropWhile (p := isSpace) (l := bytes (blanks ++ left))
    have dropped : (bytes (blanks ++ left)).dropWhile isSpace = bytes left := skip
    rw [dropped, bytes_append] at cut
    rw [bytes_append]
    exact List.append_cancel_right cut
  refine ⟨_, left, skipFrom_scans (by omega), ?_, skip⟩
  show Stands input { s with index := scanWhile isSpace (bytes input) s.index } left
  rw [scanWhile, stands.left, skipped]
  exact stands.advance

theorem look_left {s : State} {rest : List Char} (stands : Stands input s rest)
    {next : Option UInt8 → Walk β} : (look (bytes input) >>= next) s = next (bytes rest).head? s := by
  rw [look_bind, stands.byte]

theorem range_left {s : State} {rest : List Char} (stands : Stands input s rest) (n : ℕ) :
    range (bytes input) s.index (s.index + n) =
      if n ≤ (bytes rest).length then some ((bytes rest).take n) else none := by
  have total := stands.length
  have cut : ((bytes input).take (s.index + n)).drop s.index = (bytes rest).take n := by
    rw [List.drop_take, stands.left, Nat.add_sub_cancel_left]
  rw [range, cut]
  by_cases fits : n ≤ (bytes rest).length
  · rw [if_pos fits, if_pos (by omega)]
  · rw [if_neg fits, if_neg (by omega)]

/- What most of the functions do before they decide anything. -/
theorem skip_look {s : State} {rest : List Char} (stands : Stands input s rest) :
    ∃ i left, Json.skipWs (bytes rest) = bytes left ∧ Stands input ⟨i, s.marks⟩ left ∧
      ∀ {β : Type} (next : Option UInt8 → Walk β),
        (Cursor.skipWs (bytes input) >>= fun _ => look (bytes input) >>= next) s =
          next (bytes left).head? ⟨i, s.marks⟩ := by
  obtain ⟨i, left, skipped, behind, same⟩ := skipWs_walks stands
  refine ⟨i, left, same, behind, fun next => ?_⟩
  rw [bind_ok skipped]
  exact look_left behind

theorem lit_follows {s : State} {rest want : List Char} {out : Json} (stands : Stands input s rest)
    (all : want.all (·.toNat < 0x80) = true) :
    Follows input 0 s (Json.lit want out (bytes rest)) (Cursor.lit (bytes input) want out s) := by
  have ascii : ∀ c ∈ want, c.toNat < 0x80 := by simpa using all
  have total := stands.length
  have refused : Follows input 0 s (.err "bad literal" : Outcome String (Json × List UInt8))
      (fail "bad literal" s) := .refuses stands (by simp [Torn])
  rw [Json.lit, Cursor.lit, index_bind]
  by_cases here : (bytes want).isPrefixOf (bytes rest) = true
  · obtain ⟨left, rfl⟩ := ascii_prefix ascii (List.isPrefixOf_iff_prefix.mp here)
    have fits : (bytes want).length ≤ (bytes (want ++ left)).length := by simp
    have taken : (bytes (want ++ left)).take (bytes want).length = bytes want := by simp
    rw [if_pos here, drop_bytes, if_pos (by omega), Walk.slice, range_left stands, if_pos fits, taken]
    show Follows input 0 s _ ((if bytes want = bytes want then advance _ >>= fun _ => pure out else _) s)
    rw [if_pos rfl, advance_bind]
    exact .passes stands stands.advance
  · rw [if_neg here]
    split
    · rename_i inside
      have fits : (bytes want).length ≤ (bytes rest).length := by omega
      have other : (bytes rest).take (bytes want).length ≠ bytes want :=
        fun same => here (List.isPrefixOf_iff_prefix.mpr (same ▸ List.take_prefix _ _))
      rw [Walk.slice, range_left stands, if_pos fits]
      show Follows input 0 s _ ((if (bytes rest).take (bytes want).length = bytes want then
        advance (bytes want).length >>= fun _ => pure out else fail "bad literal") s)
      rw [if_neg other]
      exact refused
    · exact refused

/-- What an escape leaves the cursor at is its last character. -/
def Escapes (input : List Char) (s : State) :
    Outcome String (Char × List UInt8) → Outcome String Char × State → Prop
  | .ok read, walked => ∃ i rest, walked = (.ok read.1, { s with index := i }) ∧ read.2 = bytes rest ∧
      Stands input { s with index := i + 1 } rest
  | .err e, walked => walked = (.err e, s) ∧ ¬Torn e
  | .panic, _ => False

theorem unicode_escapes {s : State} {cs : List Char} (stands : Stands input s ('u' :: cs)) :
    Escapes input s (Json.unicode (bytes cs)) (Cursor.unicode (bytes input) s) := by
  have ahead : range (bytes input) (s.index + 1) (s.index + 5) = _ := range_left (stands.next (by decide)) 4
  rw [Cursor.unicode, index_bind, ahead]
  by_cases short : (bytes cs).length < 4
  · rw [if_neg (by omega), Json.unicode, if_pos short]
    exact ⟨rfl, by simp [Torn]⟩
  rw [if_pos (by omega)]
  dsimp only
  cases parsed : (fromUtf8 ((bytes cs).take 4)).bind (parseHex 32) with
  | none =>
    rw [Json.unicode, if_neg short, parsed]
    exact ⟨rfl, by simp [Torn]⟩
  | some n =>
    dsimp only
    cases valid : fromU32 n with
    | none =>
      rw [Json.unicode, if_neg short, parsed]
      dsimp only
      rw [valid]
      exact ⟨rfl, by simp [Torn]⟩
    | some c =>
      have read : Json.unicode (bytes cs) = .ok (c, (bytes cs).drop 4) := by
        rw [Json.unicode, if_neg short, parsed]
        dsimp only
        rw [valid]
      obtain ⟨digits, rest, rfl, left, four, n, value, _⟩ := unicode_sound read
      have length : (bytes ('u' :: digits)).length = 5 := by
        rw [bytes_ascii (by decide), List.length_cons, bytes_length_ascii (parseHex_ascii value), four]
      have passed := @Stands.advance input s ('u' :: digits) rest stands
      rw [length] at passed
      rw [read]
      exact ⟨s.index + 4, rest, rfl, left, passed⟩

theorem escape_escapes {s : State} {cs : List Char} (stands : Stands input s cs) :
    Escapes input s (Json.escape (bytes cs)) (Cursor.escape (bytes input) s) := by
  rw [Cursor.escape, look_left stands]
  cases cs with
  | nil => exact ⟨rfl, by simp [Torn]⟩
  | cons c cs =>
    rcases head_cases c cs with ⟨low, front⟩ | ⟨x, xs, front, wide⟩
    · have next := stands.next low
      rw [front, Json.escape, List.head?_cons]
      dsimp only
      rw [asChar_ascii low]
      split
      case h_9 => exact unicode_escapes stands
      case h_10 =>
        try split
        all_goals first | contradiction | exact ⟨rfl, by simp [Torn]⟩
      all_goals exact ⟨s.index, cs, rfl, rfl, next⟩
    · have other : ∀ d : Char, d.toNat < 0x80 → asChar x ≠ d := fun _ => wide_ne wide
      rw [front, Json.escape, List.head?_cons]
      dsimp only
      generalize asChar x = d at other
      split
      case h_10 =>
        try split
        all_goals first | contradiction | exact ⟨rfl, by simp [Torn]⟩
      all_goals exact absurd rfl (other _ (by decide))

/- What stands for itself is copied as one whole sequence. -/
theorem plain_walks {s : State} {c : Char} {cs : List Char} (stands : Stands input s (c :: cs))
    (quote : c ≠ '"') (backslash : c ≠ '\\') :
    Cursor.piece (bytes input) s =
      (.ok (some [c]), { s with index := s.index + (bytes [c]).length }) := by
  obtain ⟨first, tail, encoded⟩ := List.exists_cons_of_ne_nil (encode_ne_nil c)
  have single : bytes [c] = first :: tail := by rw [bytes_cons, bytes_nil, List.append_nil, encoded]
  have whole : bytes (c :: cs) = first :: tail ++ bytes cs := by rw [bytes_cons, encoded]
  have total := stands.length
  have here : (bytes input)[s.index]? = some first := by rw [stands.byte, whole]; rfl
  have read : byte (bytes input) s = (.ok first, s) := by rw [byte, here]
  have fits : utf8Len first = (bytes [c]).length := by rw [utf8Len_encode encoded, single, List.length_cons]
  have inside : (bytes [c]).length ≤ (bytes (c :: cs)).length := by simp [bytes_cons]
  have taken : (bytes (c :: cs)).take (bytes [c]).length = bytes [c] := by
    rw [whole, single, List.take_left]
  have other : asChar first ≠ '"' ∧ asChar first ≠ '\\' := by
    rcases head_cases c cs with ⟨low, front⟩ | ⟨x, xs, front, wide⟩
    · rw [(List.cons.inj (whole.symm.trans front)).1, asChar_ascii low]
      exact ⟨quote, backslash⟩
    · rw [(List.cons.inj (whole.symm.trans front)).1]
      exact ⟨wide_ne wide (by decide), wide_ne wide (by decide)⟩
  rw [Cursor.piece, look_bind, here]
  dsimp only
  generalize asChar first = d at other
  split
  · exact absurd rfl other.1
  · exact absurd rfl other.2
  · have sliced : Walk.slice (bytes input) s.index (s.index + (bytes [c]).length) s = (.ok (bytes [c]), s) := by
      rw [Walk.slice, range_left stands, if_pos inside, taken]
      rfl
    rw [index_bind, bind_ok read, fits, if_neg (by omega), bind_ok sliced, fromUtf8_bytes]
    rfl

theorem piece_follows {s : State} {rest : List Char} (stands : Stands input s rest) :
    Follows input 0 s (Json.piece (bytes rest)) (Cursor.piece (bytes input) s) := by
  cases rest with
  | nil =>
    rw [Cursor.piece, look_left stands]
    exact .refuses stands (by simp [Torn])
  | cons c cs =>
    by_cases quote : c = '"'
    · subst quote
      have next := stands.next (by decide)
      rw [Cursor.piece, look_left stands]
      exact .passes stands next
    by_cases backslash : c = '\\'
    · subst backslash
      have next := stands.next (by decide)
      have escapes := escape_escapes next
      have listed : Json.piece (bytes ('\\' :: cs)) =
        (Json.escape (bytes cs) >>= fun r => .ok (some [r.1], r.2)) := rfl
      have walked : Cursor.piece (bytes input) s =
          (Cursor.escape (bytes input) >>= fun c => advance 1 >>= fun _ => pure (some [c]))
            { s with index := s.index + 1 } := by
        rw [Cursor.piece, look_left stands]
        rfl
      rw [listed, walked]
      cases found : Json.escape (bytes cs) with
      | panic => trivial
      | err e =>
        rw [found] at escapes
        obtain ⟨failed, sound⟩ := escapes
        rw [bind_eq, failed]
        exact ⟨rfl, sound, cs, (Kept.refl stands).moved next⟩
      | ok read =>
        rw [found] at escapes
        obtain ⟨i, rest, stopped, left, behind⟩ := escapes
        rw [bind_ok stopped]
        exact ⟨rfl, rest, left, (Kept.refl stands).moved behind⟩
    · have listed := piece_plain quote backslash (bytes cs)
      rw [← bytes_cons] at listed
      rw [listed, plain_walks stands quote backslash]
      exact .passes stands (@Stands.advance input s [c] cs stands)

@[simp] theorem deeper_zero {r : Outcome String α} : deeper 0 r (fun _ => 0) = 0 := by
  cases r <;> rfl

theorem stringFrom_follows {fuel more : ℕ} (enough : fuel ≤ more) {acc : List Char} {s : State}
    {rest : List Char} (stands : Stands input s rest) :
    Follows input 0 s (Json.stringFrom fuel acc (bytes rest)) (Cursor.stringFrom (bytes input) more acc s) := by
  induction fuel generalizing more acc s rest with
  | zero => trivial
  | succ fuel ih =>
    obtain ⟨more, rfl⟩ := Nat.exists_eq_add_of_le' (by omega : 1 ≤ more)
    rw [Json.stringFrom, Cursor.stringFrom, ← @deeper_zero _ (Json.piece (bytes rest))]
    apply (piece_follows stands).bind
    rintro (_ | cs) t left kept
    · exact .stays kept.stands
    · exact ih (by omega) kept.stands

theorem string_follows {s : State} {cs : List Char} (stands : Stands input s ('"' :: cs)) :
    Follows input 0 s (Json.string (bytes ('"' :: cs))) (Cursor.string (bytes input) s) := by
  have total := stands.length
  have noted : Stands input (note .string true s) ('"' :: cs) := stands
  have next := noted.next (by decide)
  have follows := @stringFrom_follows input _ (bytes input).length (by omega : (bytes ('"' :: cs)).length ≤ _)
    [] _ cs next
  rw [Json.string, tail_char (by decide)]
  apply Follows.other (by decide) stands
  rw [advance_bind]
  exact follows.since rfl

/- The sign would be scanned with the rest. -/
theorem sign_scans {s : State} {next : Unit → Walk β} {b : List UInt8} :
    (sign b >>= fun _ => scanFrom b (b.length + 1) >>= next) s =
      next () { s with index := scanWhile isNumberByte b s.index } := by
  rw [bind_eq, sign, look_bind]
  by_cases minus : b[s.index]?.map asChar = some '-'
  · obtain ⟨c, here, char⟩ := Option.map_eq_some_iff.mp minus
    have number : isNumberByte c = true := by rw [isNumberByte, char]; decide
    rw [if_pos minus]
    show (scanFrom b (b.length + 1) >>= next) { s with index := s.index + 1 } = _
    rw [bind_ok (scanFrom_scans (by omega)), scanWhile_next here number]
  · rw [if_neg minus]
    show (scanFrom b (b.length + 1) >>= next) s = _
    rw [bind_ok (scanFrom_scans (by omega))]

theorem number_follows {f : Rounding} {s : State} {rest : List Char} (stands : Stands input s rest) :
    Follows input 0 s (Json.number f (bytes rest)) (Cursor.number (bytes input) f s) := by
  have noted : Stands input (note .number true s) rest := stands
  have scanned := number_scanned rest
  have taken : (bytes rest).take (bytes (rest.takeWhile isNumberChar)).length =
      bytes (rest.takeWhile isNumberChar) := by
    rw [← scanned]
    exact (List.prefix_iff_eq_take.mp (List.takeWhile_prefix _)).symm
  have stop : scanWhile isNumberByte (bytes input) (note .number true s).index =
      (note .number true s).index + (bytes (rest.takeWhile isNumberChar)).length := by
    rw [scanWhile, noted.left, scanned]
  have fits : (bytes (rest.takeWhile isNumberChar)).length ≤ (bytes rest).length := by
    rw [← scanned]
    exact (List.takeWhile_prefix _).length_le
  have cut : rest = rest.takeWhile isNumberChar ++ rest.dropWhile isNumberChar :=
    List.takeWhile_append_dropWhile.symm
  have behind := @Stands.advance input (note .number true s) _ _ (cut ▸ noted)
  apply Follows.other (by decide) stands
  have sliced : ∀ t, Walk.slice (bytes input) (note .number true s).index
      (scanWhile isNumberByte (bytes input) (note .number true s).index) t =
        (.ok (bytes (rest.takeWhile isNumberChar)), t) := by
    intro t
    rw [stop, Walk.slice, range_left noted, if_pos fits, taken]
    rfl
  rw [index_bind, sign_scans, index_bind]
  dsimp only
  rw [bind_ok (sliced _), number_eq, scanned, number_left, fromUtf8_bytes,
    Option.bind_some]
  rw [← stop] at behind
  cases F64.parse f (rest.takeWhile isNumberChar) with
  | none => exact ⟨rfl, by simp [Torn], _, (Kept.refl noted).moved behind⟩
  | some n => exact .passes noted behind

end Walks

mutual

/-- How many activations of `value` are open at most while a value is read. -/
def valueDepth (f : Rounding) : ℕ → List UInt8 → ℕ
  | 0, _ => 0
  | fuel + 1, b =>
    (match Json.skipWs b with
    | [] => 0
    | c :: b =>
      match asChar c with
      | '{' => objectDepth f fuel b
      | '[' => arrayDepth f fuel b
      | _ => 0) + 1

def objectDepth (f : Rounding) : ℕ → List UInt8 → ℕ
  | 0, _ => 0
  | fuel + 1, b =>
    let b := Json.skipWs b
    if b.head?.map asChar = some '}' then 0 else membersDepth f fuel b

def membersDepth (f : Rounding) : ℕ → List UInt8 → ℕ
  | 0, _ => 0
  | fuel + 1, b =>
    let b := Json.skipWs b
    if b.head?.map asChar = some '"' then
      deeper 0 (Json.string b) fun key =>
        let b := Json.skipWs key.2
        if b.head?.map asChar = some ':' then
          deeper (valueDepth f fuel b.tail) (Json.value f fuel b.tail) fun read =>
            let b := Json.skipWs read.2
            if b.head?.map asChar = some ',' then membersDepth f fuel b.tail else 0
        else 0
    else 0

def arrayDepth (f : Rounding) : ℕ → List UInt8 → ℕ
  | 0, _ => 0
  | fuel + 1, b =>
    let b := Json.skipWs b
    if b.head?.map asChar = some ']' then 0 else elementsDepth f fuel b

def elementsDepth (f : Rounding) : ℕ → List UInt8 → ℕ
  | 0, _ => 0
  | fuel + 1, b =>
    deeper (valueDepth f fuel b) (Json.value f fuel b) fun read =>
      let b := Json.skipWs read.2
      if b.head?.map asChar = some ',' then elementsDepth f fuel b.tail else 0

end

/-- Each function with some fuel, wherever the cursor stands. -/
structure Simulates (f : Rounding) (fuel : ℕ) : Prop where
  value : ∀ {input s rest}, Stands input s rest →
    Follows input (valueDepth f fuel (bytes rest)) s (Json.value f fuel (bytes rest))
      (Cursor.value (bytes input) f fuel s)
  object : ∀ {input s rest}, Stands input s ('{' :: rest) →
    Follows input (objectDepth f fuel (bytes rest)) s (Json.object f fuel (bytes rest))
      (Cursor.object (bytes input) f fuel s)
  members : ∀ {input s rest m}, Stands input s rest →
    Follows input (membersDepth f fuel (bytes rest)) s (Json.members f fuel m (bytes rest))
      (Cursor.members (bytes input) f fuel m s)
  array : ∀ {input s rest}, Stands input s ('[' :: rest) →
    Follows input (arrayDepth f fuel (bytes rest)) s (Json.array f fuel (bytes rest))
      (Cursor.array (bytes input) f fuel s)
  elements : ∀ {input s rest v}, Stands input s rest →
    Follows input (elementsDepth f fuel (bytes rest)) s (Json.elements f fuel v (bytes rest))
      (Cursor.elements (bytes input) f fuel v s)

section Simulation

variable {f : Rounding} {fuel : ℕ} {input : List Char} {s : State} {rest : List Char}
  (ih : Simulates f fuel)
include ih

theorem value_follows (stands : Stands input s rest) :
    Follows input (valueDepth f (fuel + 1) (bytes rest)) s (Json.value f (fuel + 1) (bytes rest))
      (Cursor.value (bytes input) f (fuel + 1) s) := by
  have noted : Stands input (note .value true s) rest := stands
  obtain ⟨i, left, skipped, behind, same⟩ := skipWs_walks noted
  rw [valueDepth]
  apply Follows.value stands
  rw [Json.value, same, bind_ok skipped, look_left behind]
  refine Follows.since (t := ⟨i, (note .value true s).marks⟩) ?_ rfl
  cases front : bytes left with
  | nil => exact .refuses behind (by simp [Torn])
  | cons x xs =>
    have lead : ∀ d : Char, d.toNat < 0x80 → asChar x = d → ∃ cs, left = d :: cs ∧ xs = bytes cs := by
      intro d ascii here
      have head : (bytes left).head?.map asChar = some d := by rw [front, List.head?_cons, Option.map_some, here]
      obtain ⟨cs, begins, tail⟩ := head_ascii ascii head
      rw [front, List.tail_cons] at tail
      exact ⟨cs, begins, tail⟩
    rw [List.head?_cons]
    dsimp only
    rw [← front]
    generalize asChar x = d at lead
    split
    · obtain ⟨cs, rfl, rfl⟩ := lead '{' (by decide) rfl
      exact ih.object behind
    · obtain ⟨cs, rfl, rfl⟩ := lead '[' (by decide) rfl
      exact ih.array behind
    · split
      case h_1 => contradiction
      case h_2 => contradiction
      case h_3 =>
        obtain ⟨cs, rfl, rfl⟩ := lead '"' (by decide) rfl
        rw [← @deeper_zero _ (Json.string (bytes ('"' :: cs)))]
        apply (string_follows behind).bind
        intro text t rest kept
        exact .stays kept.stands
      case h_4 => exact lit_follows behind rfl
      case h_5 => exact lit_follows behind rfl
      case h_6 => exact lit_follows behind rfl
      case h_7 =>
        try split
        all_goals first | contradiction | exact number_follows behind

theorem elements_follows {v : List Json} (stands : Stands input s rest) :
    Follows input (elementsDepth f (fuel + 1) (bytes rest)) s (Json.elements f (fuel + 1) v (bytes rest))
      (Cursor.elements (bytes input) f (fuel + 1) v s) := by
  rw [elementsDepth, Json.elements, Cursor.elements]
  apply (ih.value stands).bind
  intro x t left kept
  obtain ⟨i, left, same, behind, looked⟩ := skip_look kept.stands
  rw [looked]
  dsimp only
  rw [same]
  refine Follows.since (t := ⟨i, t.marks⟩) ?_ rfl
  have lead := fun d ascii => @head_ascii left d ascii
  generalize (bytes left).head?.map asChar = head at lead
  split
  · rename_i comma
    subst comma
    obtain ⟨left, rfl, tail⟩ := lead ',' (by decide) rfl
    rw [tail]
    exact (ih.elements (behind.next (by decide))).since rfl
  · split
    case h_1 => contradiction
    case h_2 =>
      obtain ⟨left, rfl, tail⟩ := lead ']' (by decide) rfl
      rw [tail]
      exact .passes behind (behind.next (by decide))
    case h_3 =>
      try split
      all_goals first | contradiction | exact .refuses behind (by simp [Torn])

theorem array_follows (stands : Stands input s ('[' :: rest)) :
    Follows input (arrayDepth f (fuel + 1) (bytes rest)) s (Json.array f (fuel + 1) (bytes rest))
      (Cursor.array (bytes input) f (fuel + 1) s) := by
  have noted : Stands input (note .array true s) ('[' :: rest) := stands
  obtain ⟨i, left, same, behind, looked⟩ := skip_look (noted.next (by decide))
  rw [arrayDepth, same]
  apply Follows.other (by decide) stands
  rw [Json.array, same, advance_bind, looked]
  dsimp only
  refine Follows.since (t := ⟨i, (note .array true s).marks⟩) ?_ rfl
  by_cases closed : (bytes left).head?.map asChar = some ']'
  · obtain ⟨left, rfl, tail⟩ := head_ascii (by decide) closed
    rw [if_pos closed, if_pos closed, if_pos closed, tail]
    exact .passes behind (behind.next (by decide))
  · rw [if_neg closed, if_neg closed, if_neg closed]
    exact ih.elements behind

theorem object_follows (stands : Stands input s ('{' :: rest)) :
    Follows input (objectDepth f (fuel + 1) (bytes rest)) s (Json.object f (fuel + 1) (bytes rest))
      (Cursor.object (bytes input) f (fuel + 1) s) := by
  have noted : Stands input (note .object true s) ('{' :: rest) := stands
  obtain ⟨i, left, same, behind, looked⟩ := skip_look (noted.next (by decide))
  rw [objectDepth, same]
  apply Follows.other (by decide) stands
  rw [Json.object, same, advance_bind, looked]
  dsimp only
  refine Follows.since (t := ⟨i, (note .object true s).marks⟩) ?_ rfl
  by_cases closed : (bytes left).head?.map asChar = some '}'
  · obtain ⟨left, rfl, tail⟩ := head_ascii (by decide) closed
    rw [if_pos closed, if_pos closed, if_pos closed, tail]
    exact .passes behind (behind.next (by decide))
  · rw [if_neg closed, if_neg closed, if_neg closed]
    exact ih.members behind

theorem members_follows {m : List (List Char × Json)} (stands : Stands input s rest) :
    Follows input (membersDepth f (fuel + 1) (bytes rest)) s (Json.members f (fuel + 1) m (bytes rest))
      (Cursor.members (bytes input) f (fuel + 1) m s) := by
  obtain ⟨i, left, same, behind, looked⟩ := skip_look stands
  rw [membersDepth, Json.members, Cursor.members, looked, same]
  dsimp only
  refine Follows.since (t := ⟨i, s.marks⟩) ?_ rfl
  by_cases quote : (bytes left).head?.map asChar = some '"'
  swap
  · rw [if_neg quote, if_neg quote, if_neg quote]
    exact .refuses behind (by simp [Torn])
  obtain ⟨left, rfl, _⟩ := head_ascii (by decide) quote
  rw [if_pos quote, if_pos quote, if_pos quote]
  apply (string_follows behind).bind
  intro k t left kept
  obtain ⟨i, left, same, behind, looked⟩ := skip_look kept.stands
  rw [looked]
  dsimp only
  rw [same]
  refine Follows.since (t := ⟨i, t.marks⟩) ?_ rfl
  by_cases colon : (bytes left).head?.map asChar = some ':'
  swap
  · rw [if_neg colon, if_neg colon, if_neg colon]
    exact .refuses behind (by simp [Torn])
  obtain ⟨left, rfl, tail⟩ := head_ascii (by decide) colon
  rw [if_pos colon, if_pos colon, if_pos colon, tail, advance_bind]
  refine Follows.since (t := ⟨i + 1, t.marks⟩) ?_ rfl
  apply (ih.value (behind.next (by decide))).bind
  intro x t left kept
  obtain ⟨i, left, same, behind, looked⟩ := skip_look kept.stands
  rw [looked]
  dsimp only
  rw [same]
  refine Follows.since (t := ⟨i, t.marks⟩) ?_ rfl
  have lead := fun d ascii => @head_ascii left d ascii
  generalize (bytes left).head?.map asChar = head at lead
  split
  · rename_i comma
    subst comma
    obtain ⟨left, rfl, tail⟩ := lead ',' (by decide) rfl
    rw [tail]
    exact (ih.members (behind.next (by decide))).since rfl
  · split
    case h_1 => contradiction
    case h_2 =>
      obtain ⟨left, rfl, tail⟩ := lead '}' (by decide) rfl
      rw [tail]
      exact .passes behind (behind.next (by decide))
    case h_3 =>
      try split
      all_goals first | contradiction | exact .refuses behind (by simp [Torn])

end Simulation

theorem simulates (f : Rounding) (fuel : ℕ) : Simulates f fuel := by
  induction fuel with
  | zero => constructor <;> intros <;> trivial
  | succ fuel ih =>
    exact {
      value := value_follows ih
      object := object_follows ih
      members := members_follows ih
      array := array_follows ih
      elements := elements_follows ih }

/-- How many activations of `value` are open at most while `parse` runs. -/
def parseDepth (f : Rounding) (input : List Char) : ℕ := valueDepth f (3 * (bytes input).length + 1) (bytes input)

/-- The cursor reads what the reader reads. -/
structure Agrees (f : Rounding) (input : List Char) : Prop where
  result : (Cursor.parse f input).1 = Json.parse f input
  whole : ∀ e, Torn e → Json.parse f input ≠ .err e
  kept : ∃ rest, Kept input (parseDepth f input) ⟨0, []⟩ (Cursor.parse f input).2 rest

section Ends

variable {f : Rounding} {input : List Char} {t : State}

theorem parse_stops {e : String}
    (walked : Cursor.value (bytes input) f (3 * (bytes input).length + 1) ⟨0, []⟩ = (.err e, t))
    (read : Json.value f (3 * (bytes input).length + 1) (bytes input) = .err e) (sound : ¬Torn e)
    {rest : List Char} (kept : Kept input (parseDepth f input) ⟨0, []⟩ t rest) : Agrees f input := by
  have begun : Cursor.parse f input = (.err e, t) := by rw [Cursor.parse, bind_eq, walked]
  have listed : Json.parse f input = .err e := by rw [Json.parse, read, Outcome.err_bind]
  refine ⟨by rw [begun, listed], fun e' torn same => ?_, rest, begun ▸ kept⟩
  cases listed.symm.trans same
  exact sound torn

/- Behind the value there may be blanks. -/
theorem parse_ends {v : Json} {rest : List Char}
    (walked : Cursor.value (bytes input) f (3 * (bytes input).length + 1) ⟨0, []⟩ = (.ok v, t))
    (read : Json.value f (3 * (bytes input).length + 1) (bytes input) = .ok (v, bytes rest))
    (kept : Kept input (parseDepth f input) ⟨0, []⟩ t rest) : Agrees f input := by
  obtain ⟨i, left, skipped, behind, same⟩ := skipWs_walks kept.stands
  have length : (bytes input).length = i + (bytes left).length := behind.length
  have begun : Cursor.parse f input =
      (if i ≠ (bytes input).length then (fail "trailing data after JSON value" : Walk Json) else pure v)
        ⟨i, t.marks⟩ := by
    rw [Cursor.parse, bind_ok walked, bind_ok skipped]
    rfl
  have after : Kept input (parseDepth f input) ⟨0, []⟩ ⟨i, t.marks⟩ left := kept.moved behind
  cases rest : bytes left with
  | nil =>
    rw [rest, List.length_nil, Nat.add_zero] at length
    rw [if_neg (by omega)] at begun
    have listed : Json.parse f input = .ok v := by
      rw [Json.parse, read, Outcome.ok_bind]
      dsimp only
      rw [same, rest]
      rfl
    exact ⟨by rw [begun, listed]; rfl, by simp [listed], left, begun ▸ after⟩
  | cons c cs =>
    rw [rest, List.length_cons] at length
    rw [if_pos (by omega)] at begun
    have listed : Json.parse f input = .err "trailing data after JSON value" := by
      rw [Json.parse, read, Outcome.ok_bind]
      dsimp only
      rw [same, rest]
    refine ⟨by rw [begun, listed]; rfl, ?_, left, begun ▸ after⟩
    rintro e torn here
    cases listed.symm.trans here
    exact absurd torn (by simp [Torn])

end Ends

theorem parse_agrees (f : Rounding) (input : List Char) : Agrees f input := by
  have follows := (simulates f (3 * (bytes input).length + 1)).value (⟨[], rfl, rfl⟩ : Stands input ⟨0, []⟩ input)
  have total := (allEnd f (3 * (bytes input).length + 1)).value (bytes input) le_rfl
  generalize walked : Cursor.value (bytes input) f (3 * (bytes input).length + 1) ⟨0, []⟩ = walk at follows
  obtain ⟨result, t⟩ := walk
  cases read : Json.value f (3 * (bytes input).length + 1) (bytes input) with
  | panic =>
    rw [read] at total
    exact total.elim
  | err e =>
    rw [read] at follows
    obtain ⟨rfl, sound, rest, kept⟩ := follows
    exact parse_stops walked read sound kept
  | ok got =>
    rw [read] at follows
    obtain ⟨rfl, rest, left, kept⟩ := follows
    exact parse_ends walked (left ▸ read) kept

/-- Wherever a function of the reader is entered or left, the cursor stands between two
characters of the text; every access lies within the bytes, and they are never found to be torn. -/
theorem cursor_on_boundary (f : Rounding) (input : List Char) :
    (∀ m ∈ (Cursor.parse f input).2.marks, m.index ≤ (bytes input).length ∧ OnBoundary input m.index) ∧
      (Cursor.parse f input).1 = Json.parse f input ∧ (Cursor.parse f input).1 ≠ .panic ∧
      (Cursor.parse f input).1 ≠ .err "truncated UTF-8" ∧ (Cursor.parse f input).1 ≠ .err "bad UTF-8" := by
  obtain ⟨result, whole, rest, kept⟩ := parse_agrees f input
  obtain ⟨marks, noted, _, boundaries⟩ := kept.noted
  refine ⟨fun m member => ?_, result, ?_, ?_, ?_⟩
  · rw [noted, List.nil_append] at member
    exact ⟨(boundaries m member).within, boundaries m member⟩
  · rw [result]
    exact parse_total f input
  · rw [result]
    exact whole _ (.inl rfl)
  · rw [result]
    exact whole _ (.inr rfl)

/-- A bracket, and a string with a character of two bytes. -/
theorem cursor_on_boundary_accent :
    (Cursor.parse .exact ['[', '"', 'é', '"']).2.marks.map Mark.index = [0, 0, 1, 1, 5, 5, 5, 5] ∧
      (Cursor.parse .exact ['[', '"', 'é', '"']).1 ≠ .err "bad UTF-8" :=
  ⟨by decide +kernel, (cursor_on_boundary .exact ['[', '"', 'é', '"']).2.2.2.2⟩

end Stallwatch.Json.Cursor
