import Stallwatch.Cgroup

/-! Which directory names the decoding of systemd's escapes survives. The two digits
behind `\x` are cut out of the name by byte offset, whatever stands there. -/
namespace Stallwatch.Cgroup

open Text Utf8

/-- The second byte after here exists and ends inside a character. -/
def tears : List Char → Bool
  | [] => false
  | [c] => 3 ≤ c.utf8Size
  | c :: d :: _ => 3 ≤ c.utf8Size || (c.utf8Size = 1 && d.utf8Size ≠ 1)

/- Two bytes are cut off, are not there, or end inside a character. -/
theorem cut_two (cs : List Char) :
    (∃ part rest, splitAtByte cs 2 = some (part, rest) ∧ tears cs = false) ∨
      (splitAtByte cs 2 = none ∧ 2 ≤ (bytes cs).length ∧ tears cs = true) ∨
      (bytes cs).length < 2 ∧ tears cs = false := by
  cases cs with
  | nil => exact .inr (.inr ⟨by decide, rfl⟩)
  | cons c cs =>
    have pos := c.utf8Size_pos
    rcases Nat.lt_trichotomy c.utf8Size 2 with one | two | more
    · have one : c.utf8Size = 1 := by omega
      cases cs with
      | nil => exact .inr (.inr ⟨by simp [one], by simp [tears, one]⟩)
      | cons d cs =>
        have pos := d.utf8Size_pos
        by_cases ascii : d.utf8Size = 1
        · exact .inl ⟨[c, d], cs, by simp [splitAtByte, one, ascii], by simp [tears, one, ascii]⟩
        · have wide : ¬ d.utf8Size ≤ 1 := by omega
          refine .inr (.inl ⟨by simp [splitAtByte, one, wide], ?_, by simp [tears, one, ascii]⟩)
          simp only [bytes_cons, List.length_append, String.length_utf8EncodeChar]
          omega
    · refine .inl ⟨[c], cs, by simp [splitAtByte, two], ?_⟩
      cases cs <;> simp [tears, two]
    · have wide : ¬ c.utf8Size ≤ 2 := by omega
      refine .inr (.inl ⟨by simp [splitAtByte, wide], ?_, ?_⟩)
      · simp only [bytes_cons, List.length_append, String.length_utf8EncodeChar]
        omega
      · cases cs <;> simp [tears] <;> omega

section Scan

variable {name : List Char} {i : ℕ}

/- A byte that starts no escape is copied. -/
theorem unescape_literal (inside : i < (bytes name).length) (plain : (bytes name)[i] ≠ 0x5C) :
    unescapeFrom name i =
      unescapeFrom name (i + 1) >>= fun rest => .ok (asChar (bytes name)[i] :: rest) := by
  rw [unescapeFrom, dif_pos inside]
  simp only [plain, false_and, if_false]
  rfl

theorem unescape_passes (front pre back : List UInt8) (whole : bytes name = front ++ pre ++ back)
    (clean : 0x5C ∉ pre) :
    unescapeFrom name front.length =
      unescapeFrom name (front.length + pre.length) >>= fun rest => .ok (pre.map asChar ++ rest) := by
  induction pre generalizing front with
  | nil => exact (bind_pure _).symm
  | cons b pre ih =>
    rw [List.mem_cons, not_or] at clean
    obtain ⟨other, clean⟩ := clean
    have next := ih (front ++ [b]) (by simp [whole]) clean
    have inside : front.length < (bytes name).length := by simp [whole]
    have here : (bytes name)[front.length] = b := by simp [whole]
    have length : front.length + 1 + pre.length = front.length + (b :: pre).length := by
      rw [List.length_cons]
      omega
    rw [List.length_append, List.length_singleton, length] at next
    rw [unescape_literal inside (by rw [here]; exact Ne.symm other), here, next, bind_assoc]
    rfl

end Scan

theorem unescape_char (as cs : List Char) {c : Char} (other : c ≠ '\\') :
    unescapeFrom (as ++ c :: cs) (bytes as).length =
      unescapeFrom (as ++ [c] ++ cs) (bytes (as ++ [c])).length >>= fun rest =>
        .ok ((bytes [c]).map asChar ++ rest) := by
  have clean : 0x5C ∉ bytes [c] := by
    intro among
    have same := mem_bytes_ascii (c := '\\') (by decide) among
    exact other (List.mem_singleton.mp same).symm
  have whole : bytes (as ++ c :: cs) = bytes as ++ bytes [c] ++ bytes cs := by simp
  have passes := unescape_passes _ _ _ whole clean
  rw [← List.length_append, ← bytes_append] at passes
  simpa only [List.append_assoc, List.singleton_append] using passes

section Backslash

variable {as cs : List Char}

theorem backslash_inside (as cs : List Char) :
    ∃ inside : (bytes as).length < (bytes (as ++ '\\' :: cs)).length,
      (bytes (as ++ '\\' :: cs))[(bytes as).length] = 0x5C := by
  have length : 0 < (bytes ('\\' :: cs)).length := by
    simp only [bytes_cons, List.length_append, String.length_utf8EncodeChar]
    exact Nat.add_pos_left (Char.utf8Size_pos _) _
  refine ⟨by rw [bytes_append, List.length_append]; omega, ?_⟩
  have front : String.utf8EncodeChar '\\' = [0x5C] := by decide
  simp [front]

/- The byte behind a backslash is an x only when the character is. -/
theorem behind_backslash (as cs : List Char) :
    (bytes (as ++ '\\' :: cs))[(bytes as).length + 1]? = some 0x78 ↔ ∃ r, cs = 'x' :: r := by
  have slash : String.utf8EncodeChar '\\' = [0x5C] := by decide
  have shape : (bytes (as ++ '\\' :: cs))[(bytes as).length + 1]? = (bytes cs)[0]? := by
    simp [slash, List.getElem?_append_right]
  rw [shape]
  constructor
  · intro found
    cases cs with
    | nil => contradiction
    | cons c cs =>
      have first : UInt8.ofNat ('x' : Char).toNat ∈ bytes [c] := by
        obtain ⟨b, tail, encoded⟩ := List.exists_cons_of_ne_nil (encode_ne_nil c)
        have same : b = 0x78 := by simpa [encoded] using found
        simp [encoded, same]
      have same := mem_bytes_ascii (c := 'x') (by decide) first
      rw [List.mem_singleton.mp same]
      exact ⟨cs, rfl⟩
  · rintro ⟨r, rfl⟩
    have ex : String.utf8EncodeChar 'x' = [0x78] := by decide
    simp [ex]

/- A backslash that starts no escape is copied like any other byte. -/
theorem unescape_bare (bare : ∀ r, cs = 'x' :: r → (bytes r).length < 2) :
    unescapeFrom (as ++ '\\' :: cs) (bytes as).length =
      unescapeFrom (as ++ ['\\'] ++ cs) (bytes (as ++ ['\\'])).length >>= fun rest =>
        .ok ('\\' :: rest) := by
  have slash : String.utf8EncodeChar '\\' = [0x5C] := by decide
  obtain ⟨inside, here⟩ := backslash_inside as cs
  have short : ¬ ((bytes as).length + 3 < (bytes (as ++ '\\' :: cs)).length ∧
      (bytes (as ++ '\\' :: cs))[(bytes as).length + 1]? = some 0x78) := by
    rintro ⟨long, found⟩
    obtain ⟨r, rfl⟩ := (behind_backslash as cs).mp found
    have ex : String.utf8EncodeChar 'x' = [0x78] := by decide
    have fewer := bare r rfl
    simp only [bytes_append, bytes_cons, slash, ex, List.length_append, List.length_cons, List.length_nil] at long
    omega
  rw [unescapeFrom, dif_pos inside]
  simp only [here, true_and, if_neg short]
  simp [slash]

theorem unescape_torn {r : List Char} (long : 2 ≤ (bytes r).length)
    (torn : splitAtByte r 2 = none) :
    unescapeFrom (as ++ '\\' :: 'x' :: r) (bytes as).length = .panic := by
  have slash : String.utf8EncodeChar '\\' = [0x5C] := by decide
  have ex : String.utf8EncodeChar 'x' = [0x78] := by decide
  obtain ⟨inside, here⟩ := backslash_inside as ('x' :: r)
  have starts : (bytes as).length + 3 < (bytes (as ++ '\\' :: 'x' :: r)).length ∧
      (bytes (as ++ '\\' :: 'x' :: r))[(bytes as).length + 1]? = some 0x78 := by
    refine ⟨?_, (behind_backslash as _).mpr ⟨r, rfl⟩⟩
    simp only [bytes_append, bytes_cons, slash, ex, List.length_append, List.length_cons, List.length_nil]
    omega
  have cut := slice_inside (ε := Empty) (as ++ ['\\', 'x']) r 2 torn
  simp only [bytes_append, bytes_cons, bytes_nil, slash, ex, List.append_assoc, List.cons_append,
    List.nil_append, List.length_append, List.length_cons, List.length_nil] at cut
  rw [unescapeFrom, dif_pos inside]
  simp only [here, true_and, if_pos starts]
  rw [Outcome.bind_eq_panic]
  exact .inl cut

theorem unescape_escape (as : List Char) {part rest : List Char}
    (cut : splitAtByte (part ++ rest) 2 = some (part, rest)) :
    unescapeFrom (as ++ '\\' :: 'x' :: (part ++ rest)) (bytes as).length =
      match parseHex 8 part with
      | some b =>
        unescapeFrom (as ++ ['\\', 'x'] ++ part ++ rest) (bytes (as ++ ['\\', 'x'] ++ part)).length >>=
          fun rest => .ok (Char.ofNat b :: rest)
      | none =>
        unescapeFrom (as ++ ['\\'] ++ 'x' :: (part ++ rest)) (bytes (as ++ ['\\'])).length >>=
          fun rest => .ok ('\\' :: rest) := by
  have slash : String.utf8EncodeChar '\\' = [0x5C] := by decide
  have ex : String.utf8EncodeChar 'x' = [0x78] := by decide
  obtain ⟨_, two⟩ := splitAtByte_eq_some cut
  obtain ⟨inside, here⟩ := backslash_inside as ('x' :: (part ++ rest))
  have starts : (bytes as).length + 3 < (bytes (as ++ '\\' :: 'x' :: (part ++ rest))).length ∧
      (bytes (as ++ '\\' :: 'x' :: (part ++ rest)))[(bytes as).length + 1]? = some 0x78 := by
    refine ⟨?_, (behind_backslash as _).mpr ⟨_, rfl⟩⟩
    simp only [bytes_append, bytes_cons, slash, ex, List.length_append, List.length_cons, List.length_nil]
    omega
  have digits := slice_bytes (ε := Empty) (as ++ ['\\', 'x']) part rest
  simp only [bytes_append, bytes_cons, bytes_nil, slash, ex, List.append_assoc, List.cons_append,
    List.nil_append, List.length_append, List.length_cons, List.length_nil, ← two] at digits
  rw [unescapeFrom, dif_pos inside]
  simp only [here, true_and, if_pos starts]
  rw [digits, Outcome.ok_bind]
  cases parsed : parseHex 8 part with
  | some b => simp [slash, ex, ← two]
  | none => simp [slash]

end Backslash

theorem mapM_mem {cs : List Char} {ns : List ℕ} (digits : cs.mapM hexDigit = some ns) {c : Char}
    (member : c ∈ cs) : ∃ n, hexDigit c = some n := by
  induction cs generalizing ns with
  | nil => contradiction
  | cons d cs ih =>
    rw [List.mapM_cons, Option.bind_eq_bind, Option.bind_eq_some_iff] at digits
    obtain ⟨n, first, rest⟩ := digits
    obtain ⟨ms, others, _⟩ := Option.bind_eq_some_iff.mp rest
    rcases List.mem_cons.mp member with rfl | member
    · exact ⟨n, first⟩
    · exact ih others member

theorem digits_clean {cs : List Char} (parsed : (parseHex 8 cs).isSome = true) : '\\' ∉ cs := by
  intro member
  obtain ⟨n, parsed⟩ := Option.isSome_iff_exists.mp parsed
  obtain ⟨d, ds, digits⟩ := parseHex_digits parsed
  have kept : '\\' ∈ stripPlus cs := by
    unfold stripPlus
    split
    · simpa using member
    · exact member
  obtain ⟨m, digit⟩ := mapM_mem digits kept
  have none : hexDigit '\\' = none := by decide
  rw [none] at digit
  contradiction

/-- Somewhere an escape opens and its second byte ends inside a character. -/
def Torn (name : List Char) : Prop := ∃ after, '\\' :: 'x' :: after <:+ name ∧ tears after = true

theorem torn_nil : ¬ Torn [] := by
  rintro ⟨after, opens, _⟩
  have length := opens.length_le
  simp at length

theorem torn_cons {c : Char} {cs : List Char} :
    Torn (c :: cs) ↔ (c = '\\' ∧ ∃ after, cs = 'x' :: after ∧ tears after = true) ∨ Torn cs := by
  constructor
  · rintro ⟨after, opens, tear⟩
    rcases List.suffix_cons_iff.mp opens with same | later
    · obtain ⟨rfl, rfl⟩ := List.cons.inj same
      exact .inl ⟨rfl, after, rfl, tear⟩
    · exact .inr ⟨after, later, tear⟩
  · rintro (⟨rfl, after, rfl, tear⟩ | ⟨after, later, tear⟩)
    · exact ⟨after, List.suffix_refl _, tear⟩
    · exact ⟨after, later.trans (List.suffix_cons _ _), tear⟩

theorem torn_other {c : Char} {cs : List Char} (other : c ≠ '\\') : Torn (c :: cs) ↔ Torn cs := by
  simp [torn_cons, other]

theorem torn_clean {part cs : List Char} (clean : '\\' ∉ part) : Torn (part ++ cs) ↔ Torn cs := by
  induction part with
  | nil => rfl
  | cons c part ih =>
    rw [List.mem_cons, not_or] at clean
    rw [List.cons_append, torn_other (Ne.symm clean.1), ih clean.2]

theorem torn_plain {name : List Char} (clean : '\\' ∉ name) : ¬ Torn name := by
  have none : Torn (name ++ []) ↔ Torn [] := torn_clean clean
  rw [List.append_nil] at none
  exact fun torn => torn_nil (none.mp torn)

theorem torn_escape {r : List Char} :
    Torn ('\\' :: 'x' :: r) ↔ tears r = true ∨ Torn r := by
  rw [torn_cons, torn_other (by decide)]
  simp

theorem unescapeFrom_panics (as cs : List Char) :
    unescapeFrom (as ++ cs) (bytes as).length = .panic ↔ Torn cs := by
  induction h : cs.length using Nat.strongRecOn generalizing as cs with
  | ind n ih =>
    subst h
    cases cs with
    | nil =>
      rw [unescapeFrom, dif_neg (by simp)]
      simp [torn_nil]
    | cons c cs =>
      have next := ih cs.length (by simp) (as ++ [c]) cs rfl
      by_cases slash : c = '\\'
      · subst slash
        by_cases ex : ∃ r, cs = 'x' :: r
        · obtain ⟨r, rfl⟩ := ex
          rw [torn_escape]
          rw [torn_other (by decide)] at next
          rcases cut_two r with ⟨part, rest, cut, whole⟩ | ⟨torn, long, tear⟩ | ⟨short, whole⟩
          · obtain ⟨rfl, _⟩ := splitAtByte_eq_some cut
            rw [unescape_escape as cut]
            simp only [whole, Bool.false_eq_true, false_or]
            split
            · rename_i b parsed
              have shorter : rest.length < ('\\' :: 'x' :: (part ++ rest)).length := by
                simp only [List.length_cons, List.length_append]
                omega
              have clean := digits_clean (Option.isSome_iff_exists.mpr ⟨b, parsed⟩)
              rw [Outcome.bind_ok_eq_panic, torn_clean clean, ← ih rest.length shorter _ rest rfl]
            · rw [Outcome.bind_ok_eq_panic]
              exact next
          · simp [unescape_torn long torn, tear]
          · rw [unescape_bare (by rintro r' same; cases same; exact short), Outcome.bind_ok_eq_panic]
            simpa [whole] using next
        · rw [unescape_bare (fun r same => absurd ⟨r, same⟩ ex), Outcome.bind_ok_eq_panic, next,
            torn_cons]
          simp only [true_and]
          refine ⟨.inr, ?_⟩
          rintro (⟨r, same, _⟩ | back)
          · exact absurd ⟨r, same⟩ ex
          · exact back
      · rw [unescape_char as cs slash, Outcome.bind_ok_eq_panic, next, torn_other slash]

theorem unescape_returns (name : List Char) :
    (∃ s, unescapeSystemd name = .ok s) ↔ ¬ Torn name := by
  rw [Outcome.ok_iff, ne_eq, not_iff_not]
  exact unescapeFrom_panics [] name

/-- The directory name of a cgroup is torn. -/
def TornName (cgroup : PathBuf) : Prop :=
  ∃ name, cgroup.fileName.bind fromUtf8 = some name ∧ Torn name

theorem friendlyName_panics (cgroup : PathBuf) : friendlyName cgroup = .panic ↔ TornName cgroup := by
  by_cases top : cgroup = root
  · subst top
    have plain : ¬ TornName root := by
      rintro ⟨name, named, torn⟩
      have same : root.fileName.bind fromUtf8 = some "cgroup".toList := by decide
      rw [same, Option.some.injEq] at named
      exact torn_plain (by decide) (named ▸ torn)
    simp [friendlyName, plain]
  · rw [friendlyName, if_neg top]
    change (unescapeFrom ([] ++ _) (bytes []).length >>= fun name => .ok _) = .panic ↔ _
    rw [Outcome.bind_ok_eq_panic, unescapeFrom_panics, TornName]
    cases cgroup.fileName.bind fromUtf8 with
    | none =>
      have plain : ¬ Torn "<unknown>".toList := torn_plain (by decide)
      simp only [plain, reduceCtorEq, false_and, exists_false]
    | some name => simp

/-- Naming a cgroup ends normally exactly when no escape of its directory name reads into
the middle of a character. -/
theorem names_return (name : List Char) :
    ((∃ s, unescapeSystemd name = .ok s) ↔ ¬ Torn name) ∧
      ∀ cgroup : PathBuf, cgroup.fileName = some (bytes name) →
        ((∃ s, friendlyName cgroup = .ok s) ↔ ¬ Torn name) := by
  refine ⟨unescape_returns name, fun cgroup named => ?_⟩
  rw [Outcome.ok_iff, ne_eq, friendlyName_panics, TornName]
  simp [named]

theorem names_return_escaped :
    ∃ s, friendlyName (.absolute ["sys", "fs", "cgroup", "a\\x2db.service"]) = .ok s :=
  ((names_return "a\\x2db.service".toList).2 _ (by decide)).mpr (by
    have escape : "a\\x2db.service".toList = 'a' :: '\\' :: 'x' :: "2db.service".toList := rfl
    rw [escape, torn_other (by decide), torn_escape, not_or]
    exact ⟨by decide, torn_plain (by decide)⟩)

theorem names_panic :
    unescapeSystemd "\\xaé.service".toList = .panic ∧
      friendlyName (.absolute ["sys", "fs", "cgroup", "\\xaé.service"]) = .panic := by
  constructor <;> decide +kernel

end Stallwatch.Cgroup
