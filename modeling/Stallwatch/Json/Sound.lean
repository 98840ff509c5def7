import Stallwatch.Json.Accepts

/-! The reader takes no other texts: behind every value it returns stands a derivation. What
it leaves are always the bytes of the last characters. -/
namespace Stallwatch.Json

open Utf8 Text

theorem head_cases (c : Char) (cs : List Char) :
    (c.toNat < 0x80 ∧ bytes (c :: cs) = UInt8.ofNat c.toNat :: bytes cs) ∨
      ∃ b bs, bytes (c :: cs) = b :: bs ∧ 0x80 ≤ b.toNat := by
  by_cases ascii : c.toNat < 0x80
  · exact .inl ⟨ascii, bytes_ascii ascii cs⟩
  · obtain ⟨b, tail, encoded, _, low, _⟩ := encode_wide (not_lt.mp ascii)
    exact .inr ⟨b, tail ++ bytes cs, by rw [bytes_cons, encoded, List.cons_append], by omega⟩

theorem wide_ne {b : UInt8} (wide : 0x80 ≤ b.toNat) {c : Char} (ascii : c.toNat < 0x80) :
    asChar b ≠ c := by
  rintro rfl
  rw [asChar_toNat] at ascii
  omega

theorem head_ascii {cs : List Char} {c : Char} (ascii : c.toNat < 0x80)
    (head : (bytes cs).head?.map asChar = some c) :
    ∃ rest, cs = c :: rest ∧ (bytes cs).tail = bytes rest := by
  cases cs with
  | nil => contradiction
  | cons d cs =>
    rcases head_cases d cs with ⟨low, split⟩ | ⟨b, bs, split, wide⟩
    · rw [split, List.head?_cons, Option.map_some, asChar_ascii low] at head
      cases head
      exact ⟨cs, rfl, by rw [split, List.tail_cons]⟩
    · rw [split, List.head?_cons, Option.map_some] at head
      exact absurd (Option.some.inj head) (wide_ne wide ascii)

theorem skipWs_sound (cs : List Char) :
    ∃ w u, cs = w ++ u ∧ Blank w ∧ skipWs (bytes cs) = bytes u := by
  have blank : Blank (cs.takeWhile isBlank) := List.all_takeWhile
  refine ⟨_, _, List.takeWhile_append_dropWhile.symm, blank, ?_⟩
  have solid : skipWs (bytes (cs.dropWhile isBlank)) = bytes (cs.dropWhile isBlank) := by
    cases left : cs.dropWhile isBlank with
    | nil => rfl
    | cons c u =>
      have stop : isBlank c = false := by
        have head := List.head?_dropWhile_not isBlank cs
        rwa [left] at head
      rcases head_cases c u with ⟨low, split⟩ | ⟨b, bs, split, wide⟩
      · rw [split]
        exact skipWs_char low (by simpa [isBlank] using stop) _
      · rw [split, skipWs, List.dropWhile_cons_of_neg]
        simp [wide_ne wide (c := ' ') (by decide), wide_ne wide (c := '\t') (by decide),
          wide_ne wide (c := '\n') (by decide), wide_ne wide (c := '\r') (by decide)]
  have cut : bytes cs = bytes (cs.takeWhile isBlank) ++ bytes (cs.dropWhile isBlank) := by
    rw [← bytes_append, List.takeWhile_append_dropWhile]
  rw [cut, skipWs_blank blank, solid]

/- Text that starts with ASCII bytes starts with their characters. -/
theorem ascii_prefix {t cs : List Char} (ascii : ∀ c ∈ t, c.toNat < 0x80)
    (front : bytes t <+: bytes cs) : ∃ rest, cs = t ++ rest := by
  induction t generalizing cs with
  | nil => exact ⟨cs, rfl⟩
  | cons c t ih =>
    obtain ⟨low, others⟩ := List.forall_mem_cons.mp ascii
    obtain ⟨bs, whole⟩ := front
    rw [bytes_ascii low, List.cons_append] at whole
    have head : (bytes cs).head?.map asChar = some c := by
      rw [← whole, List.head?_cons, Option.map_some, asChar_ascii low]
    obtain ⟨rest, rfl, _⟩ := head_ascii low head
    rw [bytes_ascii low, List.cons.injEq] at whole
    obtain ⟨rest, rfl⟩ := ih others ⟨bs, whole.2⟩
    exact ⟨rest, rfl⟩

theorem unicode_sound {cs : List Char} {c : Char} {b : List UInt8}
    (read : unicode (bytes cs) = .ok (c, b)) : ∃ digits rest, cs = digits ++ rest ∧
      b = bytes rest ∧ digits.length = 4 ∧ codePoint digits c := by
  unfold unicode at read
  split at read
  · contradiction
  rename_i long
  split at read
  · contradiction
  rename_i n parsed
  split at read
  · contradiction
  rename_i d valid
  cases read
  obtain ⟨digits, decoded, value⟩ := Option.bind_eq_some_iff.mp parsed
  have ascii := parseHex_ascii value
  have same := bytes_fromUtf8 decoded
  have four : (bytes digits).length = 4 := by
    rw [same, List.length_take]
    omega
  obtain ⟨rest, rfl⟩ := ascii_prefix ascii (same ▸ List.take_prefix 4 _)
  refine ⟨digits, rest, rfl, ?_, (bytes_length_ascii ascii).symm.trans four, n, value, valid⟩
  rw [bytes_append, ← four, List.drop_left]

abbrev LoosePiece : List Char → Char → Prop := Piece (fun _ => True) codePoint

theorem escape_sound {cs : List Char} {c : Char} {b : List UInt8}
    (read : escape (bytes cs) = .ok (c, b)) :
    ∃ p rest, cs = p ++ rest ∧ b = bytes rest ∧ LoosePiece ('\\' :: p) c := by
  cases cs with
  | nil => contradiction
  | cons d cs =>
    rcases head_cases d cs with ⟨low, split⟩ | ⟨b, bs, split, wide⟩
    · rw [split, escape] at read
      rw [asChar_ascii low] at read
      split at read
      case h_9 =>
        obtain ⟨digits, rest, rfl, rfl, four, point⟩ := unicode_sound read
        exact ⟨'u' :: digits, rest, rfl, rfl, .unicode four point⟩
      case h_10 => contradiction
      all_goals
        cases read
        exact ⟨_, cs, (List.singleton_append).symm, rfl, .short rfl⟩
    · rw [split, escape] at read
      split at read
      all_goals first
        | exact absurd ‹_› (wide_ne wide (by decide))
        | contradiction

theorem piece_sound {cs : List Char} {pushed : Option (List Char)} {b : List UInt8}
    (read : piece (bytes cs) = .ok (pushed, b)) :
    (∃ rest, cs = '"' :: rest ∧ pushed = none ∧ b = bytes rest) ∨
      ∃ p c rest, cs = p ++ rest ∧ pushed = some [c] ∧ b = bytes rest ∧ LoosePiece p c := by
  cases cs with
  | nil => contradiction
  | cons c cs =>
    by_cases quote : c = '"'
    · subst quote
      cases read
      exact .inl ⟨cs, rfl, rfl, rfl⟩
    by_cases backslash : c = '\\'
    · subst backslash
      change (escape (bytes cs) >>= fun r => pure (some [r.1], r.2)) = _ at read
      obtain ⟨⟨d, b⟩, escaped, same⟩ := Outcome.bind_eq_ok.mp read
      cases same
      obtain ⟨p, rest, rfl, rfl, piece⟩ := escape_sound escaped
      exact .inr ⟨_, d, rest, rfl, rfl, rfl, piece⟩
    · rw [bytes_cons, piece_plain quote backslash] at read
      cases read
      exact .inr ⟨[c], c, cs, rfl, rfl, rfl, .raw quote backslash trivial⟩

theorem stringFrom_sound {fuel : ℕ} {acc cs s : List Char} {b : List UInt8}
    (read : stringFrom fuel acc (bytes cs) = .ok (s, b)) :
    ∃ body spelled rest, cs = body ++ '"' :: rest ∧ b = bytes rest ∧ s = acc ++ spelled ∧
      Spelled LoosePiece body spelled := by
  induction fuel generalizing acc cs with
  | zero => contradiction
  | succ fuel ih =>
    obtain ⟨⟨pushed, left⟩, first, next⟩ := Outcome.bind_eq_ok.mp read
    rcases piece_sound first with ⟨rest, rfl, rfl, rfl⟩ | ⟨p, c, rest, rfl, rfl, rfl, piece⟩
    · cases next
      exact ⟨[], [], rest, rfl, rfl, (List.append_nil _).symm, .nil⟩
    · obtain ⟨body, spelled, rest, rfl, rfl, rfl, others⟩ := ih next
      exact ⟨p ++ body, c :: spelled, rest, by simp, rfl, by simp, .cons piece others⟩

theorem string_sound {f : Rounding} {cs s : List Char} {b : List UInt8}
    (head : (bytes cs).head?.map asChar = some '"') (read : string (bytes cs) = .ok (s, b)) :
    ∃ t rest, cs = t ++ rest ∧ b = bytes rest ∧ (loose f).string t s := by
  obtain ⟨cs, rfl, tail⟩ := head_ascii (by decide) head
  rw [string, tail] at read
  obtain ⟨body, spelled, rest, rfl, rfl, rfl, pieces⟩ := stringFrom_sound read
  exact ⟨'"' :: (body ++ ['"']), rest, by simp, rfl, body, rfl, pieces⟩

theorem lit_sound {want cs : List Char} {out j : Json} {b : List UInt8}
    (ascii : ∀ c ∈ want, c.toNat < 0x80) (read : lit want out (bytes cs) = .ok (j, b)) :
    ∃ rest, cs = want ++ rest ∧ b = bytes rest ∧ j = out := by
  unfold lit at read
  split at read
  · rename_i front
    cases read
    obtain ⟨rest, rfl⟩ := ascii_prefix ascii (List.isPrefixOf_iff_prefix.mp front)
    exact ⟨rest, rfl, drop_bytes _ _, rfl⟩
  · contradiction

theorem number_scanned (cs : List Char) :
    (bytes cs).takeWhile isNumberByte = bytes (cs.takeWhile isNumberChar) := by
  apply takeWhile_ascii isNumberChar false
  intro c wide
  by_contra number
  have ascii := number_ascii (Bool.not_eq_false _ ▸ number)
  omega

theorem number_left (cs : List Char) :
    (bytes cs).dropWhile isNumberByte = bytes (cs.dropWhile isNumberChar) := by
  have drop := drop_bytes (cs.takeWhile isNumberChar) (cs.dropWhile isNumberChar)
  rwa [List.takeWhile_append_dropWhile, ← number_scanned, drop_taken] at drop

theorem number_sound {f : Rounding} {cs : List Char} {j : Json} {b : List UInt8}
    (read : number f (bytes cs) = .ok (j, b)) :
    ∃ t n rest, cs = t ++ rest ∧ b = bytes rest ∧ j = num n ∧ (loose f).number t n := by
  rw [number_eq, number_scanned, number_left, fromUtf8_bytes, Option.bind_some] at read
  have all : (cs.takeWhile isNumberChar).all isNumberChar = true := List.all_takeWhile
  split at read
  · contradiction
  · rename_i n parsed
    cases read
    exact ⟨_, n, _, List.takeWhile_append_dropWhile.symm, rfl, rfl, all, parsed⟩

/-- What each part of the reader has taken when it returns. -/
structure Sound (f : Rounding) (fuel : ℕ) : Prop where
  value : ∀ {cs j b}, Json.value f fuel (bytes cs) = .ok (j, b) → ∃ w t rest,
    cs = w ++ (t ++ rest) ∧ Blank w ∧ b = bytes rest ∧ Derives (loose f) .value t j
  object : ∀ {cs j b}, Json.object f fuel (bytes cs) = .ok (j, b) → ∃ t rest,
    cs = t ++ rest ∧ b = bytes rest ∧ Derives (loose f) .value ('{' :: t) j
  members : ∀ {m cs j b}, Json.members f fuel m (bytes cs) = .ok (j, b) → ∃ t es rest,
    cs = t ++ '}' :: rest ∧ b = bytes rest ∧ Derives (loose f) .members t es ∧
      j = obj (es.foldl (fun m e => insert e.1 e.2 m) m)
  array : ∀ {cs j b}, Json.array f fuel (bytes cs) = .ok (j, b) → ∃ t rest,
    cs = t ++ rest ∧ b = bytes rest ∧ Derives (loose f) .value ('[' :: t) j
  elements : ∀ {v cs j b}, Json.elements f fuel v (bytes cs) = .ok (j, b) → ∃ t js rest,
    cs = t ++ ']' :: rest ∧ b = bytes rest ∧ Derives (loose f) .elements t js ∧ j = arr (v ++ js)

theorem value_sound {f : Rounding} {fuel : ℕ} (sound : Sound f fuel) {cs : List Char} {j : Json}
    {b : List UInt8} (read : Json.value f (fuel + 1) (bytes cs) = .ok (j, b)) :
    ∃ w t rest, cs = w ++ (t ++ rest) ∧ Blank w ∧ b = bytes rest ∧ Derives (loose f) .value t j := by
  obtain ⟨w, u, rfl, blank, skip⟩ := skipWs_sound cs
  suffices taken : ∃ t rest, u = t ++ rest ∧ b = bytes rest ∧ Derives (loose f) .value t j by
    obtain ⟨t, rest, rfl, left, derived⟩ := taken
    exact ⟨w, t, rest, rfl, blank, left, derived⟩
  rw [Json.value, skip] at read
  cases u with
  | nil => contradiction
  | cons c u =>
    have digits : ∀ {j}, number f (bytes (c :: u)) = .ok (j, b) →
        ∃ t rest, c :: u = t ++ rest ∧ b = bytes rest ∧ Derives (loose f) .value t j := by
      intro j read
      obtain ⟨t, n, rest, same, left, rfl, token⟩ := number_sound read
      exact ⟨t, rest, same, left, .number token⟩
    have word : ∀ {want out}, want.all (·.toNat < 0x80) = true → Derives (loose f) .value want out →
        ∀ {j}, lit want out (bytes (c :: u)) = .ok (j, b) →
          ∃ t rest, c :: u = t ++ rest ∧ b = bytes rest ∧ Derives (loose f) .value t j := by
      intro want out ascii derived j read
      obtain ⟨rest, same, left, rfl⟩ := lit_sound (by simpa using ascii) read
      exact ⟨want, rest, same, left, derived⟩
    rcases head_cases c u with ⟨low, front⟩ | ⟨d, bs, front, wide⟩
    · rw [front] at read
      dsimp only at read
      rw [asChar_ascii low, ← front] at read
      split at read
      · obtain ⟨t, rest, rfl, left, derived⟩ := sound.object read
        exact ⟨'{' :: t, rest, rfl, left, derived⟩
      · obtain ⟨t, rest, rfl, left, derived⟩ := sound.array read
        exact ⟨'[' :: t, rest, rfl, left, derived⟩
      · obtain ⟨⟨s, left⟩, string, same⟩ := Outcome.bind_eq_ok.mp read
        cases same
        obtain ⟨t, rest, same, left, quoted⟩ := string_sound (f := f) (by rw [front]; rfl) string
        exact ⟨t, rest, same, left, .string quoted⟩
      · exact word rfl .true read
      · exact word rfl .false read
      · exact word rfl .null read
      · exact digits read
    · rw [front] at read
      dsimp only at read
      rw [← front] at read
      split at read
      case h_7 => exact digits read
      all_goals exact absurd ‹_› (wide_ne wide (by decide))

theorem object_sound {f : Rounding} {fuel : ℕ} (sound : Sound f fuel) {cs : List Char} {j : Json}
    {b : List UInt8} (read : Json.object f (fuel + 1) (bytes cs) = .ok (j, b)) :
    ∃ t rest, cs = t ++ rest ∧ b = bytes rest ∧ Derives (loose f) .value ('{' :: t) j := by
  obtain ⟨w, u, rfl, blank, skip⟩ := skipWs_sound cs
  rw [Json.object, skip] at read
  split at read
  · rename_i closed
    obtain ⟨u, rfl, tail⟩ := head_ascii (by decide) closed
    cases read
    exact ⟨w ++ ['}'], u, by simp, tail, .emptyObject blank⟩
  · rw [← skip, members_skip] at read
    obtain ⟨t, es, rest, same, left, derived, rfl⟩ := sound.members read
    exact ⟨t ++ ['}'], rest, by simp [same], left, .object derived⟩

theorem array_sound {f : Rounding} {fuel : ℕ} (sound : Sound f fuel) {cs : List Char} {j : Json}
    {b : List UInt8} (read : Json.array f (fuel + 1) (bytes cs) = .ok (j, b)) :
    ∃ t rest, cs = t ++ rest ∧ b = bytes rest ∧ Derives (loose f) .value ('[' :: t) j := by
  obtain ⟨w, u, rfl, blank, skip⟩ := skipWs_sound cs
  rw [Json.array, skip] at read
  split at read
  · rename_i closed
    obtain ⟨u, rfl, tail⟩ := head_ascii (by decide) closed
    cases read
    exact ⟨w ++ [']'], u, by simp, tail, .emptyArray blank⟩
  · rw [← skip, elements_skip] at read
    obtain ⟨t, js, rest, same, left, derived, rfl⟩ := sound.elements read
    exact ⟨t ++ [']'], rest, by simp [same], left, .array derived⟩

theorem elements_sound {f : Rounding} {fuel : ℕ} (sound : Sound f fuel) {v : List Json}
    {cs : List Char} {j : Json} {b : List UInt8}
    (read : Json.elements f (fuel + 1) v (bytes cs) = .ok (j, b)) :
    ∃ t js rest, cs = t ++ ']' :: rest ∧ b = bytes rest ∧ Derives (loose f) .elements t js ∧
      j = arr (v ++ js) := by
  obtain ⟨⟨x, left⟩, first, next⟩ := Outcome.bind_eq_ok.mp read
  obtain ⟨w, t, rest, rfl, before, rfl, derived⟩ := sound.value first
  obtain ⟨w', u, rfl, after, skip⟩ := skipWs_sound rest
  have element := Derives.element before derived after
  dsimp only at next
  rw [skip] at next
  split at next
  · rename_i comma
    obtain ⟨u, rfl, tail⟩ := head_ascii (by decide) comma
    rw [tail] at next
    obtain ⟨ts, js, rest, rfl, left, others, rfl⟩ := sound.elements next
    exact ⟨_, x :: js, rest, by simp, left, .more element others, by simp⟩
  · rename_i closed
    obtain ⟨u, rfl, tail⟩ := head_ascii (by decide) closed
    cases next
    exact ⟨_, [x], u, by simp, tail, .last element, rfl⟩
  · contradiction

theorem members_sound {f : Rounding} {fuel : ℕ} (sound : Sound f fuel)
    {m : List (List Char × Json)} {cs : List Char} {j : Json} {b : List UInt8}
    (read : Json.members f (fuel + 1) m (bytes cs) = .ok (j, b)) :
    ∃ t es rest, cs = t ++ '}' :: rest ∧ b = bytes rest ∧ Derives (loose f) .members t es ∧
      j = obj (es.foldl (fun m e => insert e.1 e.2 m) m) := by
  obtain ⟨w, u, rfl, before, skip⟩ := skipWs_sound cs
  rw [Json.members, skip] at read
  split at read
  case isFalse => contradiction
  rename_i quote
  obtain ⟨⟨k, left⟩, name, next⟩ := Outcome.bind_eq_ok.mp read
  obtain ⟨name, u, rfl, rfl, quoted⟩ := string_sound (f := f) quote name
  obtain ⟨w', u, rfl, after, skip⟩ := skipWs_sound u
  dsimp only at next
  rw [skip] at next
  split at next
  case isFalse => contradiction
  rename_i colon
  obtain ⟨u, rfl, tail⟩ := head_ascii (by decide) colon
  rw [tail] at next
  obtain ⟨⟨x, left⟩, first, next⟩ := Outcome.bind_eq_ok.mp next
  obtain ⟨v, t, rest, rfl, front, rfl, derived⟩ := sound.value first
  obtain ⟨v', u, rfl, back, skip⟩ := skipWs_sound rest
  have member := Derives.member before quoted after (.element front derived back)
  dsimp only at next
  rw [skip] at next
  split at next
  · rename_i comma
    obtain ⟨u, rfl, tail⟩ := head_ascii (by decide) comma
    rw [tail] at next
    obtain ⟨ts, es, rest, rfl, left, others, rfl⟩ := sound.members next
    exact ⟨_, (k, x) :: es, rest, by simp, left, .moreMembers member others, rfl⟩
  · rename_i closed
    obtain ⟨u, rfl, tail⟩ := head_ascii (by decide) closed
    cases next
    exact ⟨_, [(k, x)], u, by simp, tail, .lastMember member, rfl⟩
  · contradiction

theorem sound (f : Rounding) (fuel : ℕ) : Sound f fuel := by
  induction fuel with
  | zero => exact ⟨nofun, nofun, nofun, nofun, nofun⟩
  | succ fuel ih =>
    exact ⟨value_sound ih, object_sound ih, members_sound ih, array_sound ih, elements_sound ih⟩

/-- What the reader returns is the value of the whole text. -/
theorem derives_parse {f : Rounding} {t : List Char} {j : Json} (read : parse f t = .ok j) :
    Derives (loose f) .element t j := by
  obtain ⟨⟨v, left⟩, value, next⟩ := Outcome.bind_eq_ok.mp read
  obtain ⟨w, v, rest, rfl, before, rfl, derived⟩ := (sound f _).value value
  obtain ⟨w', u, rfl, after, skip⟩ := skipWs_sound rest
  dsimp only at next
  rw [skip] at next
  cases u with
  | nil =>
    cases next
    rw [List.append_nil]
    exact .element before derived after
  | cons c u =>
    rcases head_cases c u with ⟨_, front⟩ | ⟨_, _, front, _⟩
    · rw [front] at next
      contradiction
    · rw [front] at next
      contradiction

/-- The texts that are read are those of the grammar, each as its value. -/
theorem parse_iff {f : Rounding} {t : List Char} {j : Json} :
    parse f t = .ok j ↔ Derives (loose f) .element t j :=
  ⟨derives_parse, parse_derives⟩

end Stallwatch.Json
