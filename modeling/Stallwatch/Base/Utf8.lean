import Mathlib.Data.List.Basic
import Mathlib.Data.List.TakeWhile
import Mathlib.Order.Nat
import Mathlib.Tactic.Common
import Stallwatch.Base.Outcome

/-! UTF-8 text as a list of characters beside its bytes.
A string is the list of its characters; `bytes` is what a program that indexes
the string sees. A slice is taken at byte offsets and panics off a boundary. -/
namespace Stallwatch.Utf8

def bytes (cs : List Char) : List UInt8 := cs.flatMap String.utf8EncodeChar

@[simp] theorem bytes_nil : bytes [] = [] := rfl

@[simp] theorem bytes_cons (c : Char) (cs : List Char) :
    bytes (c :: cs) = String.utf8EncodeChar c ++ bytes cs := rfl

@[simp] theorem bytes_append (as bs : List Char) : bytes (as ++ bs) = bytes as ++ bytes bs := by
  simp [bytes]

/-- The bytes `10xxxxxx` that continue a sequence. -/
def isContinuation (b : UInt8) : Bool := 0x80 ≤ b.toNat && b.toNat < 0xC0

theorem char_range (c : Char) :
    c.toNat < 0xD800 ∨ 0xDFFF < c.toNat ∧ c.toNat < 0x110000 := c.valid

theorem encode_ascii {c : Char} (h : c.toNat < 0x80) :
    String.utf8EncodeChar c = [UInt8.ofNat c.toNat] := by
  have narrow : c.toNat ≤ 0x7f := Nat.le_of_lt_succ h
  simp only [String.utf8EncodeChar, Char.toNat_val, if_pos narrow]

/- A character beyond ASCII is a lead byte from C2 to F4 and one to three
continuation bytes. -/
theorem encode_wide {c : Char} (h : 0x80 ≤ c.toNat) :
    ∃ lead tail, String.utf8EncodeChar c = lead :: tail ∧ tail ≠ [] ∧
      0xC2 ≤ lead.toNat ∧ lead.toNat ≤ 0xF4 ∧ ∀ b ∈ tail, isContinuation b = true := by
  have range := char_range c
  have narrow : ¬ c.toNat ≤ 0x7f := by omega
  have cont : ∀ n, isContinuation (UInt8.ofNat (n % 0x40 + 0x80)) = true := by
    intro n
    simp only [isContinuation, UInt8.toNat_ofNat', Bool.and_eq_true, decide_eq_true_eq]
    omega
  simp only [String.utf8EncodeChar, Char.toNat_val, if_neg narrow]
  split
  · refine ⟨_, _, rfl, List.cons_ne_nil _ _, ?_, ?_, ?_⟩
    · simp only [UInt8.toNat_ofNat']; omega
    · simp only [UInt8.toNat_ofNat']; omega
    · simp [cont, -UInt8.ofNat_add]
  · split
    · refine ⟨_, _, rfl, List.cons_ne_nil _ _, ?_, ?_, ?_⟩
      · simp only [UInt8.toNat_ofNat']; omega
      · simp only [UInt8.toNat_ofNat']; omega
      · simp [cont, -UInt8.ofNat_add]
    · refine ⟨_, _, rfl, List.cons_ne_nil _ _, ?_, ?_, ?_⟩
      · simp only [UInt8.toNat_ofNat']; omega
      · simp only [UInt8.toNat_ofNat']; omega
      · simp [cont, -UInt8.ofNat_add]

theorem encode_ne_nil (c : Char) : String.utf8EncodeChar c ≠ [] := String.utf8EncodeChar_ne_nil

theorem ofNat_toNat {n : ℕ} (valid : n.isValidChar) : (Char.ofNat n).toNat = n := by
  have char : Char.ofNat n = Char.ofNatAux n valid := dif_pos valid
  rw [char]
  exact UInt32.toNat_ofNatLT

/-- The range a second byte has to lie in, after the lead byte `b0`. -/
def isSecond (b0 b1 : UInt8) : Bool :=
  (if b0.toNat = 0xE0 then 0xA0 else if b0.toNat = 0xF0 then 0x90 else 0x80) ≤ b1.toNat &&
    b1.toNat ≤ (if b0.toNat = 0xED then 0x9F else if b0.toNat = 0xF4 then 0x8F else 0xBF)

/-- The sequence that starts with `b0`: its character, or `none` for a maximal invalid
piece, and the number of bytes it takes from `rest`. -/
def sequence (b0 : UInt8) (rest : List UInt8) : Option Char × Nat :=
  if b0.toNat < 0x80 then (some (Char.ofNat b0.toNat), 0)
  else if 0xC2 ≤ b0.toNat ∧ b0.toNat ≤ 0xDF then
    match rest with
    | b1 :: _ =>
      if isContinuation b1 then
        (some (Char.ofNat ((b0.toNat - 0xC0) * 64 + (b1.toNat - 0x80))), 1)
      else (none, 0)
    | [] => (none, 0)
  else if 0xE0 ≤ b0.toNat ∧ b0.toNat ≤ 0xEF then
    match rest with
    | b1 :: b2 :: _ =>
      if isSecond b0 b1 then
        if isContinuation b2 then
          (some (Char.ofNat ((b0.toNat - 0xE0) * 4096 + (b1.toNat - 0x80) * 64 +
            (b2.toNat - 0x80))), 2)
        else (none, 1)
      else (none, 0)
    | [b1] => (none, if isSecond b0 b1 then 1 else 0)
    | [] => (none, 0)
  else if 0xF0 ≤ b0.toNat ∧ b0.toNat ≤ 0xF4 then
    match rest with
    | b1 :: b2 :: b3 :: _ =>
      if isSecond b0 b1 then
        if isContinuation b2 then
          if isContinuation b3 then
            (some (Char.ofNat ((b0.toNat - 0xF0) * 262144 + (b1.toNat - 0x80) * 4096 +
              (b2.toNat - 0x80) * 64 + (b3.toNat - 0x80))), 3)
          else (none, 2)
        else (none, 1)
      else (none, 0)
    | [b1, b2] => (none, if isSecond b0 b1 then if isContinuation b2 then 2 else 1 else 0)
    | [b1] => (none, if isSecond b0 b1 then 1 else 0)
    | [] => (none, 0)
  else (none, 0)

/-- What decoding makes of a byte string after skipping the first `skip` bytes. -/
def chunks : Nat → List UInt8 → List (Option Char)
  | _, [] => []
  | skip + 1, _ :: rest => chunks skip rest
  | 0, b0 :: rest => (sequence b0 rest).1 :: chunks (sequence b0 rest).2 rest

theorem chunks_skip (skipped bs : List UInt8) :
    chunks skipped.length (skipped ++ bs) = chunks 0 bs := by
  induction skipped with
  | nil => rfl
  | cons b skipped ih => simpa [chunks] using ih

/- Decoding inverts encoding, whatever follows. -/
theorem sequence_encode (c : Char) (bs : List UInt8) :
    ∃ b0 tail, String.utf8EncodeChar c = b0 :: tail ∧
      sequence b0 (tail ++ bs) = (some c, tail.length) := by
  have range := char_range c
  have back : ∀ n, n = c.toNat → Char.ofNat n = c := fun n h => h ▸ Char.ofNat_toNat c
  have byte : ∀ n, n < 256 → (UInt8.ofNat n).toNat = n := fun n h => by
    rw [UInt8.toNat_ofNat', Nat.mod_eq_of_lt h]
  have cont : ∀ n, isContinuation (UInt8.ofNat (n % 0x40 + 0x80)) = true := by
    intro n
    simp only [isContinuation, UInt8.toNat_ofNat', Bool.and_eq_true, decide_eq_true_eq]
    omega
  simp only [String.utf8EncodeChar, Char.toNat_val]
  split
  · rename_i one
    have b0 := byte c.toNat (by omega)
    refine ⟨_, _, rfl, ?_⟩
    simp only [sequence, b0, if_pos (show c.toNat < 0x80 by omega), back _ rfl, List.length_nil]
  · split
    · rename_i two
      have b0 := byte (c.toNat / 64 % 0x20 + 0xc0) (by omega)
      have b1 := byte (c.toNat % 0x40 + 0x80) (by omega)
      refine ⟨_, _, rfl, ?_⟩
      rw [sequence.eq_def, b0, if_neg (by omega), if_pos (by omega)]
      simp only [List.cons_append, List.nil_append, cont, if_true, b1, List.length_singleton]
      rw [back _ (by omega)]
    · split
      · rename_i three
        have b0 := byte (c.toNat / 4096 % 0x10 + 0xe0) (by omega)
        have b1 := byte (c.toNat / 64 % 0x40 + 0x80) (by omega)
        have b2 := byte (c.toNat % 0x40 + 0x80) (by omega)
        have second : isSecond (UInt8.ofNat (c.toNat / 4096 % 0x10 + 0xe0))
            (UInt8.ofNat (c.toNat / 64 % 0x40 + 0x80)) = true := by
          simp only [isSecond, b0, b1, Bool.and_eq_true, decide_eq_true_eq]
          constructor <;> (repeat' split) <;> omega
        refine ⟨_, _, rfl, ?_⟩
        rw [sequence.eq_def, b0, if_neg (by omega), if_neg (by omega), if_pos (by omega)]
        simp only [List.cons_append, List.nil_append, cont, second, if_true, b1, b2,
          List.length_cons, List.length_nil]
        rw [back _ (by omega)]
      · rename_i four
        have b0 := byte (c.toNat / 262144 % 0x08 + 0xf0) (by omega)
        have b1 := byte (c.toNat / 4096 % 0x40 + 0x80) (by omega)
        have b2 := byte (c.toNat / 64 % 0x40 + 0x80) (by omega)
        have b3 := byte (c.toNat % 0x40 + 0x80) (by omega)
        have second : isSecond (UInt8.ofNat (c.toNat / 262144 % 0x08 + 0xf0))
            (UInt8.ofNat (c.toNat / 4096 % 0x40 + 0x80)) = true := by
          simp only [isSecond, b0, b1, Bool.and_eq_true, decide_eq_true_eq]
          constructor <;> (repeat' split) <;> omega
        refine ⟨_, _, rfl, ?_⟩
        rw [sequence.eq_def, b0, if_neg (by omega), if_neg (by omega), if_neg (by omega),
          if_pos (by omega)]
        simp only [List.cons_append, List.nil_append, cont, second, if_true, b1, b2, b3,
          List.length_cons, List.length_nil]
        rw [back _ (by omega)]

theorem isSecond_range {b0 b1 : UInt8} (second : isSecond b0 b1 = true) :
    0x80 ≤ b1.toNat ∧ b1.toNat ≤ 0xBF ∧ (b0.toNat = 0xE0 → 0xA0 ≤ b1.toNat) ∧
      (b0.toNat = 0xED → b1.toNat ≤ 0x9F) ∧ (b0.toNat = 0xF0 → 0x90 ≤ b1.toNat) ∧
      (b0.toNat = 0xF4 → b1.toNat ≤ 0x8F) := by
  simp only [isSecond, Bool.and_eq_true, decide_eq_true_eq] at second
  obtain ⟨low, high⟩ := second
  (repeat' split at low) <;> (repeat' split at high) <;> omega

section Sequences

variable {b0 b1 b2 b3 : UInt8}

theorem isContinuation_range {b : UInt8} (cont : isContinuation b = true) :
    0x80 ≤ b.toNat ∧ b.toNat < 0xC0 := by
  simpa only [isContinuation, Bool.and_eq_true, decide_eq_true_eq] using cont

theorem byte_eq (b : UInt8) {n : ℕ} (same : n = b.toNat) : UInt8.ofNat n = b := by
  rw [same, UInt8.ofNat_toNat]

/- What each length of a sequence is the encoding of. -/
theorem encode_one (lead : b0.toNat < 0x80) :
    String.utf8EncodeChar (Char.ofNat b0.toNat) = [b0] := by
  have value := ofNat_toNat (n := b0.toNat) (.inl (by omega))
  rw [encode_ascii (by omega), value, UInt8.ofNat_toNat]

theorem encode_two (lead : 0xC2 ≤ b0.toNat ∧ b0.toNat ≤ 0xDF) (cont : isContinuation b1 = true) :
    String.utf8EncodeChar (Char.ofNat ((b0.toNat - 0xC0) * 64 + (b1.toNat - 0x80))) = [b0, b1] := by
  have range := isContinuation_range cont
  have value := ofNat_toNat (n := (b0.toNat - 0xC0) * 64 + (b1.toNat - 0x80)) (.inl (by omega))
  simp only [String.utf8EncodeChar, Char.toNat_val, value]
  rw [if_neg (by omega), if_pos (by omega), byte_eq b0 (by omega), byte_eq b1 (by omega)]

theorem encode_three (lead : 0xE0 ≤ b0.toNat ∧ b0.toNat ≤ 0xEF) (second : isSecond b0 b1 = true)
    (cont : isContinuation b2 = true) :
    String.utf8EncodeChar (Char.ofNat ((b0.toNat - 0xE0) * 4096 + (b1.toNat - 0x80) * 64 +
      (b2.toNat - 0x80))) = [b0, b1, b2] := by
  have range := isSecond_range second
  have last := isContinuation_range cont
  have value := ofNat_toNat (n := (b0.toNat - 0xE0) * 4096 + (b1.toNat - 0x80) * 64 +
    (b2.toNat - 0x80)) (by unfold Nat.isValidChar; omega)
  simp only [String.utf8EncodeChar, Char.toNat_val, value]
  rw [if_neg (by omega), if_neg (by omega), if_pos (by omega), byte_eq b0 (by omega),
    byte_eq b1 (by omega), byte_eq b2 (by omega)]

theorem encode_four (lead : 0xF0 ≤ b0.toNat ∧ b0.toNat ≤ 0xF4) (second : isSecond b0 b1 = true)
    (third : isContinuation b2 = true) (cont : isContinuation b3 = true) :
    String.utf8EncodeChar (Char.ofNat ((b0.toNat - 0xF0) * 262144 + (b1.toNat - 0x80) * 4096 +
      (b2.toNat - 0x80) * 64 + (b3.toNat - 0x80))) = [b0, b1, b2, b3] := by
  have range := isSecond_range second
  have middle := isContinuation_range third
  have last := isContinuation_range cont
  have value := ofNat_toNat (n := (b0.toNat - 0xF0) * 262144 + (b1.toNat - 0x80) * 4096 +
    (b2.toNat - 0x80) * 64 + (b3.toNat - 0x80)) (by unfold Nat.isValidChar; omega)
  simp only [String.utf8EncodeChar, Char.toNat_val, value]
  rw [if_neg (by omega), if_neg (by omega), if_neg (by omega), byte_eq b0 (by omega),
    byte_eq b1 (by omega), byte_eq b2 (by omega), byte_eq b3 (by omega)]

/- Encoding inverts decoding. -/
theorem encode_sequence {rest : List UInt8} {c : Char} {n : ℕ}
    (decoded : sequence b0 rest = (some c, n)) :
    ∃ tail bs, rest = tail ++ bs ∧ tail.length = n ∧ String.utf8EncodeChar c = b0 :: tail := by
  rw [sequence.eq_def] at decoded
  split at decoded
  · rename_i lead
    simp only [Prod.mk.injEq, Option.some.injEq] at decoded
    obtain ⟨rfl, rfl⟩ := decoded
    exact ⟨[], rest, rfl, rfl, encode_one lead⟩
  split at decoded
  · rename_i lead
    split at decoded
    · rename_i b1 bs
      split at decoded
      · rename_i cont
        simp only [Prod.mk.injEq, Option.some.injEq] at decoded
        obtain ⟨rfl, rfl⟩ := decoded
        exact ⟨[b1], bs, rfl, rfl, encode_two lead cont⟩
      · cases decoded
    · cases decoded
  split at decoded
  · rename_i lead
    split at decoded
    · rename_i b1 b2 bs
      split at decoded
      · rename_i second
        split at decoded
        · rename_i cont
          simp only [Prod.mk.injEq, Option.some.injEq] at decoded
          obtain ⟨rfl, rfl⟩ := decoded
          exact ⟨[b1, b2], bs, rfl, rfl, encode_three lead second cont⟩
        · cases decoded
      · cases decoded
    all_goals cases decoded
  split at decoded
  · rename_i lead
    split at decoded
    · rename_i b1 b2 b3 bs
      split at decoded
      · rename_i second
        split at decoded
        · rename_i third
          split at decoded
          · rename_i cont
            simp only [Prod.mk.injEq, Option.some.injEq] at decoded
            obtain ⟨rfl, rfl⟩ := decoded
            exact ⟨[b1, b2, b3], bs, rfl, rfl, encode_four lead second third cont⟩
          · cases decoded
        · cases decoded
      · cases decoded
    all_goals cases decoded
  · cases decoded

end Sequences

theorem chunks_bytes (cs : List Char) (bs : List UInt8) :
    chunks 0 (bytes cs ++ bs) = cs.map some ++ chunks 0 bs := by
  induction cs with
  | nil => rfl
  | cons c cs ih =>
    obtain ⟨b0, tail, he, hs⟩ := sequence_encode c (bytes cs ++ bs)
    rw [bytes_cons, he, List.append_assoc, List.cons_append, chunks, hs, chunks_skip, ih]
    rfl

/-- `str::from_utf8`. -/
def fromUtf8 (bs : List UInt8) : Option (List Char) := (chunks 0 bs).mapM id

/-- `String::from_utf8_lossy`. -/
def fromUtf8Lossy (bs : List UInt8) : List Char :=
  (chunks 0 bs).map fun c => c.getD '\uFFFD'

theorem mapM_some (cs : List Char) : (cs.map some).mapM id = some cs := by
  induction cs with
  | nil => rfl
  | cons c cs ih => simp only [List.map_cons, List.mapM_cons, ih]; rfl

@[simp] theorem fromUtf8_bytes (cs : List Char) : fromUtf8 (bytes cs) = some cs := by
  have decoded : chunks 0 (bytes cs) = cs.map some := by simpa [chunks] using chunks_bytes cs []
  rw [fromUtf8, decoded, mapM_some]

theorem bytes_injective {cs ds : List Char} (same : bytes cs = bytes ds) : cs = ds :=
  Option.some.inj ((fromUtf8_bytes cs).symm.trans (same ▸ fromUtf8_bytes ds))

/- Text is decoded from its own bytes only. -/
theorem bytes_fromUtf8 {bs : List UInt8} {cs : List Char} (decoded : fromUtf8 bs = some cs) :
    bytes cs = bs := by
  induction cs generalizing bs with
  | nil =>
    cases bs with
    | nil => rfl
    | cons b0 rest =>
      rw [fromUtf8, chunks, List.mapM_cons, Option.bind_eq_bind, Option.bind_eq_some_iff] at decoded
      obtain ⟨c, _, others⟩ := decoded
      obtain ⟨cs, _, same⟩ := Option.bind_eq_some_iff.mp others
      cases same
  | cons c cs ih =>
    cases bs with
    | nil => cases decoded
    | cons b0 rest =>
      rw [fromUtf8, chunks, List.mapM_cons, Option.bind_eq_bind, Option.bind_eq_some_iff] at decoded
      obtain ⟨d, first, others⟩ := decoded
      obtain ⟨ds, others, same⟩ := Option.bind_eq_some_iff.mp others
      cases same
      have whole : sequence b0 rest = (some c, (sequence b0 rest).2) := Prod.ext first rfl
      obtain ⟨tail, bs, rfl, length, encoded⟩ := encode_sequence whole
      rw [← length, chunks_skip] at others
      rw [bytes_cons, encoded, ih others, List.cons_append]

/- Where nothing was replaced the text is that of the bytes. -/
theorem fromUtf8_of_lossy {bs : List UInt8} (clean : '\uFFFD' ∉ fromUtf8Lossy bs) :
    fromUtf8 bs = some (fromUtf8Lossy bs) := by
  unfold fromUtf8Lossy at clean ⊢
  unfold fromUtf8
  generalize chunks 0 bs = parts at clean ⊢
  induction parts with
  | nil => rfl
  | cons chunk rest ih =>
    rw [List.map_cons, List.mem_cons, not_or] at clean
    cases chunk with
    | none => exact absurd rfl clean.1
    | some c => simp [List.mapM_cons, ih clean.2]

theorem lossy_of_fromUtf8 {bs : List UInt8} {cs : List Char} (decoded : fromUtf8 bs = some cs) :
    fromUtf8Lossy bs = cs := by
  have whole : chunks 0 (bytes cs) = cs.map some := by simpa [chunks] using chunks_bytes cs []
  rw [← bytes_fromUtf8 decoded, fromUtf8Lossy, whole, List.map_map]
  exact List.map_id cs

/- Byte offsets. -/
def splitAtByte : List Char → Nat → Option (List Char × List Char)
  | cs, 0 => some ([], cs)
  | [], _ + 1 => none
  | c :: cs, n + 1 =>
    if c.utf8Size ≤ n + 1 then
      (splitAtByte cs (n + 1 - c.utf8Size)).map fun p => (c :: p.1, p.2)
    else none

theorem splitAtByte_bytes (as bs : List Char) :
    splitAtByte (as ++ bs) (bytes as).length = some (as, bs) := by
  induction as with
  | nil => cases bs <;> rfl
  | cons a as ih =>
    have pos := a.utf8Size_pos
    obtain ⟨n, hn⟩ : ∃ n, (bytes (a :: as)).length = n + 1 :=
      ⟨(bytes (a :: as)).length - 1, by simp; omega⟩
    have total : n + 1 = a.utf8Size + (bytes as).length := by
      rw [← hn]; simp
    rw [hn, List.cons_append, splitAtByte, if_pos (by omega)]
    have rest : n + 1 - a.utf8Size = (bytes as).length := by omega
    rw [rest, ih]
    rfl

theorem splitAtByte_eq_some {cs as bs : List Char} {n : Nat}
    (h : splitAtByte cs n = some (as, bs)) : cs = as ++ bs ∧ n = (bytes as).length := by
  induction cs generalizing n as bs with
  | nil =>
    cases n with
    | zero =>
      simp only [splitAtByte, Option.some.injEq, Prod.mk.injEq] at h
      simp [← h.1, ← h.2]
    | succ n => simp [splitAtByte] at h
  | cons c cs ih =>
    cases n with
    | zero =>
      simp only [splitAtByte, Option.some.injEq, Prod.mk.injEq] at h
      simp [← h.1, ← h.2]
    | succ n =>
      rw [splitAtByte] at h
      split at h
      · rename_i fits
        obtain ⟨⟨as', bs'⟩, hs, he⟩ := Option.map_eq_some_iff.mp h
        obtain ⟨rfl, hn⟩ := ih hs
        simp only [Prod.mk.injEq] at he
        obtain ⟨rfl, rfl⟩ := he
        refine ⟨rfl, ?_⟩
        simp only [bytes_cons, List.length_append, String.length_utf8EncodeChar]
        omega
      · contradiction

/- An offset inside a character is no place to split. -/
theorem splitAtByte_inside (as : List Char) (d : Char) (bs : List Char) {n : ℕ} (pos : 0 < n)
    (short : n < d.utf8Size) : splitAtByte (as ++ d :: bs) ((bytes as).length + n) = none := by
  induction as with
  | nil =>
    obtain ⟨m, rfl⟩ := Nat.exists_eq_add_of_lt pos
    simp only [bytes_nil, List.length_nil, Nat.zero_add, List.nil_append] at short ⊢
    rw [splitAtByte, if_neg (by omega)]
  | cons a as ih =>
    have size := a.utf8Size_pos
    obtain ⟨m, total⟩ : ∃ m, (bytes (a :: as)).length + n = m + 1 :=
      ⟨(bytes (a :: as)).length + n - 1, by omega⟩
    have length : (bytes (a :: as)).length = a.utf8Size + (bytes as).length := by simp
    rw [total, List.cons_append, splitAtByte, if_pos (by omega)]
    have left : m + 1 - a.utf8Size = (bytes as).length + n := by omega
    rw [left, ih]
    rfl

/-- `&s[i..]`. -/
def sliceFrom {ε : Type} (s : List Char) (i : Nat) : Outcome ε (List Char) :=
  match splitAtByte s i with
  | some (_, rest) => .ok rest
  | none => .panic

/-- `&s[i..j]`. -/
def slice {ε : Type} (s : List Char) (i j : Nat) : Outcome ε (List Char) :=
  match splitAtByte s i with
  | none => .panic
  | some (_, rest) =>
    if i ≤ j then
      match splitAtByte rest (j - i) with
      | some (part, _) => .ok part
      | none => .panic
    else .panic

/-- `s.get(i..j)`. -/
def get? (s : List Char) (i j : Nat) : Option (List Char) :=
  match slice (ε := Empty) s i j with
  | .ok part => some part
  | _ => none

theorem sliceFrom_bytes {ε : Type} (as bs : List Char) :
    sliceFrom (ε := ε) (as ++ bs) (bytes as).length = .ok bs := by
  simp [sliceFrom, splitAtByte_bytes]

theorem slice_bytes {ε : Type} (as ms bs : List Char) :
    slice (ε := ε) (as ++ ms ++ bs) (bytes as).length ((bytes as).length + (bytes ms).length) =
      .ok ms := by
  simp [slice, List.append_assoc, splitAtByte_bytes]

/- A slice whose end lies inside a character. -/
theorem slice_inside {ε : Type} (as bs : List Char) (n : Nat)
    (inside : splitAtByte bs n = none) :
    slice (ε := ε) (as ++ bs) (bytes as).length ((bytes as).length + n) = .panic := by
  simp [slice, splitAtByte_bytes, inside]

theorem drop_bytes (as bs : List Char) :
    (bytes (as ++ bs)).drop (bytes as).length = bytes bs := by
  simp

/-- The end of the run of bytes satisfying `p` that starts at `i`: a loop that
advances an index while the byte under it satisfies `p`. -/
def scanWhile (p : UInt8 → Bool) (b : List UInt8) (i : Nat) : Nat :=
  i + ((b.drop i).takeWhile p).length

theorem scanWhile_bytes (p : UInt8 → Bool) (as bs : List Char) :
    scanWhile p (bytes (as ++ bs)) (bytes as).length =
      (bytes as).length + ((bytes bs).takeWhile p).length := by
  rw [scanWhile, drop_bytes]

/- A byte test that treats each character as a whole scans characters. -/
theorem takeWhile_bytes (p : UInt8 → Bool) (q : Char → Bool)
    (all : ∀ c, q c = true → ∀ b ∈ String.utf8EncodeChar c, p b = true)
    (stop : ∀ c, q c = false → ∃ lead tail, String.utf8EncodeChar c = lead :: tail ∧ p lead = false)
    (cs : List Char) : (bytes cs).takeWhile p = bytes (cs.takeWhile q) := by
  induction cs with
  | nil => rfl
  | cons c cs ih =>
    cases hq : q c with
    | true =>
      rw [bytes_cons, List.takeWhile_append_of_pos (all c hq), ih]
      simp [hq]
    | false =>
      obtain ⟨lead, tail, he, hp⟩ := stop c hq
      simp [he, hp, hq]

theorem takeWhile_short {p : UInt8 → Bool} {bs : List UInt8} (fails : bs.all p = false) :
    (bs.takeWhile p).length < bs.length := by
  apply lt_of_le_of_ne (List.takeWhile_prefix p).length_le
  intro length
  have whole := List.takeWhile_eq_self_iff.mp ((List.takeWhile_prefix p).eq_of_length length)
  rw [List.all_eq_true.mpr whole] at fails
  contradiction

/- A scan may also stop inside a character, after those of its bytes that pass. -/
theorem takeWhile_torn (p : UInt8 → Bool) (cs : List Char) :
    (bytes cs).takeWhile p =
      bytes (cs.takeWhile fun c => (String.utf8EncodeChar c).all p) ++
        ((cs.dropWhile fun c => (String.utf8EncodeChar c).all p).head?.elim []
          fun c => (String.utf8EncodeChar c).takeWhile p) := by
  induction cs with
  | nil => rfl
  | cons c cs ih =>
    cases whole : (String.utf8EncodeChar c).all p with
    | true =>
      rw [bytes_cons, List.takeWhile_append_of_pos (List.all_eq_true.mp whole), ih]
      simp [whole]
    | false =>
      have short := takeWhile_short whole
      have stops : ((String.utf8EncodeChar c) ++ bytes cs).takeWhile p =
          (String.utf8EncodeChar c).takeWhile p := by
        rw [List.takeWhile_append, if_neg short.ne]
      simp [whole, stops]

/- Only the character itself has a byte below 0x80. -/
theorem mem_bytes_ascii {c : Char} (ascii : c.toNat < 0x80) {cs : List Char}
    (member : UInt8.ofNat c.toNat ∈ bytes cs) : c ∈ cs := by
  obtain ⟨d, listed, inside⟩ := List.mem_flatMap.mp member
  have byte : (UInt8.ofNat c.toNat).toNat = c.toNat := by
    rw [UInt8.toNat_ofNat', Nat.mod_eq_of_lt (by omega)]
  by_cases low : d.toNat < 0x80
  · rw [encode_ascii low, List.mem_singleton, ← UInt8.toNat_inj, byte, UInt8.toNat_ofNat',
      Nat.mod_eq_of_lt (by omega)] at inside
    rw [← Char.ofNat_toNat c, inside, Char.ofNat_toNat]
    exact listed
  · obtain ⟨lead, tail, encoded, _, above, _, conts⟩ := encode_wide (not_lt.mp low)
    rw [encoded, List.mem_cons] at inside
    rcases inside with rfl | inside
    · omega
    · have cont := conts _ inside
      simp only [isContinuation, byte, Bool.and_eq_true, decide_eq_true_eq] at cont
      omega

/-- `b as char`. -/
def asChar (b : UInt8) : Char := Char.ofNat b.toNat

theorem asChar_toNat (b : UInt8) : (asChar b).toNat = b.toNat := by
  have small := b.toNat_lt
  exact ofNat_toNat (.inl (by omega))

theorem asChar_ascii {c : Char} (h : c.toNat < 0x80) : asChar (UInt8.ofNat c.toNat) = c := by
  rw [asChar, UInt8.toNat_ofNat', Nat.mod_eq_of_lt (by omega), Char.ofNat_toNat]

/- A test that tells no two characters beyond ASCII apart scans whole characters. -/
theorem takeWhile_ascii (r : Char → Bool) (w : Bool) (wide : ∀ c : Char, 0x80 ≤ c.toNat → r c = w)
    (cs : List Char) : (bytes cs).takeWhile (fun b => r (asChar b)) = bytes (cs.takeWhile r) := by
  apply takeWhile_bytes
  · intro c hc b hb
    by_cases ascii : c.toNat < 0x80
    · rw [encode_ascii ascii, List.mem_singleton] at hb
      rw [hb, asChar_ascii ascii, hc]
    · obtain ⟨lead, tail, he, _, low, _, conts⟩ := encode_wide (not_lt.mp ascii)
      rw [wide c (not_lt.mp ascii)] at hc
      rw [wide _ ?_, hc]
      rw [asChar_toNat]
      rw [he, List.mem_cons] at hb
      rcases hb with rfl | hb
      · omega
      · have cont := conts b hb
        simp only [isContinuation, Bool.and_eq_true, decide_eq_true_eq] at cont
        exact cont.1
  · intro c hc
    by_cases ascii : c.toNat < 0x80
    · exact ⟨_, _, encode_ascii ascii, by rw [asChar_ascii ascii, hc]⟩
    · obtain ⟨lead, tail, he, _, low, _⟩ := encode_wide (not_lt.mp ascii)
      refine ⟨lead, tail, he, ?_⟩
      rw [wide c (not_lt.mp ascii)] at hc
      rw [wide _ (by rw [asChar_toNat]; omega), hc]

end Stallwatch.Utf8
