import Stallwatch.Cgroup.Names

/-! What decoding makes of an escaped name. Its bytes come back one by one, and each of
them becomes a character of its own. -/
namespace Stallwatch.Cgroup

open Text Utf8

/-- `[A-Za-z0-9:_.]`, which stand in a unit name as they are. -/
def isUnitByte (b : UInt8) : Bool :=
  (0x41 ≤ b && b ≤ 0x5A) || (0x61 ≤ b && b ≤ 0x7A) || (0x30 ≤ b && b ≤ 0x39) ||
    b == 0x3A || b == 0x5F || b == 0x2E

/-- Any other byte is written as `\xhh`. -/
def escapeByte (b : UInt8) : List Char :=
  if isUnitByte b then [asChar b]
  else ['\\', 'x', Nat.digitChar (b.toNat / 16), Nat.digitChar (b.toNat % 16)]

/-- The escaping that systemd applies to a name. -/
def escapeSystemd (s : List Char) : List Char := (bytes s).flatMap escapeByte

def Ascii (s : List Char) : Prop := ∀ c ∈ s, c.toNat < 0x80

instance (s : List Char) : Decidable (Ascii s) := List.decidableBAll _ s

theorem unitByte_plain {b : UInt8} (unit : isUnitByte b = true) :
    asChar b ≠ '\\' ∧ bytes [asChar b] = [b] := by
  have range : b.toNat < 0x80 ∧ b.toNat ≠ 0x5C := by
    simp only [isUnitByte, Bool.or_eq_true, Bool.and_eq_true, decide_eq_true_eq, beq_iff_eq,
      UInt8.le_iff_toNat_le, ← UInt8.toNat_inj, UInt8.reduceToNat] at unit
    omega
  constructor
  · intro slash
    have same := congrArg Char.toNat slash
    rw [asChar_toNat] at same
    exact range.2 same
  · have ascii : (asChar b).toNat < 0x80 := by
      rw [asChar_toNat]
      exact range.1
    rw [bytes_cons, encode_ascii ascii, asChar_toNat]
    simp

theorem hexDigit_digitChar : ∀ n < 16, hexDigit n.digitChar = some n ∧ n.digitChar ≠ '+' ∧
    n.digitChar.utf8Size = 1 := by decide

/- The two digits are cut out of the name and read back. -/
theorem hex_byte (b : UInt8) (rest : List Char) :
    splitAtByte ([Nat.digitChar (b.toNat / 16), Nat.digitChar (b.toNat % 16)] ++ rest) 2 =
        some ([Nat.digitChar (b.toNat / 16), Nat.digitChar (b.toNat % 16)], rest) ∧
      parseHex 8 [Nat.digitChar (b.toNat / 16), Nat.digitChar (b.toNat % 16)] = some b.toNat := by
  have small := b.toNat_lt
  obtain ⟨high, unsigned, one⟩ := hexDigit_digitChar (b.toNat / 16) (by omega)
  obtain ⟨low, _, one'⟩ := hexDigit_digitChar (b.toNat % 16) (Nat.mod_lt _ (by decide))
  constructor
  · simp [splitAtByte, one, one']
  · have bare : stripPlus [Nat.digitChar (b.toNat / 16), Nat.digitChar (b.toNat % 16)] =
        [Nat.digitChar (b.toNat / 16), Nat.digitChar (b.toNat % 16)] := by
      unfold stripPlus
      split
      · rename_i rest same
        exact absurd (List.cons.inj same).1 unsigned
      · rfl
    have value : 16 * (b.toNat / 16) + b.toNat % 16 = b.toNat := Nat.div_add_mod _ _
    simp [parseHex, bare, high, low, value, small]

/- Decoding takes one written byte at a time. -/
theorem unescape_escapeByte (as cs : List Char) (b : UInt8) :
    unescapeFrom (as ++ (escapeByte b ++ cs)) (bytes as).length =
      unescapeFrom (as ++ escapeByte b ++ cs) (bytes (as ++ escapeByte b)).length >>= fun rest =>
        .ok (asChar b :: rest) := by
  unfold escapeByte
  split
  · rename_i unit
    obtain ⟨other, plain⟩ := unitByte_plain unit
    have copied := unescape_char as cs other
    rwa [plain] at copied
  · obtain ⟨cut, value⟩ := hex_byte b cs
    have decoded := unescape_escape as cut
    rw [value] at decoded
    simpa [List.append_assoc, asChar] using decoded

theorem unescape_end (as : List Char) : unescapeFrom as (bytes as).length = .ok [] := by
  rw [unescapeFrom, dif_neg (lt_irrefl _)]

theorem unescape_escaped (s : List Char) :
    unescapeSystemd (escapeSystemd s) = .ok ((bytes s).map asChar) := by
  have run : ∀ (bs : List UInt8) (as : List Char),
      unescapeFrom (as ++ bs.flatMap escapeByte) (bytes as).length = .ok (bs.map asChar) := by
    intro bs
    induction bs with
    | nil =>
      intro as
      simpa using unescape_end as
    | cons b bs ih =>
      intro as
      rw [List.flatMap_cons, unescape_escapeByte, ih, Outcome.ok_bind, List.map_cons]
  exact run (bytes s) []

theorem unescape_clean {name : List Char} (clean : '\\' ∉ name) :
    unescapeSystemd name = .ok ((bytes name).map asChar) := by
  have none : 0x5C ∉ bytes name := fun among => clean (mem_bytes_ascii (c := '\\') (by decide) among)
  have whole : bytes name = [] ++ bytes name ++ [] := by simp
  have passes := unescape_passes [] _ [] whole none
  rw [List.length_nil, Nat.zero_add, unescape_end, Outcome.ok_bind, List.append_nil] at passes
  exact passes

/- One character for each byte: only text of one-byte characters keeps its length. -/
theorem asChar_bytes (s : List Char) : (bytes s).map asChar = s ↔ Ascii s := by
  constructor
  · intro same
    have length := congrArg List.length same
    rw [List.length_map] at length
    have grows : ∀ t : List Char, t.length ≤ (bytes t).length := by
      intro t
      induction t with
      | nil => exact le_rfl
      | cons c t ih =>
        have pos := c.utf8Size_pos
        simp only [bytes_cons, List.length_append, String.length_utf8EncodeChar, List.length_cons]
        omega
    intro c member
    obtain ⟨as, cs, rfl⟩ := List.append_of_mem member
    by_contra wide
    obtain ⟨lead, tail, encoded, some, _⟩ := encode_wide (not_lt.mp wide)
    have front := grows as
    have back := grows cs
    have more := List.length_pos_iff.mpr some
    simp only [bytes_append, bytes_cons, encoded, List.length_append, List.length_cons] at length
    omega
  · intro ascii
    induction s with
    | nil => rfl
    | cons c s ih =>
      obtain ⟨first, rest⟩ := List.forall_mem_cons.mp ascii
      rw [bytes_cons, encode_ascii first, List.singleton_append, List.map_cons, asChar_ascii first,
        ih rest]

/-- Decoding undoes the escaping of exactly the ASCII texts, and of the names without a
backslash it leaves exactly the ASCII ones as they are. -/
theorem unescape_inverts_iff (s : List Char) :
    (unescapeSystemd (escapeSystemd s) = .ok s ↔ Ascii s) ∧
      ('\\' ∉ s → (unescapeSystemd s = .ok s ↔ Ascii s)) := by
  refine ⟨?_, fun clean => ?_⟩
  · rw [unescape_escaped, Outcome.ok.injEq, asChar_bytes]
  · rw [unescape_clean clean, Outcome.ok.injEq, asChar_bytes]

theorem unescape_inverts_dash : unescapeSystemd (escapeSystemd ['a', '-', '1']) = .ok ['a', '-', '1'] :=
  (unescape_inverts_iff ['a', '-', '1']).1.mpr (by decide)

/- The two bytes of an é. -/
theorem not_unescape_inverts :
    escapeSystemd ['é'] = "\\xc3\\xa9".toList ∧
      unescapeSystemd (escapeSystemd ['é']) = .ok ['Ã', '©'] ∧
      ¬ ((∀ s, unescapeSystemd (escapeSystemd s) = .ok s) ∧
        ∀ name, '\\' ∉ name → unescapeSystemd name = .ok name) := by
  have decoded : unescapeSystemd (escapeSystemd ['é']) = .ok ['Ã', '©'] := by decide +kernel
  refine ⟨by decide, decoded, fun ⟨inverts, _⟩ => ?_⟩
  have same := inverts ['é']
  rw [decoded, Outcome.ok.injEq] at same
  exact absurd same (by decide)

end Stallwatch.Cgroup
