import Stallwatch.Base.Words
import Stallwatch.Iostat
import Mathlib.Algebra.BigOperators.Group.List.Basic

/-! A reading of the byte counters is three sums over the words of the file, cut off at the
largest counter. In which order the words stand makes no difference. -/
namespace Stallwatch.Iostat

open Text

/-- What a field adds under a key. -/
def counted (key field : List Char) : Option ℕ :=
  (stripPrefix (key ++ ['=']) field).bind (parseUnsigned 64)

def isKnown (field : List Char) : Bool :=
  ["rbytes", "wbytes", "dbytes"].any fun key => (counted key.toList field).isSome

/-- The fields of a file that add something under one of the keys. -/
def known (body : List Char) : List (List Char) := (splitWhitespace body).filter isKnown

/-- What the fields of a file add under a key. -/
def exact (key : String) (body : List Char) : ℕ :=
  ((splitWhitespace body).filterMap (counted key.toList)).sum

theorem stripPrefix_append (pre cs : List Char) : stripPrefix pre (pre ++ cs) = some cs := by
  simp [stripPrefix]

theorem stripPrefix_key {key key' value : List Char} (first : '=' ∉ key) (bare : '=' ∉ key') :
    stripPrefix (key' ++ ['=']) (key ++ '=' :: value) = if key = key' then some value else none := by
  split
  · rename_i same
    subst same
    have whole := stripPrefix_append (key ++ ['=']) value
    rwa [List.append_assoc] at whole
  · rename_i other
    rw [stripPrefix, if_neg]
    intro front
    obtain ⟨rest, whole⟩ := List.isPrefixOf_iff_prefix.mp front
    rw [List.append_assoc] at whole
    have mine := splitOnce_first first value
    rw [← whole, List.singleton_append, splitOnce_first bare] at mine
    exact other (Prod.mk.inj (Option.some.inj mine)).1.symm

theorem counted_pair {key key' value : List Char} (first : '=' ∉ key) (bare : '=' ∉ key') :
    counted key' (key ++ '=' :: value) = if key = key' then parseUnsigned 64 value else none := by
  rw [counted, stripPrefix_key first bare]
  split <;> rfl

theorem counted_none {key field : List Char} (none : '=' ∉ field) : counted key field = .none := by
  rw [counted, stripPrefix, if_neg]
  · rfl
  · intro front
    obtain ⟨rest, whole⟩ := List.isPrefixOf_iff_prefix.mp front
    exact none (whole ▸ by simp)

theorem counted_lt {key field : List Char} {n : ℕ} (counts : counted key field = some n) : n < 2 ^ 64 := by
  obtain ⟨value, _, parsed⟩ := Option.bind_eq_some_iff.mp counts
  rw [parseUnsigned] at parsed
  split at parsed
  · rename_i digits
    cases parsed
    exact digits.2.2
  · cases parsed

/-- A counter after one more value. -/
def add (k : UInt64) (n : ℕ) : UInt64 := Counter.saturatingAdd k (.ofNat n)

/- Every field goes to each of the counters, which takes what is under its key. -/
theorem parseField_eq (out : IoBytes) (field : List Char) :
    parseField out field =
      ⟨((counted "rbytes".toList field).map (add out.read)).getD out.read,
        ((counted "wbytes".toList field).map (add out.write)).getD out.write,
        ((counted "dbytes".toList field).map (add out.discard)).getD out.discard⟩ := by
  by_cases equals : '=' ∈ field
  · obtain ⟨key, value, rfl, first⟩ := List.eq_append_cons_of_mem equals
    rw [parseField, splitOnce_first first, counted_pair first (by decide), counted_pair first (by decide),
      counted_pair first (by decide)]
    dsimp only
    cases parseUnsigned 64 value with
    | none => rw [ite_self, ite_self, ite_self]; rfl
    | some n =>
      have apart : "rbytes".toList ≠ "wbytes".toList ∧ "rbytes".toList ≠ "dbytes".toList ∧
          "wbytes".toList ≠ "dbytes".toList := by decide
      dsimp only
      split
      · rename_i read
        rw [read, if_neg apart.1, if_neg apart.2.1]
        rfl
      split
      · rename_i write
        rw [write, if_neg apart.2.2]
        rfl
      split
      · rfl
      · rfl
  · rw [parseField, splitOnce_none equals, counted_none equals, counted_none equals, counted_none equals]
    rfl

theorem foldl_counted (key : List Char) (fields : List (List Char)) (k : UInt64) :
    fields.foldl (fun k field => ((counted key field).map (add k)).getD k) k =
      (fields.filterMap (counted key)).foldl add k := by
  induction fields generalizing k with
  | nil => rfl
  | cons field fields ih =>
    rw [List.foldl_cons, ih, List.filterMap_cons]
    cases counted key field <;> rfl

theorem foldl_parseField (fields : List (List Char)) (out : IoBytes) :
    fields.foldl parseField out =
      ⟨(fields.filterMap (counted "rbytes".toList)).foldl add out.read,
        (fields.filterMap (counted "wbytes".toList)).foldl add out.write,
        (fields.filterMap (counted "dbytes".toList)).foldl add out.discard⟩ := by
  rw [← foldl_counted, ← foldl_counted, ← foldl_counted]
  induction fields generalizing out with
  | nil => rfl
  | cons field fields ih =>
    simp only [List.foldl_cons]
    rw [ih, parseField_eq]

/- Additions that saturate one by one saturate in the end. -/
theorem toNat_foldl_add {ns : List ℕ} (small : ∀ n ∈ ns, n < 2 ^ 64) (k : UInt64) :
    (ns.foldl add k).toNat = min (2 ^ 64 - 1) (k.toNat + ns.sum) := by
  induction ns generalizing k with
  | nil =>
    have bound := k.toNat_lt
    simp only [List.foldl_nil, List.sum_nil]
    omega
  | cons n ns ih =>
    have first := small n List.mem_cons_self
    rw [List.foldl_cons, ih fun n member => small n (List.mem_cons_of_mem _ member), add,
      Counter.toNat_saturatingAdd, UInt64.toNat_ofNat_of_lt' first, List.sum_cons]
    omega

theorem parse_eq (body : List Char) : parse body = (splitWhitespace body).foldl parseField .default := by
  rw [parse, ← words_lines body, List.foldl_flatMap]

theorem toNat_counted (key : List Char) (body : List Char) :
    (((splitWhitespace body).filterMap (counted key)).foldl add 0).toNat =
      min (2 ^ 64 - 1) ((splitWhitespace body).filterMap (counted key)).sum := by
  rw [toNat_foldl_add]
  · rw [UInt64.toNat_zero, Nat.zero_add]
  · intro n member
    obtain ⟨field, _, counts⟩ := List.mem_filterMap.mp member
    exact counted_lt counts

theorem known_counts {key : String} (listed : key ∈ ["rbytes", "wbytes", "dbytes"]) (body : List Char) :
    (known body).filterMap (counted key.toList) = (splitWhitespace body).filterMap (counted key.toList) := by
  rw [known, List.filterMap_filter]
  refine List.filterMap_congr fun field _ => ?_
  split
  · rfl
  · rename_i unknown
    cases counts : counted key.toList field with
    | none => rfl
    | some n => exact absurd (List.any_eq_true.mpr ⟨key, listed, by rw [counts]; rfl⟩) unknown

theorem exact_perm {body other : List Char} (same : (known body).Perm (known other)) {key : String}
    (listed : key ∈ ["rbytes", "wbytes", "dbytes"]) : exact key body = exact key other := by
  have counts := same.filterMap (counted key.toList)
  rw [known_counts listed, known_counts listed] at counts
  exact counts.sum_eq

/- The lines of a file, one after another, have its fields. -/
theorem known_lines (body : List Char) : (lines body).flatMap known = known body := by
  rw [known, ← words_lines body, List.filter_flatMap]
  rfl

/-- The lines in another order, in each of them the fields in another order, and among
these any others that count under no key. -/
def Rearranged (body other : List Char) : Prop :=
  ∃ ls, (lines body).Perm ls ∧ List.Forall₂ (fun l l' => (known l).Perm (known l')) ls (lines other)

theorem known_flatMap {ls ms : List (List Char)}
    (each : List.Forall₂ (fun l m => (known l).Perm (known m)) ls ms) :
    (ls.flatMap known).Perm (ms.flatMap known) := by
  induction each with
  | nil => exact .refl _
  | cons first _ ih => exact first.append ih

theorem Rearranged.perm {body other : List Char} (moved : Rearranged body other) :
    (known body).Perm (known other) := by
  obtain ⟨ls, order, fields⟩ := moved
  have across : ((lines body).flatMap known).Perm (ls.flatMap known) := order.flatMap_right _
  have within := known_flatMap fields
  rw [known_lines] at across within
  exact across.trans within

section Sums

variable (body : List Char)

theorem read_sum : (parse body).read.toNat = min (2 ^ 64 - 1) (exact "rbytes" body) := by
  rw [parse_eq, foldl_parseField]
  exact toNat_counted _ _

theorem write_sum : (parse body).write.toNat = min (2 ^ 64 - 1) (exact "wbytes" body) := by
  rw [parse_eq, foldl_parseField]
  exact toNat_counted _ _

theorem discard_sum : (parse body).discard.toNat = min (2 ^ 64 - 1) (exact "dbytes" body) := by
  rw [parse_eq, foldl_parseField]
  exact toNat_counted _ _

theorem parse_perm {body other : List Char} (same : (known body).Perm (known other)) :
    parse body = parse other := by
  apply IoBytes.ext
  · rw [← UInt64.toNat_inj, read_sum, read_sum, exact_perm same (by decide)]
  · rw [← UInt64.toNat_inj, write_sum, write_sum, exact_perm same (by decide)]
  · rw [← UInt64.toNat_inj, discard_sum, discard_sum, exact_perm same (by decide)]

/-- Each counter is the sum of what the file has under its key, or the largest counter, and
so a file with the same known fields in another order is read as the same. -/
theorem parse_clamped :
    ((parse body).read.toNat = min (2 ^ 64 - 1) (exact "rbytes" body) ∧
      (parse body).write.toNat = min (2 ^ 64 - 1) (exact "wbytes" body) ∧
      (parse body).discard.toNat = min (2 ^ 64 - 1) (exact "dbytes" body)) ∧
    (∀ other, (known body).Perm (known other) → parse other = parse body) ∧
    ∀ other, Rearranged body other → parse other = parse body :=
  ⟨⟨read_sum body, write_sum body, discard_sum body⟩, fun _ same => (parse_perm same).symm,
    fun _ moved => (parse_perm moved.perm).symm⟩

end Sums

/-- Two devices, and the same on one line in another order, among fields that do not count. -/
theorem parse_clamped_devices :
    parse "rbytes=7 x rbytes=-1 wbytes=20 ios=3 rbytes=18446744073709551615".toList =
      parse "253:0 rbytes=18446744073709551615\n259:0 rbytes=7 wbytes=20\n".toList :=
  (parse_clamped "253:0 rbytes=18446744073709551615\n259:0 rbytes=7 wbytes=20\n".toList).2.1 _ (by decide)

end Stallwatch.Iostat
