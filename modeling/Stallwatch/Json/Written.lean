import Stallwatch.Json.Accepts
import Stallwatch.Varlink

/-! What the program can write: whole numbers that a float holds, and strings behind any of
the three escapers. The reader takes it back, and it keeps to RFC 8259. -/
namespace Stallwatch.Json

open Text

theorem esc_escaper : Escaper Varlink.esc := jsonStr_escaper

/-- Numbers in decimal, and strings from an escaper. -/
def written : Dialect where
  number t n := ∃ k < 2 ^ 53, t = decimal k ∧ n = .finite false k
  string t s := t = jsonStr s ∨ t = Varlink.esc s ∨ t = jstr s

theorem written_spells {t s : List Char} (string : written.string t s) : Quoted Spells t s := by
  rcases string with rfl | rfl | rfl
  · exact jsonStr_escaper.quoted s
  · exact esc_escaper.quoted s
  · exact jstr_escaper.quoted s

theorem written_loose (f : Rounding) {n : Nonterminal} {t : List Char} {m : Meaning n}
    (h : Derives written n t m) : Derives (loose f) n t m := by
  refine h.mono ?_ ?_
  · rintro t n ⟨k, small, rfl, rfl⟩
    refine ⟨number_digits (decimal_all k), ?_⟩
    rw [F64.parse_decimal, f.round_nat small, F64.ofMagnitude_coe]
  · intro t s string
    exact (written_spells string).mono (Piece.mono (fun _ _ => trivial) fun _ _ => And.right)

theorem intPart_decimal (k : ℕ) : IntPart (decimal k) := by
  by_cases zero : k = 0
  · rw [zero]
    exact .zero
  · obtain ⟨c, cs, digits, lead⟩ := decimal_lead zero
    have all := decimal_all k
    rw [digits, List.all_cons, Bool.and_eq_true] at all
    rw [digits]
    exact .digits all.1 lead all.2

theorem written_rfc {n : Nonterminal} {t : List Char} {m : Meaning n} (h : Derives written n t m) :
    Derives rfc n t m := by
  refine h.mono ?_ ?_
  · rintro t n ⟨k, _, rfl, _⟩
    exact ⟨[], decimal k, [], [], by simp, intPart_decimal k, .none, .none, by simp⟩
  · intro t s string
    exact (written_spells string).mono (Piece.mono (fun _ => id) fun _ _ => And.left)

/-- Every value comes back from its text. Under its names, where they are distinct, an object
holds the values that were written. -/
theorem parse_written (f : Rounding) :
    (∀ t j, Derives written .element t j → parse f t = .ok j) ∧
      ∀ es, (es.map Prod.fst).Nodup → ∀ k, (ofMembers es).get k = es.lookup k :=
  ⟨fun _ _ h => parse_derives (written_loose f h), fun _ => get_ofMembers⟩

/- One member under a name that is escaped, and blanks of every kind. -/
theorem written_spaced : Derives written .element
    ([' '] ++ ('{' :: (([] ++ (jstr ['"'] ++ (['\t'] ++ ':' :: ([' '] ++ ('[' ::
      ((([] ++ (decimal 7 ++ [])) ++ ',' :: (['\n'] ++ (['n', 'u', 'l', 'l'] ++ ['\r']))) ++ [']']) ++
      []))))) ++ ['}']) ++ []))
    (ofMembers [(['"'], arr [num (.whole 7), null])]) := by
  have seven : Derives written .value (decimal 7) (num (.whole 7)) := .number ⟨7, by decide, rfl, rfl⟩
  have key : written.string (jstr ['"']) ['"'] := .inr (.inr rfl)
  have none : Blank [] := rfl
  have newline : Blank ['\n'] := rfl
  have back : Blank ['\r'] := rfl
  have inside := Derives.array (.more (.element none seven none) (.last (.element newline .null back)))
  exact .element rfl (.object (.lastMember (.member rfl key rfl (.element rfl inside rfl)))) rfl

theorem parse_written_spaced :
    parse .exact [' ', '{', '"', '\\', '"', '"', '\t', ':', ' ', '[', '7', ',', '\n', 'n', 'u', 'l', 'l',
      '\r', ']', '}'] = .ok (obj [(['"'], arr [num (.whole 7), null])]) :=
  (parse_written .exact).1 _ _ written_spaced

end Stallwatch.Json
