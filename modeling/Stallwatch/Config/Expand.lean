import Mathlib.Data.List.Infix
import Stallwatch.Base.Decimal
import Stallwatch.Base.Slots
import Stallwatch.Report

/-! The command of a rule with the values of a stall in it. The placeholders are replaced
one kind after another, so that a value is searched for the kinds that come later. -/
namespace Stallwatch

open Text Slots

/-- `str::replace`. -/
def Text.replace (pat val s : List Char) : List Char := fill [(pat, val)] s

namespace Config

section Values

variable (s : Stall)

def unitSlot : Slot Char := ("{unit}".toList, s.unit.toList)
def cgroupSlot : Slot Char := ("{cgroup}".toList, s.cgroup.toList)
def resourceSlot : Slot Char := ("{resource}".toList, s.resource.display.toList)
def deltaSlot : Slot Char := ("{delta_ms}".toList, decimal (s.deltaUsec / 1000).toNat)
def pctSlot : Slot Char := ("{pct}".toList, F64.format 0 s.pressurePct)
def peakSlot : Slot Char := ("{peak}".toList, F64.format 0 s.peakPct)

end Values

def expand (template : List Char) (s : Stall) : List Char :=
  let t := replace (unitSlot s).1 (unitSlot s).2 template
  let t := replace (cgroupSlot s).1 (cgroupSlot s).2 t
  let t := replace (resourceSlot s).1 (resourceSlot s).2 t
  let t := replace (deltaSlot s).1 (deltaSlot s).2 t
  let t := replace (pctSlot s).1 (pctSlot s).2 t
  replace (peakSlot s).1 (peakSlot s).2 t

def figures (s : Stall) : List (Slot Char) := [resourceSlot s, deltaSlot s, pctSlot s, peakSlot s]

/-- All placeholders at once, in a single pass over the template. -/
def placed (template : List Char) (s : Stall) : List Char :=
  fill ([unitSlot s] ++ [cgroupSlot s] ++ figures s) template

/-- The unit makes no `{cgroup}` that is not in the template, unless the cgroup is that text,
and both together make no placeholder of the other kinds. -/
def Literal (template : List Char) (s : Stall) : Prop :=
  let named := replace (unitSlot s).1 (unitSlot s).2 template
  let both := replace (cgroupSlot s).1 (cgroupSlot s).2 named
  (starts [cgroupSlot s] named = starts [cgroupSlot s] template ∨ s.cgroup = "{cgroup}") ∧
    starts (figures s) both = starts (figures s) template

instance (template : List Char) (s : Stall) : Decidable (Literal template s) := by
  unfold Literal
  infer_instance

/-- The first character of a number as it is written. -/
def leads (c : Char) : Bool := c.isDigit || c == '-' || c == 'N' || c == 'i'

/-- A number as it is written. -/
def Figure (v : List Char) : Prop :=
  (∃ c cs, v = c :: cs ∧ leads c = true) ∧ v.all F64.written = true

theorem Figure.free {v : List Char} (figure : Figure v) {c : Char} (other : F64.written c = false) :
    c ∉ v := by
  intro member
  rw [List.all_eq_true.mp figure.2 c member] at other
  cases other

theorem figure_decimal (n : ℕ) : Figure (decimal n) := by
  obtain ⟨c, cs, shape, digit⟩ := decimal_cons n
  exact ⟨⟨c, cs, shape, by simp [leads, digit]⟩, F64.written_digits (decimal_all n)⟩

theorem figure_format (x : F64) : Figure (F64.format 0 x) := by
  refine ⟨?_, F64.format_written 0 x⟩
  cases x with
  | nan => exact ⟨'N', ['a', 'N'], rfl, rfl⟩
  | infinite negative =>
    cases negative with
    | false => exact ⟨'i', ['n', 'f'], rfl, rfl⟩
    | true => exact ⟨'-', ['i', 'n', 'f'], rfl, rfl⟩
  | finite negative q =>
    simp only [F64.format, F64.places, if_true, List.append_nil]
    cases negative with
    | false => exact (figure_decimal _).1
    | true => exact ⟨'-', _, rfl, rfl⟩

/- No placeholder but `{unit}` has a character that a number starts with. -/
theorem figure_alien {v p : List Char} (figure : Figure v) (free : p.all (fun c => !leads c) = true) :
    ∃ c ∈ v, c ∉ p := by
  obtain ⟨⟨c, cs, rfl, first⟩, _⟩ := figure
  refine ⟨c, List.mem_cons_self, fun member => ?_⟩
  have other := List.all_eq_true.mp free c member
  rw [first] at other
  cases other

theorem lead_alien {c : Char} (lead : leads c = true) :
    c ∉ "{cgroup}".toList ∧ c ∉ "{resource}".toList ∧ c ∉ "{delta_ms}".toList ∧
      c ∉ "{pct}".toList ∧ c ∉ "{peak}".toList := by
  have free : ∀ p : List Char, p.all (fun c => !leads c) = true → c ∉ p := by
    intro p other member
    have dark := List.all_eq_true.mp other c member
    rw [lead] at dark
    cases dark
  exact ⟨free _ (by decide), free _ (by decide), free _ (by decide), free _ (by decide), free _ (by decide)⟩

section Stall

variable (s : Stall)

theorem mem_figures : resourceSlot s ∈ figures s ∧ deltaSlot s ∈ figures s ∧ pctSlot s ∈ figures s ∧
    peakSlot s ∈ figures s := by
  simp [figures]

theorem placeholders_marked : Marked '{' ([unitSlot s] ++ [cgroupSlot s] ++ figures s) where
  opens := by
    have body : ∀ p ∈ ["{unit}".toList, "{cgroup}".toList, "{resource}".toList, "{delta_ms}".toList,
        "{pct}".toList, "{peak}".toList], ∃ body, p = '{' :: body ∧ '{' ∉ body := by
      simp only [List.forall_mem_cons]
      exact ⟨⟨_, rfl, by decide⟩, ⟨_, rfl, by decide⟩, ⟨_, rfl, by decide⟩, ⟨_, rfl, by decide⟩,
        ⟨_, rfl, by decide⟩, ⟨_, rfl, by decide⟩, List.forall_mem_nil _⟩
    exact fun e member => body e.1 (List.mem_map_of_mem (f := Prod.fst) member)
  apart := by
    have apart : ["{unit}".toList, "{cgroup}".toList, "{resource}".toList, "{delta_ms}".toList,
        "{pct}".toList, "{peak}".toList].Pairwise fun p q => ¬ p <+: q ∧ ¬ q <+: p := by decide
    exact (List.pairwise_map (f := Prod.fst) (l := [unitSlot s] ++ [cgroupSlot s] ++ figures s)).mp apart

theorem figures_marked : Marked '{' (figures s) := (placeholders_marked s).right

theorem figure_delta : Figure (deltaSlot s).2 := figure_decimal _

/- What is true of the resources and of all numbers is true of the values. -/
theorem figures_cases {q : Slot Char → Prop} (resource : q (resourceSlot s))
    (number : ∀ e, Figure e.2 → q e) : ∀ e ∈ figures s, q e := by
  simp only [figures, List.forall_mem_cons]
  exact ⟨resource, number _ (figure_delta s), number _ (figure_format _), number _ (figure_format _),
    List.forall_mem_nil _⟩

theorem figures_dull : Dull '{' (figures s) := by
  apply figures_cases
  · unfold resourceSlot
    cases s.resource <;> decide
  · rintro e figure
    have free : '{' ∉ e.2 := figure.free rfl
    obtain ⟨⟨c, cs, shape, _⟩, _⟩ := figure
    exact ⟨shape ▸ List.cons_ne_nil _ _, free⟩

theorem figures_clean {c : Char} (resource : ∀ r : Resource, c ∉ r.display.toList)
    (other : F64.written c = false) :
    ∀ e ∈ figures s, c ∉ e.2 := by
  apply figures_cases
  · exact resource s.resource
  · exact fun e figure => figure.free other

theorem figures_closed : ∀ e ∈ figures s, '}' ∉ e.2 :=
  figures_clean s (fun r => by cases r <;> decide) rfl

/- No number starts like the rest of `{cgroup}` at any place of it. -/
theorem figures_apart : ∀ e ∈ figures s, ∀ r, r <:+ (cgroupSlot s).1 → r ≠ [] →
    ¬ e.2 <+: r ∧ ¬ r <+: e.2 := by
  have head : ∀ {v : List Char} {c cs}, v = c :: cs → c ∉ "{cgroup}".toList →
      ∀ r, r <:+ (cgroupSlot s).1 → r ≠ [] → ¬ v <+: r ∧ ¬ r <+: v := by
    rintro _ c cs rfl other r suffix some
    obtain ⟨d, ds, rfl⟩ := List.exists_cons_of_ne_nil some
    have member : d ∈ "{cgroup}".toList := suffix.subset List.mem_cons_self
    refine ⟨fun first => ?_, fun first => ?_⟩
    · rw [(List.cons_prefix_cons.mp first).1] at other
      exact other member
    · rw [← (List.cons_prefix_cons.mp first).1] at other
      exact other member
  have resource : ∀ r, r <:+ (cgroupSlot s).1 → r ≠ [] →
      ¬ (resourceSlot s).2 <+: r ∧ ¬ r <+: (resourceSlot s).2 := by
    unfold resourceSlot
    cases s.resource with
    | cpu =>
      have all : ∀ r ∈ "{cgroup}".toList.tails, r ≠ [] →
          ¬ "cpu".toList <+: r ∧ ¬ r <+: "cpu".toList := by decide
      exact fun r suffix => all r ((List.mem_tails _ _).mpr suffix)
    | memory => exact head (c := 'm') rfl (by decide)
    | io => exact head (c := 'i') rfl (by decide)
  refine figures_cases s resource fun e figure => ?_
  obtain ⟨⟨c, cs, shape, lead⟩, _⟩ := figure
  exact head shape (lead_alien lead).1

/- Each number has a character that is in no later placeholder. -/
theorem figures_alien : ∀ e ∈ figures s, ∀ p ∈ ["{delta_ms}".toList, "{pct}".toList, "{peak}".toList],
    ∃ c ∈ e.2, c ∉ p := by
  have free : ∀ p ∈ ["{delta_ms}".toList, "{pct}".toList, "{peak}".toList],
      p.all (fun c => !leads c) = true := by decide
  have names : ["{delta_ms}".toList, "{pct}".toList, "{peak}".toList].all
      (fun p => s.resource.display.toList.any fun c => !p.contains c) = true := by
    cases s.resource <;> rfl
  have resource : ∀ p ∈ ["{delta_ms}".toList, "{pct}".toList, "{peak}".toList],
      ∃ c ∈ s.resource.display.toList, c ∉ p := by
    intro p member
    obtain ⟨c, among, other⟩ := List.any_eq_true.mp (List.all_eq_true.mp names p member)
    exact ⟨c, among, by simpa using other⟩
  exact figures_cases s resource fun e figure p member => figure_alien figure (free p member)

/- One more number can be filled in after the others. -/
theorem figures_next (front back : List (Slot Char)) (e : Slot Char) (whole : figures s = front ++ [e] ++ back)
    (pattern : e.1 ∈ ["{delta_ms}".toList, "{pct}".toList, "{peak}".toList]) (t : List Char) :
    fill [e] (fill front t) = fill (front ++ [e]) t := by
  have marked := figures_marked s
  have among : ∀ f ∈ front, f ∈ figures s := by
    intro f member
    rw [whole]
    exact List.mem_append_left _ (List.mem_append_left _ member)
  have ends : ∀ p ∈ ["{delta_ms}".toList, "{pct}".toList, "{peak}".toList], p.getLast? = some '}' := by decide
  rw [whole] at marked
  refine fill_fill_alien marked.left (c := '}') ?_ (fun f member => (figures_dull s f (among f member)).2)
    (fun f member => figures_closed s f (among f member)) ?_ t
  · intro f member
    rw [List.mem_singleton.mp member]
    exact ends _ pattern
  · intro f member g last
    rw [List.mem_singleton.mp last]
    exact figures_alien s f (among f member) _ pattern

/- The numbers can be filled in together. -/
theorem figures_fill (t : List Char) :
    fill [peakSlot s] (fill [pctSlot s] (fill [deltaSlot s] (fill [resourceSlot s] t))) =
      fill (figures s) t := by
  have two := figures_next s [resourceSlot s] [pctSlot s, peakSlot s] (deltaSlot s) rfl (.head _) t
  have three := figures_next s [resourceSlot s, deltaSlot s] [peakSlot s] (pctSlot s) rfl (.tail _ (.head _)) t
  have four := figures_next s [resourceSlot s, deltaSlot s, pctSlot s] [] (peakSlot s) rfl
    (.tail _ (.tail _ (.head _))) t
  exact ((congrArg _ (congrArg _ two)).trans (congrArg _ three)).trans four

theorem expand_eq (t : List Char) :
    expand t s = fill (figures s) (fill [cgroupSlot s] (fill [unitSlot s] t)) :=
  figures_fill s _

section Cgroup

variable {s} {t : List Char}

/- The cgroup is placed as in a single pass. -/
theorem cgroup_placed
    (same : starts [cgroupSlot s] (fill [unitSlot s] t) = starts [cgroupSlot s] t ∨ s.cgroup = "{cgroup}") :
    fill [cgroupSlot s] (fill [unitSlot s] t) = fill ([unitSlot s] ++ [cgroupSlot s]) t := by
  have marked := (placeholders_marked s).left
  rcases same with same | idle
  · exact fill_fill marked same
  · have idle : (cgroupSlot s).2 = (cgroupSlot s).1 := congrArg String.toList idle
    have alone : Marked '{' ([] ++ [cgroupSlot s]) := marked.right
    have none := fill_idle alone idle (fill [unitSlot s] t)
    rw [fill_none, List.nil_append] at none
    rw [none, fill_idle marked idle]

/- How many more of the slot's patterns there are once the unit and the cgroup are placed. -/
def surplus (s : Stall) (t : List Char) (e : Slot Char) : ℕ :=
  starts [e] (fill [cgroupSlot s] (fill [unitSlot s] t)) - starts [e] t

/- How many more `{cgroup}` there are once the unit is placed. -/
def cgroupSurplus (s : Stall) (t : List Char) : ℕ :=
  starts [cgroupSlot s] (fill [unitSlot s] t) - starts [cgroupSlot s] t

theorem figure_kept {e : Slot Char} (he : e ∈ figures s) :
    starts [e] t ≤ starts [e] (fill [cgroupSlot s] (fill [unitSlot s] t)) := by
  have sub : ∀ f ∈ [unitSlot s, cgroupSlot s], [f, e].Sublist ([unitSlot s] ++ [cgroupSlot s] ++ figures s) := by
    intro f hf
    have pair : ([f] ++ [e]).Sublist ([unitSlot s, cgroupSlot s] ++ figures s) :=
      (List.singleton_sublist.mpr hf).append (List.singleton_sublist.mpr he)
    exact pair
  have marked : ∀ f ∈ [unitSlot s, cgroupSlot s], Marked '{' ([f] ++ [e]) :=
    fun f hf => (placeholders_marked s).sublist (sub f hf)
  exact (starts_fill_le (marked _ (.head _)) t).trans (starts_fill_le (marked _ (.tail _ (.head _))) _)

/- If all is placed as in a single pass, the characters of the surplus patterns are those of
the values in their place. -/
theorem cgroup_balance (same : expand t s = placed t s) (c : Char) :
    cgroupSurplus s t * (cgroupSlot s).1.count c + surplus s t (resourceSlot s) * (resourceSlot s).1.count c +
        surplus s t (deltaSlot s) * (deltaSlot s).1.count c + surplus s t (pctSlot s) * (pctSlot s).1.count c +
        surplus s t (peakSlot s) * (peakSlot s).1.count c =
      cgroupSurplus s t * (cgroupSlot s).2.count c + surplus s t (resourceSlot s) * (resourceSlot s).2.count c +
        surplus s t (deltaSlot s) * (deltaSlot s).2.count c + surplus s t (pctSlot s) * (pctSlot s).2.count c +
        surplus s t (peakSlot s) * (peakSlot s).2.count c := by
  have marked := placeholders_marked s
  have alone : Marked '{' ([] ++ [cgroupSlot s]) := marked.left.right
  have bare : Marked '{' ([] ++ figures s) := marked.right
  have once := count_fill marked.left c t
  have after := count_fill alone c (fill [unitSlot s] t)
  have numbers := count_excess marked bare (fun e he => figure_kept (t := t) he) c
  rw [expand_eq, placed] at same
  simp only [List.nil_append, fill_none] at after numbers
  rw [same] at numbers
  obtain ⟨k, count⟩ := Nat.exists_eq_add_of_le (starts_fill_le marked.left t)
  have extra : cgroupSurplus s t = k := by rw [cgroupSurplus, count, Nat.add_sub_cancel_left]
  rw [count, Nat.add_mul, Nat.add_mul] at after
  rw [extra]
  simp only [excess, figures, List.map_cons, List.map_nil, List.sum_cons, List.sum_nil] at numbers
  simp only [surplus]
  omega

/- A value with a character that is in no placeholder is not placed too often. -/
theorem surplus_alien (same : expand t s = placed t s) {c : Char}
    (alien : c ∉ "{cgroup}".toList ∧ c ∉ "{resource}".toList ∧ c ∉ "{delta_ms}".toList ∧
      c ∉ "{pct}".toList ∧ c ∉ "{peak}".toList) :
    ∀ e ∈ figures s, c ∈ e.2 → surplus s t e = 0 := by
  have balance := cgroup_balance same c
  have none : ∀ {k : ℕ} {p : List Char}, c ∉ p → k * p.count c = 0 :=
    fun missing => by rw [List.count_eq_zero.mpr missing, Nat.mul_zero]
  have cgroup : cgroupSurplus s t * (cgroupSlot s).1.count c = 0 := none alien.1
  have resource : surplus s t (resourceSlot s) * (resourceSlot s).1.count c = 0 := none alien.2.1
  have delta : surplus s t (deltaSlot s) * (deltaSlot s).1.count c = 0 := none alien.2.2.1
  have pct : surplus s t (pctSlot s) * (pctSlot s).1.count c = 0 := none alien.2.2.2.1
  have peak : surplus s t (peakSlot s) * (peakSlot s).1.count c = 0 := none alien.2.2.2.2
  have zero : ∀ e ∈ figures s, surplus s t e * e.2.count c = 0 := by
    simp only [figures, List.forall_mem_cons]
    exact ⟨by omega, by omega, by omega, by omega, List.forall_mem_nil _⟩
  intro e he member
  exact (Nat.mul_eq_zero.mp (zero e he)).resolve_right fun missing => List.count_eq_zero.mp missing member

theorem surplus_figure (same : expand t s = placed t s) {e : Slot Char} (he : e ∈ figures s)
    (figure : Figure e.2) : surplus s t e = 0 := by
  obtain ⟨⟨c, cs, shape, lead⟩, _⟩ := figure
  exact surplus_alien same (lead_alien lead) e he (shape ▸ List.mem_cons_self)

/- The name of the processor has no such character, but `{cgroup}` has its letter `p`. -/
theorem surplus_cpu (same : expand t s = placed t s) (cpu : s.resource = .cpu)
    (numbers : surplus s t (deltaSlot s) = 0 ∧ surplus s t (pctSlot s) = 0 ∧ surplus s t (peakSlot s) = 0)
    (alike : (cgroupSlot s).1 <+: (cgroupSlot s).2 ∨ (cgroupSlot s).2 <+: (cgroupSlot s).1) :
    surplus s t (resourceSlot s) = 0 := by
  have balance : ∀ c, cgroupSurplus s t * (cgroupSlot s).1.count c +
      surplus s t (resourceSlot s) * (resourceSlot s).1.count c =
        cgroupSurplus s t * (cgroupSlot s).2.count c + surplus s t (resourceSlot s) * "cpu".toList.count c := by
    intro c
    have all := cgroup_balance same c
    have value : (resourceSlot s).2 = "cpu".toList := congrArg (fun r => r.display.toList) cpu
    rw [numbers.1, numbers.2.1, numbers.2.2, value] at all
    omega
  rcases alike with longer | shorter
  · have letter := balance 'p'
    have one : (cgroupSlot s).1.count 'p' = 1 := rfl
    have none : (resourceSlot s).1.count 'p' = 0 := rfl
    have other : "cpu".toList.count 'p' = 1 := rfl
    have least := longer.sublist.count_le 'p'
    rw [one] at letter least
    rw [none, other] at letter
    have more := Nat.le_mul_of_pos_right (cgroupSurplus s t) least
    omega
  · have letter := balance '{'
    have one : (cgroupSlot s).1.count '{' = 1 := rfl
    have none : "cpu".toList.count '{' = 0 := rfl
    have other : (resourceSlot s).1.count '{' = 1 := rfl
    have most := shorter.sublist.count_le '{'
    rw [one] at letter most
    rw [none, other] at letter
    have less := Nat.mul_le_mul_left (cgroupSurplus s t) most
    omega

theorem surplus_none (same : expand t s = placed t s)
    (alike : (cgroupSlot s).1 <+: (cgroupSlot s).2 ∨ (cgroupSlot s).2 <+: (cgroupSlot s).1) :
    ∀ e ∈ figures s, surplus s t e = 0 := by
  obtain ⟨first, numbers⟩ := mem_figures s
  have delta : surplus s t (deltaSlot s) = 0 :=
    surplus_figure same numbers.1 (figure_delta s)
  have pct : surplus s t (pctSlot s) = 0 :=
    surplus_figure same numbers.2.1 (figure_format _)
  have peak : surplus s t (peakSlot s) = 0 :=
    surplus_figure same numbers.2.2 (figure_format _)
  have resource : surplus s t (resourceSlot s) = 0 := by
    cases kind : s.resource with
    | cpu => exact surplus_cpu same kind ⟨delta, pct, peak⟩ alike
    | memory =>
      have value : (resourceSlot s).2 = "memory".toList := congrArg (fun r => r.display.toList) kind
      have member : 'y' ∈ "memory".toList := by decide
      exact surplus_alien same (by decide) _ first (value ▸ member)
    | io =>
      have value : (resourceSlot s).2 = "io".toList := congrArg (fun r => r.display.toList) kind
      have member : 'i' ∈ "io".toList := by decide
      exact surplus_alien same (by decide) _ first (value ▸ member)
  simp only [figures, List.forall_mem_cons]
  exact ⟨resource, delta, pct, peak, List.forall_mem_nil _⟩

/- Only its own text can be placed for a `{cgroup}` that the unit makes. -/
theorem cgroup_lost (more : starts [cgroupSlot s] t < starts [cgroupSlot s] (fill [unitSlot s] t))
    (same : expand t s = placed t s) : s.cgroup = "{cgroup}" := by
  have marked := placeholders_marked s
  have alike : (cgroupSlot s).1 <+: (cgroupSlot s).2 ∨ (cgroupSlot s).2 <+: (cgroupSlot s).1 := by
    rw [expand_eq, placed] at same
    obtain ⟨y, z, fills⟩ := extra_alike marked (figures_dull s) more same
    have first := prefix_of_fill_apart (figures_apart s) marked.right fills
    exact List.prefix_or_prefix_of_prefix first (List.prefix_append _ _)
  have none := surplus_none same alike
  obtain ⟨resource, delta, pct, peak⟩ := mem_figures s
  have some : 0 < cgroupSurplus s t := Nat.sub_pos_of_lt more
  have counts : ∀ c, (cgroupSlot s).1.count c = (cgroupSlot s).2.count c := by
    intro c
    have balance := cgroup_balance same c
    rw [none _ resource, none _ delta, none _ pct, none _ peak] at balance
    exact Nat.eq_of_mul_eq_mul_left some (by omega)
  have length := (List.perm_iff_count.mpr counts).length_eq
  have whole : (cgroupSlot s).1 = (cgroupSlot s).2 :=
    alike.elim (fun longer => longer.eq_of_length length)
      fun shorter => (shorter.eq_of_length length.symm).symm
  exact String.toList_inj.mp whole.symm

end Cgroup

end Stall

/-- The replacements one after another are a single pass over the template exactly when no
placeholder is made by what was placed before. -/
theorem expand_iff (template : List Char) (s : Stall) :
    expand template s = placed template s ↔ Literal template s := by
  have marked := placeholders_marked s
  by_cases same : starts [cgroupSlot s] (fill [unitSlot s] template) = starts [cgroupSlot s] template ∨
      s.cgroup = "{cgroup}"
  · have whole := fill_fill_iff marked (fun e he => (figures_dull s e he).2) template
    rw [← cgroup_placed same] at whole
    rw [expand_eq, placed, whole]
    exact ⟨fun numbers => ⟨same, numbers⟩, fun literal => literal.2⟩
  · refine iff_of_false (fun equal => ?_) fun literal => same literal.1
    rw [not_or] at same
    have kept := starts_fill_le marked.left template
    exact same.2 (cgroup_lost (lt_of_le_of_ne kept (Ne.symm same.1)) equal)

/- A unit that is named like a placeholder. -/
theorem expand_rescans : ∃ s : Stall, s.unit = "{resource}" ∧ s.cgroup = "/x" ∧ s.resource = .io ∧
    expand "{unit}".toList s = "io".toList ∧ placed "{unit}".toList s = "{resource}".toList ∧
    expand "{unit}".toList s ≠ placed "{unit}".toList s :=
  ⟨⟨"{resource}", "/x", .io, .full, 0, .nan, .nan⟩, rfl, rfl, rfl, by decide +kernel, by decide +kernel,
    by decide +kernel⟩

end Config

end Stallwatch
