import Mathlib.Data.List.DropRight
import Mathlib.Data.List.Induction

/-! Runs of a machine that always answers, kept as what was asked and what was answered. -/
namespace Stallwatch.History

variable {σ ι ο : Type} (step : σ → ι → σ × ο)

def after (s : σ) (is : List ι) : σ := is.foldl (fun s i => (step s i).1) s

def trace (s : σ) : List ι → List (ι × ο)
  | [] => []
  | i :: is => (i, (step s i).2) :: trace (step s i).1 is

@[simp] theorem after_nil (s : σ) : after step s [] = s := rfl

@[simp] theorem trace_nil (s : σ) : trace step s [] = [] := rfl

@[simp] theorem after_concat (s : σ) (is : List ι) (i : ι) :
    after step s (is ++ [i]) = (step (after step s is) i).1 := by
  simp only [after, List.foldl_append, List.foldl_cons, List.foldl_nil]

@[simp] theorem trace_concat (s : σ) (is : List ι) (i : ι) :
    trace step s (is ++ [i]) = trace step s is ++ [(i, (step (after step s is) i).2)] := by
  induction is generalizing s with
  | nil => rfl
  | cons j is ih => simp only [List.cons_append, trace, ih, after, List.foldl_cons]

@[simp] theorem map_fst_trace (s : σ) (is : List ι) : (trace step s is).map Prod.fst = is := by
  induction is generalizing s with
  | nil => rfl
  | cons i is ih => simp only [trace, List.map_cons, ih]

/-- What the start satisfies and every step preserves holds of every run. A condition on
the inputs is handed on from a run to the run before it. -/
theorem holds (Inv : List (ι × ο) → σ → Prop) (Good : List ι → Prop) {s : σ} (start : Inv [] s)
    (earlier : ∀ is i, Good (is ++ [i]) → Good is)
    (preserved : ∀ h s i, Inv h s → Good (h.map Prod.fst ++ [i]) →
      Inv (h ++ [(i, (step s i).2)]) (step s i).1)
    (is : List ι) (good : Good is) : Inv (trace step s is) (after step s is) := by
  induction is using List.reverseRecOn with
  | nil => exact start
  | append_singleton is i ih =>
    have before := ih (earlier is i good)
    rw [trace_concat, after_concat]
    exact preserved _ _ i before (by rwa [map_fst_trace])

/-- What follows the last answer that `p` holds of. -/
def since (p : ο → Bool) (h : List (ι × ο)) : List (ι × ο) := h.rtakeWhile fun e => !p e.2

/-- The last input whose answer `p` holds of. -/
def last (p : ο → Bool) (h : List (ι × ο)) : Option ι :=
  (h.filter fun e => p e.2).getLast?.map Prod.fst

variable (p : ο → Bool) (h : List (ι × ο)) (i : ι) (o : ο)

@[simp] theorem since_nil : since p ([] : List (ι × ο)) = [] := rfl

@[simp] theorem last_nil : last p ([] : List (ι × ο)) = none := rfl

theorem since_concat : since p (h ++ [(i, o)]) = if p o then [] else since p h ++ [(i, o)] := by
  rw [since, List.rtakeWhile_concat]
  cases p o <;> rfl

theorem last_concat : last p (h ++ [(i, o)]) = if p o then some i else last p h := by
  rw [last, List.filter_append]
  cases hp : p o <;> simp [hp, last]

theorem mem_of_last (last : History.last p h = some i) : i ∈ h.map Prod.fst := by
  obtain ⟨e, found, here⟩ := Option.map_eq_some_iff.mp last
  rw [← here]
  exact List.mem_map_of_mem (List.mem_of_mem_filter (List.mem_of_getLast? found))

section Hidden

variable {step} {τ : Type}

/-- What can be seen of a run. -/
def visible (see : ι → ο → Option τ) (h : List (ι × ο)) : List τ := h.filterMap fun e => see e.1 e.2

/-- Two runs look the same, where one leaves out inputs that show nothing and change nothing that
matters later. -/
theorem visible_without {R : σ → σ → Prop} {see : ι → ο → Option τ} {skip : ι → Bool}
    (hidden : ∀ s t i, R s t → skip i = true → R (step s i).1 t ∧ see i (step s i).2 = none)
    (shown : ∀ s t i, R s t → R (step s i).1 (step t i).1 ∧ see i (step s i).2 = see i (step t i).2)
    {s t : σ} (same : R s t) (is : List ι) :
    visible see (trace step s is) = visible see (trace step t (is.filter fun i => !skip i)) := by
  induction is generalizing s t with
  | nil => rfl
  | cons i is ih =>
    cases left : skip i with
    | true =>
      obtain ⟨later, unseen⟩ := hidden s t i same left
      have tail := ih later
      simp only [visible] at tail
      simp only [List.filter_cons, left, Bool.not_true, Bool.false_eq_true, if_false, visible, trace,
        List.filterMap_cons, unseen, tail]
    | false =>
      obtain ⟨later, seen⟩ := shown s t i same
      have tail := ih later
      simp only [visible] at tail
      simp only [List.filter_cons, left, Bool.not_false, if_true, visible, trace, List.filterMap_cons,
        seen, tail]

end Hidden

end Stallwatch.History
