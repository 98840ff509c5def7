import Stallwatch.Base.Outcome

/-! Runs of a machine that answers every input. A run stops at a panic; what was
answered before it is the answer to a shorter run. -/
namespace Stallwatch.Run

variable {σ ι ο γ : Type}

def outputs (step : σ → ι → Outcome Empty (σ × ο)) (s : σ) : List ι → Outcome Empty (σ × List ο)
  | [] => .ok (s, [])
  | i :: is => do
    let (s', o) ← step s i
    let (last, os) ← outputs step s' is
    return (last, o :: os)

/-- A condition on every input of a run and on what an observer `next` remembers of
the inputs before it. -/
def Every (next : γ → ι → γ) (P : γ → ι → Prop) : γ → List ι → Prop
  | _, [] => True
  | g, i :: is => P g i ∧ Every next P (next g i) is

theorem Every.and {next : γ → ι → γ} {P Q : γ → ι → Prop} {g : γ} {is : List ι}
    (hp : Every next P g is) (hq : Every next Q g is) : Every next (fun g i => P g i ∧ Q g i) g is := by
  induction is generalizing g with
  | nil => trivial
  | cons i is ih => exact ⟨⟨hp.1, hq.1⟩, ih hp.2 hq.2⟩

/-- What one step preserves, and what it answers, holds throughout every run. -/
theorem outputs_of_step {step : σ → ι → Outcome Empty (σ × ο)} {next : γ → ι → γ}
    {P : γ → ι → Prop} {Inv : γ → σ → Prop} {Good : ο → Prop}
    (preserved : ∀ g s i s' o, Inv g s → P g i → step s i = .ok (s', o) → Inv (next g i) s' ∧ Good o)
    (is : List ι) (g : γ) (s : σ) (inv : Inv g s) (every : Every next P g is) (last : σ) (os : List ο)
    (run : outputs step s is = .ok (last, os)) : Inv (is.foldl next g) last ∧ ∀ o ∈ os, Good o := by
  induction is generalizing g s os with
  | nil =>
    cases run
    exact ⟨inv, by simp⟩
  | cons i is ih =>
    obtain ⟨⟨s', o⟩, stepped, rest⟩ := Outcome.bind_eq_ok.mp run
    obtain ⟨⟨last', os'⟩, ran, done⟩ := Outcome.bind_eq_ok.mp rest
    cases done
    obtain ⟨inv', good⟩ := preserved g s i s' o inv every.1 stepped
    obtain ⟨final, all⟩ := ih (next g i) s' inv' every.2 os' ran
    exact ⟨final, List.forall_mem_cons.mpr ⟨good, all⟩⟩

end Stallwatch.Run
