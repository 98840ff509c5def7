import Mathlib.Data.List.Forall2

/-! Results of code that can also panic. An error is a value the caller receives;
a panic ends the thread. The two are kept apart so that a statement about errors
can never hold because the code crashed. -/
namespace Stallwatch

inductive Outcome (ε α : Type) where
  | ok (value : α)
  | err (error : ε)
  | panic
  deriving DecidableEq, Repr

namespace Outcome

variable {ε α β : Type}

def bind (x : Outcome ε α) (f : α → Outcome ε β) : Outcome ε β :=
  match x with
  | .ok a => f a
  | .err e => .err e
  | .panic => .panic

instance : Monad (Outcome ε) where
  pure := .ok
  bind := .bind

@[simp] theorem pure_eq (a : α) : (pure a : Outcome ε α) = .ok a := rfl

@[simp] theorem ok_bind (a : α) (f : α → Outcome ε β) : (Outcome.ok a >>= f) = f a := rfl

@[simp] theorem err_bind (e : ε) (f : α → Outcome ε β) : (Outcome.err e >>= f) = .err e := rfl

@[simp] theorem panic_bind (f : α → Outcome ε β) : ((Outcome.panic : Outcome ε α) >>= f) = .panic :=
  rfl

instance : LawfulMonad (Outcome ε) := LawfulMonad.mk' _
  (fun x => by cases x <;> rfl)
  (fun _ _ => rfl)
  (fun x _ _ => by cases x <;> rfl)

theorem bind_eq_ok {x : Outcome ε α} {f : α → Outcome ε β} {b : β} :
    (x >>= f) = .ok b ↔ ∃ a, x = .ok a ∧ f a = .ok b := by
  cases x <;> simp

theorem bind_eq_panic {x : Outcome ε α} {f : α → Outcome ε β} :
    (x >>= f) = .panic ↔ x = .panic ∨ ∃ a, x = .ok a ∧ f a = .panic := by
  cases x <;> simp

/- A step that cannot fail itself. -/
theorem bind_ok_eq_panic {x : Outcome ε α} {g : α → β} :
    (x >>= fun a => .ok (g a)) = .panic ↔ x = .panic := by
  cases x <;> simp

/- A loop over fallible steps either panics at one of them or pairs every element with
its result. -/
theorem mapM_cases {f : α → Outcome Empty β} (xs : List α) :
    xs.mapM f = .panic ∧ (∃ x ∈ xs, f x = .panic) ∨
      ∃ ys, xs.mapM f = .ok ys ∧ (∀ x ∈ xs, f x ≠ .panic) ∧
        List.Forall₂ (fun x y => f x = .ok y) xs ys := by
  induction xs with
  | nil => exact .inr ⟨[], rfl, by simp, .nil⟩
  | cons x xs ih =>
    cases hx : f x with
    | err e => exact e.elim
    | panic => exact .inl ⟨by simp [List.mapM_cons, hx], x, by simp, hx⟩
    | ok y =>
      rcases ih with ⟨hp, z, hz, hzp⟩ | ⟨ys, hys, safe, rel⟩
      · exact .inl ⟨by simp [List.mapM_cons, hx, hp], z, by simp [hz], hzp⟩
      · exact .inr ⟨y :: ys, by simp [List.mapM_cons, hx, hys], by simp [hx]; exact safe, .cons hx rel⟩

/- A loop that ended has paired every element with its result. -/
theorem mapM_rel {f : α → Outcome ε β} {xs : List α} {ys : List β} (ran : xs.mapM f = .ok ys) :
    List.Forall₂ (fun x y => f x = .ok y) xs ys := by
  induction xs generalizing ys with
  | nil =>
    cases ran
    exact .nil
  | cons x xs ih =>
    rw [List.mapM_cons] at ran
    obtain ⟨y, first, rest⟩ := bind_eq_ok.mp ran
    obtain ⟨ys, others, same⟩ := bind_eq_ok.mp rest
    cases same
    exact .cons first (ih others)

/- Every result of the loop is that of one of its steps. -/
theorem mapM_mem {f : α → Outcome ε β} {xs : List α} {ys : List β} (ran : xs.mapM f = .ok ys) {y : β}
    (member : y ∈ ys) : ∃ x ∈ xs, f x = .ok y := by
  have rel := mapM_rel ran
  clear ran
  induction rel with
  | nil => cases member
  | @cons x _ _ _ first _ ih =>
    rcases List.mem_cons.mp member with rfl | member
    · exact ⟨x, List.mem_cons_self, first⟩
    · obtain ⟨x, among, here⟩ := ih member
      exact ⟨x, List.mem_cons_of_mem _ among, here⟩

theorem ok_iff (x : Outcome Empty α) : (∃ a, x = .ok a) ↔ x ≠ .panic := by
  cases x with
  | ok a => simp
  | err e => exact e.elim
  | panic => simp

end Outcome

end Stallwatch
