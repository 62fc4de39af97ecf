import Semidefinite.Proofs.Lowering

/-!
# Two lowerings in step

Two computations run in step if they draw as many nonces, each from a supply of its
own, and either have related results or stop at the same failure (`InStep`). Steps
that run in step make up computations that do (`InStep.bind`, `inStep_mapM`).
-/

namespace Semidefinite.Lowering

variable {ε δ α β γ : Type} {R : α → β → Prop} {s t : NonceSupply}

/-- Both draw `count` nonces and have related results, or both fail alike. -/
def InStep (R : α → β → Prop) (count : Nat) (x : Lowering ε α) (s : NonceSupply)
    (y : Lowering ε β) (t : NonceSupply) : Prop :=
  (∃ a b, R a b ∧ x.run s = (.ok a, s.advance count) ∧ y.run t = (.ok b, t.advance count)) ∨
    ∃ e drawn, x.run s = (.error e, s.advance drawn) ∧ y.run t = (.error e, t.advance drawn)

theorem InStep.run_eq {x y : Lowering ε α} {count : Nat} (h : InStep Eq count x s y s) :
    x.run s = y.run s := by
  rcases h with ⟨a, b, rfl, hx, hy⟩ | ⟨e, drawn, hx, hy⟩
  · rw [hx, hy]
  · rw [hx, hy]

theorem InStep.result_eq {x y : Lowering ε α} {count : Nat} (h : InStep Eq count x s y t) :
    (x.run s).1 = (y.run t).1 := by
  rcases h with ⟨a, b, rfl, hx, hy⟩ | ⟨e, drawn, hx, hy⟩
  · rw [hx, hy]
  · rw [hx, hy]

theorem InStep.exists_of_ok {x : Lowering ε α} {y : Lowering ε β} {count : Nat}
    (h : InStep R count x s y t) {a : α} (ha : (x.run s).1 = .ok a) :
    ∃ b, (y.run t).1 = .ok b ∧ R a b := by
  rcases h with ⟨a', b, hab, hx, hy⟩ | ⟨e, drawn, hx, hy⟩
  · rw [hx] at ha
    cases ha
    exact ⟨b, congrArg Prod.fst hy, hab⟩
  · rw [hx] at ha
    cases ha

theorem inStep_pure {a : α} {b : β} (h : R a b) :
    InStep R 0 (pure a : Lowering ε α) s (pure b) t := by
  refine .inl ⟨a, b, h, ?_, ?_⟩ <;>
    · rw [NonceSupply.advance_zero]
      rfl

theorem inStep_of_result {x : Lowering ε α} {result : Except (Failure ε) α}
    (h : ∀ supply, x.run supply = (result, supply)) :
    InStep (fun a b => a = b ∧ result = .ok a) 0 x s x t := by
  cases result with
  | ok a => exact .inl ⟨a, a, ⟨rfl, rfl⟩, by rw [h, NonceSupply.advance_zero], by
      rw [h, NonceSupply.advance_zero]⟩
  | error e => exact .inr ⟨e, 0, by rw [h, NonceSupply.advance_zero], by
      rw [h, NonceSupply.advance_zero]⟩

theorem InStep.mono {Q : α → β → Prop} {x : Lowering ε α} {y : Lowering ε β} {count : Nat}
    (h : InStep R count x s y t) (hQ : ∀ a b, R a b → Q a b) : InStep Q count x s y t := by
  rcases h with ⟨a, b, hab, hx, hy⟩ | herror
  · exact .inl ⟨a, b, hQ a b hab, hx, hy⟩
  · exact .inr herror

/-- What follows runs on the supplies that the first computations leave. -/
theorem InStep.bind {α' β' : Type} {Q : α' → β' → Prop} {x : Lowering ε α} {y : Lowering ε β}
    {f : α → Lowering ε α'} {g : β → Lowering ε β'} {m n : Nat} (h : InStep R m x s y t)
    (hfg : ∀ a b, R a b → x.run s = (.ok a, s.advance m) →
      InStep Q n (f a) (s.advance m) (g b) (t.advance m)) :
    InStep Q (m + n) (x >>= f) s (y >>= g) t := by
  rcases h with ⟨a, b, hab, hx, hy⟩ | ⟨e, drawn, hx, hy⟩
  · rcases hfg a b hab hx with ⟨a', b', hab', hf, hg⟩ | ⟨e, drawn, hf, hg⟩
    · rw [NonceSupply.advance_advance] at hf hg
      exact .inl ⟨a', b', hab', (run_bind_of_ok hx).trans hf, (run_bind_of_ok hy).trans hg⟩
    · rw [NonceSupply.advance_advance] at hf hg
      exact .inr ⟨e, m + drawn, (run_bind_of_ok hx).trans hf, (run_bind_of_ok hy).trans hg⟩
  · exact .inr ⟨e, drawn, run_bind_of_error hx, run_bind_of_error hy⟩

theorem InStep.mapError {x : Lowering ε α} {y : Lowering ε β} {count : Nat}
    (h : InStep R count x s y t) (f : ε → δ) :
    InStep R count (mapError f x) s (mapError f y) t := by
  have hrun : ∀ {κ : Type} (z : Lowering ε κ) (u : NonceSupply), (Lowering.mapError f z).run u =
      ((z.run u).1.mapError (Failure.mapError f), (z.run u).2) := fun _ _ => rfl
  rcases h with ⟨a, b, hab, hx, hy⟩ | ⟨e, drawn, hx, hy⟩
  · exact .inl ⟨a, b, hab, by rw [hrun, hx]; rfl, by rw [hrun, hy]; rfl⟩
  · exact .inr ⟨e.mapError f, drawn, by rw [hrun, hx]; rfl, by rw [hrun, hy]; rfl⟩

/-- One expression is read in step if it has the same form with both nonces. -/
theorem inStep_linearForm {K : Type} [Scalar K] {e : Expr K} {vars : List Symbol}
    (h : LinearForm.ofExpr s.peek e vars = LinearForm.ofExpr t.peek e vars)
    (f : NonLinear → Failure ε) :
    InStep Eq 1 (ExceptT.adapt f (e.linearForm vars) : Lowering ε (LinearForm K)) s
      (ExceptT.adapt f (e.linearForm vars)) t := by
  have hrun : ∀ u : NonceSupply,
      (ExceptT.adapt f (e.linearForm vars) : Lowering ε (LinearForm K)).run u =
        ((LinearForm.ofExpr u.peek e vars).mapError f, u.advance 1) := fun _ => rfl
  cases hform : LinearForm.ofExpr s.peek e vars with
  | ok form =>
    exact .inl ⟨form, form, rfl, by rw [hrun, hform]; rfl, by rw [hrun, ← h, hform]; rfl⟩
  | error cause =>
    exact .inr ⟨f cause, 1, by rw [hrun, hform]; rfl, by rw [hrun, ← h, hform]; rfl⟩

/-- A list runs in step if each of its items does on the supplies that the earlier ones leave. -/
theorem inStep_mapM {f : γ → Lowering ε α} {g : γ → Lowering ε β} {count : γ → Nat} {items : List γ}
    (h : ∀ c ∈ items, ∀ k, k + count c ≤ (items.map count).sum →
      InStep R (count c) (f c) (s.advance k) (g c) (t.advance k)) :
    InStep (List.Forall₂ R) (items.map count).sum (items.mapM f) s (items.mapM g) t := by
  induction items generalizing s t with
  | nil => exact inStep_pure .nil
  | cons c rest ih =>
    obtain ⟨hfirst, hrest⟩ := List.forall_mem_cons.1 h
    rw [List.map_cons, List.sum_cons] at hfirst hrest
    have hc := hfirst 0 (by omega)
    rw [NonceSupply.advance_zero, NonceSupply.advance_zero] at hc
    rw [List.mapM_cons, List.mapM_cons, List.map_cons, List.sum_cons]
    refine hc.bind fun a b hab _ => ?_
    have hlater := ih (s := s.advance (count c)) (t := t.advance (count c)) fun d hd k hk => by
      rw [NonceSupply.advance_advance, NonceSupply.advance_advance]
      exact hrest d hd (count c + k) (by omega)
    rw [← Nat.add_zero (rest.map count).sum]
    exact hlater.bind fun as bs hasbs _ => inStep_pure (.cons hab hasbs)

end Semidefinite.Lowering
