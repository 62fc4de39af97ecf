import Semidefinite.Proofs.Expr.Nonce
import Semidefinite.Proofs.Lowering

/-!
# Nonces of a whole process

A process draws its nonces from one supply, one with each call: to hand it out, or to
shift an expression by while its linear form is read. The supply has `2 ^ 32` of them
and then starts again (`NonceSupply.advance_cycle`). Up to there each nonce is new, and
linear forms are what they are without a shift; the call after that draws the nonce
of the first one (`Draw.fresh_until_cycle`).
-/

namespace Semidefinite

namespace NonceSupply

/-- After the largest number the supply is where it was. -/
theorem advance_cycle (supply : NonceSupply) : supply.advance (2 ^ 32) = supply := by
  have hzero : UInt32.ofNat (2 ^ 32) = 0 := by decide
  rw [advance, hzero, UInt32.add_zero]

theorem advance_mod (supply : NonceSupply) (n : Nat) :
    supply.advance (n % 2 ^ 32) = supply.advance n := by
  have hmod : UInt32.ofNat (n % 2 ^ 32) = UInt32.ofNat n :=
    UInt32.toNat_inj.1 (by simp)
  rw [advance, advance, hmod]

theorem peek_advance_inj {supply : NonceSupply} {m n : Nat} (hm : m < 2 ^ 32) (hn : n < 2 ^ 32)
    (h : (supply.advance m).peek = (supply.advance n).peek) : m = n := by
  simp only [peek, advance, Symbol.mk.injEq, Option.some.injEq, true_and] at h
  have hserial := congrArg UInt32.toNat (UInt32.add_right_inj supply.next |>.1 h)
  rwa [UInt32.toNat_ofNat', UInt32.toNat_ofNat', Nat.mod_eq_of_lt hm, Nat.mod_eq_of_lt hn]
    at hserial

end NonceSupply

variable {K : Type} [Scalar K]

/-- A call that draws a nonce: to hand it out, or to read a linear form. -/
inductive Draw (K : Type) where
  | nonce
  | linearForm (e : Expr K) (vars : List Symbol)

/-- What a call answers. -/
inductive Answer (K : Type) where
  | nonce (s : Symbol)
  | form (result : Except NonLinear (LinearForm K))

namespace Draw

/-- The symbols that a call is given. -/
def given : Draw K → List Symbol
  | nonce => []
  | linearForm e vars => vars ++ e.occurrences

def answer : Draw K → StateM NonceSupply (Answer K)
  | nonce => Answer.nonce <$> NonceSupply.draw
  | linearForm e vars => Answer.form <$> (e.linearForm vars).run

/-- The answer with the nonce `s`. -/
def answerWith (s : Symbol) : Draw K → Answer K
  | nonce => .nonce s
  | linearForm e vars => .form (LinearForm.ofExpr s e vars)

/-- The answer with the nonce `s` that leaves no trace in a linear form. -/
def plainAnswer (s : Symbol) : Draw K → Answer K
  | nonce => .nonce s
  | linearForm e vars => .form (LinearForm.plainForm e vars)

theorem run_answer (call : Draw K) (supply : NonceSupply) :
    call.answer.run supply = (call.answerWith supply.peek, supply.advance 1) := by
  cases call <;> rfl

/-- The calls of a process draw one nonce after the other. -/
theorem run_answers (calls : List (Draw K)) (supply : NonceSupply) :
    (calls.mapM answer).run supply =
      (calls.mapIdx fun i call => call.answerWith (supply.advance i).peek,
        supply.advance calls.length) := by
  induction calls generalizing supply with
  | nil =>
    rw [List.length_nil, NonceSupply.advance_zero]
    rfl
  | cons call rest ih =>
    have hrest := ih (supply.advance 1)
    simp only [NonceSupply.advance_advance, Nat.add_comm 1] at hrest
    have hstep : ((call :: rest).mapM answer).run supply =
        (call.answerWith supply.peek :: ((rest.mapM answer).run (supply.advance 1)).1,
          ((rest.mapM answer).run (supply.advance 1)).2) := by
      rw [List.mapM_cons, StateT.run_bind, run_answer]
      rfl
    rw [hstep, hrest, List.mapIdx_cons, NonceSupply.advance_zero, List.length_cons]

/-- The nonce that the call at position `i` of a process draws. -/
def nonceAt (calls : List (Draw K)) (i : Nat) : Symbol :=
  (((calls.take i).mapM answer).run .first).2.peek

theorem nonceAt_eq {calls : List (Draw K)} {i : Nat} (hi : i ≤ calls.length) :
    nonceAt calls i = (NonceSupply.first.advance i).peek := by
  unfold nonceAt
  rw [run_answers, List.length_take, Nat.min_eq_left hi]

theorem getElem?_answers {calls : List (Draw K)} {i : Nat} (hi : i < calls.length) :
    ((calls.mapM answer).run .first).1[i]? = some (calls[i].answerWith (nonceAt calls i)) := by
  rw [run_answers, nonceAt_eq (Nat.le_of_lt hi), List.getElem?_mapIdx, List.getElem?_eq_getElem hi]
  rfl

/-- The symbols that there are before the call at position `i`: all named ones, and the nonces of
the earlier calls. -/
def IsCreated (calls : List (Draw K)) (i : Nat) (s : Symbol) : Prop :=
  s.isNonce = false ∨ ∃ j < i, nonceAt calls j = s

/-- Each call is given symbols that there are. -/
def IsCausal (calls : List (Draw K)) : Prop :=
  ∀ (i : Nat) (hi : i < calls.length), ∀ s ∈ calls[i].given, IsCreated calls i s

section Cycle
variable {calls : List (Draw K)} {i : Nat} (hi : i < calls.length)
include hi

theorem nonceAt_mod : nonceAt calls (i % 2 ^ 32) = nonceAt calls i := by
  have hle := Nat.mod_le i (2 ^ 32)
  rw [nonceAt_eq (Nat.le_of_lt hi), nonceAt_eq (by omega), NonceSupply.advance_mod]

/-- In the first cycle a nonce is none of the symbols that there are. -/
theorem not_isCreated_nonceAt (hcycle : i < 2 ^ 32) : ¬ IsCreated calls i (nonceAt calls i) := by
  rintro (hnamed | ⟨j, hj, heq⟩)
  · cases hnamed
  · rw [nonceAt_eq (by omega), nonceAt_eq (Nat.le_of_lt hi)] at heq
    have := NonceSupply.peek_advance_inj (by omega) hcycle heq
    omega

/-- After it every nonce has been there. -/
theorem isCreated_nonceAt (hcycle : 2 ^ 32 ≤ i) : IsCreated calls i (nonceAt calls i) := by
  have hmod := Nat.mod_lt i (by decide : 0 < 2 ^ 32)
  exact .inr ⟨i % 2 ^ 32, by omega, nonceAt_mod hi⟩

end Cycle

theorem answerWith_eq_plainAnswer [LawfulOne K] {call : Draw K} {s : Symbol} (h : s ∉ call.given) :
    call.answerWith s = call.plainAnswer s := by
  cases call with
  | nonce => rfl
  | linearForm e vars =>
    rw [given, List.mem_append, not_or] at h
    exact congrArg Answer.form (LinearForm.ofExpr_eq_plainForm h.1 h.2)

/-- How long nonces stay fresh. The nonce of a call is none of the symbols that there are exactly
if no more than `2 ^ 32` nonces have been drawn with it; from there on they come again in the same
order. As long as its nonce is fresh, a call in a process that uses only symbols that there are
answers what it answers without a shift. -/
theorem fresh_until_cycle [LawfulOne K] (calls : List (Draw K)) :
    (∀ i < calls.length, (¬ IsCreated calls i (nonceAt calls i)) ↔ i < 2 ^ 32) ∧
    (∀ i < calls.length, nonceAt calls (i % 2 ^ 32) = nonceAt calls i) ∧
    (IsCausal calls → ∀ (i : Nat) (hi : i < calls.length), i < 2 ^ 32 →
      nonceAt calls i ∉ calls[i].given ∧
      ((calls.mapM answer).run .first).1[i]? = some (calls[i].plainAnswer (nonceAt calls i))) := by
  refine ⟨fun i hi => ⟨fun hnew => ?_, not_isCreated_nonceAt hi⟩, fun i hi => nonceAt_mod hi,
    fun hcausal i hi hcycle => ?_⟩
  · by_contra hcycle
    exact hnew (isCreated_nonceAt hi (by omega))
  · have hnew : nonceAt calls i ∉ calls[i].given := fun hmem =>
      not_isCreated_nonceAt hi hcycle (hcausal i hi _ hmem)
    exact ⟨hnew, by rw [getElem?_answers hi, answerWith_eq_plainAnswer hnew]⟩

/-- A process draws a nonce, reads forms of `x + 2 * n` and of `n * n` in it, and draws another. -/
theorem fresh_until_cycle_of_four_calls :
    let x : Symbol := { name := "x" }
    let n := NonceSupply.first.peek
    let calls : List (Draw Float) :=
      [.nonce, .linearForm (.sum [.symbol x, .product [.const 2, .symbol n]]) [x, n],
        .linearForm (.product [.symbol n, .symbol n]) [n], .nonce]
    IsCausal calls ∧ ∀ (i : Nat) (hi : i < calls.length), nonceAt calls i ∉ calls[i].given ∧
      ((calls.mapM answer).run .first).1[i]? = some (calls[i].plainAnswer (nonceAt calls i)) := by
  intro x n calls
  have hcausal : ∀ i, ∀ hi : i < calls.length, ∀ s ∈ calls[i].given,
      s.isNonce = false ∨ ∃ j < i, nonceAt calls j = s := by
    decide +kernel
  refine ⟨hcausal, fun i hi => (fresh_until_cycle calls).2.2 hcausal i hi ?_⟩
  have hlength : calls.length = 4 := rfl
  omega

/-- Calls that bring the supply back to where it was, and one that is given the first nonce. -/
theorem nonce_again {count : Nat} (hpos : 0 < count)
    (hcycle : NonceSupply.first.advance count = .first) (e : Expr K) (vars : List Symbol)
    (hgiven : ∀ s ∈ vars ++ e.occurrences, s.isNonce = false ∨ s = NonceSupply.first.peek) :
    let n := NonceSupply.first.peek
    let calls : List (Draw K) := List.replicate count .nonce ++ [.linearForm e vars]
    IsCausal calls ∧ nonceAt calls 0 = n ∧ nonceAt calls count = n ∧
      ((calls.mapM answer).run .first).1[count]? = some (.form (LinearForm.ofExpr n e vars)) := by
  intro n calls
  have hlength : calls.length = count + 1 := by
    rw [List.length_append, List.length_replicate, List.length_singleton]
  have hlast : count < calls.length := by omega
  have hfirst : nonceAt calls 0 = n := by
    rw [nonceAt_eq (Nat.zero_le _), NonceSupply.advance_zero]
  have hagain : nonceAt calls count = n := by
    rw [nonceAt_eq (Nat.le_of_lt hlast), hcycle]
  have hcall : calls[count] = .linearForm e vars := by
    simp [calls]
  refine ⟨fun i hi s hs => ?_, hfirst, hagain, by rw [getElem?_answers hlast, hagain, hcall]; rfl⟩
  rcases Nat.lt_or_ge i count with hlt | hge
  · have hnonce : calls[i] = .nonce := by
      simp [calls, List.getElem_append_left, hlt]
    rw [hnonce] at hs
    cases hs
  · obtain rfl : i = count := by omega
    rw [hcall] at hs
    exact (hgiven s hs).imp id fun heq => ⟨0, hpos, hfirst.trans heq.symm⟩

omit [Scalar K] in
theorem eq_ok_of_parts {result : Except NonLinear (LinearForm K)} {coefficients : List K}
    {constant : K} (h : result.toOption.map (fun form => (form.coefficients, form.constant)) =
      some (coefficients, constant)) : result = .ok ⟨coefficients, constant⟩ := by
  cases result with
  | error cause => cases h
  | ok form =>
    cases h
    rfl

/-- A process draws `2 ^ 32` nonces and then reads the form of `1` in the first of them. The nonce
that this draws is that one again, so its coefficient is one, which is that of the shift. -/
theorem shift_in_coefficient :
    let n := NonceSupply.first.peek
    let calls : List (Draw Float) :=
      List.replicate (2 ^ 32) .nonce ++ [.linearForm (.const 1) [n]]
    IsCausal calls ∧ nonceAt calls 0 = n ∧ nonceAt calls (2 ^ 32) = n ∧
      ((calls.mapM answer).run .first).1[2 ^ 32]? = some (.form (.ok ⟨[1], 1⟩)) ∧
      LinearForm.plainForm (.const 1 : Expr Float) [n] = .ok ⟨[0], 1⟩ := by
  intro n calls
  obtain ⟨hcausal, hfirst, hagain, hanswer⟩ :=
    nonce_again (Nat.two_pow_pos 32) (NonceSupply.advance_cycle .first) (.const 1 : Expr Float)
      [n] fun s hs => .inr (List.mem_singleton.1 hs)
  have hform : LinearForm.ofExpr n (.const 1 : Expr Float) [n] = .ok ⟨[1], 1⟩ :=
    eq_ok_of_parts (by decide +kernel)
  rw [hform] at hanswer
  exact ⟨hcausal, hfirst, hagain, hanswer, eq_ok_of_parts (by decide +kernel)⟩

end Draw

end Semidefinite
