import Mathlib.Algebra.BigOperators.Group.List.Lemmas
import Mathlib.Algebra.GroupWithZero.Nat
import Mathlib.Data.List.Forall2
import Mathlib.Tactic.Common
import Semidefinite.Pencil

/-!
# Running a lowering

A lowering is run on a supply of nonces. Where the number of nonces that a step
draws is known, so is the supply that each step of a list of steps is run on
(`Lowering.mapM_eq_ok`).
-/

namespace Semidefinite

theorem exists_of_mem_right {α β : Type} {R : α → β → Prop} {as : List α} {bs : List β}
    (h : List.Forall₂ R as bs) {b : β} (hb : b ∈ bs) : ∃ a ∈ as, R a b := by
  induction h with
  | nil => cases hb
  | cons hab _ ih =>
    rcases List.mem_cons.1 hb with rfl | hb
    · exact ⟨_, List.mem_cons_self, hab⟩
    · obtain ⟨a, ha, hab⟩ := ih hb
      exact ⟨a, List.mem_cons_of_mem _ ha, hab⟩

section Lists
variable {α β γ : Type} {as : List α} {bs : List β}

theorem map_eq_map_of_forall₂ {f : α → γ} {g : β → γ}
    (h : List.Forall₂ (fun a b => f a = g b) as bs) : as.map f = bs.map g := by
  rwa [← List.forall₂_eq_eq_eq, List.forall₂_map_left_iff, List.forall₂_map_right_iff]

theorem mapM_eq_mapM_of_forall₂ {m : Type → Type} [Monad m] [LawfulMonad m] {f : α → m γ}
    {g : β → m γ} (h : List.Forall₂ (fun a b => f a = g b) as bs) : as.mapM f = bs.mapM g := by
  induction h with
  | nil => rfl
  | cons hab _ ih => rw [List.mapM_cons, List.mapM_cons, hab, ih]

theorem forall₂_zipIdx {R : α → β → Prop} (h : List.Forall₂ R as bs) (start : Nat) :
    List.Forall₂ (fun a b => R a.1 b.1 ∧ a.2 = b.2) (as.zipIdx start) (bs.zipIdx start) := by
  induction h generalizing start with
  | nil => exact .nil
  | cons hab _ ih => exact .cons ⟨hab, rfl⟩ (ih (start + 1))

theorem forall₂_of_common {R : γ → α → Prop} {Q : γ → β → Prop} {T : α → β → Prop} {cs : List γ}
    (h : List.Forall₂ R cs as) (h' : List.Forall₂ Q cs bs)
    (hT : ∀ c a b, R c a → Q c b → T a b) : List.Forall₂ T as bs := by
  induction h generalizing bs with
  | nil =>
    cases h'
    exact .nil
  | cons hca _ ih =>
    cases h' with
    | cons hcb h' => exact .cons (hT _ _ _ hca hcb) (ih h')

theorem filterMap_eq_map_of_forall₂ {f : β → Option γ} {g : α → γ}
    (h : List.Forall₂ (fun a b => f b = some (g a)) as bs) : bs.filterMap f = as.map g := by
  induction h with
  | nil => rfl
  | cons hab _ ih => rw [List.filterMap_cons_some hab, List.map_cons, ih]

end Lists

namespace Except

variable {ε α β : Type}

theorem bind_eq_ok {x : Except ε α} {f : α → Except ε β} {b : β} :
    x >>= f = .ok b ↔ ∃ a, x = .ok a ∧ f a = .ok b := by
  cases x with
  | ok a =>
    refine ⟨fun h => ?_, ?_⟩
    · exact ⟨a, rfl, h⟩
    · rintro ⟨a', h, hf⟩
      cases h
      exact hf
  | error e =>
    refine ⟨fun h => ?_, ?_⟩
    · cases h
    · rintro ⟨a', h, -⟩
      cases h

theorem bind_eq_error {x : Except ε α} {f : α → Except ε β} {e : ε} :
    x >>= f = .error e ↔ x = .error e ∨ ∃ a, x = .ok a ∧ f a = .error e := by
  cases x with
  | ok a =>
    refine ⟨fun h => ?_, ?_⟩
    · exact .inr ⟨a, rfl, h⟩
    · rintro (h | ⟨a', h, hf⟩)
      · cases h
      · cases h
        exact hf
  | error cause =>
    refine ⟨fun h => ?_, ?_⟩
    · cases h
      exact .inl rfl
    · rintro (h | ⟨a', h, -⟩)
      · cases h
        rfl
      · cases h

theorem exists_of_toBool {x : Except ε α} (h : x.toBool = true) : ∃ a, x = .ok a := by
  cases x with
  | ok a => exact ⟨a, rfl⟩
  | error e => cases h

theorem map_eq_ok {x : Except ε α} {f : α → β} {b : β} :
    f <$> x = .ok b ↔ ∃ a, x = .ok a ∧ f a = b := by
  cases x with
  | ok a =>
    refine ⟨fun h => ?_, ?_⟩
    · cases h
      exact ⟨a, rfl, rfl⟩
    · rintro ⟨a', h, rfl⟩
      cases h
      rfl
  | error e =>
    refine ⟨fun h => ?_, ?_⟩
    · cases h
    · rintro ⟨a', h, -⟩
      cases h

theorem mapError_eq_ok {δ : Type} {x : Except ε α} {f : ε → δ} {a : α} :
    x.mapError f = .ok a ↔ x = .ok a := by
  cases x with
  | ok b => simp only [Except.mapError, Except.ok.injEq]
  | error e =>
    constructor <;>
      · intro h
        cases h

theorem mapError_eq_error {δ : Type} {x : Except ε α} {f : ε → δ} {e : δ} :
    x.mapError f = .error e ↔ ∃ cause, x = .error cause ∧ f cause = e := by
  cases x with
  | ok a => simp only [Except.mapError, reduceCtorEq, false_and, exists_false]
  | error cause => simp only [Except.mapError, Except.error.injEq, exists_eq_left']

theorem map_eq_error {x : Except ε α} {f : α → β} {e : ε} : f <$> x = .error e ↔ x = .error e := by
  cases x with
  | ok a =>
    constructor <;>
      · intro h
        cases h
  | error cause =>
    constructor <;>
      · intro h
        cases h
        rfl

theorem forall₂_of_mapM_eq_ok {f : α → Except ε β} {as : List α} {bs : List β}
    (h : as.mapM f = .ok bs) : List.Forall₂ (fun a b => f a = .ok b) as bs := by
  induction as generalizing bs with
  | nil =>
    cases h
    exact .nil
  | cons a as ih =>
    rw [List.mapM_cons, bind_eq_ok] at h
    obtain ⟨b, ha, h⟩ := h
    rw [bind_eq_ok] at h
    obtain ⟨tail, has, h⟩ := h
    cases h
    exact .cons ha (ih has)

theorem mapM_eq_ok_of_forall₂ {f : α → Except ε β} {as : List α} {bs : List β}
    (h : List.Forall₂ (fun a b => f a = .ok b) as bs) : as.mapM f = .ok bs := by
  induction h with
  | nil => rfl
  | cons hab _ ih =>
    rw [List.mapM_cons, hab, ih]
    rfl

theorem exists_mapM_eq_ok {f : α → Except ε β} {as : List α} (h : ∀ a ∈ as, ∃ b, f a = .ok b) :
    ∃ bs, as.mapM f = .ok bs := by
  induction as with
  | nil => exact ⟨[], rfl⟩
  | cons a as ih =>
    obtain ⟨⟨b, hb⟩, hrest⟩ := List.forall_mem_cons.1 h
    obtain ⟨bs, hbs⟩ := ih hrest
    exact ⟨b :: bs, mapM_eq_ok_of_forall₂ (.cons hb (forall₂_of_mapM_eq_ok hbs))⟩

theorem exists_mapM_iff {f : α → Except ε β} {as : List α} :
    (∃ bs, as.mapM f = .ok bs) ↔ ∀ a ∈ as, ∃ b, f a = .ok b := by
  refine ⟨?_, exists_mapM_eq_ok⟩
  rintro ⟨bs, hbs⟩ a ha
  obtain ⟨b, -, hb⟩ := exists_of_mem_right (forall₂_of_mapM_eq_ok hbs).flip ha
  exact ⟨b, hb⟩

/-- Where two computations have related results for every item, so they have for the list. -/
theorem exists_mapM_forall₂ {γ : Type} {R : α → β → Prop} {f : γ → Except ε α} {g : γ → Except ε β}
    {items : List γ} (h : ∀ c ∈ items, ∃ a b, f c = .ok a ∧ g c = .ok b ∧ R a b) :
    ∃ as bs, items.mapM f = .ok as ∧ items.mapM g = .ok bs ∧ List.Forall₂ R as bs := by
  induction items with
  | nil => exact ⟨[], [], rfl, rfl, .nil⟩
  | cons c rest ih =>
    obtain ⟨⟨a, b, ha, hb, hab⟩, hrest⟩ := List.forall_mem_cons.1 h
    obtain ⟨as, bs, has, hbs, hforall⟩ := ih hrest
    refine ⟨a :: as, b :: bs, ?_, ?_, .cons hab hforall⟩
    · rw [List.mapM_cons, ha, has]
      rfl
    · rw [List.mapM_cons, hb, hbs]
      rfl

/-- A list fails with the error of its first item that fails. -/
theorem mapM_cons_eq_error {f : α → Except ε β} {a : α} {as : List α} {e : ε} :
    (a :: as).mapM f = .error e ↔
      f a = .error e ∨ ∃ b, f a = .ok b ∧ as.mapM f = .error e := by
  rw [List.mapM_cons, bind_eq_error]
  have hrest (b : β) : (do let bs ← as.mapM f; pure (b :: bs)) = .error e ↔
      as.mapM f = .error e := by
    rw [bind_pure_comp]
    exact map_eq_error
  simp only [hrest]

theorem mapM_eq_error_iff {f : α → Except ε β} {as : List α} {e : ε} :
    as.mapM f = .error e ↔ ∃ before a after, as = before ++ a :: after ∧
      (∀ a' ∈ before, ∃ b, f a' = .ok b) ∧ f a = .error e := by
  induction as with
  | nil =>
    constructor
    · intro h
      cases h
    · rintro ⟨before, a, after, h, -⟩
      simp at h
  | cons a as ih =>
    rw [mapM_cons_eq_error, ih]
    constructor
    · rintro (ha | ⟨b, hb, before, a', after, rfl, hbefore, ha'⟩)
      · exact ⟨[], a, as, rfl, by simp, ha⟩
      · exact ⟨a :: before, a', after, rfl, List.forall_mem_cons.2 ⟨⟨b, hb⟩, hbefore⟩, ha'⟩
    · rintro ⟨before, a', after, hsplit, hbefore, ha'⟩
      cases before with
      | nil =>
        obtain ⟨rfl, rfl⟩ := List.cons.inj hsplit
        exact .inl ha'
      | cons c before =>
        obtain ⟨rfl, rfl⟩ := List.cons.inj hsplit
        obtain ⟨⟨b, hb⟩, hbefore⟩ := List.forall_mem_cons.1 hbefore
        exact .inr ⟨b, hb, before, a', after, rfl, hbefore, ha'⟩

theorem exists_of_mapM_eq_error {f : α → Except ε β} {as : List α} {e : ε}
    (h : as.mapM f = .error e) : ∃ a ∈ as, f a = .error e := by
  obtain ⟨before, a, after, rfl, -, ha⟩ := mapM_eq_error_iff.1 h
  exact ⟨a, List.mem_append_right _ List.mem_cons_self, ha⟩

theorem map_of_mapM_eq_ok {γ : Type} {f : α → Except ε β} {as : List α} {bs : List β}
    (h : as.mapM f = .ok bs) {g : β → γ} {g' : α → γ}
    (hg : ∀ a ∈ as, ∀ b, f a = .ok b → g b = g' a) : bs.map g = as.map g' := by
  have hparts := forall₂_of_mapM_eq_ok h
  clear h
  induction hparts with
  | nil => rfl
  | cons hab _ ih =>
    rw [List.map_cons, List.map_cons, hg _ List.mem_cons_self _ hab,
      ih fun a ha => hg a (List.mem_cons_of_mem _ ha)]

end Except

namespace NonceSupply

/-- The supply after some draws. -/
def advance (supply : NonceSupply) (count : Nat) : NonceSupply :=
  ⟨supply.next + UInt32.ofNat count⟩

@[simp] theorem advance_zero (supply : NonceSupply) : supply.advance 0 = supply := by
  simp [advance]

theorem advance_advance (supply : NonceSupply) (m n : Nat) :
    (supply.advance m).advance n = supply.advance (m + n) := by
  simp [advance, UInt32.add_assoc]

/-- Until the serial numbers start again, a nonce is none of those drawn before. -/
theorem peek_advance_not_mem {supply : NonceSupply} {symbols : List Symbol} {k : Nat}
    (hdrawn : ∀ s ∈ symbols, ∀ n, s.serial = some n → n < supply.next)
    (hroom : supply.next.toNat + k < 2 ^ 32) : (supply.advance k).peek ∉ symbols := by
  intro hs
  have hlt := UInt32.lt_iff_toNat_lt.1 (hdrawn _ hs _ rfl)
  rw [advance, UInt32.toNat_add, UInt32.toNat_ofNat', Nat.mod_eq_of_lt (by omega : k < 2 ^ 32),
    Nat.mod_eq_of_lt hroom] at hlt
  omega

end NonceSupply

namespace Lowering

variable {ε α β : Type}

theorem run_bind_of_ok {x : Lowering ε α} {f : α → Lowering ε β} {supply between : NonceSupply}
    {a : α} (h : x.run supply = (.ok a, between)) : (x >>= f).run supply = (f a).run between := by
  rw [show (x >>= f).run supply = ExceptT.bindCont f (x.run supply).1 (x.run supply).2 from rfl, h]
  rfl

theorem run_bind_of_error {x : Lowering ε α} {f : α → Lowering ε β} {supply after : NonceSupply}
    {e : Failure ε} (h : x.run supply = (.error e, after)) :
    (x >>= f).run supply = (.error e, after) := by
  rw [show (x >>= f).run supply = ExceptT.bindCont f (x.run supply).1 (x.run supply).2 from rfl, h]
  rfl

theorem run_bind_eq_ok {x : Lowering ε α} {f : α → Lowering ε β} {supply supply' : NonceSupply}
    {b : β} :
    (x >>= f).run supply = (.ok b, supply') ↔
      ∃ a between, x.run supply = (.ok a, between) ∧ (f a).run between = (.ok b, supply') := by
  rw [show (x >>= f).run supply = ExceptT.bindCont f (x.run supply).1 (x.run supply).2 from rfl]
  obtain ⟨result, between⟩ := x.run supply
  cases result with
  | ok a =>
    refine ⟨fun h => ?_, ?_⟩
    · exact ⟨a, between, rfl, h⟩
    · rintro ⟨a', between', h, hf⟩
      cases h
      exact hf
  | error e =>
    refine ⟨fun h => ?_, ?_⟩
    · cases h
    · rintro ⟨a', between', h, -⟩
      cases h

theorem run_pure_eq_ok {a b : α} {supply supply' : NonceSupply} :
    (pure a : Lowering ε α).run supply = (.ok b, supply') ↔ a = b ∧ supply = supply' := by
  rw [show (pure a : Lowering ε α).run supply = (.ok a, supply) from rfl, Prod.mk.injEq,
    Except.ok.injEq]

theorem run_ofFault_eq_ok {x : Except Fault α} {a : α} {supply supply' : NonceSupply} :
    (ofFault x : Lowering ε α).run supply = (.ok a, supply') ↔ x = .ok a ∧ supply = supply' := by
  cases x with
  | ok b =>
    unfold ofFault
    rw [run_pure_eq_ok, Except.ok.injEq]
  | error f =>
    refine ⟨fun h => ?_, ?_⟩
    · cases h
    · rintro ⟨h, -⟩
      cases h

theorem run_adapt_eq_ok {δ : Type} {x : ExceptT δ (StateM NonceSupply) α} {f : δ → Failure ε}
    {a : α} {supply supply' : NonceSupply} :
    (ExceptT.adapt f x : Lowering ε α).run supply = (.ok a, supply') ↔
      x.run supply = (.ok a, supply') := by
  rw [show (ExceptT.adapt f x : Lowering ε α).run supply =
    ((x.run supply).1.mapError f, (x.run supply).2) from rfl]
  obtain ⟨result, between⟩ := x.run supply
  cases result with
  | ok b =>
    constructor <;>
      · intro h
        cases h
        rfl
  | error e =>
    constructor <;>
      · intro h
        cases h

theorem run_linearForm_eq_ok {K : Type} [Scalar K] {e : Expr K} {vars : List Symbol}
    {supply supply' : NonceSupply} {form : LinearForm K} :
    (e.linearForm vars).run supply = (.ok form, supply') ↔
      LinearForm.ofExpr supply.peek e vars = .ok form ∧ supply.advance 1 = supply' := by
  rw [show (e.linearForm vars).run supply =
    (LinearForm.ofExpr supply.peek e vars, supply.advance 1) from rfl, Prod.mk.injEq]

/-- In a list of computations that draw fixed numbers of nonces each is run on the supply that
the earlier ones leave. -/
theorem mapM_eq_ok {f : α → Lowering ε β} {count : α → Nat} {as : List α}
    (hcount : ∀ a ∈ as, ∀ supply b supply', (f a).run supply = (.ok b, supply') →
      supply' = supply.advance (count a))
    {supply supply' : NonceSupply} {bs : List β}
    (h : (as.mapM f).run supply = (.ok bs, supply')) :
    supply' = supply.advance (as.map count).sum ∧
      List.Forall₂ (fun a b => a ∈ as ∧ ∃ k after, k + count a ≤ (as.map count).sum ∧
        (f a).run (supply.advance k) = (.ok b, after)) as bs := by
  induction as generalizing supply bs with
  | nil =>
    rw [List.mapM_nil, run_pure_eq_ok] at h
    obtain ⟨rfl, rfl⟩ := h
    exact ⟨by simp, .nil⟩
  | cons a as ih =>
    rw [List.mapM_cons, run_bind_eq_ok] at h
    obtain ⟨b, between, ha, h⟩ := h
    rw [run_bind_eq_ok] at h
    obtain ⟨tail, after, htail, h⟩ := h
    rw [run_pure_eq_ok] at h
    obtain ⟨rfl, rfl⟩ := h
    obtain rfl := hcount a List.mem_cons_self supply b between ha
    obtain ⟨hafter, hrest⟩ := ih (fun a' ha' => hcount a' (List.mem_cons_of_mem _ ha')) htail
    rw [List.map_cons, List.sum_cons]
    refine ⟨by rw [hafter, NonceSupply.advance_advance], .cons ?_ (hrest.imp ?_)⟩
    · exact ⟨List.mem_cons_self, 0, _, by omega, by rwa [NonceSupply.advance_zero]⟩
    · rintro a' b' ⟨ha', k, after', hk, hrun⟩
      refine ⟨List.mem_cons_of_mem _ ha', count a + k, after', by omega, ?_⟩
      rwa [← NonceSupply.advance_advance]

theorem exists_mapM_eq_ok {f : α → Lowering ε β} {count : α → Nat} {as : List α}
    (hcount : ∀ a ∈ as, ∀ supply b supply', (f a).run supply = (.ok b, supply') →
      supply' = supply.advance (count a)) {supply : NonceSupply}
    (h : ∀ a ∈ as, ∀ k, k + count a ≤ (as.map count).sum →
      ∃ b after, (f a).run (supply.advance k) = (.ok b, after)) :
    ∃ bs after, (as.mapM f).run supply = (.ok bs, after) := by
  induction as generalizing supply with
  | nil => exact ⟨[], supply, rfl⟩
  | cons a as ih =>
    obtain ⟨hfirst, hrest⟩ := List.forall_mem_cons.1 h
    rw [List.map_cons, List.sum_cons] at hfirst hrest
    obtain ⟨b, between, hb⟩ := hfirst 0 (by omega)
    rw [NonceSupply.advance_zero] at hb
    obtain rfl := hcount a List.mem_cons_self supply b between hb
    have hlater : ∀ a' ∈ as, ∀ k, k + count a' ≤ (as.map count).sum →
        ∃ b after, (f a').run ((supply.advance (count a)).advance k) = (.ok b, after) := by
      intro a' ha' k hk
      rw [NonceSupply.advance_advance]
      exact hrest a' ha' (count a + k) (by omega)
    obtain ⟨bs, after, hbs⟩ := ih (fun a' ha' => hcount a' (List.mem_cons_of_mem _ ha')) hlater
    refine ⟨b :: bs, after, ?_⟩
    rw [List.mapM_cons, run_bind_eq_ok]
    refine ⟨b, _, hb, ?_⟩
    rw [run_bind_eq_ok]
    exact ⟨bs, after, hbs, rfl⟩

/-- A list of computations that draw one nonce each has the results of its items. -/
theorem result_mapM {f : α → Lowering ε β}
    {g : α → Except (Failure ε) β} {as : List α} {supply : NonceSupply}
    (h : ∀ a ∈ as, ∀ k < as.length,
      (f a).run (supply.advance k) = (g a, supply.advance (k + 1))) :
    ((as.mapM f).run supply).1 = as.mapM g := by
  induction as generalizing supply with
  | nil => rfl
  | cons a as ih =>
    have hfirst := h a List.mem_cons_self 0 (Nat.succ_pos _)
    have hrest : ((as.mapM f).run (supply.advance 1)).1 = as.mapM g := ih fun a' ha' k hk => by
      have hlater := h a' (List.mem_cons_of_mem _ ha') (1 + k) (by rw [List.length_cons]; omega)
      rw [NonceSupply.advance_advance, NonceSupply.advance_advance]
      exact hlater
    rw [NonceSupply.advance_zero] at hfirst
    rw [List.mapM_cons, List.mapM_cons, ← hrest]
    cases ha : g a with
    | error e =>
      rw [ha] at hfirst
      rw [run_bind_of_error hfirst]
      rfl
    | ok b =>
      rw [ha] at hfirst
      rw [run_bind_of_ok hfirst]
      cases hrun : (as.mapM f).run (supply.advance 1) with
      | mk result after =>
        cases result with
        | error e => rw [run_bind_of_error hrun]; rfl
        | ok bs => rw [run_bind_of_ok hrun]; rfl

/-! ## Faults of lowerings -/

/-- Whatever is drawn, the computation stops at no other faults than these. -/
def FaultsOnly (P : Fault → Prop) (x : Lowering ε α) : Prop :=
  ∀ supply f after, x.run supply = (.error (.fault f), after) → P f

/-- Whatever is drawn, the computation stops at no fault. -/
def NeverFaults (x : Lowering ε α) : Prop :=
  ∀ supply f after, x.run supply ≠ (.error (.fault f), after)

theorem NeverFaults.faultsOnly {x : Lowering ε α} (h : x.NeverFaults) (P : Fault → Prop) :
    x.FaultsOnly P :=
  fun supply f after hrun => absurd hrun (h supply f after)

theorem FaultsOnly.imp {P Q : Fault → Prop} {x : Lowering ε α} (h : x.FaultsOnly P)
    (hPQ : ∀ f, P f → Q f) : x.FaultsOnly Q :=
  fun supply f after hrun => hPQ f (h supply f after hrun)

theorem faultsOnly_ofFault {P : Fault → Prop} {x : Except Fault α} (h : ∀ f, x = .error f → P f) :
    FaultsOnly P (ofFault x : Lowering ε α) := by
  intro supply f after hrun
  cases x with
  | ok a => cases hrun
  | error g =>
    cases hrun
    exact h _ rfl

theorem FaultsOnly.bind {P : Fault → Prop} {x : Lowering ε α} {f : α → Lowering ε β}
    (hx : x.FaultsOnly P)
    (hf : ∀ supply a after, x.run supply = (.ok a, after) → (f a).FaultsOnly P) :
    (x >>= f).FaultsOnly P := by
  intro supply fault after h
  cases hrun : x.run supply with
  | mk result between =>
    cases result with
    | ok a =>
      have hstep : (x >>= f).run supply = (f a).run between := run_bind_of_ok hrun
      exact hf supply a between hrun between fault after (hstep.symm.trans h)
    | error e =>
      have hstep : (x >>= f).run supply = (.error e, between) := run_bind_of_error hrun
      rw [hstep] at h
      cases h
      exact hx supply fault _ hrun

theorem neverFaults_pure (a : α) : NeverFaults (pure a : Lowering ε α) :=
  fun _ _ _ h => nomatch h

theorem neverFaults_ofFault {x : Except Fault α} (h : ∃ a, x = .ok a) :
    NeverFaults (ofFault x : Lowering ε α) := by
  obtain ⟨a, rfl⟩ := h
  exact neverFaults_pure a

/-- A computation with errors of its own does not fault if none of them is read as a fault. -/
theorem neverFaults_adapt {δ : Type} (x : ExceptT δ (StateM NonceSupply) α) (error : δ → ε) :
    NeverFaults (ExceptT.adapt (fun e => Failure.error (error e)) x : Lowering ε α) := by
  intro supply f after h
  rw [show (ExceptT.adapt (fun e => Failure.error (error e)) x : Lowering ε α).run supply =
    ((x.run supply).1.mapError fun e => Failure.error (error e), (x.run supply).2) from rfl] at h
  obtain ⟨cause, -, hcause⟩ := Except.mapError_eq_error.1 (Prod.mk.inj h).1
  cases hcause

theorem NeverFaults.bind {x : Lowering ε α} {f : α → Lowering ε β} (hx : x.NeverFaults)
    (hf : ∀ supply a after, x.run supply = (.ok a, after) → (f a).NeverFaults) :
    (x >>= f).NeverFaults :=
  FaultsOnly.bind (P := fun _ => False) hx hf

theorem NeverFaults.map {x : Lowering ε α} (hx : x.NeverFaults) (f : α → β) :
    (f <$> x).NeverFaults := by
  rw [map_eq_pure_bind]
  exact hx.bind fun _ _ _ _ => neverFaults_pure _

theorem neverFaults_mapM {f : α → Lowering ε β} {as : List α} (h : ∀ a ∈ as, (f a).NeverFaults) :
    (as.mapM f).NeverFaults := by
  induction as with
  | nil => exact neverFaults_pure []
  | cons a as ih =>
    obtain ⟨hfirst, hrest⟩ := List.forall_mem_cons.1 h
    rw [List.mapM_cons]
    exact hfirst.bind fun _ _ _ _ => (ih hrest).bind fun _ _ _ _ => neverFaults_pure _

theorem NeverFaults.mapError {δ : Type} {x : Lowering ε α} (h : x.NeverFaults) (f : ε → δ) :
    (mapError f x).NeverFaults := by
  intro supply fault after hrun
  rw [show (Lowering.mapError f x).run supply =
    ((x.run supply).1.mapError (Failure.mapError f), (x.run supply).2) from rfl] at hrun
  obtain ⟨cause, hcause, hfault⟩ := Except.mapError_eq_error.1 (Prod.mk.inj hrun).1
  cases cause with
  | fault g => exact h supply g _ (Prod.ext hcause rfl)
  | error e => cases hfault

/-- A computation that does not fault stops with a cause exactly if it gives no result. -/
theorem NeverFaults.exists_error_iff {x : Lowering ε α} (h : x.NeverFaults)
    {supply : NonceSupply} : (∃ cause, (x.run supply).1 = .error (.error cause)) ↔
      ¬ ∃ a after, x.run supply = (.ok a, after) := by
  constructor
  · rintro ⟨cause, hcause⟩ ⟨a, after, ha⟩
    rw [ha] at hcause
    cases hcause
  · intro hnone
    cases hrun : x.run supply with
    | mk result after =>
      cases result with
      | ok a => exact absurd ⟨a, after, hrun⟩ hnone
      | error failure =>
        cases failure with
        | fault f => exact absurd hrun (h supply f after)
        | error cause => exact ⟨cause, rfl⟩

theorem result_mapError_eq_ok {δ : Type} {x : Lowering ε α} {f : ε → δ} {supply : NonceSupply}
    {a : α} : ((mapError f x).run supply).1 = .ok a ↔ (x.run supply).1 = .ok a := by
  rw [show ((mapError f x).run supply).1 = (x.run supply).1.mapError (Failure.mapError f) from rfl,
    Except.mapError_eq_ok]

/-! ## Results that are rendered -/

section Render
variable {x : Lowering ε α} {render : α → Except Fault β} {supply : NonceSupply}

theorem result_render (x : Lowering ε α) (render : α → Except Fault β) (supply : NonceSupply) :
    ((x >>= fun a => ofFault (render a)).run supply).1 =
      (x.run supply).1 >>= fun a => (render a).mapError .fault := by
  cases hrun : x.run supply with
  | mk result after =>
    cases result with
    | error e =>
      rw [run_bind_of_error hrun]
      rfl
    | ok a =>
      rw [run_bind_of_ok hrun]
      show ((ofFault (render a) : Lowering ε β).run after).1 = (render a).mapError .fault
      cases render a <;> rfl

theorem render_eq_ok {b : β} : ((x >>= fun a => ofFault (render a)).run supply).1 = .ok b ↔
    ∃ a, (x.run supply).1 = .ok a ∧ render a = .ok b := by
  simp only [result_render, Except.bind_eq_ok, Except.mapError_eq_ok]

/-- Numbers that are found without a fault fault where they cannot be rendered. -/
theorem render_eq_fault (hx : x.NeverFaults) {f : Fault} :
    ((x >>= fun a => ofFault (render a)).run supply).1 = .error (.fault f) ↔
      ∃ a, (x.run supply).1 = .ok a ∧ render a = .error f := by
  rw [result_render]
  cases hrun : x.run supply with
  | mk result after =>
    cases result with
    | error e =>
      constructor
      · intro h
        cases h
        exact absurd hrun (hx supply f after)
      · rintro ⟨a, ha, -⟩
        cases ha
    | ok a =>
      show (render a).mapError Failure.fault = .error (.fault f) ↔ _
      rw [Except.mapError_eq_error]
      constructor
      · rintro ⟨cause, hrender, hcause⟩
        cases hcause
        exact ⟨a, rfl, hrender⟩
      · rintro ⟨a', ha, hrender⟩
        cases ha
        exact ⟨f, hrender, rfl⟩

end Render

end Lowering

end Semidefinite
