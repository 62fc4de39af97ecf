import Semidefinite.Expr.Terms
import Semidefinite.Grid

/-!
# The orders of keys

Symbols, cells, tallies and term keys are each ordered by a comparison. The
comparisons are linear orders: transitive, and `eq` only between equal keys. A
tally needs both to keep its keys ascending and distinct.
-/

namespace Semidefinite

open Std

/-! ## Ordered lists -/

/-- Of the lists with given members only one is in a given strict order. -/
theorem eq_of_ordered {α : Type} {before : α → α → Prop}
    (hasymm : ∀ {a b}, before a b → ¬ before b a) {as bs : List α} (has : as.Pairwise before)
    (hbs : bs.Pairwise before) (h : ∀ a, a ∈ as ↔ a ∈ bs) : as = bs := by
  have hnodup : ∀ {l : List α}, l.Pairwise before → l.Nodup := fun hl =>
    hl.imp fun {a b} hab (heq : a = b) => hasymm hab (heq ▸ hab)
  have hperm : as.Perm bs :=
    (List.perm_ext_iff_of_nodup (hnodup has) (hnodup hbs)).2 fun {a} => h a
  exact hperm.eq_of_pairwise (fun a b _ _ hab hba => absurd hba (hasymm hab)) has hbs

/-! ## Symbols -/

theorem Symbol.compare_eq (s t : Symbol) :
    compare s t = compareLex (compareOn Symbol.name) (compareOn Symbol.serial) s t := rfl

instance : TransOrd Symbol :=
  inferInstanceAs (TransCmp (compareLex (compareOn Symbol.name) (compareOn Symbol.serial)))

instance : LawfulEqOrd Symbol where
  compare_self {s} :=
    @ReflCmp.compare_self _ (compareLex (compareOn Symbol.name) (compareOn Symbol.serial)) _ s
  eq_of_compare {s t} h := by
    rw [Symbol.compare_eq, compareLex_eq_eq] at h
    obtain ⟨hname, hserial⟩ := h
    have hname : s.name = t.name := LawfulEqOrd.eq_of_compare hname
    have hserial : s.serial = t.serial := LawfulEqOrd.eq_of_compare hserial
    cases s; cases t
    simp_all

/-! ## Cells -/

namespace Cell

/-- Row after row, and within a row column after column. -/
def Precedes (a b : Cell) : Prop :=
  a.row < b.row ∨ a.row = b.row ∧ a.col < b.col

theorem compare_eq (a b : Cell) : compare a b = compareLex (compareOn row) (compareOn col) a b := by
  show (compare a.row b.row).then ((compare a.col b.col).then .eq) = _
  rw [Ordering.then_eq]
  rfl

theorem compare_eq_lt {a b : Cell} : compare a b = .lt ↔ a.Precedes b := by
  rw [compare_eq, compareLex, Ordering.then_eq_lt]
  simp [compareOn, Precedes, Nat.compare_eq_lt]

theorem Precedes.ne {a b : Cell} (h : a.Precedes b) : a ≠ b := by
  rintro rfl
  unfold Precedes at h
  omega

theorem Precedes.not_symm {a b : Cell} (hab : a.Precedes b) : ¬ b.Precedes a := by
  unfold Precedes at hab ⊢
  omega

end Cell

instance : TransOrd Cell where
  eq_swap {a b} := by
    rw [Cell.compare_eq, Cell.compare_eq]
    exact OrientedCmp.eq_swap
  isLE_trans {a b c} := by
    rw [Cell.compare_eq, Cell.compare_eq, Cell.compare_eq]
    exact TransCmp.isLE_trans

instance : LawfulEqOrd Cell where
  compare_self {a} := by
    rw [Cell.compare_eq]
    exact ReflCmp.compare_self
  eq_of_compare {a b} h := by
    rw [Cell.compare_eq, compareLex_eq_eq] at h
    cases a; cases b
    simp_all [compareOn]

/-! ## Tallies -/

section
variable {κ α : Type} [Ord κ] [Ord α]

/-- The comparison of two entries, a key before its total. -/
abbrev compareEntries : κ × α → κ × α → Ordering :=
  compareLex (compareOn Prod.fst) (compareOn Prod.snd)

instance [TransOrd κ] [TransOrd α] : TransOrd (Tally κ α) where
  eq_swap {s t} :=
    @OrientedCmp.eq_swap _ (List.compareLex compareEntries) _ s.entries t.entries
  isLE_trans {s t u} :=
    @TransCmp.isLE_trans _ (List.compareLex compareEntries) _ s.entries t.entries u.entries

instance [LawfulEqOrd κ] [LawfulEqOrd α] :
    LawfulEqCmp (compareEntries : κ × α → κ × α → Ordering) where
  eq_of_compare {p q} h := by
    rw [compareLex_eq_eq] at h
    exact Prod.ext (LawfulEqOrd.eq_of_compare h.1) (LawfulEqOrd.eq_of_compare h.2)

instance [LawfulEqOrd κ] [LawfulEqOrd α] : LawfulEqOrd (Tally κ α) where
  compare_self {s} :=
    @ReflCmp.compare_self _ (List.compareLex compareEntries) _ s.entries
  eq_of_compare {s t} h := by
    have h := @LawfulEqCmp.eq_of_compare _ (List.compareLex compareEntries) _ s.entries t.entries h
    cases s; cases t
    simp_all

end

/-! ## Term keys -/

instance : TransOrd TermKey where
  eq_swap {a b} := by
    cases a <;> cases b
    case symbol.symbol s t => exact OrientedOrd.eq_swap (a := s) (b := t)
    case monomial.monomial p q => exact OrientedOrd.eq_swap (a := p) (b := q)
    case unexpanded.unexpanded u v => exact OrientedOrd.eq_swap (a := u) (b := v)
    all_goals rfl
  isLE_trans {a b c} hab hbc := by
    cases a <;> cases b <;> cases c
    case symbol.symbol.symbol s t u =>
      exact TransOrd.isLE_trans (a := s) (b := t) (c := u) hab hbc
    case monomial.monomial.monomial p q r =>
      exact TransOrd.isLE_trans (a := p) (b := q) (c := r) hab hbc
    case unexpanded.unexpanded.unexpanded u v w =>
      exact TransOrd.isLE_trans (a := u) (b := v) (c := w) hab hbc
    -- keys of different kinds: the conclusion holds, or a hypothesis has them the wrong way round
    all_goals first | rfl | (cases hab; done) | cases hbc

instance : LawfulEqOrd TermKey where
  compare_self {a} := by
    cases a
    case one => rfl
    case symbol s => exact ReflOrd.compare_self (a := s)
    case monomial p => exact ReflOrd.compare_self (a := p)
    case unexpanded u => exact ReflOrd.compare_self (a := u)
  eq_of_compare {a b} h := by
    cases a <;> cases b
    case one.one => rfl
    case symbol.symbol s t => exact congrArg _ (LawfulEqOrd.eq_of_compare (a := s) (b := t) h)
    case monomial.monomial p q => exact congrArg _ (LawfulEqOrd.eq_of_compare (a := p) (b := q) h)
    case unexpanded.unexpanded u v =>
      exact congrArg _ (LawfulEqOrd.eq_of_compare (a := u) (b := v) h)
    all_goals cases h

end Semidefinite
