import Semidefinite.Proofs.Pencil

/-!
# Matrices kept in two storages

Two matrices agree if they have one shape and list the same values. Matrices of two
faithful storages that hold the same writes agree (`Storage.Holds.agree`), so pencils
made of the same forms agree matrix by matrix (`Pencil.agree_of_ofForms`).
-/

namespace Semidefinite

open Storage

variable {K : Type} [Scalar K] {S T : Type → Type} [Storage S] [Storage T]

/-- The matrices have one shape and list the same values. -/
structure Storage.Agree (m : S K) (m' : T K) : Prop where
  shape : Storage.shape m = Storage.shape m'
  nonzeros : Storage.nonzeros m = Storage.nonzeros m'

variable [FaithfulStorage S K] [FaithfulStorage T K]

/-- What is kept is determined by the writes, and so is the order in which it is listed. -/
theorem Storage.Holds.agree {m : S K} {m' : T K} {rows cols : Nat} {writes : List (Write K)}
    (h : Holds m rows cols writes) (h' : Holds m' rows cols writes) : Agree m m' := by
  have hkept : Storage.kept m = Storage.kept m' :=
    (FaithfulStorage.ascending h.valid).ext (FaithfulStorage.ascending h'.valid)
      fun p => (h.kept p.1 p.2).trans (h'.kept p.1 p.2).symm
  exact ⟨h.shape.trans h'.shape.symm, congrArg Tally.entries hkept⟩

namespace Pencil

/-- The pencils agree matrix by matrix. -/
structure Agree (p : Pencil S K) (q : Pencil T K) : Prop where
  coefficients : List.Forall₂ Storage.Agree p.coefficients q.coefficients
  constant : Storage.Agree p.constant q.constant

theorem agree_of_ofForms {forms : List (Cell × LinearForm K)} {size : Nat × Nat} {n : Nat}
    (hnodup : (forms.map Prod.fst).Nodup)
    (hinside : ∀ q ∈ forms, q.1.row < size.1 ∧ q.1.col < size.2) {p : Pencil S K} {q : Pencil T K}
    (hp : ofForms size n forms = .ok p) (hq : ofForms size n forms = .ok q) : p.Agree q := by
  obtain ⟨hconstant, hcoefficients⟩ := holds_of_ofForms hnodup hinside hp
  obtain ⟨hconstant', hcoefficients'⟩ := holds_of_ofForms hnodup hinside hq
  exact ⟨forall₂_of_common hcoefficients hcoefficients' fun _ _ _ h h' => h.agree h',
    hconstant.agree hconstant'⟩

end Pencil

end Semidefinite
