import Mathlib
import Semidefinite.Scalar

/-!
# Texts of numbers

The text of a natural number consists of digits, and that of an integer may start with a
minus sign. So the slash in the text of a fraction stands between the numerator and the
denominator, and different numbers have different texts (`ratText_injective`). The lemmas
on reading numerals back that this rests on come with no import but the whole library.
-/

namespace Semidefinite

variable {c : Char}

theorem not_mem_natRepr (hc : c.isDigit = false) (n : Nat) : c ∉ (Nat.repr n).toList := by
  intro hmem
  rw [Nat.toList_repr] at hmem
  rw [Nat.isDigit_of_mem_toDigits (by omega) (by omega) hmem] at hc
  cases hc

theorem not_mem_intRepr (hc : c.isDigit = false) (hminus : c ≠ '-') (z : Int) :
    c ∉ (Int.repr z).toList := by
  rw [Int.repr_eq_if]
  split
  · exact not_mem_natRepr hc _
  · rw [String.toList_append, List.mem_append]
    rintro (h | h)
    · exact hminus (by simpa using h)
    · exact not_mem_natRepr hc _ h

theorem toList_ratText (q : ℚ) :
    (ratText q).toList =
      if q.den = 1 then (Int.repr q.num).toList
      else (Int.repr q.num).toList ++ '/' :: (Nat.repr q.den).toList := by
  unfold ratText
  split <;> simp

theorem ratText_injective : Function.Injective ratText := by
  intro q r h
  have hlist : (ratText q).toList = (ratText r).toList := by rw [h]
  rw [toList_ratText, toList_ratText] at hlist
  have hslash : ∀ z : Int, '/' ∉ (Int.repr z).toList := not_mem_intRepr rfl (by decide)
  have hnum := hslash q.num
  have hnum' := hslash r.num
  split at hlist
  · rename_i hq
    split at hlist
    · rename_i hr
      exact Rat.ext (Int.repr_injective (String.toList_inj.1 hlist)) (hq.trans hr.symm)
    · rw [hlist] at hnum
      simp at hnum
  · split at hlist
    · rw [← hlist] at hnum'
      simp at hnum'
    · obtain ⟨hnums, -, hdens⟩ :=
        (List.append_cons_inj_of_notMem hnum (not_mem_natRepr rfl _)).1 hlist
      exact Rat.ext (Int.repr_injective (String.toList_inj.1 hnums))
        (Nat.repr_injective (String.toList_inj.1 hdens))

end Semidefinite
