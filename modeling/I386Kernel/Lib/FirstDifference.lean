import Mathlib.Order.Basic
import Mathlib.Data.Nat.Find

/-!
# The first difference of two sequences

The position at which two sequences differ for the first time. There is at most one, and there is one below every position at which they differ.
-/

variable {α : Type*}

structure FirstDifference (f g : Nat → α) (i : Nat) : Prop where
  agree : ∀ j < i, f j = g j
  differ : f i ≠ g i

namespace FirstDifference

variable {f g : Nat → α} {i j n : Nat}

theorem symm (h : FirstDifference f g i) : FirstDifference g f i where
  agree := fun j hj => (h.agree j hj).symm
  differ := h.differ.symm

/-- The sequences differ nowhere before it. -/
theorem le_of_ne (h : FirstDifference f g i) (hj : f j ≠ g j) : i ≤ j :=
  Nat.le_of_not_lt fun hlt => hj (h.agree j hlt)

theorem unique (h : FirstDifference f g i) (h' : FirstDifference f g j) : i = j :=
  Nat.le_antisymm (h.le_of_ne h'.differ) (h'.le_of_ne h.differ)

theorem exists_of_ne (hn : f n ≠ g n) : ∃ i ≤ n, FirstDifference f g i := by
  classical
  have hex : ∃ i, f i ≠ g i := ⟨n, hn⟩
  refine ⟨Nat.find hex, Nat.find_min' hex hn, fun j hj => ?_, Nat.find_spec hex⟩
  exact not_not.mp (Nat.find_min hex hj)

/-- Below a bound two sequences agree, or they have a first difference there. -/
theorem agree_or_exists (f g : Nat → α) (n : Nat) :
    (∀ i < n, f i = g i) ∨ ∃ i < n, FirstDifference f g i := by
  by_cases hall : ∀ i < n, f i = g i
  · exact Or.inl hall
  · push Not at hall
    obtain ⟨j, hj, hne⟩ := hall
    obtain ⟨i, hi, hfirst⟩ := exists_of_ne hne
    exact Or.inr ⟨i, Nat.lt_of_le_of_lt hi hj, hfirst⟩

end FirstDifference
