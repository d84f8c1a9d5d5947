import Mathlib.Logic.Function.Basic
import Mathlib.Data.Set.Function
import Mathlib.Order.Interval.Set.Defs

/-!
# Copying in increasing order

Cell `s 0` is copied to cell `d 0`, then `s 1` to `d 1`, and so on. A source cell that has not been written to when its turn comes is copied as it was at the start; one that has been written to hands on what was written there.
-/

variable {A V : Type*} [DecidableEq A]

/-- The memory after the first `n` cells have been copied. -/
def copyUp (m : A → V) (d s : Nat → A) : Nat → A → V
  | 0 => m
  | n + 1 => Function.update (copyUp m d s n) (d n) (copyUp m d s n (s n))

namespace copyUp

variable {m : A → V} {d s : Nat → A} {i j n : Nat}

/-- The first cell first. -/
theorem first (m : A → V) (d s : Nat → A) (n : Nat) : copyUp m d s (n + 1) =
    copyUp (Function.update m (d 0) (m (s 0))) (fun i => d (i + 1)) (fun i => s (i + 1)) n := by
  induction n with
  | zero => rfl
  | succ n ih =>
      rw [copyUp, ih]
      rfl

theorem frame {a : A} (ha : ∀ i < n, a ≠ d i) : copyUp m d s n a = m a := by
  induction n with
  | zero => rfl
  | succ n ih =>
      rw [copyUp, Function.update_of_ne (ha n (Nat.lt_succ_self n))]
      exact ih fun i hi => ha i (Nat.lt_succ_of_lt hi)

/-- A cell keeps what it got. -/
theorem dest (hd : Set.InjOn d (Set.Iio n)) (hi : i < n) : copyUp m d s n (d i) = copyUp m d s i (s i) := by
  induction n with
  | zero => exact absurd hi (Nat.not_lt_zero i)
  | succ n ih =>
      by_cases hin : i = n
      · subst hin
        exact Function.update_self ..
      · have hlt : i < n := Nat.lt_of_le_of_ne (Nat.le_of_lt_succ hi) hin
        have hne : d i ≠ d n := fun heq => hin (hd hi (Nat.lt_succ_self n) heq)
        rw [copyUp, Function.update_of_ne hne]
        exact ih (hd.mono fun j hj => Nat.lt_succ_of_lt hj) hlt

theorem intact (hd : Set.InjOn d (Set.Iio n)) (hi : i < n) (hs : ∀ j < i, s i ≠ d j) :
    copyUp m d s n (d i) = m (s i) := by
  rw [dest hd hi, frame hs]

theorem overwritten (hd : Set.InjOn d (Set.Iio n)) (hi : i < n) (hj : j < i) (hs : s i = d j) :
    copyUp m d s n (d i) = copyUp m d s n (d j) := by
  have hjn : j < n := Nat.lt_trans hj hi
  rw [dest hd hi, hs, dest hd hjn, dest (hd.mono fun k hk => Nat.lt_trans hk hi) hj]

end copyUp
