import Mathlib.Data.BitVec
import Mathlib.Tactic.Common

/-!
# Loops that count down

The `loop` instruction at the end of a body: it decrements a counter of `w` bits and goes back unless the counter is zero. The body comes first and the decrement wraps, so a counter that starts at zero makes the body run `2 ^ w` times. The body may fail, which leaves the loop at once. `loop_ends` is the rule for such a loop: an invariant indexed by the passes made so far, and what holds where a pass fails.
-/

namespace CountedLoop

universe u v

variable {S : Type u} {E : Type v} {w : Nat}

private theorem width_pos {c : BitVec w} (h : c ≠ 0) : 0 < w := by
  apply Nat.pos_of_ne_zero
  rintro rfl
  exact h (Subsingleton.elim _ _)

private theorem toNat_one (hw : 0 < w) : (1 : BitVec w).toNat = 1 := by
  have hpow : 1 < 2 ^ w := Nat.one_lt_two_pow (Nat.ne_of_gt hw)
  exact Nat.mod_eq_of_lt hpow

/-- The decrement of a counter that is not zero. -/
theorem toNat_pred {c : BitVec w} (h : c ≠ 0) : (c - 1).toNat + 1 = c.toNat := by
  have hc : c.toNat ≠ 0 := fun h0 => h (BitVec.eq_of_toNat_eq h0)
  have hlt := c.isLt
  have hwrap : 2 ^ w - 1 + c.toNat = c.toNat - 1 + 2 ^ w := by omega
  rw [BitVec.toNat_sub, toNat_one (width_pos h), hwrap, Nat.add_mod_right, Nat.mod_eq_of_lt (by omega)]
  omega

/-- The body, the decrement and the jump back. -/
def loop (body : S → Except E S) (c : BitVec w) (s : S) : Except E S :=
  match body s with
  | .error e => .error e
  | .ok s => if c - 1 = 0 then .ok s else loop body (c - 1) s
termination_by (c - 1).toNat
decreasing_by
  rename_i hne
  have := toNat_pred hne
  omega

/-- How often the body of the loop runs. -/
def count (c : BitVec w) : Nat := if c = 0 then 2 ^ w else c.toNat

/-- So many passes, to the first that fails. -/
def passes (body : S → Except E S) : Nat → S → Except E S
  | 0, s => .ok s
  | n + 1, s =>
      match body s with
      | .error e => .error e
      | .ok s => passes body n s

/-- The state satisfies `post`, or the failure satisfies `err`. -/
def Ends (post : S → Prop) (err : E → Prop) : Except E S → Prop
  | .ok s => post s
  | .error e => err e

/-- What the first of two steps establishes, the second starts from; either may fail. -/
theorem Ends.bind {T : Type u} {post : S → Prop} {post' : T → Prop} {err err' : E → Prop} {x : Except E S} {f : S → Except E T}
    (h : Ends post err x) (herr : ∀ e, err e → err' e) (hf : ∀ s, post s → Ends post' err' (f s)) :
    Ends post' err' (x >>= f) := by
  cases x with
  | error e => exact herr e h
  | ok s => exact hf s h

/-! ## The count -/

theorem count_of_ne {c : BitVec w} (h : c ≠ 0) : count c = c.toNat := if_neg h

theorem count_zero : count (0 : BitVec w) = 2 ^ w := if_pos rfl

theorem count_last {c : BitVec w} (h : c - 1 = 0) : count c = 1 := by
  by_cases h0 : c = 0
  · have hw : w = 0 := by
      by_contra hw
      have hone := congrArg BitVec.toNat (eq_of_sub_eq_zero h)
      rw [h0, toNat_one (Nat.pos_of_ne_zero hw)] at hone
      exact absurd hone Nat.zero_ne_one
    subst hw
    rw [h0, count_zero, Nat.pow_zero]
  · have hpred := toNat_pred h0
    rw [h] at hpred
    rw [count_of_ne h0]
    exact hpred.symm

theorem count_back {c : BitVec w} (h : c - 1 ≠ 0) : count c = count (c - 1) + 1 := by
  rw [count_of_ne h]
  by_cases h0 : c = 0
  · have hpow : 0 < 2 ^ w := Nat.two_pow_pos w
    have hnat : (c - 1).toNat = 2 ^ w - 1 := by
      rw [h0, BitVec.toNat_sub, toNat_one (width_pos h)]
      exact Nat.mod_eq_of_lt (by change 2 ^ w - 1 + 0 < _; omega)
    rw [hnat, h0, count_zero]
    omega
  · rw [count_of_ne h0, toNat_pred h0]

theorem count_pos (c : BitVec w) : 0 < count c := by
  by_cases h : c - 1 = 0
  · rw [count_last h]
    exact Nat.one_pos
  · rw [count_back h]
    exact Nat.succ_pos _

/-! ## The rule -/

theorem loop_eq_passes (body : S → Except E S) (c : BitVec w) (s : S) : loop body c s = passes body (count c) s := by
  fun_induction loop body c s with
  | case1 c s e hbody =>
      obtain ⟨n, hn⟩ := Nat.exists_eq_succ_of_ne_zero (Nat.ne_of_gt (count_pos c))
      rw [hn, passes, hbody]
  | case2 c s s' hbody hlast => simp only [count_last hlast, passes, hbody]
  | case3 c s s' hbody hback ih => rw [count_back hback, passes, hbody, ih]

theorem passes_ends {body : S → Except E S} {P : Nat → S → Prop} {Q : Nat → E → Prop} {n : Nat} {s : S} (h : P 0 s)
    (hstep : ∀ i s, i < n → P i s → Ends (P (i + 1)) (Q i) (body s)) :
    Ends (P n) (fun e => ∃ i, i < n ∧ Q i e) (passes body n s) := by
  induction n generalizing s P Q with
  | zero => exact h
  | succ n ih =>
      have hfirst := hstep 0 s (Nat.succ_pos n) h
      rw [passes]
      cases hbody : body s with
      | error e =>
          rw [hbody] at hfirst
          exact ⟨0, Nat.succ_pos n, hfirst⟩
      | ok s' =>
          rw [hbody] at hfirst
          have hrest := ih (P := fun i => P (i + 1)) (Q := fun i => Q (i + 1)) hfirst
            fun i s hi hP => hstep (i + 1) s (Nat.succ_lt_succ hi) hP
          simp only
          cases hpasses : passes body n s' with
          | error e =>
              rw [hpasses] at hrest
              obtain ⟨i, hi, hQ⟩ := hrest
              exact ⟨i + 1, Nat.succ_lt_succ hi, hQ⟩
          | ok s'' =>
              rw [hpasses] at hrest
              exact hrest

/-- An invariant that each pass moves on by one, and what holds where a pass fails. -/
theorem loop_ends {body : S → Except E S} {c : BitVec w} {P : Nat → S → Prop} {Q : Nat → E → Prop} {s : S} (h : P 0 s)
    (hstep : ∀ i s, i < count c → P i s → Ends (P (i + 1)) (Q i) (body s)) :
    Ends (P (count c)) (fun e => ∃ i, i < count c ∧ Q i e) (loop body c s) := by
  rw [loop_eq_passes]
  exact passes_ends h hstep

end CountedLoop
