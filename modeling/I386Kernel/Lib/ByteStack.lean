import Mathlib.Algebra.Order.Ring.Int
import Mathlib.Data.List.Basic
import Mathlib.Logic.Function.Basic
import Mathlib.Tactic.Common

/-!
# Stacks of bytes

A byte-addressed memory with a stack that grows downwards, on which values of 16 and of 32 bits are pushed and popped in any mixture. `Holds` says which bytes lie from an address on; what is pushed comes in front of them, and what is popped is taken from their front.
-/

namespace ByteStack

abbrev Word := BitVec 32

abbrev Byte := BitVec 8

abbrev Memory := Word → Byte

/-- The bytes of a value, the least significant first. -/
def bytes16 (w : BitVec 16) : List Byte := [w.extractLsb' 0 8, w.extractLsb' 8 8]

def bytes32 (w : Word) : List Byte := [w.extractLsb' 0 8, w.extractLsb' 8 8, w.extractLsb' 16 8, w.extractLsb' 24 8]

def load16 (m : Memory) (a : Word) : BitVec 16 := m (a + 1) ++ m a

def load32 (m : Memory) (a : Word) : Word := m (a + 3) ++ m (a + 2) ++ m (a + 1) ++ m a

/-- Memory with `bs` from `a` on. -/
def store (m : Memory) (a : Word) (bs : List Byte) : Memory := fun x => (bs[(x - a).toNat]?).getD (m x)

/-- The bytes from `a` on are `bs`. -/
def Holds (m : Memory) (a : Word) : List Byte → Prop
  | [] => True
  | b :: bs => m a = b ∧ Holds m (a + 1) bs

variable {m m' : Memory} {a : Word} {bs bs' : List Byte}

theorem add_ofNat_succ (a : Word) (n : Nat) : a + BitVec.ofNat 32 (n + 1) = a + 1 + BitVec.ofNat 32 n := by
  rw [Nat.add_comm, BitVec.ofNat_add, BitVec.add_assoc]
  rfl

theorem holds_append : Holds m a (bs ++ bs') ↔ Holds m a bs ∧ Holds m (a + BitVec.ofNat 32 bs.length) bs' := by
  induction bs generalizing a with
  | nil =>
      have hzero : a + BitVec.ofNat 32 0 = a := BitVec.add_zero a
      rw [List.nil_append, List.length_nil, hzero]
      exact ⟨fun h => ⟨trivial, h⟩, fun h => h.2⟩
  | cons b bs ih =>
      rw [List.cons_append, List.length_cons, add_ofNat_succ, Holds, Holds, ih, and_assoc]

theorem holds_iff_getElem : Holds m a bs ↔ ∀ i (h : i < bs.length), m (a + BitVec.ofNat 32 i) = bs[i] := by
  induction bs generalizing a with
  | nil => exact ⟨fun _ i h => absurd h (Nat.not_lt_zero i), fun _ => trivial⟩
  | cons b bs ih =>
      rw [Holds, ih]
      constructor
      · intro ⟨hfirst, hrest⟩ i hi
        cases i with
        | zero =>
            have hzero : a + BitVec.ofNat 32 0 = a := BitVec.add_zero a
            rw [hzero]
            exact hfirst
        | succ i =>
            rw [add_ofNat_succ]
            exact hrest i (Nat.lt_of_succ_lt_succ hi)
      · intro h
        refine ⟨?_, fun i hi => ?_⟩
        · have hfirst := h 0 (Nat.succ_pos _)
          have hzero : a + BitVec.ofNat 32 0 = a := BitVec.add_zero a
          rw [hzero] at hfirst
          exact hfirst
        · have hrest := h (i + 1) (Nat.succ_lt_succ hi)
          rw [add_ofNat_succ] at hrest
          exact hrest

/-- Bytes that are the same in another memory. -/
theorem Holds.congr (h : Holds m a bs) (hsame : ∀ x, (x - a).toNat < bs.length → m' x = m x) (hlen : bs.length ≤ 2 ^ 32) :
    Holds m' a bs := by
  rw [holds_iff_getElem] at h ⊢
  intro i hi
  rw [hsame, h i hi]
  have hoff : a + BitVec.ofNat 32 i - a = BitVec.ofNat 32 i := by
    rw [BitVec.add_comm, BitVec.add_sub_cancel]
  rw [hoff, BitVec.toNat_ofNat, Nat.mod_eq_of_lt (by omega)]
  exact hi

/-- What is pushed comes in front, as long as the stack does not meet its own end. -/
theorem Holds.push (h : Holds m a bs) (bs' : List Byte) (hlen : bs'.length + bs.length ≤ 2 ^ 32) :
    Holds (store m (a - BitVec.ofNat 32 bs'.length) bs') (a - BitVec.ofNat 32 bs'.length) (bs' ++ bs) := by
  have hback : a - BitVec.ofNat 32 bs'.length + BitVec.ofNat 32 bs'.length = a := BitVec.sub_add_cancel a _
  have hoff : ∀ i, i < 2 ^ 32 →
      (a - BitVec.ofNat 32 bs'.length + BitVec.ofNat 32 i - (a - BitVec.ofNat 32 bs'.length)).toNat = i := by
    intro i hi
    rw [BitVec.add_comm, BitVec.add_sub_cancel, BitVec.toNat_ofNat, Nat.mod_eq_of_lt hi]
  rw [holds_append, hback]
  refine ⟨holds_iff_getElem.mpr fun i hi => ?_, holds_iff_getElem.mpr fun i hi => ?_⟩
  · rw [store, hoff i (by omega), List.getElem?_eq_getElem hi, Option.getD_some]
  · have hpast : a + BitVec.ofNat 32 i =
        a - BitVec.ofNat 32 bs'.length + BitVec.ofNat 32 (bs'.length + i) := by
      rw [BitVec.ofNat_add, ← BitVec.add_assoc, hback]
    rw [store, hpast, hoff _ (by omega), List.getElem?_eq_none (by omega), Option.getD_none, ← hpast]
    exact holds_iff_getElem.mp h i hi

@[simp] theorem length_bytes16 (w : BitVec 16) : (bytes16 w).length = 2 := rfl

@[simp] theorem length_bytes32 (w : Word) : (bytes32 w).length = 4 := rfl

/-- Two halves of 32 bits, one after the other. -/
theorem bytes32_append (hi lo : BitVec 16) : bytes32 (hi ++ lo) = bytes16 lo ++ bytes16 hi := by
  have hlow : ∀ i, i + 8 ≤ 16 → (hi ++ lo).extractLsb' i 8 = lo.extractLsb' i 8 := fun i h =>
    BitVec.extractLsb'_append_eq_of_add_le h
  have hhigh : ∀ i, (hi ++ lo).extractLsb' (16 + i) 8 = hi.extractLsb' i 8 := by
    intro i
    apply BitVec.eq_of_getLsbD_eq
    intro j hj
    rw [BitVec.getLsbD_extractLsb', BitVec.getLsbD_extractLsb', BitVec.getLsbD_append, if_neg (by omega)]
    congr 2
    omega
  rw [bytes32, hlow 0 (by decide), hlow 8 (by decide), hhigh 0, hhigh 8]
  rfl

theorem extractLsb'_append_low (hi lo : BitVec 16) : (hi ++ lo).extractLsb' 0 16 = lo := by
  rw [BitVec.extractLsb'_append_eq_of_add_le (Nat.le_refl _), BitVec.extractLsb'_eq_self]

theorem extractLsb'_append_high (hi lo : BitVec 16) : (hi ++ lo).extractLsb' 16 16 = hi := by
  apply BitVec.eq_of_getLsbD_eq
  intro j hj
  rw [BitVec.getLsbD_extractLsb', BitVec.getLsbD_append, if_neg (by omega), Nat.add_sub_cancel_left, decide_eq_true hj]
  rfl

theorem append_inj {hi lo hi' lo' : BitVec 16} : hi ++ lo = hi' ++ lo' ↔ hi = hi' ∧ lo = lo' := by
  refine ⟨fun h => ⟨?_, ?_⟩, fun ⟨h, h'⟩ => by rw [h, h']⟩
  · rw [← extractLsb'_append_high hi lo, h, extractLsb'_append_high]
  · rw [← extractLsb'_append_low hi lo, h, extractLsb'_append_low]

theorem holds_add_zero : Holds m (a + 0) bs ↔ Holds m a bs := by
  have hzero : a + 0 = a := BitVec.add_zero a
  rw [hzero]

/-- The value at an offset, and what comes after it. -/
theorem Holds.load16 {off : Word} {w : BitVec 16} (h : Holds m (a + off) (bytes16 w ++ bs)) :
    load16 m (a + off) = w ∧ Holds m (a + (off + 2)) bs := by
  obtain ⟨h₀, h₁, hrest⟩ := h
  have hadd : a + off + 1 + 1 = a + (off + 2) := by bv_omega
  refine ⟨?_, hadd ▸ hrest⟩
  rw [ByteStack.load16, h₀, h₁, BitVec.extractLsb'_append_extractLsb'_eq_extractLsb' (show 8 = 0 + 8 from rfl)]
  exact BitVec.extractLsb'_eq_self

theorem Holds.load32 {off w : Word} (h : Holds m (a + off) (bytes32 w ++ bs)) :
    load32 m (a + off) = w ∧ Holds m (a + (off + 4)) bs := by
  obtain ⟨h₀, h₁, h₂, h₃, hrest⟩ := h
  have hadd₂ : a + off + 1 + 1 = a + off + 2 := by bv_omega
  have hadd₃ : a + off + 2 + 1 = a + off + 3 := by bv_omega
  have hadd₄ : a + off + 3 + 1 = a + (off + 4) := by bv_omega
  rw [hadd₂] at h₂ h₃ hrest
  rw [hadd₃] at h₃ hrest
  rw [hadd₄] at hrest
  refine ⟨?_, hrest⟩
  rw [ByteStack.load32, h₀, h₁, h₂, h₃, BitVec.extractLsb'_append_extractLsb'_eq_extractLsb' (show 24 = 16 + 8 from rfl),
    BitVec.extractLsb'_append_extractLsb'_eq_extractLsb' (show 16 = 8 + 8 from rfl),
    BitVec.extractLsb'_append_extractLsb'_eq_extractLsb' (show 8 = 0 + 8 from rfl)]
  exact BitVec.extractLsb'_eq_self

end ByteStack
