import I386Kernel.Memory.Bitmap
import Mathlib.Data.Set.Insert
import Mathlib.Order.Interval.Set.Defs

/-!
# A bitmap is a set of indices

Every sequence of updates, with whatever arguments, does to the bits below `bit_count` what the same sequence does to a set of indices, and to no other bit anything.
-/

namespace I386Kernel

/-- The updates of a bitmap. -/
inductive BitmapOp where
  | configAll (val : Bool)
  | configBit (idx : Word) (val : Bool)
  | setBit (idx : Word)
  | resetBit (idx : Word)
  | setMultiBits (idxStart bitCount : Word)
  | resetMultiBits (idxStart bitCount : Word)

namespace BitmapOp

def run (bm : Word) (m : Mem) : BitmapOp → Mem
  | configAll val => bitmapConfigAll m bm val
  | configBit idx val => bitmapConfigBit m bm idx val
  | setBit idx => bitmapSetBit m bm idx
  | resetBit idx => bitmapResetBit m bm idx
  | setMultiBits idxStart bitCount => bitmapSetMultiBits m bm idxStart bitCount
  | resetMultiBits idxStart bitCount => bitmapResetMultiBits m bm idxStart bitCount

/-- What an update does to a set of indices below `bound`. -/
def onSet (bound : Nat) (S : Set Nat) : BitmapOp → Set Nat
  | configAll val => if val then Set.Iio bound else ∅
  | configBit idx val =>
      if idx.toNat < bound then (if val then insert idx.toNat S else S \ {idx.toNat}) else S
  | setBit idx => if idx.toNat < bound then insert idx.toNat S else S
  | resetBit idx => if idx.toNat < bound then S \ {idx.toNat} else S
  | setMultiBits start n =>
      if start.toNat + n.toNat ≤ bound then S ∪ Set.Ico start.toNat (start.toNat + n.toNat) else S
  | resetMultiBits start n =>
      if start.toNat + n.toNat ≤ bound then S \ Set.Ico start.toNat (start.toNat + n.toNat) else S

end BitmapOp

/-- The bits below `bit_count` that are set are those of `S`. -/
def BitsAre (m : Mem) (bm : Word) (S : Set Nat) : Prop := ∀ i, i < (m bm).toNat → (bit m bm i = true ↔ i ∈ S)

/-- From `m` to `m'` the bits below `bit_count` come to be those of `S`, and nothing else changes. -/
structure SetTo (m m' : Mem) (bm : Word) (S : Set Nat) : Prop where
  header : m' bm = m bm
  members : BitsAre m' bm S
  beyond : ∀ j, (m bm).toNat ≤ j → j < 2 ^ 32 → bit m' bm j = bit m bm j
  frame : ∀ a, (∀ i, i < (m bm).toNat → a ≠ bitWord bm i) → m' a = m a

variable {m m' m'' : Mem} {bm : Word} {S S' : Set Nat}

theorem SetTo.refl (h : BitsAre m bm S) : SetTo m m bm S :=
  ⟨rfl, h, fun _ _ _ => rfl, fun _ _ => rfl⟩

theorem SetTo.trans (h : SetTo m m' bm S) (h' : SetTo m' m'' bm S') : SetTo m m'' bm S' where
  header := h'.header.trans h.header
  members := h'.members
  beyond := fun j hj hlt => (h'.beyond j (h.header ▸ hj) hlt).trans (h.beyond j hj hlt)
  frame := fun a ha => (h'.frame a (h.header ▸ ha)).trans (h.frame a ha)

theorem BitsTo.setTo {f : Nat → Bool} (h : BitsTo m m' bm f) (hmem : ∀ i, i < (m bm).toNat → (f i = true ↔ i ∈ S))
    (hbeyond : ∀ j, (m bm).toNat ≤ j → f j = bit m bm j) : SetTo m m' bm S where
  header := h.header
  members := fun i hi => by
    rw [h.header] at hi
    have hcount := (m bm).isLt
    rw [h.bits i (by omega)]
    exact hmem i hi
  beyond := fun j hj hlt => (h.bits j hlt).trans (hbeyond j hj)
  frame := h.frame

theorem setTo_configBit (h : BitsAre m bm S) (idx : Word) (val : Bool) : SetTo m (bitmapConfigBit m bm idx val) bm
    (if idx.toNat < (m bm).toNat then (if val then insert idx.toNat S else S \ {idx.toNat}) else S) := by
  by_cases hidx : idx.toNat < (m bm).toNat
  · rw [if_pos hidx]
    apply (bitsTo_bitmapConfigBit val (BitVec.lt_def.mpr hidx)).setTo
    · intro i hi
      have hbit := h i hi
      cases val
      · by_cases heq : i = idx.toNat <;> simp [heq, hbit]
      · by_cases heq : i = idx.toNat <;> simp [heq, hbit]
    · intro j hj
      exact Function.update_of_ne (by omega) _ _
  · have hle : m bm ≤ idx := BitVec.le_def.mpr (Nat.le_of_not_lt hidx)
    simp only [if_neg hidx, bitmapConfigBit, if_pos hle]
    exact SetTo.refl h

theorem setTo_configMultiBits (h : BitsAre m bm S) (start n : Word) (val : Bool) :
    SetTo m (bitmapConfigMultiBits m bm start n val) bm
      (if start.toNat + n.toNat ≤ (m bm).toNat then
        (if val then S ∪ Set.Ico start.toNat (start.toNat + n.toNat)
        else S \ Set.Ico start.toNat (start.toNat + n.toNat)) else S) := by
  by_cases hfits : start.toNat + n.toNat ≤ (m bm).toNat
  · rw [if_pos hfits]
    apply (bitsTo_bitmapConfigMultiBits m bm start n val hfits).setTo
    · intro i hi
      have hbit := h i hi
      cases val
      · by_cases hin : start.toNat ≤ i ∧ i < start.toNat + n.toNat <;> simp [hin, hbit]
      · by_cases hin : start.toNat ≤ i ∧ i < start.toNat + n.toNat <;> simp [hin, hbit]
    · intro j hj
      exact if_neg (by omega)
  · rw [if_neg hfits, bitmapConfigMultiBits_of_lt val (Nat.lt_of_not_le hfits)]
    exact SetTo.refl h

/-- One update does to the bits what it does to the set. -/
theorem BitmapOp.setTo (h : BitsAre m bm S) (op : BitmapOp) : SetTo m (op.run bm m) bm (op.onSet (m bm).toNat S) := by
  cases op with
  | configAll val =>
      apply (bitsTo_bitmapConfigAll m bm val).setTo
      · intro i hi
        cases val <;> simp [onSet, hi]
      · intro j hj
        exact if_neg (by omega)
  | configBit idx val => exact setTo_configBit h idx val
  | setBit idx => exact setTo_configBit h idx true
  | resetBit idx => exact setTo_configBit h idx false
  | setMultiBits start n => exact setTo_configMultiBits h start n true
  | resetMultiBits start n => exact setTo_configMultiBits h start n false

theorem setTo_foldl (h : BitsAre m bm S) (ops : List BitmapOp) :
    SetTo m (ops.foldl (BitmapOp.run bm) m) bm (ops.foldl (BitmapOp.onSet (m bm).toNat) S) := by
  induction ops generalizing m S with
  | nil => exact SetTo.refl h
  | cons op ops ih =>
      have hop := op.setTo h
      have hrest := ih hop.members
      rw [hop.header] at hrest
      exact hop.trans hrest

/-- After every sequence of updates `bitmap_test_bit` answers from the set of indices that the same sequence makes. -/
theorem bitmap_refines_set (m : Mem) (bm : Word) (ops : List BitmapOp) :
    let m' := ops.foldl (BitmapOp.run bm) m
    let S' := ops.foldl (BitmapOp.onSet (m bm).toNat) {i | bit m bm i = true}
    m' bm = m bm ∧
      (∀ idx val, idx < m bm → (bitmapTestBit m' bm idx val = true ↔ (idx.toNat ∈ S' ↔ val = true))) ∧
      (∀ j, (m bm).toNat ≤ j → j < 2 ^ 32 → bit m' bm j = bit m bm j) ∧
      ∀ a, (∀ i, i < (m bm).toNat → a ≠ bitWord bm i) → m' a = m a := by
  intro m' S'
  have h : SetTo m m' bm S' := setTo_foldl (fun _ _ => Iff.rfl) ops
  refine ⟨h.header, fun idx val hidx => ?_, h.beyond, h.frame⟩
  have hmem := h.members idx.toNat (h.header ▸ BitVec.lt_def.mp hidx)
  rw [bitmapTestBit_eq, ← hmem, beq_iff_eq, Bool.eq_iff_iff]

end I386Kernel
