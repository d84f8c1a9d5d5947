import I386Kernel.Lib.FirstDifference
import I386Kernel.Lib.ForwardCopy
import I386Kernel.Block.Registry

/-!
# Ranges of bytes

`memcpy`, `memmove` and `memcmp` of `lib/string.c` on the bytes of memory. `memmove` is `memcpy`, which copies in increasing order whatever the position of the two ranges. The loop of `memcmp` counts `size` down and never advances its pointers.
-/

namespace I386Kernel

abbrev Bytes := Word → UInt8

/-- The bytes from an address on. -/
def Bytes.byte (m : Bytes) (p : Word) (i : Nat) : UInt8 := m (p + BitVec.ofNat 32 i)

/-! ## `lib/string.c` -/

def copyLoop (m : Bytes) (dest src : Word) : Nat → Bytes
  | 0 => m
  | size + 1 => copyLoop (Function.update m dest (m src)) (dest + 1) (src + 1) size

/-- The result of `memcpy`, and the memory after it. -/
def memcpy (m : Bytes) (dest src size : Word) : Word × Bytes :=
  if dest = 0 ∨ src = 0 ∨ size = 0 then (0, m) else (dest, copyLoop m dest src size.toNat)

def memmove (m : Bytes) (dest src size : Word) : Word × Bytes := memcpy m dest src size

def memcmpLoop (m : Bytes) (dest src : Word) : Nat → Int
  | 0 => 0
  | size + 1 =>
      if m dest ≠ m src then if charVal (m dest) > charVal (m src) then 1 else -1
      else memcmpLoop m dest src size

def memcmp (m : Bytes) (dest src size : Word) : Int :=
  if dest = 0 ∨ src = 0 ∨ size = 0 then -2 else memcmpLoop m dest src size.toNat

/-- How two values of type `char` compare. -/
def charOrder (c d : UInt8) : Int := if charVal c < charVal d then -1 else if charVal c > charVal d then 1 else 0

theorem charOrder_eq_zero {c d : UInt8} : charOrder c d = 0 ↔ c = d := by
  rw [charOrder]
  constructor
  · intro h
    apply charVal_inj
    split_ifs at h <;> omega
  · intro h
    rw [h, if_neg (Int.lt_irrefl _), if_neg (Int.lt_irrefl _)]

theorem charOrder_swap (c d : UInt8) : charOrder d c = -charOrder c d := by
  simp only [charOrder]
  split_ifs <;> omega

/-! ## Addresses -/

theorem Bytes.byte_zero (m : Bytes) (p : Word) : m.byte p 0 = m p := by
  rw [Bytes.byte, BitVec.add_zero]

theorem succ_add_ofNat (p : Word) (n : Nat) : p + 1 + BitVec.ofNat 32 n = p + BitVec.ofNat 32 (n + 1) := by
  rw [BitVec.add_assoc, Nat.add_comm n 1, BitVec.ofNat_add]
  rfl

/-- The addresses of a range that does not wrap. -/
theorem injOn_add_ofNat {p : Word} {n : Nat} (hn : p.toNat + n ≤ 2 ^ 32) :
    Set.InjOn (fun i => p + BitVec.ofNat 32 i) (Set.Iio n) := by
  intro i hi j hj heq
  have hi : i < n := hi
  have hj : j < n := hj
  have heq : p + BitVec.ofNat 32 i = p + BitVec.ofNat 32 j := heq
  bv_omega

/-! ## `memmove` -/

/-- The loop takes the bytes in increasing order. -/
theorem copyLoop_eq (m : Bytes) (dest src : Word) (n : Nat) : copyLoop m dest src n =
    copyUp m (fun i => dest + BitVec.ofNat 32 i) (fun i => src + BitVec.ofNat 32 i) n := by
  induction n generalizing m dest src with
  | zero => rfl
  | succ n ih =>
      rw [copyUp.first, copyLoop, ih]
      simp only [succ_add_ofNat, BitVec.add_zero]

theorem memmove_eq (m : Bytes) {dest src size : Word} (hdest : dest ≠ 0) (hsrc : src ≠ 0) (hsize : size ≠ 0) :
    memmove m dest src size = (dest, copyLoop m dest src size.toNat) :=
  if_neg fun h => h.elim hdest fun h => h.elim hsrc hsize

section
variable (m : Bytes) {dest src : Word} {n i j : Nat}

/-- A byte the copy has not come to before it reads it. -/
theorem byte_copyLoop_intact (hdest : dest.toNat + n ≤ 2 ^ 32) (hsrc : src.toNat + n ≤ 2 ^ 32) (hi : i < n)
    (h : dest.toNat ≤ src.toNat ∨ src.toNat + i < dest.toNat) : Bytes.byte (copyLoop m dest src n) dest i = m.byte src i := by
  rw [copyLoop_eq]
  refine copyUp.intact (injOn_add_ofNat hdest) hi fun j hj => ?_
  intro heq
  have heq : src + BitVec.ofNat 32 i = dest + BitVec.ofNat 32 j := heq
  bv_omega

/-- A byte that is read after the copy has overwritten it. -/
theorem byte_copyLoop_overwritten (hdest : dest.toNat + n ≤ 2 ^ 32) (hlt : src.toNat < dest.toNat) (hi : j + (dest.toNat - src.toNat) < n) :
    Bytes.byte (copyLoop m dest src n) dest (j + (dest.toNat - src.toNat)) =
      Bytes.byte (copyLoop m dest src n) dest j := by
  rw [copyLoop_eq]
  refine copyUp.overwritten (injOn_add_ofNat hdest) hi (by omega) ?_
  show src + BitVec.ofNat 32 (j + (dest.toNat - src.toNat)) = dest + BitVec.ofNat 32 j
  bv_omega

end

/-- `m'` is `m` with the bytes from `src` moved to `dest`, whether or not the ranges overlap. -/
structure Moved (m m' : Bytes) (dest src size : Word) : Prop where
  range : ∀ i < size.toNat, m'.byte dest i = m.byte src i
  frame : ∀ a, (∀ i < size.toNat, a ≠ dest + BitVec.ofNat 32 i) → m' a = m a

/-- `memmove` moves a range exactly when the destination does not begin inside the source after its start, or the source repeats itself with the distance of the two. -/
theorem memmove_moved_iff (m : Bytes) {dest src size : Word} (hdest : dest ≠ 0) (hsrc : src ≠ 0) (hsize : 0 < size)
    (hdestEnd : dest.toNat + size.toNat ≤ 2 ^ 32) (hsrcEnd : src.toNat + size.toNat ≤ 2 ^ 32) :
    Moved m (memmove m dest src size).2 dest src size ↔
      dest.toNat ≤ src.toNat ∨ src.toNat + size.toNat ≤ dest.toNat ∨
        ∀ i, i + (dest.toNat - src.toNat) < size.toNat →
          m.byte src (i + (dest.toNat - src.toNat)) = m.byte src i := by
  rw [memmove_eq m hdest hsrc (by bv_omega)]
  constructor
  · intro h
    by_cases hle : dest.toNat ≤ src.toNat
    · exact Or.inl hle
    · refine Or.inr (Or.inr fun i hi => ?_)
      have hcopied := byte_copyLoop_overwritten m hdestEnd (Nat.lt_of_not_le hle) hi
      calc m.byte src (i + (dest.toNat - src.toNat))
          = Bytes.byte (copyLoop m dest src size.toNat) dest (i + (dest.toNat - src.toNat)) := (h.range _ hi).symm
        _ = Bytes.byte (copyLoop m dest src size.toNat) dest i := hcopied
        _ = m.byte src i := h.range i (by omega)
  · intro h
    constructor
    · intro i
      -- a byte the copy has overwritten is the one at the distance of the ranges before it
      induction i using Nat.strong_induction_on with
      | _ i ih =>
          intro hi
          by_cases hintact : dest.toNat ≤ src.toNat ∨ src.toNat + i < dest.toNat
          · exact byte_copyLoop_intact m hdestEnd hsrcEnd hi hintact
          · rw [not_or, Nat.not_le, Nat.not_lt] at hintact
            have hperiod := (h.resolve_left (by omega)).resolve_left (by omega)
            obtain ⟨j, rfl⟩ : ∃ j, i = j + (dest.toNat - src.toNat) := ⟨i - (dest.toNat - src.toNat), by omega⟩
            rw [byte_copyLoop_overwritten m hdestEnd hintact.1 hi, ih j (by omega) (by omega)]
            exact (hperiod j hi).symm
    · intro a ha
      show copyLoop m dest src size.toNat a = m a
      rw [copyLoop_eq]
      exact copyUp.frame ha

/-- The scroll of the console, whose destination lies below its source. -/
theorem memmove_moved_iff_scroll :
    Moved (fun a => UInt8.ofNat a.toNat) (memmove (fun a => UInt8.ofNat a.toNat) 0xc00b8000 0xc00b80a0 3840).2
      0xc00b8000 0xc00b80a0 3840 :=
  (memmove_moved_iff _ (by decide) (by decide) (by decide) (by decide) (by decide)).mpr (Or.inl (by decide))

/-- Two bytes moved up by one: the first is copied twice. -/
theorem not_memmove_moved : ¬ ∀ (m : Bytes) (dest src size : Word), dest ≠ 0 → src ≠ 0 → 0 < size →
    dest.toNat + size.toNat ≤ 2 ^ 32 → src.toNat + size.toNat ≤ 2 ^ 32 →
    Moved m (memmove m dest src size).2 dest src size := by
  intro h
  have hmoved := h (fun a => UInt8.ofNat a.toNat) 0x1001 0x1000 2 (by decide) (by decide) (by decide) (by decide) (by decide)
  exact absurd (hmoved.range 1 (by decide)) (by decide)

/-! ## `memcmp` -/

theorem memcmpLoop_eq_zero {m : Bytes} {dest src : Word} (h : m dest = m src) (n : Nat) :
    memcmpLoop m dest src n = 0 := by
  induction n with
  | zero => rfl
  | succ n ih =>
      rw [memcmpLoop, if_neg (not_not.mpr h)]
      exact ih

/-- `memcmp` compares the first bytes only. -/
theorem memcmp_eq (m : Bytes) {dest src size : Word} (hdest : dest ≠ 0) (hsrc : src ≠ 0) (hsize : 0 < size) :
    memcmp m dest src size = charOrder (m dest) (m src) := by
  have hne : size ≠ 0 := by bv_omega
  rw [memcmp, if_neg fun h => h.elim hdest fun h => h.elim hsrc hne]
  by_cases heq : m dest = m src
  · rw [memcmpLoop_eq_zero heq, charOrder_eq_zero.mpr heq]
  · obtain ⟨n, hn⟩ : ∃ n, size.toNat = n + 1 := ⟨size.toNat - 1, by bv_omega⟩
    have hval : charVal (m dest) ≠ charVal (m src) := fun h => heq (charVal_inj h)
    rw [hn, memcmpLoop, if_pos heq, charOrder]
    split_ifs <;> omega

/-- `v` tells how the `size` bytes at `dest` and at `src` compare. -/
structure Compared (m : Bytes) (dest src size : Word) (v : Int) : Prop where
  zero_iff : v = 0 ↔ ∀ i < size.toNat, m.byte dest i = m.byte src i
  order : ∀ i < size.toNat, FirstDifference (m.byte dest) (m.byte src) i →
    v = charOrder (m.byte dest i) (m.byte src i)

/-- `memcmp` is right when the ranges differ in their first byte or not at all. -/
theorem memcmp_compared_iff (m : Bytes) {dest src size : Word} (hdest : dest ≠ 0) (hsrc : src ≠ 0) (hsize : 0 < size) :
    Compared m dest src size (memcmp m dest src size) ↔
      m dest ≠ m src ∨ ∀ i < size.toNat, m.byte dest i = m.byte src i := by
  rw [memcmp_eq m hdest hsrc hsize]
  constructor
  · intro h
    by_cases heq : m dest = m src
    · exact Or.inr (h.zero_iff.mp (charOrder_eq_zero.mpr heq))
    · exact Or.inl heq
  · rintro (hne | hall)
    · have hpos : 0 < size.toNat := by bv_omega
      have hfirst : FirstDifference (m.byte dest) (m.byte src) 0 := by
        refine ⟨fun j hj => absurd hj (Nat.not_lt_zero j), ?_⟩
        rwa [m.byte_zero, m.byte_zero]
      constructor
      · exact ⟨fun h => absurd (charOrder_eq_zero.mp h) hne, fun hall => absurd (hall 0 hpos) hfirst.differ⟩
      · intro i _ hi
        rw [hi.unique hfirst, m.byte_zero, m.byte_zero]
    · have hpos : 0 < size.toNat := by bv_omega
      have heq : m dest = m src := by
        have h := hall 0 hpos
        rwa [m.byte_zero, m.byte_zero] at h
      constructor
      · exact iff_of_true (charOrder_eq_zero.mpr heq) hall
      · intro i hi hfirst
        exact absurd (hall i hi) hfirst.differ

theorem memcmp_compared_iff_first : Compared (fun a => UInt8.ofNat a.toNat) 0x1000 0x1001 2
    (memcmp (fun a => UInt8.ofNat a.toNat) 0x1000 0x1001 2) :=
  (memcmp_compared_iff _ (by decide) (by decide) (by decide)).mpr (Or.inl (by decide))

/-- Two bytes of zero, and a zero before a one. -/
theorem not_memcmp_compared : ¬ ∀ (m : Bytes) (dest src size : Word), dest ≠ 0 → src ≠ 0 → 0 < size →
    Compared m dest src size (memcmp m dest src size) := by
  intro h
  have hcompared := h (fun a => if a = 0x2001 then 1 else 0) 0x1000 0x2000 2 (by decide) (by decide) (by decide)
  exact absurd (hcompared.zero_iff.mp (by decide) 1 (by decide)) (by decide)

end I386Kernel
