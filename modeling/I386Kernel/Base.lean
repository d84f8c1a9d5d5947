import Mathlib.Data.FinEnum
import Mathlib.Tactic.Common

/-!
# Words, addresses and pages

The machine is a 32-bit i386: `size_t`, `uint32_t`, `uintptr_t` and every pointer are one 32-bit word, and arithmetic on them wraps. Memory is read and written a word at a time at word-aligned byte addresses, which is all the code modelled here does. The definitions follow `kernel/vaddr.h`, `kernel/loader.h` and `lib/round.h`.
-/

namespace I386Kernel

/-- `uint32_t`, `size_t`, `uintptr_t` and pointers. -/
abbrev Word := BitVec 32

instance : LawfulBEq Word := inferInstance

/-- The words of memory, by the byte address of the word. -/
abbrev Mem := Word → Word

/-- `int32_t` arithmetic, which wraps. -/
def int32 (n : Int) : Int := (n + 2 ^ 31) % 2 ^ 32 - 2 ^ 31

/-- A wrapped sum is no larger than the sum, and in the range of the type. -/
theorem int32_le {n : Int} (h : -2 ^ 31 ≤ n) : -2 ^ 31 ≤ int32 n ∧ int32 n ≤ n := by
  rw [int32]
  omega

/-- A quantifier bounded by a list is decided along the list, also over a type with finitely many values. -/
instance (priority := high) decidableForallMem {α : Type*} {p : α → Prop} [DecidablePred p] (l : List α) :
    Decidable (∀ a ∈ l, p a) :=
  List.decidableBAll p l

/-- A character constant. -/
def ascii (c : Char) : UInt8 := UInt8.ofNat c.toNat

def pageBits : Nat := 12

def pageSize : Word := 0x1000

def kernelVaddrBase : Word := 0xc0000000

def ptov (paddr : Word) : Word := paddr + kernelVaddrBase

def vtop (vaddr : Word) : Word := vaddr - kernelVaddrBase

def pgNo (vaddr : Word) : Word := vaddr >>> pageBits

/-- `ROUND_DOWN` of `lib/round.h`. -/
def roundDown (x step : Word) : Word := x / step * step

/-- `DIV_ROUND_UP` of `lib/round.h`; the sum wraps as `size_t` does. -/
def divRoundUp (nom denom : Word) : Word := (nom + denom - 1) / denom

/-- `memset(p, 0, size)` on words, for a word-aligned `p` and a `size` that is a multiple of four. For `p = 0` the source returns at once, a test that no caller here comes to. -/
def memsetZero (m : Mem) (p size : Word) : Mem := fun a => if a - p < size then 0 else m a

/-- The address `a` lies in the page that starts at `p`. -/
def InPage (p a : Word) : Prop := p.toNat ≤ a.toNat ∧ a.toNat < p.toNat + 0x1000

theorem InPage.unique {p q a : Word} (hp : p.toNat % 0x1000 = 0) (hq : q.toNat % 0x1000 = 0)
    (hpa : InPage p a) (hqa : InPage q a) : p = q := by
  obtain ⟨hp₁, hp₂⟩ := hpa
  obtain ⟨hq₁, hq₂⟩ := hqa
  apply BitVec.eq_of_toNat_eq
  omega

theorem toNat_ptov {paddr : Word} (h : paddr.toNat < 0x40000000) :
    (ptov paddr).toNat = paddr.toNat + 0xc0000000 := by
  simp only [ptov, kernelVaddrBase]
  bv_omega

theorem vtop_ptov (paddr : Word) : vtop (ptov paddr) = paddr := by
  simp only [vtop, ptov]
  bv_omega

theorem ptov_vtop (vaddr : Word) : ptov (vtop vaddr) = vaddr := by
  simp only [vtop, ptov]
  bv_omega

theorem toNat_pgNo (vaddr : Word) : (pgNo vaddr).toNat = vaddr.toNat / 0x1000 := by
  simp [pgNo, pageBits, Nat.shiftRight_eq_div_pow]

theorem toNat_roundDown (x : Word) : (roundDown x pageSize).toNat = x.toNat / 0x1000 * 0x1000 := by
  have hx := x.isLt
  change x.toNat / 0x1000 * 0x1000 % 2 ^ 32 = _
  omega

theorem toNat_divRoundUp {nom denom : Word} (hd : 0 < denom.toNat)
    (h : nom.toNat + denom.toNat ≤ 2 ^ 32) :
    (divRoundUp nom denom).toNat = (nom.toNat + denom.toNat - 1) / denom.toNat := by
  have hsum : (nom + denom - 1).toNat = nom.toNat + denom.toNat - 1 := by bv_omega
  rw [divRoundUp, BitVec.toNat_udiv, hsum]

end I386Kernel
