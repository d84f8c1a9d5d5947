import I386Kernel.Base
import Mathlib.Data.Nat.Basic

/-!
# The size of memory

What `start` in `boot/start.S` makes of the answers of the firmware before it leaves real mode: the count from function 88h of int 15h, which a descriptor from function E820h may replace.
-/

namespace I386Kernel.MemoryDetect

structure Descriptor where
  base : BitVec 64
  length : BitVec 64
  type : Word
deriving DecidableEq

/-- What a call of function E820h leaves: the descriptor, if it wrote one, and `ebx`. -/
structure Answer where
  descriptor : Option Descriptor
  ebx : Word

def Descriptor.baseAddrLow (d : Descriptor) : Word := d.base.setWidth 32

def Descriptor.lengthLow (d : Descriptor) : Word := d.length.setWidth 32

/-- The count from the value in `ax`; the loader leaves the upper half of `eax` zero. -/
def extendedMemory (ax : BitVec 16) : Word :=
  let eax := ax.setWidth 32 + 1024
  (if eax ≤ 0x10000 then eax else 0x10000) >>> 2

/-- The three tests of a descriptor. -/
def Descriptor.replaces (d : Descriptor) : Bool :=
  ¬ d.baseAddrLow < 0x100000 ∧ d.type = 1 ∧ ¬ d.lengthLow ≤ 0x100000 * 63

def Descriptor.pages (d : Descriptor) : Word := (d.lengthLow + 0x100000) >>> 12

/-- `write_char_to_screen` clears `bh`. -/
def clearBh (ebx : Word) : Word := ebx &&& 0xffff00ff

/-- The loop over the answers to its calls, with the descriptor on the stack; no result while it would call again. -/
def e820Loop : List Answer → Descriptor → Word → Option Word
  | [], _, _ => none
  | a :: answers, d, initRamPages =>
      let d := a.descriptor.getD d
      if d.replaces then some d.pages
      else if clearBh a.ebx = 0 then some initRamPages
      else e820Loop answers d initRamPages

/-- `init_ram_pages` after the detection; the descriptor on the stack is what happens to lie there. -/
def initRamPages (ax : BitVec 16) (answers : List Answer) (stack : Descriptor) : Option Word :=
  e820Loop answers stack (extendedMemory ax)

/-! ## What is there -/

/-- The page lies in the region. -/
def Descriptor.Contains (d : Descriptor) (p : Nat) : Prop :=
  d.base.toNat ≤ p * 4096 ∧ (p + 1) * 4096 ≤ d.base.toNat + d.length.toNat

/-- The page lies in the memory above 1 MB that function 88h reports. -/
def InExtended (ax : BitVec 16) (p : Nat) : Prop := 256 ≤ p ∧ (p + 1) * 4096 ≤ 0x100000 + 1024 * ax.toNat

/-- The page is available by the map. -/
def Available (map : List Descriptor) (p : Nat) : Prop := ∃ d ∈ map, d.type = 1 ∧ d.Contains p

/-- The descriptors the loop tests, to the first with no continuation. -/
def tested : List Answer → Descriptor → List Descriptor
  | [], _ => []
  | a :: answers, d =>
      let d := a.descriptor.getD d
      d :: if clearBh a.ebx = 0 then [] else tested answers d

/-- The first of them that passes the tests. -/
def chosen (answers : List Answer) (stack : Descriptor) : Option Descriptor :=
  (tested answers stack).find? Descriptor.replaces

/-- Every page that is counted above 1 MB is there. -/
structure Sound (map : List Descriptor) (ax : BitVec 16) (answers : List Answer) (stack : Descriptor) (pages : Word) :
    Prop where
  low : 256 ≤ pages.toNat
  backed : ∀ p, 256 ≤ p → p < pages.toNat →
    Available map p ∨ chosen answers stack = none ∧ InExtended ax p

/-- The length does not wrap, and what the count takes in besides the region itself is available. -/
structure Descriptor.Fits (map : List Descriptor) (d : Descriptor) : Prop where
  length : d.lengthLow.toNat + 0x100000 < 2 ^ 32
  gap : ∀ p, 256 ≤ p → (p + 1) * 4096 ≤ d.lengthLow.toNat + 0x100000 →
    d ∈ map ∧ d.base.toNat ≤ p * 4096 ∨ Available map p

/-! ## The two counts -/

theorem toNat_extendedMemory (ax : BitVec 16) :
    (extendedMemory ax).toNat = min (ax.toNat + 1024) 0x10000 / 4 := by
  have hax := ax.isLt
  have hsum : (ax.setWidth 32 + 1024 : Word).toNat = ax.toNat + 1024 := by
    rw [BitVec.toNat_add, BitVec.toNat_setWidth, Nat.mod_eq_of_lt (Nat.lt_trans hax (by decide))]
    exact Nat.mod_eq_of_lt (show ax.toNat + 1024 < 2 ^ 32 by omega)
  rw [extendedMemory]
  by_cases hle : (ax.setWidth 32 + 1024 : Word) ≤ 0x10000
  · have hle' : ax.toNat + 1024 ≤ 0x10000 := by
      rw [← hsum]
      exact hle
    rw [if_pos hle, BitVec.toNat_ushiftRight, hsum, Nat.min_eq_left hle', Nat.shiftRight_eq_div_pow]
  · have hle' : ¬ ax.toNat + 1024 ≤ 0x10000 := by
      rw [← hsum]
      exact hle
    rw [if_neg hle, Nat.min_eq_right (Nat.le_of_not_le hle')]
    rfl

/-- The count from function 88h is never too large. -/
theorem extendedMemory_sound (ax : BitVec 16) : 256 ≤ (extendedMemory ax).toNat ∧
    ∀ p, 256 ≤ p → p < (extendedMemory ax).toNat → InExtended ax p := by
  rw [toNat_extendedMemory]
  constructor
  · omega
  · intro p hlow hp
    exact ⟨hlow, by omega⟩

theorem Descriptor.toNat_pages (d : Descriptor) : d.pages.toNat = (d.lengthLow.toNat + 0x100000) % 2 ^ 32 / 4096 := by
  rw [pages, BitVec.toNat_ushiftRight, Nat.shiftRight_eq_div_pow, BitVec.toNat_add]
  rfl

theorem Descriptor.replaces_iff (d : Descriptor) : d.replaces = true ↔
    0x100000 ≤ d.baseAddrLow.toNat ∧ d.type = 1 ∧ 0x3f00000 < d.lengthLow.toNat := by
  rw [replaces, decide_eq_true_iff, BitVec.not_lt, BitVec.not_le]
  rfl

theorem Descriptor.baseAddrLow_le (d : Descriptor) : d.baseAddrLow.toNat ≤ d.base.toNat := by
  rw [baseAddrLow, BitVec.toNat_setWidth]
  exact Nat.mod_le _ _

theorem Descriptor.lengthLow_le (d : Descriptor) : d.lengthLow.toNat ≤ d.length.toNat := by
  rw [lengthLow, BitVec.toNat_setWidth]
  exact Nat.mod_le _ _

/-! ## The loop -/

theorem e820Loop_eq (answers : List Answer) (d : Descriptor) (count : Word) {pages : Word}
    (h : e820Loop answers d count = some pages) :
    pages = match chosen answers d with
      | some d => d.pages
      | none => count := by
  induction answers generalizing d with
  | nil => cases h
  | cons a answers ih =>
      rw [e820Loop] at h
      rw [chosen, tested]
      cases hreplaces : (a.descriptor.getD d).replaces with
      | true =>
          rw [hreplaces, if_pos rfl] at h
          rw [List.find?_cons_of_pos hreplaces]
          exact (Option.some.inj h).symm
      | false =>
          rw [hreplaces, if_neg Bool.false_ne_true] at h
          rw [List.find?_cons_of_neg (by rw [hreplaces]; exact Bool.false_ne_true)]
          by_cases hlast : clearBh a.ebx = 0
          · rw [if_pos hlast] at h ⊢
            exact (Option.some.inj h).symm
          · rw [if_neg hlast] at h ⊢
            exact ih _ h

/-- The count is sound exactly when the chosen region fits, if there is one. -/
theorem sound_iff (map : List Descriptor) (ax : BitVec 16) (answers : List Answer) (stack : Descriptor) {pages : Word}
    (h : initRamPages ax answers stack = some pages) :
    Sound map ax answers stack pages ↔ ∀ d ∈ chosen answers stack, d.Fits map := by
  have hpages := e820Loop_eq answers stack (extendedMemory ax) h
  cases hchosen : chosen answers stack with
  | none =>
      rw [hchosen] at hpages
      obtain ⟨hlow, hsound⟩ := extendedMemory_sound ax
      rw [← show pages = extendedMemory ax from hpages] at hlow hsound
      refine iff_of_true ⟨hlow, fun p hp hlt => Or.inr ⟨hchosen, hsound p hp hlt⟩⟩ ?_
      intro d hd
      cases hd
  | some d =>
      rw [hchosen] at hpages
      obtain ⟨hbase, htype, hlength⟩ := d.replaces_iff.mp (List.find?_some hchosen)
      have hnat : pages.toNat = (d.lengthLow.toNat + 0x100000) % 2 ^ 32 / 4096 := by
        rw [← d.toNat_pages]
        exact congrArg BitVec.toNat hpages
      have hbase' := d.baseAddrLow_le
      have hlength' := d.lengthLow_le
      have hword := d.lengthLow.isLt
      constructor
      · intro hsound d' hd'
        cases hd'
        have hwrap : d.lengthLow.toNat + 0x100000 < 2 ^ 32 := by
          have hlow := hsound.low
          rw [hnat] at hlow
          omega
        refine ⟨hwrap, fun p hp hlt => ?_⟩
        obtain havailable | ⟨hnone, _⟩ := hsound.backed p hp (by rw [hnat, Nat.mod_eq_of_lt hwrap]; omega)
        · exact Or.inr havailable
        · rw [hchosen] at hnone
          cases hnone
      · intro hfits
        obtain ⟨hwrap, hgap⟩ := hfits d rfl
        rw [Nat.mod_eq_of_lt hwrap] at hnat
        refine ⟨by omega, fun p hp hlt => Or.inl ?_⟩
        obtain ⟨hmem, hle⟩ | havailable := hgap p hp (by omega)
        · exact ⟨d, hmem, htype, hle, by omega⟩
        · exact havailable

/-- A map with one region from 1 MB on. -/
theorem sound_oneRegion : Sound [⟨0, 0x9fc00, 1⟩, ⟨0x100000, 0x7ee0000, 1⟩] 0xfc00
    [⟨some ⟨0, 0x9fc00, 1⟩, 1⟩, ⟨some ⟨0x100000, 0x7ee0000, 1⟩, 0⟩] ⟨0, 0, 0⟩ 0x7fe0 := by
  refine (sound_iff _ _ _ _ (by decide)).mpr fun d hd => ?_
  cases hd
  exact ⟨by decide, fun p hp _ => Or.inl ⟨by decide, show 0x100000 ≤ p * 4096 by omega⟩⟩

/-- A hole between 15 MB and 16 MB. -/
def holed : List Descriptor := [⟨0x100000, 0xe00000, 1⟩, ⟨0x1000000, 0x7000000, 1⟩]

theorem not_sound : ¬ ∀ (map : List Descriptor) (ax : BitVec 16) (answers : List Answer) (stack : Descriptor) (pages : Word),
    (∀ a ∈ answers, ∀ d ∈ a.descriptor, d ∈ map) → initRamPages ax answers stack = some pages →
      Sound map ax answers stack pages := by
  intro h
  have hsound := h holed 0x3800 [⟨some ⟨0x100000, 0xe00000, 1⟩, 1⟩, ⟨some ⟨0x1000000, 0x7000000, 1⟩, 0⟩] ⟨0, 0, 0⟩
    0x7100 (by decide) (by decide)
  obtain ⟨d, hd, _, hlow, hhigh⟩ | ⟨hnone, _⟩ := hsound.backed 0xf00 (by decide) (by decide)
  · have hgap : ∀ d ∈ holed, ¬ (d.base.toNat ≤ 0xf00 * 4096 ∧ (0xf00 + 1) * 4096 ≤ d.base.toNat + d.length.toNat) := by
      decide
    exact hgap d hd ⟨hlow, hhigh⟩
  · exact absurd hnone (by decide)

end I386Kernel.MemoryDetect
