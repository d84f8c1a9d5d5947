import I386Kernel.Memory.PagePool

/-!
# The kernel page tables of `kernel/init.c`

`kernel_pg_dir_init` maps every page of RAM at `ptov` of its physical address, allocating a page table whenever it meets an empty directory entry and keeping only the latest table in hand. The entries are built by `kernel/pte.h`. Memory stands for physical memory seen through the linear map that is already in place, so the walk of the i386 reads the word at physical address `p` at `ptov p`.
-/

namespace I386Kernel

def pteP : Word := 1

def pteW : Word := 2

def pteMaskPhyAddr : Word := 0xfffff000

def virtToPdIdx (vaddr : Word) : Word := vaddr >>> 22

def virtToPtIdx (vaddr : Word) : Word := (vaddr &&& 0x3ff000) >>> pageBits

def mkPde (paddr flags : Word) : Word := (paddr &&& pteMaskPhyAddr) ||| (flags &&& ~~~pteMaskPhyAddr)

def mkPte (paddr flags : Word) : Word := mkPde paddr flags

/-- `&p[idx]` for an array of words. -/
def wordAt (p idx : Word) : Word := p + 4 * idx

/-- The locals of the loop: the memory and `pt`. -/
structure PgDirState where
  mem : Mem
  pt : Word

/-- The block `if(!pd[pd_idx])` of the loop. -/
def pgDirTable (pool : MemPool) (pd pdIdx : Word) (st : PgDirState) : PgDirState :=
  if st.mem (wordAt pd pdIdx) = 0 then
    let r := mmKgetPage st.mem pool (pfZero ||| pfAtomic)
    ⟨Function.update r.2 (wordAt pd pdIdx) (mkPde (vtop r.1) (pteP ||| pteW)), r.1⟩
  else st

/-- The flags of the page at `vaddr`: the kernel text is read only. -/
def pgFlags (kernelStart kernelTextEnd vaddr : Word) : Word :=
  if kernelStart ≤ vaddr ∧ vaddr < kernelTextEnd then (pteP ||| pteW) &&& ~~~pteW else pteP ||| pteW

/-- One iteration of the loop of `kernel_pg_dir_init`. -/
def pgDirStep (pool : MemPool) (kernelStart kernelTextEnd pd : Word) (st : PgDirState) (i : Word) :
    PgDirState :=
  let vaddr := ptov (i <<< pageBits)
  let st := pgDirTable pool pd (virtToPdIdx vaddr) st
  { st with
    mem := Function.update st.mem (wordAt st.pt (virtToPtIdx vaddr))
      (mkPte (vtop vaddr) (pgFlags kernelStart kernelTextEnd vaddr)) }

/-- The memory afterwards and the value loaded into `cr3`. The bounds of the kernel text are set by the linker. -/
def kernelPgDirInit (m : Mem) (pool : MemPool) (kernelStart kernelTextEnd initRamPages : Word) :
    Mem × Word :=
  let r := mmKgetPage m pool (pfZero ||| pfAtomic)
  let st := (List.range initRamPages.toNat).foldl
    (fun st i => pgDirStep pool kernelStart kernelTextEnd r.1 st (BitVec.ofNat 32 i)) ⟨r.2, 0⟩
  (st.mem, vtop r.1)

/-! ## The walk of the i386 -/

/-- Where a virtual page is mapped, with the rights of directory and table entry combined. -/
structure Translation where
  frame : Word
  writable : Bool
  user : Bool
  deriving DecidableEq

/-- The two-level walk: bit 0 of an entry is present, bit 1 writable, bit 2 user. -/
def walk (m : Mem) (cr3 vaddr : Word) : Option Translation :=
  let pde := m (wordAt (ptov (cr3 &&& 0xfffff000)) (vaddr >>> 22))
  if pde.getLsbD 0 then
    let pte := m (wordAt (ptov (pde &&& 0xfffff000)) (vaddr >>> 12 &&& 0x3ff))
    if pte.getLsbD 0 then
      some ⟨pte >>> 12, pde.getLsbD 1 && pte.getLsbD 1, pde.getLsbD 2 && pte.getLsbD 2⟩
    else none
  else none

/-! ## Entries -/

private theorem getLsbD_mask_phy {i : Nat} (hi : i < 32) :
    pteMaskPhyAddr.getLsbD i = decide (12 ≤ i) := by
  have h : ∀ i : Fin 32, pteMaskPhyAddr.getLsbD i.val = decide (12 ≤ i.val) := by decide
  exact h ⟨i, hi⟩

theorem getLsbD_mkPde (paddr flags : Word) {i : Nat} (hi : i < 32) :
    (mkPde paddr flags).getLsbD i = if i < 12 then flags.getLsbD i else paddr.getLsbD i := by
  rw [mkPde, BitVec.getLsbD_or, BitVec.getLsbD_and, BitVec.getLsbD_and, BitVec.getLsbD_not,
    getLsbD_mask_phy hi]
  by_cases h : i < 12
  · have : ¬ 12 ≤ i := by omega
    simp [h, this, hi]
  · have : 12 ≤ i := by omega
    simp [h, this]

theorem mkPde_phy (paddr flags : Word) : mkPde paddr flags &&& 0xfffff000 = paddr &&& 0xfffff000 := by
  apply BitVec.eq_of_getLsbD_eq
  intro i hi
  change (mkPde paddr flags &&& pteMaskPhyAddr).getLsbD i = (paddr &&& pteMaskPhyAddr).getLsbD i
  rw [BitVec.getLsbD_and, BitVec.getLsbD_and, getLsbD_mkPde _ _ hi, getLsbD_mask_phy hi]
  by_cases h : i < 12
  · have : ¬ 12 ≤ i := by omega
    simp [this]
  · simp [h]

theorem mkPde_frame (paddr flags : Word) : mkPde paddr flags >>> 12 = paddr >>> 12 := by
  apply BitVec.eq_of_getLsbD_eq
  intro i hi
  rw [BitVec.getLsbD_ushiftRight, BitVec.getLsbD_ushiftRight]
  by_cases h : 12 + i < 32
  · rw [getLsbD_mkPde _ _ h, if_neg (by omega)]
  · rw [BitVec.getLsbD_of_ge _ _ (by omega), BitVec.getLsbD_of_ge _ _ (by omega)]

theorem mkPde_ne_zero (paddr : Word) : mkPde paddr (pteP ||| pteW) ≠ 0 := by
  intro h
  have hbit : (mkPde paddr (pteP ||| pteW)).getLsbD 0 = false := by rw [h]; rfl
  rw [getLsbD_mkPde _ _ (by decide), if_pos (by decide)] at hbit
  exact absurd hbit (by decide)

theorem and_phy_of_aligned {p : Word} (h : p.toNat % 0x1000 = 0) : p &&& 0xfffff000 = p := by
  apply BitVec.eq_of_getLsbD_eq
  intro i hi
  change (p &&& pteMaskPhyAddr).getLsbD i = _
  rw [BitVec.getLsbD_and, getLsbD_mask_phy hi]
  by_cases hlow : 12 ≤ i
  · simp [hlow]
  · have hbit : p.getLsbD i = false := by
      have hmul : p.toNat = 2 ^ 12 * (p.toNat / 0x1000) := by
        show p.toNat = 0x1000 * (p.toNat / 0x1000)
        omega
      rw [BitVec.getLsbD, hmul, Nat.testBit_two_pow_mul]
      simp [hlow]
    simp [hbit]

end I386Kernel
