import I386Kernel.Memory.PageAllocator

/-!
# The limits of the page pool

How much RAM `mm_init` can build a pool for without a subtraction, a sum or a product that wraps: the bitmap must not take more pages than there are, and the pool must end below 4 GB. Within these limits `mm_kfree_pages` may be given any address and any number of pages.
-/

namespace I386Kernel

/-- The pages `mm_init` sets aside for the bitmap of `cnt` pages. -/
def bitmapPages (cnt : Word) : Word := divRoundUp (bitmapRequiredBufSize cnt + 4) pageSize

/-- A request for `n` pages that takes some gets an address at or above `base`, and freeing the block clears exactly its bits. -/
def BlockSafe (m : Mem) (pool : MemPool) (pfFlag n : Word) : Prop :=
  let idx := bitmapFindFirstBitsGroup m pool.bm 0 n false
  let pages := (mmKgetPages m pool pfFlag n).1
  let m' := (mmKgetPages m pool pfFlag n).2
  n ≠ 0 → idx ≠ bitmapErr → pages ≠ 0 ∧ pool.base.toNat ≤ pages.toNat ∧
    BitsTo m' (mmKfreePages m' pool pages n) pool.bm
      (fun j => if idx.toNat ≤ j ∧ j < idx.toNat + n.toNat then false else pool.used m' j)

/-- What `mm_init` owes the machine: it refuses to start, or no address of its pool wraps in any history of requests and frees. -/
def PoolSafe (m : Mem) (pageNum : Word) : Prop :=
  match mmInit m pageNum with
  | none => True
  | some (m₀, pool) =>
      (pgNo kernelMemPoolPhyStart).toNat + (bitmapPages (pageNum - pgNo kernelMemPoolPhyStart)).toNat ≤ pageNum.toNat ∧
        pool.base.toNat + (bitmapGetBitsCount m₀ pool.bm).toNat * pageSize.toNat ≤ 2 ^ 32 - 1 ∧
          ∀ s, (poolSystem m₀ pool).Reachable s → ∀ pfFlag n, BlockSafe s.mem s.pool pfFlag n

private theorem run_of_found {m : Mem} {pool : MemPool} {n : Word} (hn : n ≠ 0)
    (hidx : bitmapFindFirstBitsGroup m pool.bm 0 n false ≠ bitmapErr) :
    (bitmapFindFirstBitsGroup m pool.bm 0 n false).toNat + n.toNat ≤ pool.pageCount m := by
  have hpos : 0 < n.toNat := by bv_omega
  obtain ⟨herr, -⟩ | hfirst := bitmapFindFirstBitsGroup_spec m pool.bm 0 n false hpos
  · exact absurd herr hidx
  · exact hfirst.run.1

theorem PoolOk.blockSafe {m : Mem} {pool : MemPool} (h : PoolOk m pool) (pfFlag n : Word) : BlockSafe m pool pfFlag n := by
  intro hn hidx
  have hrun := run_of_found hn hidx
  have hpos : 0 < n.toNat := by bv_omega
  have hpages : (mmKgetPages m pool pfFlag n).1 =
      pool.pageAddr (bitmapFindFirstBitsGroup m pool.bm 0 n false).toNat := by
    rw [mmKgetPages, if_neg hn]
    simp only [if_neg hidx]
    rw [MemPool.pageAddr, BitVec.ofNat_toNat, BitVec.setWidth_eq]
    split <;> rfl
  generalize (bitmapFindFirstBitsGroup m pool.bm 0 n false).toNat = idx at hrun hpages ⊢
  have hnonnull := h.pageAddr_ne_zero (i := idx) (by omega)
  have hheader : (mmKgetPages m pool pfFlag n).2 pool.bm = m pool.bm := by
    obtain ⟨-, hsame, -⟩ | ⟨-, i, -, -, hgrant⟩ := mmKgetPages_spec h.toPoolWf pfFlag n
    · rw [hsame]
    · exact hgrant.header
  have hcount := pageCount_congr hheader
  refine ⟨hpages ▸ hnonnull, ?_, ?_⟩
  · rw [hpages, h.toNat_pageAddr (by omega)]
    omega
  · rw [hpages]
    exact mmKfreePages_spec (h.congr hheader) (by omega) (by omega)

/-- 1 MB of RAM: no page is left for the bitmap, and the count of pages wraps. -/
private theorem not_poolSafe_256 (m : Mem) : ¬ PoolSafe m 256 := by
  have hcreate : bitmapCreateInBuf m (256 - pgNo kernelMemPoolPhyStart - bitmapPages (256 - pgNo kernelMemPoolPhyStart))
      (ptov kernelMemPoolPhyStart) (bitmapPages (256 - pgNo kernelMemPoolPhyStart) * pageSize) =
        some (Function.update m (ptov kernelMemPoolPhyStart) 0xffffffff) := by
    rw [bitmapCreateInBuf, if_neg (by decide)]
    rfl
  have hinit : mmInit m 256 = some (bitmapConfigAll (Function.update m (ptov kernelMemPoolPhyStart) 0xffffffff)
      (ptov kernelMemPoolPhyStart) false,
      ⟨ptov kernelMemPoolPhyStart, ptov kernelMemPoolPhyStart + bitmapPages (256 - pgNo kernelMemPoolPhyStart) * pageSize⟩) := by
    rw [bitmapPages] at hcreate
    simp only [mmInit, memPoolInit, bitmapPages, hcreate]
  rw [PoolSafe, hinit]
  rintro ⟨hpages, -⟩
  exact absurd hpages (by decide)

private theorem bitmapPages_le {cnt : Word} (hpos : 0 < cnt.toNat) (hcnt : cnt.toNat < 2 ^ 20) :
    (bitmapPages cnt).toNat ≤ cnt.toNat := by
  have hreq : (bitmapRequiredBufSize cnt).toNat = (cnt.toNat + 7) / 8 := by
    rw [bitmapRequiredBufSize, toNat_divRoundUp (by decide) (by change cnt.toNat + 8 ≤ _; omega)]
    rfl
  have hsum : (bitmapRequiredBufSize cnt + 4).toNat = (cnt.toNat + 7) / 8 + 4 := by
    rw [BitVec.toNat_add, hreq]
    change ((cnt.toNat + 7) / 8 + 4) % 2 ^ 32 = _
    omega
  rw [bitmapPages, toNat_divRoundUp (by decide) (by rw [hsum]; change _ + 4096 ≤ _; omega), hsum]
  change ((cnt.toNat + 7) / 8 + 4 + 4096 - 1) / 4096 ≤ _
  omega

/-- The pool is safe for every amount of RAM above 1 MB and below 1 GB, and for no other. -/
theorem poolSafe_iff (m : Mem) (pageNum : Word) (hlow : 256 ≤ pageNum.toNat) (hhigh : pageNum.toNat < 2 ^ 20) :
    PoolSafe m pageNum ↔ 256 < pageNum.toNat ∧ pageNum.toNat < 2 ^ 18 := by
  by_cases hmin : pageNum.toNat = 256
  · have heq : pageNum = 256 := BitVec.eq_of_toNat_eq hmin
    refine ⟨fun h => absurd (heq ▸ h) (not_poolSafe_256 m), fun h => ?_⟩
    omega
  · obtain ⟨m₀, pool, hinit, hwf, hbm, htop, hempty⟩ := mmInit_spec m pageNum (by omega) hhigh
    have hcount : (bitmapGetBitsCount m₀ pool.bm).toNat = pool.pageCount m₀ := rfl
    have hsize : pageSize.toNat = 0x1000 := rfl
    have hreserved : (pgNo kernelMemPoolPhyStart).toNat = 256 := rfl
    rw [PoolSafe, hinit]
    simp only [hcount, hsize, hreserved]
    constructor
    · rintro ⟨-, hend, -⟩
      omega
    · rintro ⟨-, hram⟩
      refine ⟨?_, by omega, fun s hs pfFlag n => ?_⟩
      · have hcnt : (pageNum - pgNo kernelMemPoolPhyStart).toNat = pageNum.toNat - 256 := by
          rw [← hreserved]
          exact BitVec.toNat_sub_of_le (by rw [BitVec.le_def, hreserved]; omega)
        have hpages := @bitmapPages_le (pageNum - pgNo kernelMemPoolPhyStart) (by omega) (by omega)
        omega
      · have hinv := (poolInv_reachable ⟨hwf, by omega⟩ hempty hs).1
        exact hinv.ok.blockSafe pfFlag n

theorem poolSafe_iff_64mb : PoolSafe (fun _ => 0) 0x4000 :=
  (poolSafe_iff (fun _ => 0) 0x4000 (by decide) (by decide)).mpr ⟨by decide, by decide⟩

/-- The pool is not safe with 1 MB of RAM. -/
theorem not_poolSafe : ¬ ∀ (m : Mem) (pageNum : Word), 256 ≤ pageNum.toNat → pageNum.toNat < 2 ^ 20 → PoolSafe m pageNum :=
  fun h => not_poolSafe_256 (fun _ => 0) (h _ 256 (by decide) (by decide))

/-! ## Freeing arbitrary arguments -/

private theorem mmKfreePages_congr {m : Mem} {pool : MemPool} {p q : Word} (h : roundDown p pageSize = roundDown q pageSize)
    (n : Word) : mmKfreePages m pool p n = mmKfreePages m pool q n := by
  simp only [mmKfreePages, h]

/-- The pages from the one of `p` on are freed, when all of them lie in the pool, or nothing is. -/
def FreeContained (m : Mem) (pool : MemPool) (p n : Word) : Prop :=
  (∃ i, i < pool.pageCount m ∧ InPage (pool.pageAddr i) p ∧ i + n.toNat ≤ pool.pageCount m ∧
      BitsTo m (mmKfreePages m pool p n) pool.bm
        (fun j => if i ≤ j ∧ j < i + n.toNat then false else pool.used m j)) ∨
    ((¬ ∃ i, i < pool.pageCount m ∧ InPage (pool.pageAddr i) p ∧ i + n.toNat ≤ pool.pageCount m) ∧
      mmKfreePages m pool p n = m)

theorem PoolOk.freeContained {m : Mem} {pool : MemPool} (h : PoolOk m pool) (p n : Word) : FreeContained m pool p n := by
  have hwrap := h.no_wrap
  have hround := toNat_roundDown p
  have haligned := h.aligned
  have hend : (pool.base + bitmapGetBitsCount m pool.bm * pageSize).toNat = pool.base.toNat + 0x1000 * pool.pageCount m := by
    rw [← h.toNat_pageAddr (Nat.le_refl _), MemPool.pageAddr, MemPool.pageCount, BitVec.ofNat_toNat, BitVec.setWidth_eq]
    rfl
  have hpage : ∀ i, i < pool.pageCount m →
      (InPage (pool.pageAddr i) p ↔ p.toNat / 0x1000 * 0x1000 = pool.base.toNat + 0x1000 * i) := by
    intro i hi
    rw [InPage, h.toNat_pageAddr (Nat.le_of_lt hi)]
    omega
  by_cases hout : roundDown p pageSize < pool.base ∨
      pool.base + bitmapGetBitsCount m pool.bm * pageSize ≤ roundDown p pageSize
  · right
    constructor
    · intro hex
      obtain ⟨i, hi, hin, -⟩ := hex
      rw [hpage i hi] at hin
      rw [BitVec.lt_def, BitVec.le_def, hround, hend] at hout
      omega
    · simp only [mmKfreePages, if_pos hout]
  · -- the page of `p` is one of the pool
    obtain ⟨i, hi, hin⟩ : ∃ i, i < pool.pageCount m ∧ p.toNat / 0x1000 * 0x1000 = pool.base.toNat + 0x1000 * i := by
      rw [BitVec.lt_def, BitVec.le_def, hround, hend] at hout
      exact ⟨(p.toNat / 0x1000 * 0x1000 - pool.base.toNat) / 0x1000, by omega, by omega⟩
    have hpageAddr : roundDown p pageSize = pool.pageAddr i := by
      apply BitVec.eq_of_toNat_eq
      rw [hround, hin, h.toNat_pageAddr (Nat.le_of_lt hi)]
    by_cases hrun : i + n.toNat ≤ pool.pageCount m
    · left
      have hsame : roundDown p pageSize = roundDown (pool.pageAddr i) pageSize := by
        apply BitVec.eq_of_toNat_eq
        rw [hpageAddr, toNat_roundDown, h.toNat_pageAddr (Nat.le_of_lt hi)]
        omega
      refine ⟨i, hi, (hpage i hi).mpr hin, hrun, ?_⟩
      rw [mmKfreePages_congr hsame]
      exact mmKfreePages_spec h hi hrun
    · right
      constructor
      · intro hex
        obtain ⟨i', hi', hin', hrun'⟩ := hex
        rw [hpage i' hi'] at hin'
        omega
      · -- a sum that wraps passes both checks, and the loop has no index
        have hstart : (pgNo (roundDown p pageSize) - pgNo pool.base).toNat = i := by
          have hp : (pgNo (roundDown p pageSize)).toNat = pool.base.toNat / 0x1000 + i := by
            rw [toNat_pgNo, hround, hin]
            omega
          have hb := toNat_pgNo pool.base
          bv_omega
        have hreset : bitmapConfigMultiBits m pool.bm (pgNo (roundDown p pageSize) - pgNo pool.base) n false = m := by
          apply bitmapConfigMultiBits_of_lt
          rw [hstart]
          exact Nat.lt_of_not_le hrun
        simp only [mmKfreePages, if_neg hout, bitmapResetMultiBits, hreset, ite_self]

/-- Whatever the bits of the pool and the arguments are, a free clears the bits of the whole range it is given or none. -/
theorem mmKfreePages_contained (m : Mem) (pageNum : Word) (hlow : 256 < pageNum.toNat) (hhigh : pageNum.toNat < 0x40000) :
    ∃ m₀ pool, mmInit m pageNum = some (m₀, pool) ∧
      ∀ m' : Mem, m' pool.bm = m₀ pool.bm → ∀ p n, FreeContained m' pool p n := by
  obtain ⟨m₀, pool, hinit, hwf, -, htop, -⟩ := mmInit_spec m pageNum hlow (by omega)
  refine ⟨m₀, pool, hinit, fun m' hheader p n => ?_⟩
  have hok : PoolOk m₀ pool := ⟨hwf, by omega⟩
  exact (hok.congr hheader).freeContained p n

theorem mmKfreePages_contained_64mb : ∃ m₀ pool, mmInit (fun _ => 0) 0x4000 = some (m₀, pool) ∧
    ∀ m' : Mem, m' pool.bm = m₀ pool.bm → ∀ p n, FreeContained m' pool p n :=
  mmKfreePages_contained (fun _ => 0) 0x4000 (by decide) (by decide)

end I386Kernel
