import I386Kernel.Memory.Bitmap
import Mathlib.Data.Finset.Card
import Mathlib.Data.Finset.Range

/-!
# The kernel page pool of `kernel/mm.c`

The pool hands out 4 KB pages above 1 MB. Its bitmap is carved out of the first pages of the pool, and the page of index `i` starts at `base + i * PAGE_SIZE`. The pool lock is not part of this sequential model, and neither are the messages of `printk`.

`PoolWf` is what every pool keeps: the bitmap lies below the pages it describes and no page wraps around onto it; with less than 1 GB of RAM no address wraps at all, which is `PoolOk`. Under them `mmKgetPages_spec` and `mmKfreePages_spec` say what one call does to memory, and later modules use only these.
-/

namespace I386Kernel

/-- Start physical address of the dynamically allocated page frames. -/
def kernelMemPoolPhyStart : Word := 0x100000

def pfAtomic : Word := 1

def pfZero : Word := 2

structure MemPool where
  bm : Word
  base : Word
  deriving DecidableEq

def memPoolInit (m : Mem) (startAddr pageCnt : Word) : Option (Mem × MemPool) :=
  let bmPages := divRoundUp (bitmapRequiredBufSize pageCnt + 4) pageSize
  match bitmapCreateInBuf m (pageCnt - bmPages) startAddr (bmPages * pageSize) with
  | none => none
  | some m => some (bitmapConfigAll m startAddr false, ⟨startAddr, startAddr + bmPages * pageSize⟩)

/-- `none` is the endless loop that aborts the startup. -/
def mmInit (m : Mem) (pageNum : Word) : Option (Mem × MemPool) :=
  memPoolInit m (ptov kernelMemPoolPhyStart) (pageNum - pgNo kernelMemPoolPhyStart)

/-- The returned pointer is 0 where the source returns `NULL`. -/
def mmKgetPages (m : Mem) (pool : MemPool) (pfFlag pageCount : Word) : Word × Mem :=
  if pageCount = 0 then (0, m)
  else
    let pageIdx := bitmapFindFirstBitsGroup m pool.bm 0 pageCount false
    if pageIdx = bitmapErr then (0, m)
    else
      let m' := bitmapSetMultiBits m pool.bm pageIdx pageCount
      let pages := pool.base + pageIdx * pageSize
      if pfFlag &&& pfZero ≠ 0 then (pages, memsetZero m' pages (pageCount * pageSize))
      else (pages, m')

def mmKgetPage (m : Mem) (pool : MemPool) (pfFlag : Word) : Word × Mem :=
  mmKgetPages m pool pfFlag 1

def mmKfreePages (m : Mem) (pool : MemPool) (pages pageCount : Word) : Mem :=
  let kernelPoolEnd := pool.base + bitmapGetBitsCount m pool.bm * pageSize
  let pages := roundDown pages pageSize
  if pages < pool.base ∨ kernelPoolEnd ≤ pages then m
  else
    let pageNoStart := pgNo pages - pgNo pool.base
    if bitmapGetBitsCount m pool.bm < pageNoStart + pageCount then m
    else bitmapResetMultiBits m pool.bm pageNoStart pageCount

def mmKfreePage (m : Mem) (pool : MemPool) (pages : Word) : Mem :=
  mmKfreePages m pool pages 1

/-! ## Well-formed pools -/

namespace MemPool

variable (pool : MemPool)

/-- The number of pages the pool describes. -/
def pageCount (m : Mem) : Nat := (m pool.bm).toNat

/-- The page of index `i`. -/
def pageAddr (i : Nat) : Word := pool.base + BitVec.ofNat 32 i * pageSize

/-- The page of index `i` is marked in the bitmap. -/
def used (m : Mem) (i : Nat) : Bool := bit m pool.bm i

/-- `a` is the header or one of the words that hold the pool's bits. -/
def InBitmap (m : Mem) (a : Word) : Prop :=
  a = pool.bm ∨ ∃ i, i < pool.pageCount m ∧ a = bitWord pool.bm i

end MemPool

theorem pageCount_congr {m m' : Mem} {pool : MemPool} (hheader : m' pool.bm = m pool.bm) :
    pool.pageCount m' = pool.pageCount m :=
  congrArg BitVec.toNat hheader

/-- The bitmap lies below the pages, and the pages end before they would wrap around onto it. -/
structure PoolWf (m : Mem) (pool : MemPool) : Prop where
  aligned : pool.base.toNat % 0x1000 = 0
  bitmap_below : pool.bm.toNat + 4 + 4 * ((pool.pageCount m + 31) / 32) ≤ pool.base.toNat
  bounded : pool.base.toNat + 0x1000 * pool.pageCount m ≤ 2 ^ 32 + pool.bm.toNat

/-- No address of the pool wraps. -/
structure PoolOk (m : Mem) (pool : MemPool) : Prop extends PoolWf m pool where
  no_wrap : pool.base.toNat + 0x1000 * pool.pageCount m < 2 ^ 32

namespace PoolWf

variable {m m' : Mem} {pool : MemPool}

theorem congr (h : PoolWf m pool) (hheader : m' pool.bm = m pool.bm) : PoolWf m' pool := by
  have hcount := pageCount_congr hheader
  exact ⟨h.aligned, by rw [hcount]; exact h.bitmap_below, by rw [hcount]; exact h.bounded⟩

theorem pageCount_lt (h : PoolWf m pool) : pool.pageCount m < 2 ^ 20 := by
  have := h.bitmap_below
  have := h.bounded
  omega

theorem toNat_pageAddr_mod (h : PoolWf m pool) {i : Nat} (hi : i ≤ pool.pageCount m) :
    (pool.pageAddr i).toNat = (pool.base.toNat + 0x1000 * i) % 2 ^ 32 := by
  have hcount := h.pageCount_lt
  have hmul : (BitVec.ofNat 32 i * pageSize).toNat = 0x1000 * i := by
    change i % 2 ^ 32 * 0x1000 % 2 ^ 32 = _
    omega
  rw [MemPool.pageAddr, BitVec.toNat_add, hmul]

theorem pageAddr_aligned (h : PoolWf m pool) {i : Nat} (hi : i ≤ pool.pageCount m) :
    (pool.pageAddr i).toNat % 0x1000 = 0 := by
  have := h.aligned
  rw [h.toNat_pageAddr_mod hi]
  omega

theorem pageAddr_inj (h : PoolWf m pool) {i j : Nat} (hi : i ≤ pool.pageCount m)
    (hj : j ≤ pool.pageCount m) (heq : pool.pageAddr i = pool.pageAddr j) : i = j := by
  have hcount := h.pageCount_lt
  have hnat := congrArg BitVec.toNat heq
  rw [h.toNat_pageAddr_mod hi, h.toNat_pageAddr_mod hj] at hnat
  omega

/-- Every word of the bitmap lies between its header and the first page. -/
theorem inBitmap_bounds (h : PoolWf m pool) {a : Word} (ha : pool.InBitmap m a) :
    pool.bm.toNat ≤ a.toNat ∧ a.toNat + 4 ≤ pool.base.toNat := by
  have hbelow := h.bitmap_below
  rcases ha with rfl | ⟨i, hi, rfl⟩
  · omega
  · have hbase := pool.base.isLt
    have hword : (bitWord pool.bm i).toNat = pool.bm.toNat + 4 + 4 * (i / 32) := by
      have hmul : ((4 : Word) * BitVec.ofNat 32 (i / 32)).toNat = 4 * (i / 32) := by
        change 4 * (i / 32 % 2 ^ 32) % 2 ^ 32 = _
        omega
      rw [bitWord, bitsAddr, BitVec.toNat_add, BitVec.toNat_add, hmul]
      change ((pool.bm.toNat + 4) % 2 ^ 32 + _) % 2 ^ 32 = _
      omega
    omega

theorem not_inBitmap_of_inPage (h : PoolWf m pool) {i : Nat} (hi : i < pool.pageCount m) {a : Word}
    (ha : InPage (pool.pageAddr i) a) : ¬ pool.InBitmap m a := by
  intro hbm
  have hbounds := h.inBitmap_bounds hbm
  have hbounded := h.bounded
  have haddr := h.toNat_pageAddr_mod (Nat.le_of_lt hi)
  obtain ⟨hlow, hhigh⟩ := ha
  omega

end PoolWf

namespace PoolOk

variable {m m' : Mem} {pool : MemPool}

theorem congr (h : PoolOk m pool) (hheader : m' pool.bm = m pool.bm) : PoolOk m' pool :=
  ⟨h.toPoolWf.congr hheader, by rw [pageCount_congr hheader]; exact h.no_wrap⟩

theorem toNat_pageAddr (h : PoolOk m pool) {i : Nat} (hi : i ≤ pool.pageCount m) :
    (pool.pageAddr i).toNat = pool.base.toNat + 0x1000 * i := by
  have hwrap := h.no_wrap
  rw [h.toNat_pageAddr_mod hi]
  omega

theorem pageAddr_ne_zero (h : PoolOk m pool) {i : Nat} (hi : i ≤ pool.pageCount m) :
    pool.pageAddr i ≠ 0 := by
  intro h0
  have hnat := congrArg BitVec.toNat h0
  rw [h.toNat_pageAddr hi] at hnat
  have := h.bitmap_below
  change _ = 0 at hnat
  omega

end PoolOk

/-- Memory that differs only outside the bitmap describes the same pool. -/
theorem used_congr {m m' : Mem} {pool : MemPool} (h : ∀ a, pool.InBitmap m a → m' a = m a) {i : Nat}
    (hi : i < pool.pageCount m) : pool.used m' i = pool.used m i :=
  bit_eq_of_word_eq (h _ (Or.inr ⟨i, hi, rfl⟩))

/-! ## What a request does -/

/-- Going from `m` to `m'` marks the `n` pages from index `i` on and changes nothing else but the contents of these pages, which are zeroed when `zero` holds. -/
structure Granted (m m' : Mem) (pool : MemPool) (i n : Nat) (zero : Prop) : Prop where
  header : m' pool.bm = m pool.bm
  used : ∀ j, j < pool.pageCount m → pool.used m' j = if i ≤ j ∧ j < i + n then true else pool.used m j
  frame : ∀ a, ¬ pool.InBitmap m a → (∀ j, i ≤ j → j < i + n → ¬ InPage (pool.pageAddr j) a) → m' a = m a
  zeroed : zero → ∀ j a, i ≤ j → j < i + n → InPage (pool.pageAddr j) a → m' a = 0

/-- The words `memset` clears are those of the `n` pages from index `i` on. -/
private theorem memsetZero_pages {m : Mem} {pool : MemPool} (h : PoolWf m pool) {i : Nat} {n : Word}
    (hrun : i + n.toNat ≤ pool.pageCount m) (a : Word) :
    a - pool.pageAddr i < n * pageSize ↔ ∃ j, i ≤ j ∧ j < i + n.toNat ∧ InPage (pool.pageAddr j) a := by
  have halign := h.aligned
  have hcount := h.pageCount_lt
  have haddr := h.toNat_pageAddr_mod (i := i) (by omega)
  have hsize : (n * pageSize).toNat = 0x1000 * n.toNat := by
    change n.toNat * 0x1000 % 2 ^ 32 = _
    omega
  have hlt := a.isLt
  rw [BitVec.lt_def, BitVec.toNat_sub, hsize, haddr]
  constructor
  · intro hin
    refine ⟨i + (2 ^ 32 - (pool.base.toNat + 0x1000 * i) % 2 ^ 32 + a.toNat) % 2 ^ 32 / 0x1000,
      by omega, by omega, ?_⟩
    rw [InPage, h.toNat_pageAddr_mod (by omega)]
    omega
  · rintro ⟨j, hij, hjn, hin⟩
    rw [InPage, h.toNat_pageAddr_mod (by omega)] at hin
    omega

theorem granted_of_run {m : Mem} {pool : MemPool} (h : PoolWf m pool) {pageIdx n : Word} (zero : Prop)
    [Decidable zero] (hrun : pageIdx.toNat + n.toNat ≤ pool.pageCount m) :
    Granted m (if zero then memsetZero (bitmapSetMultiBits m pool.bm pageIdx n)
        (pool.pageAddr pageIdx.toNat) (n * pageSize) else bitmapSetMultiBits m pool.bm pageIdx n)
      pool pageIdx.toNat n.toNat zero := by
  have hset := bitsTo_bitmapConfigMultiBits m pool.bm pageIdx n true hrun
  rw [← bitmapSetMultiBits] at hset
  -- zeroing the granted pages leaves the words of the bitmap alone
  have hkeep : ∀ a, pool.InBitmap m a →
      (if zero then memsetZero (bitmapSetMultiBits m pool.bm pageIdx n)
        (pool.pageAddr pageIdx.toNat) (n * pageSize) else bitmapSetMultiBits m pool.bm pageIdx n) a =
      bitmapSetMultiBits m pool.bm pageIdx n a := by
    intro a ha
    split
    · rw [memsetZero, if_neg]
      rw [memsetZero_pages h hrun]
      rintro ⟨j, _, hjn, hin⟩
      exact h.not_inBitmap_of_inPage (by omega) hin ha
    · rfl
  constructor
  · rw [hkeep _ (Or.inl rfl), hset.header]
  · intro j hj
    have hcount := h.pageCount_lt
    rw [MemPool.used, bit_eq_of_word_eq (hkeep _ (Or.inr ⟨j, hj, rfl⟩)), hset.bits j (by omega)]
    rfl
  · intro a hbm hpages
    have hframe : bitmapSetMultiBits m pool.bm pageIdx n a = m a :=
      hset.frame a fun i hi heq => hbm (Or.inr ⟨i, hi, heq⟩)
    split
    · rw [memsetZero, if_neg, hframe]
      rw [memsetZero_pages h hrun]
      rintro ⟨j, hij, hjn, hin⟩
      exact hpages j hij hjn hin
    · exact hframe
  · intro hzero j a hij hjn hin
    rw [if_pos hzero, memsetZero, if_pos]
    exact (memsetZero_pages h hrun a).mpr ⟨j, hij, hjn, hin⟩

/-- The pages of the pool that are not marked. -/
def MemPool.free (pool : MemPool) (m : Mem) (j : Nat) : Prop := pool.used m j = false

/-- A request for `n` pages either finds the lowest free run and takes it, or changes nothing. -/
theorem mmKgetPages_spec {m : Mem} {pool : MemPool} (h : PoolWf m pool) (pfFlag n : Word) :
    ((mmKgetPages m pool pfFlag n).1 = 0 ∧ (mmKgetPages m pool pfFlag n).2 = m ∧
        (n = 0 ∨ ∀ i, ¬ FirstFit.Run (pool.free m) (pool.pageCount m) n.toNat i)) ∨
      (n ≠ 0 ∧ ∃ i, FirstFit.IsFirst (pool.free m) (pool.pageCount m) n.toNat 0 i ∧
        (mmKgetPages m pool pfFlag n).1 = pool.pageAddr i ∧
        Granted m (mmKgetPages m pool pfFlag n).2 pool i n.toNat (pfFlag &&& pfZero ≠ 0)) := by
  have hcount := h.pageCount_lt
  by_cases hn : n = 0
  · left
    rw [mmKgetPages, if_pos hn]
    exact ⟨rfl, rfl, Or.inl hn⟩
  have hpos : 0 < n.toNat := by bv_omega
  rw [mmKgetPages, if_neg hn]
  rcases bitmapFindFirstBitsGroup_spec m pool.bm 0 n false hpos with ⟨herr, hnone⟩ | hfirst
  · left
    rw [herr, if_pos rfl]
    exact ⟨rfl, rfl, Or.inr fun i => hnone i (Nat.zero_le i)⟩
  · right
    refine ⟨hn, _, hfirst, ?_⟩
    have hrun : _ + n.toNat ≤ pool.pageCount m := hfirst.run.1
    have hne := ne_bitmapErr_of_isFirst hpos hfirst
    have haddr : pool.base + bitmapFindFirstBitsGroup m pool.bm 0 n false * pageSize =
        pool.pageAddr (bitmapFindFirstBitsGroup m pool.bm 0 n false).toNat := by
      rw [MemPool.pageAddr, BitVec.ofNat_toNat, BitVec.setWidth_eq]
    have hgrant := granted_of_run h (pfFlag &&& pfZero ≠ 0) hrun
    rw [if_neg hne, haddr]
    split
    · rename_i hzero
      rw [if_pos hzero] at hgrant
      exact ⟨rfl, hgrant⟩
    · rename_i hzero
      rw [if_neg hzero] at hgrant
      exact ⟨rfl, hgrant⟩

/-- Freeing pages of the pool clears their bits and changes nothing else. -/
theorem mmKfreePages_spec {m : Mem} {pool : MemPool} (h : PoolOk m pool) {i : Nat} {n : Word}
    (hi : i < pool.pageCount m) (hrun : i + n.toNat ≤ pool.pageCount m) :
    BitsTo m (mmKfreePages m pool (pool.pageAddr i) n) pool.bm
      (fun j => if i ≤ j ∧ j < i + n.toNat then false else pool.used m j) := by
  have hcount := h.pageCount_lt
  have hwrap := h.no_wrap
  have halign := h.aligned
  have haddr := h.toNat_pageAddr (Nat.le_of_lt hi)
  have hround : roundDown (pool.pageAddr i) pageSize = pool.pageAddr i := by
    apply BitVec.eq_of_toNat_eq
    rw [toNat_roundDown, haddr]
    omega
  have hend : (pool.base + bitmapGetBitsCount m pool.bm * pageSize).toNat =
      pool.base.toNat + 0x1000 * pool.pageCount m := by
    have hlast := h.toNat_pageAddr (Nat.le_refl (pool.pageCount m))
    rwa [MemPool.pageAddr, MemPool.pageCount, BitVec.ofNat_toNat, BitVec.setWidth_eq] at hlast
  have hstart : (pgNo (pool.pageAddr i) - pgNo pool.base).toNat = i := by
    rw [BitVec.toNat_sub, toNat_pgNo, toNat_pgNo, haddr]
    omega
  have hsum : (pgNo (pool.pageAddr i) - pgNo pool.base + n).toNat = i + n.toNat := by
    rw [BitVec.toNat_add, hstart]
    omega
  simp only [mmKfreePages, hround]
  rw [if_neg, if_neg]
  · have hclear := bitsTo_bitmapConfigMultiBits m pool.bm
      (pgNo (pool.pageAddr i) - pgNo pool.base) n false (by rw [hstart]; exact hrun)
    rw [hstart] at hclear
    exact hclear
  · rw [BitVec.lt_def, hsum]
    exact Nat.not_lt.mpr hrun
  · rw [BitVec.lt_def, BitVec.le_def, hend, haddr]
    omega

/-! ## Single pages

Tasks and page tables take one page at a time; each request takes one from the count of free pages. -/

/-- How many pages of the pool are not marked. -/
def MemPool.freeCount (pool : MemPool) (m : Mem) : Nat :=
  ((Finset.range (pool.pageCount m)).filter fun j => pool.used m j = false).card

theorem freeCount_congr {m m' : Mem} {pool : MemPool} (hheader : m' pool.bm = m pool.bm)
    (hused : ∀ j, j < pool.pageCount m → pool.used m' j = pool.used m j) :
    pool.freeCount m' = pool.freeCount m := by
  have hcount := pageCount_congr hheader
  rw [MemPool.freeCount, MemPool.freeCount, hcount]
  refine congrArg Finset.card (Finset.filter_congr fun j hj => ?_)
  rw [hused j (Finset.mem_range.mp hj)]

theorem run_one_iff {p : Nat → Prop} {bound i : Nat} : FirstFit.Run p bound 1 i ↔ i < bound ∧ p i := by
  constructor
  · intro h
    exact ⟨h.1, h.2 i (Nat.le_refl i) (Nat.lt_succ_self i)⟩
  · rintro ⟨hi, hp⟩
    refine ⟨hi, fun j hij hj => ?_⟩
    have : j = i := by omega
    rw [this]
    exact hp

/-- A request for one page either takes a free page or finds every page marked. -/
theorem mmKgetPage_spec {m : Mem} {pool : MemPool} (h : PoolWf m pool) (pfFlag : Word) :
    ((mmKgetPage m pool pfFlag).1 = 0 ∧ (mmKgetPage m pool pfFlag).2 = m ∧ pool.freeCount m = 0) ∨
      ∃ i, i < pool.pageCount m ∧ pool.used m i = false ∧
        (mmKgetPage m pool pfFlag).1 = pool.pageAddr i ∧
        Granted m (mmKgetPage m pool pfFlag).2 pool i 1 (pfFlag &&& pfZero ≠ 0) := by
  rcases mmKgetPages_spec h pfFlag 1 with ⟨hnull, hmem, hnone⟩ | ⟨-, i, hfirst, hpages, hgrant⟩
  · refine Or.inl ⟨hnull, hmem, ?_⟩
    rcases hnone with h0 | hnone
    · exact absurd h0 (by decide)
    · rw [MemPool.freeCount, Finset.card_eq_zero, Finset.filter_eq_empty_iff]
      intro j hj hused
      exact hnone j (run_one_iff.mpr ⟨Finset.mem_range.mp hj, hused⟩)
  · obtain ⟨hi, hfree⟩ := run_one_iff.mp hfirst.run
    exact Or.inr ⟨i, hi, hfree, hpages, hgrant⟩

theorem Granted.freeCount {m m' : Mem} {pool : MemPool} {i : Nat} {zero : Prop}
    (h : Granted m m' pool i 1 zero) (hi : i < pool.pageCount m) (hfree : pool.used m i = false) :
    pool.freeCount m' + 1 = pool.freeCount m := by
  have hcount := pageCount_congr h.header
  have herase : ((Finset.range (pool.pageCount m)).filter fun j => pool.used m' j = false) =
      ((Finset.range (pool.pageCount m)).filter fun j => pool.used m j = false).erase i := by
    ext j
    simp only [Finset.mem_filter, Finset.mem_range, Finset.mem_erase]
    constructor
    · rintro ⟨hj, hused⟩
      rw [h.used j hj] at hused
      split at hused
      · cases hused
      · exact ⟨by omega, hj, hused⟩
    · rintro ⟨hne, hj, hused⟩
      refine ⟨hj, ?_⟩
      rw [h.used j hj, if_neg (by omega)]
      exact hused
  have hmem : i ∈ (Finset.range (pool.pageCount m)).filter fun j => pool.used m j = false :=
    Finset.mem_filter.mpr ⟨Finset.mem_range.mpr hi, hfree⟩
  rw [MemPool.freeCount, MemPool.freeCount, hcount, herase]
  exact Finset.card_erase_add_one hmem

/-! ## The pool that `mm_init` builds -/

/-- The pool is built empty for every amount of RAM above 1 MB, and its pages end where RAM ends. -/
theorem mmInit_spec (m : Mem) (pageNum : Word) (hlow : 256 < pageNum.toNat)
    (hhigh : pageNum.toNat < 2 ^ 20) :
    ∃ m' pool, mmInit m pageNum = some (m', pool) ∧ PoolWf m' pool ∧
      pool.bm = ptov kernelMemPoolPhyStart ∧
      pool.base.toNat + 0x1000 * pool.pageCount m' = 0xc0000000 + 0x1000 * pageNum.toNat ∧
      ∀ j, j < pool.pageCount m' → pool.used m' j = false := by
  -- `cnt` pages above 1 MB, of which `bmPages` hold the bitmap
  have hcnt : (pageNum - pgNo kernelMemPoolPhyStart).toNat = pageNum.toNat - 256 := by
    have : (pgNo kernelMemPoolPhyStart).toNat = 256 := rfl
    bv_omega
  generalize hc : pageNum - pgNo kernelMemPoolPhyStart = cnt at hcnt
  have hreq : ∀ n : Word, n.toNat < 2 ^ 20 → (bitmapRequiredBufSize n).toNat = (n.toNat + 7) / 8 := by
    intro n hn
    rw [bitmapRequiredBufSize, toNat_divRoundUp (by decide) (by change n.toNat + 8 ≤ _; omega)]
    rfl
  have hbm : (divRoundUp (bitmapRequiredBufSize cnt + 4) pageSize).toNat =
      ((cnt.toNat + 7) / 8 + 4 + 4095) / 4096 := by
    have hsum : (bitmapRequiredBufSize cnt + 4).toNat = (cnt.toNat + 7) / 8 + 4 := by
      rw [BitVec.toNat_add, hreq cnt (by omega)]
      change ((cnt.toNat + 7) / 8 + 4) % 2 ^ 32 = _
      omega
    rw [toNat_divRoundUp (by decide) (by rw [hsum]; change _ + 4096 ≤ _; omega), hsum]
    rfl
  generalize hb : divRoundUp (bitmapRequiredBufSize cnt + 4) pageSize = bmPages at hbm
  have hsub : (cnt - bmPages).toNat = cnt.toNat - bmPages.toNat := by bv_omega
  have hbuf : (bmPages * pageSize).toNat = 4096 * bmPages.toNat := by
    change bmPages.toNat * 4096 % 2 ^ 32 = _
    omega
  have hfits : ¬ bmPages * pageSize - 4 < bitmapRequiredBufSize (cnt - bmPages) := by
    have h4 : (bmPages * pageSize - 4).toNat = 4096 * bmPages.toNat - 4 := by bv_omega
    rw [BitVec.lt_def, hreq _ (by omega), h4, hsub]
    omega
  have hstart : (ptov kernelMemPoolPhyStart).toNat = 0xc0100000 := rfl
  have hbase : (ptov kernelMemPoolPhyStart + bmPages * pageSize).toNat =
      0xc0100000 + 4096 * bmPages.toNat := by
    rw [BitVec.toNat_add, hbuf, hstart]
    omega
  have hall := bitsTo_bitmapConfigAll
    (Function.update m (ptov kernelMemPoolPhyStart) (cnt - bmPages)) (ptov kernelMemPoolPhyStart) false
  rw [Function.update_self] at hall
  have hheader := hall.header
  rw [Function.update_self] at hheader
  refine ⟨bitmapConfigAll (Function.update m (ptov kernelMemPoolPhyStart) (cnt - bmPages))
      (ptov kernelMemPoolPhyStart) false,
    ⟨ptov kernelMemPoolPhyStart, ptov kernelMemPoolPhyStart + bmPages * pageSize⟩, ?_, ?_, rfl, ?_, ?_⟩
  · simp only [mmInit, memPoolInit, hc, hb, bitmapCreateInBuf, if_neg hfits]
  · refine ⟨?_, ?_, ?_⟩ <;> simp only [MemPool.pageCount, hheader, hbase, hsub, hstart] <;> omega
  · simp only [MemPool.pageCount, hheader, hbase, hsub]
    omega
  · intro j hj
    simp only [MemPool.pageCount, hheader] at hj
    rw [MemPool.used, hall.bits j (by omega), if_pos hj]

end I386Kernel
