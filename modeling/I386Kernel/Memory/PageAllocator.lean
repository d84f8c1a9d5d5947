import I386Kernel.Lib.Transition
import I386Kernel.Memory.PagePool
import Mathlib.Data.List.Nodup

/-!
# The page allocator over whole histories

The pool of `mm_init` under any sequence of `mm_kget_pages` and `mm_kfree_pages`. A state remembers, beside the memory, the pages of every live allocation; a free may cover any range of pages that are allocated at the time, whole allocations or parts of them. `PoolInv` ties the bitmap to that record, each call preserves it, and the contract of the allocator is read off it.
-/

namespace I386Kernel

/-- The addresses of `n` consecutive pages from `p` on. -/
def pageRange (p : Word) (n : Nat) : List Word :=
  (List.range n).map fun i => p + BitVec.ofNat 32 i * pageSize

structure PoolSys where
  mem : Mem
  pool : MemPool
  /-- For each live allocation, the pages of it that are not freed yet. -/
  live : List (List Word)

namespace PoolSys

variable (s : PoolSys)

def allocated : List Word := s.live.flatten

def kget (pfFlag n : Word) : PoolSys :=
  let r := mmKgetPages s.mem s.pool pfFlag n
  { s with mem := r.2, live := if r.1 = 0 then s.live else s.live ++ [pageRange r.1 n.toNat] }

def kfree (p n : Word) : PoolSys :=
  { s with
    mem := mmKfreePages s.mem s.pool p n
    live := s.live.map fun pages => pages.filter fun a => a ∉ pageRange p n.toNat }

end PoolSys

inductive PoolCall where
  | kget (pfFlag n : Word)
  | kfree (p n : Word)

/-- A free is only made of page ranges that are allocated. -/
def poolStep (s : PoolSys) : PoolCall → Option PoolSys
  | .kget pfFlag n => some (s.kget pfFlag n)
  | .kfree p n =>
      if p.toNat % 0x1000 = 0 ∧ ∀ a ∈ pageRange p n.toNat, a ∈ s.allocated then some (s.kfree p n) else none

def poolSystem (m : Mem) (pool : MemPool) : TransitionSystem PoolSys PoolCall :=
  .ofFn (fun s => s = ⟨m, pool, []⟩) poolStep

structure PoolInv (s : PoolSys) : Prop where
  ok : PoolOk s.mem s.pool
  marked : ∀ i, i < s.pool.pageCount s.mem →
    (s.pool.used s.mem i = true ↔ s.pool.pageAddr i ∈ s.allocated)
  within : ∀ a ∈ s.allocated, ∃ i, i < s.pool.pageCount s.mem ∧ a = s.pool.pageAddr i
  nodup : s.allocated.Nodup

theorem pageRange_pageAddr (pool : MemPool) (i n : Nat) :
    pageRange (pool.pageAddr i) n = (List.range n).map fun k => pool.pageAddr (i + k) := by
  refine List.map_congr_left fun k _ => ?_
  simp only [MemPool.pageAddr, BitVec.ofNat_add, BitVec.add_mul, BitVec.add_assoc]

theorem mem_pageRange_pageAddr {m : Mem} {pool : MemPool} (h : PoolWf m pool) {i j n : Nat}
    (hrun : i + n ≤ pool.pageCount m) (hj : j ≤ pool.pageCount m) :
    pool.pageAddr j ∈ pageRange (pool.pageAddr i) n ↔ i ≤ j ∧ j < i + n := by
  rw [pageRange_pageAddr, List.mem_map]
  constructor
  · rintro ⟨k, hk, heq⟩
    rw [List.mem_range] at hk
    have := h.pageAddr_inj (by omega) hj heq
    omega
  · rintro ⟨hij, hjn⟩
    exact ⟨j - i, List.mem_range.mpr (by omega), by rw [Nat.add_sub_cancel' hij]⟩

theorem nodup_pageRange {m : Mem} {pool : MemPool} (h : PoolWf m pool) {i n : Nat}
    (hrun : i + n ≤ pool.pageCount m) : (pageRange (pool.pageAddr i) n).Nodup := by
  rw [pageRange_pageAddr]
  refine List.Nodup.map_on (fun k hk k' hk' heq => ?_) List.nodup_range
  rw [List.mem_range] at hk hk'
  have := h.pageAddr_inj (by omega) (by omega) heq
  omega

namespace PoolInv

variable {s : PoolSys}

theorem free_iff (h : PoolInv s) {i : Nat} (hi : i < s.pool.pageCount s.mem) :
    s.pool.free s.mem i ↔ s.pool.pageAddr i ∉ s.allocated := by
  rw [← h.marked i hi, MemPool.free, Bool.not_eq_true]

theorem kget (h : PoolInv s) (pfFlag n : Word) : PoolInv (s.kget pfFlag n) := by
  rcases mmKgetPages_spec h.ok.toPoolWf pfFlag n with ⟨hnull, hmem, -⟩ | ⟨-, i, hfirst, hpages, hgrant⟩
  · have hsame : s.kget pfFlag n = s := by simp only [PoolSys.kget, hnull, hmem, if_true]
    rw [hsame]
    exact h
  · have hrun := hfirst.run.1
    have hcount : s.pool.pageCount (s.kget pfFlag n).mem = s.pool.pageCount s.mem :=
      congrArg BitVec.toNat hgrant.header
    have hpages' : s.kget pfFlag n = { s with
        mem := (mmKgetPages s.mem s.pool pfFlag n).2
        live := s.live ++ [pageRange (s.pool.pageAddr i) n.toNat] } := by
      simp only [PoolSys.kget, hpages, if_neg (h.ok.pageAddr_ne_zero (i := i) (by omega))]
    have halloc : (s.kget pfFlag n).allocated = s.allocated ++ pageRange (s.pool.pageAddr i) n.toNat := by
      rw [hpages', PoolSys.allocated, List.flatten_append, List.flatten_singleton, PoolSys.allocated]
    refine ⟨h.ok.congr hgrant.header, fun j hj => ?_, fun a ha => ?_, ?_⟩
    · change j < s.pool.pageCount _ at hj
      rw [hcount] at hj
      change s.pool.used _ j = true ↔ s.pool.pageAddr j ∈ _
      rw [halloc, List.mem_append, mem_pageRange_pageAddr h.ok.toPoolWf hrun (Nat.le_of_lt hj), ← h.marked j hj]
      change s.pool.used (mmKgetPages s.mem s.pool pfFlag n).2 j = true ↔ _
      rw [hgrant.used j hj]
      by_cases hin : i ≤ j ∧ j < i + n.toNat <;> simp [hin]
    · change ∃ j, j < s.pool.pageCount _ ∧ a = s.pool.pageAddr j
      rw [halloc, List.mem_append] at ha
      rw [hcount]
      rcases ha with ha | ha
      · exact h.within a ha
      · rw [pageRange_pageAddr, List.mem_map] at ha
        obtain ⟨k, hk, rfl⟩ := ha
        rw [List.mem_range] at hk
        exact ⟨i + k, by omega, rfl⟩
    · rw [halloc]
      refine h.nodup.append (nodup_pageRange h.ok.toPoolWf hrun) fun a ha hin => ?_
      -- a page of the run was free, so no live allocation has it
      rw [pageRange_pageAddr, List.mem_map] at hin
      obtain ⟨k, hk, rfl⟩ := hin
      rw [List.mem_range] at hk
      exact (h.free_iff (by omega)).mp (hfirst.run.2 (i + k) (by omega) (by omega)) ha

private theorem allocated_kfree (s : PoolSys) (p n : Word) :
    (s.kfree p n).allocated = s.allocated.filter fun a => a ∉ pageRange p n.toNat := by
  rw [PoolSys.allocated, PoolSys.kfree, PoolSys.allocated, List.filter_flatten]

theorem mmKfreePages_zero (m : Mem) (pool : MemPool) (p : Word) : mmKfreePages m pool p 0 = m := by
  simp [mmKfreePages, bitmapResetMultiBits, bitmapConfigMultiBits]

/-- A range of allocated pages is a range of pool indices. -/
theorem range_of_allocated (h : PoolInv s) {p n : Word} (hn : 0 < n.toNat)
    (hall : ∀ a ∈ pageRange p n.toNat, a ∈ s.allocated) :
    ∃ i, p = s.pool.pageAddr i ∧ i + n.toNat ≤ s.pool.pageCount s.mem := by
  have hp : p ∈ pageRange p n.toNat :=
    List.mem_map.mpr ⟨0, List.mem_range.mpr hn, by simp⟩
  obtain ⟨i, hi, rfl⟩ := h.within p (hall p hp)
  refine ⟨i, rfl, ?_⟩
  by_contra hlong
  -- the range would contain the address one past the last page
  have hlast : s.pool.pageAddr (s.pool.pageCount s.mem) ∈ pageRange (s.pool.pageAddr i) n.toNat := by
    rw [pageRange_pageAddr, List.mem_map]
    exact ⟨s.pool.pageCount s.mem - i, List.mem_range.mpr (by omega), by
      rw [Nat.add_sub_cancel' (Nat.le_of_lt hi)]⟩
  obtain ⟨j, hj, heq⟩ := h.within _ (hall _ hlast)
  have := h.ok.pageAddr_inj (Nat.le_refl _) (Nat.le_of_lt hj) heq
  omega

theorem kfree (h : PoolInv s) {p n : Word} (hall : ∀ a ∈ pageRange p n.toNat, a ∈ s.allocated) :
    PoolInv (s.kfree p n) := by
  rcases Nat.eq_zero_or_pos n.toNat with hn | hn
  · have hsame : (s.kfree p n).allocated = s.allocated := by
      rw [allocated_kfree, hn]
      simp [pageRange]
    have hmem : (s.kfree p n).mem = s.mem := by
      have hn0 : n = 0 := BitVec.eq_of_toNat_eq hn
      rw [PoolSys.kfree, hn0]
      exact mmKfreePages_zero _ _ _
    exact ⟨by rw [hmem]; exact h.ok, by rw [hmem, hsame]; exact h.marked,
      by rw [hmem, hsame]; exact h.within, by rw [hsame]; exact h.nodup⟩
  · obtain ⟨i, rfl, hrun⟩ := h.range_of_allocated hn hall
    have hclear := mmKfreePages_spec h.ok (by omega) hrun
    have hcount : s.pool.pageCount (s.kfree (s.pool.pageAddr i) n).mem = s.pool.pageCount s.mem :=
      congrArg BitVec.toNat hclear.header
    have hlt := h.ok.pageCount_lt
    refine ⟨h.ok.congr hclear.header, fun j hj => ?_, fun a ha => ?_, ?_⟩
    · change j < s.pool.pageCount _ at hj
      rw [hcount] at hj
      change bit (mmKfreePages s.mem s.pool (s.pool.pageAddr i) n) s.pool.bm j = true ↔
        s.pool.pageAddr j ∈ _
      rw [allocated_kfree, List.mem_filter, decide_eq_true_eq,
        mem_pageRange_pageAddr h.ok.toPoolWf hrun (Nat.le_of_lt hj), ← h.marked j hj, hclear.bits j (by omega)]
      by_cases hin : i ≤ j ∧ j < i + n.toNat <;> simp [hin]
    · rw [allocated_kfree, List.mem_filter] at ha
      change ∃ j, j < s.pool.pageCount _ ∧ a = s.pool.pageAddr j
      rw [hcount]
      exact h.within a ha.1
    · rw [allocated_kfree]
      exact h.nodup.filter _

end PoolInv

theorem poolInv_step {s s' : PoolSys} {c : PoolCall} (h : PoolInv s) (hstep : poolStep s c = some s') :
    PoolInv s' := by
  cases c with
  | kget pfFlag n =>
      cases hstep
      exact h.kget pfFlag n
  | kfree p n =>
      simp only [poolStep, Option.ite_none_right_eq_some, Option.some.injEq] at hstep
      obtain ⟨⟨-, hall⟩, rfl⟩ := hstep
      exact h.kfree hall

theorem poolStep_pool {s s' : PoolSys} {c : PoolCall} (hstep : poolStep s c = some s') :
    s'.pool = s.pool := by
  cases c with
  | kget => cases hstep; rfl
  | kfree =>
      simp only [poolStep, Option.ite_none_right_eq_some, Option.some.injEq] at hstep
      rw [← hstep.2]
      rfl

/-- The bitmap keeps its size: no call writes the header. -/
theorem poolStep_pageCount {s s' : PoolSys} {c : PoolCall} (h : PoolInv s)
    (hstep : poolStep s c = some s') : s'.pool.pageCount s'.mem = s.pool.pageCount s.mem := by
  cases c with
  | kget pfFlag n =>
      cases hstep
      rcases mmKgetPages_spec h.ok.toPoolWf pfFlag n with ⟨-, hmem, -⟩ | ⟨-, i, -, -, hgrant⟩
      · change s.pool.pageCount (mmKgetPages s.mem s.pool pfFlag n).2 = _
        rw [hmem]
      · exact congrArg BitVec.toNat hgrant.header
  | kfree p n =>
      simp only [poolStep, Option.ite_none_right_eq_some, Option.some.injEq] at hstep
      obtain ⟨⟨-, hall⟩, rfl⟩ := hstep
      change s.pool.pageCount (mmKfreePages s.mem s.pool p n) = _
      rcases Nat.eq_zero_or_pos n.toNat with hn | hn
      · rw [BitVec.eq_of_toNat_eq (y := 0) hn, PoolInv.mmKfreePages_zero]
      · obtain ⟨i, rfl, hrun⟩ := h.range_of_allocated hn hall
        exact congrArg BitVec.toNat (mmKfreePages_spec h.ok (by omega) hrun).header

theorem poolInv_reachable {m : Mem} {pool : MemPool} (hok : PoolOk m pool)
    (hempty : ∀ i, i < pool.pageCount m → pool.used m i = false) {s : PoolSys}
    (h : (poolSystem m pool).Reachable s) :
    PoolInv s ∧ s.pool = pool ∧ s.pool.pageCount s.mem = pool.pageCount m := by
  refine TransitionSystem.invariant _ (P := fun s => PoolInv s ∧ s.pool = pool ∧
    s.pool.pageCount s.mem = pool.pageCount m) ?_ ?_ h
  · rintro s rfl
    refine ⟨⟨hok, fun i hi => ?_, fun a ha => ?_, List.nodup_nil⟩, rfl, rfl⟩
    · rw [hempty i hi]
      simp [PoolSys.allocated]
    · simp [PoolSys.allocated] at ha
  · rintro s c s' - ⟨hinv, hpool, hcount⟩ hstep
    exact ⟨poolInv_step hinv hstep, (poolStep_pool hstep).trans hpool,
      (poolStep_pageCount hinv hstep).trans hcount⟩

/-- What the allocator owes its callers in one state, for `pageNum` pages of RAM. -/
structure AllocatorContract (pageNum : Word) (s : PoolSys) : Prop where
  marked : ∀ i, i < s.pool.pageCount s.mem →
    (s.pool.used s.mem i = true ↔ s.pool.pageAddr i ∈ s.allocated)
  disjoint : s.live.Pairwise List.Disjoint
  aligned : ∀ a ∈ s.allocated, a.toNat % 0x1000 = 0
  inside : ∀ a ∈ s.allocated, (ptov kernelMemPoolPhyStart).toNat ≤ a.toNat ∧
    a.toNat + 0x1000 ≤ (ptov (pageNum * pageSize)).toNat
  off_bitmap : ∀ a ∈ s.allocated, ∀ b, s.pool.InBitmap s.mem b → ¬ InPage a b
  null_iff : ∀ pfFlag n : Word, (mmKgetPages s.mem s.pool pfFlag n).1 = 0 ↔
    n = 0 ∨ ∀ i, ¬ FirstFit.Run (fun j => s.pool.pageAddr j ∉ s.allocated)
      (s.pool.pageCount s.mem) n.toNat i
  null_unchanged : ∀ pfFlag n : Word, (mmKgetPages s.mem s.pool pfFlag n).1 = 0 →
    (mmKgetPages s.mem s.pool pfFlag n).2 = s.mem
  lowest : ∀ pfFlag n : Word, (mmKgetPages s.mem s.pool pfFlag n).1 ≠ 0 →
    ∃ i, FirstFit.IsFirst (fun j => s.pool.pageAddr j ∉ s.allocated)
      (s.pool.pageCount s.mem) n.toNat 0 i ∧
      (mmKgetPages s.mem s.pool pfFlag n).1 = s.pool.pageAddr i

/-- The contract needs the invariant, the place of the bitmap and the end of the pool, all of which no call changes. -/
theorem PoolInv.contract {s : PoolSys} (h : PoolInv s) {pageNum : Word}
    (hbm : s.pool.bm = ptov kernelMemPoolPhyStart)
    (htop : s.pool.base.toNat + 0x1000 * s.pool.pageCount s.mem = (ptov (pageNum * pageSize)).toNat) :
    AllocatorContract pageNum s := by
  have hfree : ∀ j, j < s.pool.pageCount s.mem →
      (s.pool.free s.mem j ↔ s.pool.pageAddr j ∉ s.allocated) := fun j hj => h.free_iff hj
  have hnone : ∀ n i, FirstFit.Run (s.pool.free s.mem) (s.pool.pageCount s.mem) n i ↔
      FirstFit.Run (fun j => s.pool.pageAddr j ∉ s.allocated) (s.pool.pageCount s.mem) n i :=
    fun n i => FirstFit.run_congr hfree i
  have hspec := mmKgetPages_spec h.ok.toPoolWf
  have hnonnull : ∀ i, i ≤ s.pool.pageCount s.mem → s.pool.pageAddr i ≠ 0 :=
    fun i => h.ok.pageAddr_ne_zero
  constructor
  · exact h.marked
  · exact (List.nodup_flatten.mp h.nodup).2
  · intro a ha
    obtain ⟨i, hi, rfl⟩ := h.within a ha
    exact h.ok.pageAddr_aligned (Nat.le_of_lt hi)
  · intro a ha
    obtain ⟨i, hi, rfl⟩ := h.within a ha
    have hbelow := h.ok.bitmap_below
    rw [h.ok.toNat_pageAddr (Nat.le_of_lt hi), ← hbm, ← htop]
    omega
  · intro a ha b hb hin
    obtain ⟨i, hi, rfl⟩ := h.within a ha
    exact h.ok.not_inBitmap_of_inPage hi hin hb
  · intro pfFlag n
    rcases hspec pfFlag n with ⟨hnull, -, hno⟩ | ⟨hn, i, hfirst, hpages, -⟩
    · exact ⟨fun _ => hno.imp_right fun hrun i hi => hrun i ((hnone _ i).mpr hi), fun _ => hnull⟩
    · refine ⟨fun hnull => absurd (hpages ▸ hnull) (hnonnull i (by have := hfirst.run.1; omega)), ?_⟩
      rintro (h0 | hno)
      · exact absurd h0 hn
      · exact absurd ((hnone _ i).mp hfirst.run) (hno i)
  · intro pfFlag n hnull
    rcases hspec pfFlag n with ⟨-, hmem, -⟩ | ⟨-, i, hfirst, hpages, -⟩
    · exact hmem
    · exact absurd (hpages ▸ hnull) (hnonnull i (by have := hfirst.run.1; omega))
  · intro pfFlag n hne
    rcases hspec pfFlag n with ⟨hnull, -, -⟩ | ⟨-, i, hfirst, hpages, -⟩
    · exact absurd hnull hne
    · exact ⟨i, ⟨hfirst.le, (hnone _ i).mp hfirst.run, fun i' hi' hlt hrun =>
        hfirst.least i' hi' hlt ((hnone _ i').mpr hrun)⟩, hpages⟩

/-- The contract of the page allocator, for every amount of RAM above 1 MB and below 1 GB and every history of requests and frees. -/
theorem page_allocator_contract (m : Mem) (pageNum : Word) (hlow : 256 < pageNum.toNat)
    (hhigh : pageNum.toNat < 0x40000) :
    ∃ m₀ pool, mmInit m pageNum = some (m₀, pool) ∧
      ∀ s, (poolSystem m₀ pool).Reachable s → AllocatorContract pageNum s := by
  obtain ⟨m₀, pool, hinit, hwf, hbm, htop, hempty⟩ := mmInit_spec m pageNum hlow (by omega)
  have hram : (ptov (pageNum * pageSize)).toNat = 0xc0000000 + 0x1000 * pageNum.toNat := by
    have hmul : (pageNum * pageSize).toNat = 0x1000 * pageNum.toNat := by
      change pageNum.toNat * 0x1000 % 2 ^ 32 = _
      omega
    rw [toNat_ptov (by omega), hmul, Nat.add_comm]
  refine ⟨m₀, pool, hinit, fun s hs => ?_⟩
  obtain ⟨hinv, hpool, hcount⟩ := poolInv_reachable ⟨hwf, by omega⟩ hempty hs
  exact hinv.contract (by rw [hpool, hbm]) (by rw [hcount, hpool, htop, hram])

theorem page_allocator_contract_64mb : ∃ m₀ pool, mmInit (fun _ => 0) 0x4000 = some (m₀, pool) ∧
    ∀ s, (poolSystem m₀ pool).Reachable s → AllocatorContract 0x4000 s :=
  page_allocator_contract (fun _ => 0) 0x4000 (by decide) (by decide)

end I386Kernel
