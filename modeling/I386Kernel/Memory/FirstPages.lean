import I386Kernel.Memory.LinearMap
import I386Kernel.Memory.PoolLimits

/-!
# The first pages of the pool

The pool hands out its lowest free page, so the directory and the tables that `kernel_pg_dir_init` makes are its first pages. `FirstPages` says so beside the invariant of the loop: which pages are marked, and that nothing outside the bitmap and these pages has changed.
-/

namespace I386Kernel

/-- The marked pages are the first `k`, and nothing outside the bitmap and these pages has changed since `m₀`. -/
structure FirstPages (pool : MemPool) (m₀ : Mem) (k : Nat) (m : Mem) : Prop where
  header : m pool.bm = m₀ pool.bm
  used : ∀ j, j < pool.pageCount m₀ → (pool.used m j = true ↔ j < k)
  frame : ∀ a, ¬ pool.InBitmap m₀ a → (∀ j, j < k → ¬ InPage (pool.pageAddr j) a) → m a = m₀ a

namespace FirstPages

variable {pool : MemPool} {m₀ m : Mem} {k : Nat}

theorem empty (h : ∀ j, j < pool.pageCount m₀ → pool.used m₀ j = false) : FirstPages pool m₀ 0 m₀ := by
  refine ⟨rfl, fun j hj => ?_, fun a _ _ => rfl⟩
  simp [h j hj]

theorem wf (h : FirstPages pool m₀ k m) (hwf : PoolWf m₀ pool) : PoolWf m pool := hwf.congr h.header

theorem pageCount (h : FirstPages pool m₀ k m) : pool.pageCount m = pool.pageCount m₀ := pageCount_congr h.header

theorem inBitmap_iff (h : FirstPages pool m₀ k m) (a : Word) : pool.InBitmap m a ↔ pool.InBitmap m₀ a := by
  rw [MemPool.InBitmap, MemPool.InBitmap, h.pageCount]

/-- The next request takes page `k`. -/
theorem get (h : FirstPages pool m₀ k m) (hwf : PoolWf m₀ pool) (hk : k < pool.pageCount m₀) (pfFlag : Word) :
    (mmKgetPage m pool pfFlag).1 = pool.pageAddr k ∧
      Granted m (mmKgetPage m pool pfFlag).2 pool k 1 (pfFlag &&& pfZero ≠ 0) ∧
      FirstPages pool m₀ (k + 1) (mmKgetPage m pool pfFlag).2 := by
  have hcount := h.pageCount
  have hfree : ∀ j, j < pool.pageCount m₀ → (pool.used m j = false ↔ k ≤ j) := by
    intro j hj
    rw [← Bool.not_eq_true, h.used j hj, Nat.not_lt]
  have hrun : FirstFit.Run (pool.free m) (pool.pageCount m) 1 k :=
    run_one_iff.mpr ⟨hcount ▸ hk, (hfree k hk).mpr (Nat.le_refl k)⟩
  rcases mmKgetPages_spec (h.wf hwf) pfFlag 1 with ⟨-, -, h0 | hnone⟩ | ⟨-, i, hfirst, hpages, hgrant⟩
  · exact absurd h0 (by decide)
  · exact absurd hrun (hnone k)
  obtain ⟨hi, hifree⟩ := run_one_iff.mp hfirst.run
  have hik : i = k := by
    apply Nat.le_antisymm
    · by_contra hlt
      exact hfirst.least k (Nat.zero_le k) (Nat.lt_of_not_le hlt) hrun
    · exact (hfree i (hcount ▸ hi)).mp hifree
  subst hik
  refine ⟨hpages, hgrant, hgrant.header.trans h.header, fun j hj => ?_, fun a hbitmap hpage => ?_⟩
  · change pool.used (mmKgetPages m pool pfFlag 1).2 j = true ↔ _
    rw [hgrant.used j (hcount.symm ▸ hj)]
    change (if i ≤ j ∧ j < i + 1 then true else pool.used m j) = true ↔ _
    by_cases hji : i ≤ j ∧ j < i + 1
    · rw [if_pos hji]
      exact iff_of_true rfl hji.2
    · rw [if_neg hji, h.used j hj]
      omega
  · refine (hgrant.frame a (mt (h.inBitmap_iff a).mp hbitmap) fun j hij hji => ?_).trans
      (h.frame a hbitmap fun j hj => hpage j (Nat.lt_succ_of_lt hj))
    exact hpage j hji

/-- A store to one of these pages. -/
theorem store (h : FirstPages pool m₀ k m) (hwf : PoolWf m₀ pool) {j x : Nat} (hj : j < pool.pageCount m₀) (hjk : j < k)
    (hx : x < 1024) (val : Word) :
    FirstPages pool m₀ k (Function.update m (wordAt (pool.pageAddr j) (BitVec.ofNat 32 x)) val) := by
  have hin := inPage_wordAt (hwf.pageAddr_aligned (Nat.le_of_lt hj)) hx
  have hout : ∀ a, pool.InBitmap m₀ a → a ≠ wordAt (pool.pageAddr j) (BitVec.ofNat 32 x) := by
    rintro a ha rfl
    exact hwf.not_inBitmap_of_inPage hj hin ha
  refine ⟨?_, fun i hi => ?_, fun a hbitmap hpage => ?_⟩
  · rw [Function.update_of_ne (hout _ (Or.inl rfl))]
    exact h.header
  · rw [used_congr (m := m) (fun a ha => Function.update_of_ne (hout a ((h.inBitmap_iff a).mp ha)) _ _) (h.pageCount.symm ▸ hi)]
    exact h.used i hi
  · rw [Function.update_of_ne]
    · exact h.frame a hbitmap hpage
    · rintro rfl
      exact hpage j hjk hin

theorem freeCount_pos (h : FirstPages pool m₀ k m) (hk : k < pool.pageCount m₀) : 0 < pool.freeCount m := by
  rw [MemPool.freeCount, Finset.card_pos]
  refine ⟨k, Finset.mem_filter.mpr ⟨Finset.mem_range.mpr (h.pageCount.symm ▸ hk), ?_⟩⟩
  rw [← Bool.not_eq_true, h.used k hk]
  exact Nat.lt_irrefl k

/-- The pool never runs out of pages for the tables. -/
theorem supply {n : Nat} (h : FirstPages pool m₀ (tablesFor n + 1) m) (hsupply : tablesFor (n + 1) < pool.pageCount m₀) :
    tablesFor (n + 1) ≤ tablesFor n + pool.freeCount m := by
  by_cases hsame : tablesFor (n + 1) ≤ tablesFor n
  · omega
  · have hnext : tablesFor (n + 1) = tablesFor n + 1 := by
      rw [tablesFor, tablesFor] at hsame ⊢
      omega
    have hpos := h.freeCount_pos (hnext ▸ hsupply)
    omega

end FirstPages

/-! ## The loop of `kernel_pg_dir_init` -/

variable {pool : MemPool} {kernelStart kernelTextEnd : Word} {m₀ : Mem} {dir n : Nat} {tables : Nat → Nat} {st : PgDirState}

theorem pgDirTable_firstPages (hwf : PoolWf m₀ pool) (hn : n < 2 ^ 20)
    (hinv : PgDirInv pool kernelStart kernelTextEnd dir tables (tablesFor n) n st.mem st.pt)
    (hfirst : FirstPages pool m₀ (tablesFor n + 1) st.mem) (hsupply : tablesFor (n + 1) < pool.pageCount m₀) :
    FirstPages pool m₀ (tablesFor (n + 1) + 1)
      (pgDirTable pool (pool.pageAddr dir) (BitVec.ofNat 32 (dirIdx (n / 1024))) st).mem := by
  have hentry := hinv.dir_entry (n / 1024) (by omega)
  have hdir : dir < pool.pageCount m₀ := hfirst.pageCount ▸ hinv.dir_lt
  have hdirk := (hfirst.used dir hdir).mp hinv.dir_used
  rw [pgDirTable]
  by_cases hblock : n / 1024 < tablesFor n
  · have hsame : tablesFor (n + 1) = tablesFor n := by
      rw [tablesFor] at hblock ⊢
      rw [tablesFor]
      omega
    rw [if_pos hblock] at hentry
    rw [if_neg (by rw [hentry]; exact mkPde_ne_zero _), hsame]
    exact hfirst
  · have hnext : tablesFor (n + 1) = tablesFor n + 1 := by
      rw [tablesFor] at hblock ⊢
      rw [tablesFor]
      omega
    rw [if_neg hblock] at hentry
    obtain ⟨-, -, hget⟩ := hfirst.get hwf (hnext ▸ hsupply) (pfZero ||| pfAtomic)
    rw [if_pos hentry, hnext]
    exact hget.store hwf hdir (Nat.lt_succ_of_lt hdirk) (Nat.mod_lt _ (by decide)) _

theorem pgDirStep_firstPages (hwf : PoolWf m₀ pool) (hn : n < 2 ^ 20)
    (hinv : PgDirInv pool kernelStart kernelTextEnd dir tables (tablesFor n) n st.mem st.pt)
    (hfirst : FirstPages pool m₀ (tablesFor n + 1) st.mem) (hsupply : tablesFor (n + 1) < pool.pageCount m₀) :
    FirstPages pool m₀ (tablesFor (n + 1) + 1)
      (pgDirStep pool kernelStart kernelTextEnd (pool.pageAddr dir) st (BitVec.ofNat 32 n)).mem := by
  have htable := pgDirTable_firstPages hwf hn hinv hfirst hsupply
  obtain ⟨tables', hinv', -⟩ := pgDirTable_inv hn hinv (hfirst.supply hsupply)
  have hlast : n / 1024 < n / 1024 + 1 := Nat.lt_succ_self _
  have hlt : tables' (n / 1024) < pool.pageCount m₀ := htable.pageCount ▸ hinv'.tables_lt _ hlast
  have hfirst' := (htable.used _ hlt).mp (hinv'.tables_used _ hlast)
  rw [pgDirStep]
  simp only [virtToPdIdx_ptov hn, virtToPtIdx_ptov hn]
  rw [hinv'.latest _ rfl]
  exact htable.store hwf hlt hfirst' (Nat.mod_lt _ (by decide)) _

theorem pgDirLoop_firstPages {m : Mem} {pt : Word} (hwf : PoolWf m₀ pool)
    (hinit : ∀ tables, PgDirInv pool kernelStart kernelTextEnd dir tables 0 0 m pt) (hfirst : FirstPages pool m₀ 1 m)
    (hn : n ≤ 2 ^ 20) (hsupply : tablesFor n < pool.pageCount m₀) :
    ∃ tables, PgDirInv pool kernelStart kernelTextEnd dir tables (tablesFor n) n
        ((List.range n).foldl (fun st i => pgDirStep pool kernelStart kernelTextEnd (pool.pageAddr dir) st
          (BitVec.ofNat 32 i)) ⟨m, pt⟩).mem
        ((List.range n).foldl (fun st i => pgDirStep pool kernelStart kernelTextEnd (pool.pageAddr dir) st
          (BitVec.ofNat 32 i)) ⟨m, pt⟩).pt ∧
      FirstPages pool m₀ (tablesFor n + 1) ((List.range n).foldl (fun st i => pgDirStep pool kernelStart kernelTextEnd
        (pool.pageAddr dir) st (BitVec.ofNat 32 i)) ⟨m, pt⟩).mem := by
  induction n with
  | zero => exact ⟨fun _ => 0, hinit _, hfirst⟩
  | succ n ih =>
      have hmono : tablesFor n ≤ tablesFor (n + 1) := by
        rw [tablesFor, tablesFor]
        omega
      obtain ⟨tables, hinv, hpages⟩ := ih (by omega) (by omega)
      rw [List.range_succ, List.foldl_append, List.foldl_cons, List.foldl_nil]
      obtain ⟨tables', hinv', -⟩ := pgDirStep_inv (by omega) hinv (hpages.supply hsupply)
      exact ⟨tables', hinv', pgDirStep_firstPages hwf (by omega) hinv hpages hsupply⟩

/-! ## The pool of `mm_init` -/

/-- The bitmap comes first, and nothing else is written. -/
theorem mmInit_layout {m m' : Mem} {pageNum : Word} {pool : MemPool} (h : mmInit m pageNum = some (m', pool)) :
    pool.base = pool.bm + bitmapPages (pageNum - 256) * pageSize ∧ ∀ a, ¬ pool.InBitmap m' a → m' a = m a := by
  have hpg : pgNo kernelMemPoolPhyStart = 256 := by decide
  have hpages : divRoundUp (bitmapRequiredBufSize (pageNum - 256) + 4) pageSize = bitmapPages (pageNum - 256) := rfl
  simp only [mmInit, memPoolInit, hpg, hpages, bitmapCreateInBuf] at h
  split at h
  · cases h
  · rename_i heq
    split at heq
    · cases heq
    · cases heq
      cases h
      refine ⟨rfl, fun a ha => ?_⟩
      have hall := bitsTo_bitmapConfigAll (Function.update m (ptov kernelMemPoolPhyStart)
        (pageNum - 256 - bitmapPages (pageNum - 256))) (ptov kernelMemPoolPhyStart) false
      have hne : a ≠ ptov kernelMemPoolPhyStart := fun heq => ha (Or.inl heq)
      rw [hall.frame a, Function.update_of_ne hne]
      rintro i hi rfl
      refine ha (Or.inr ⟨i, ?_, rfl⟩)
      rw [MemPool.pageCount, hall.header]
      exact hi

theorem toNat_bitmapPages {cnt : Word} (hcnt : cnt.toNat < 2 ^ 20) :
    (bitmapPages cnt).toNat = ((cnt.toNat + 7) / 8 + 4 + 4095) / 4096 := by
  have hreq : (bitmapRequiredBufSize cnt).toNat = (cnt.toNat + 7) / 8 := by
    rw [bitmapRequiredBufSize, toNat_divRoundUp (by decide) (by change cnt.toNat + 8 ≤ _; omega)]
    rfl
  have hsum : (bitmapRequiredBufSize cnt + 4).toNat = (cnt.toNat + 7) / 8 + 4 := by
    rw [BitVec.toNat_add, hreq]
    change ((cnt.toNat + 7) / 8 + 4) % 2 ^ 32 = _
    omega
  rw [bitmapPages, toNat_divRoundUp (by decide) (by rw [hsum]; change _ + 4096 ≤ _; omega), hsum]
  rfl

/-- What `kernel_pg_dir_init` makes of a pool that is still empty: the directory is its first page, and the tables are the next ones. -/
theorem kernelPgDirInit_spec {m : Mem} {pool : MemPool} {initRamPages : Word} (hwf : PoolWf m pool)
    (hempty : ∀ j, j < pool.pageCount m → pool.used m j = false) (hram : initRamPages.toNat < 2 ^ 20)
    (hsupply : tablesFor initRamPages.toNat < pool.pageCount m) (kernelStart kernelTextEnd : Word) :
    (kernelPgDirInit m pool kernelStart kernelTextEnd initRamPages).2 = vtop (pool.pageAddr 0) ∧
      FirstPages pool m (tablesFor initRamPages.toNat + 1)
        (kernelPgDirInit m pool kernelStart kernelTextEnd initRamPages).1 ∧
      ∃ tables pt, PgDirInv pool kernelStart kernelTextEnd 0 tables (tablesFor initRamPages.toNat) initRamPages.toNat
        (kernelPgDirInit m pool kernelStart kernelTextEnd initRamPages).1 pt := by
  have hpos : 0 < pool.pageCount m := Nat.lt_of_le_of_lt (Nat.zero_le _) hsupply
  obtain ⟨haddr, hgrant, hfirst⟩ := (FirstPages.empty hempty).get hwf hpos (pfZero ||| pfAtomic)
  have hinit : ∀ tables, PgDirInv pool kernelStart kernelTextEnd 0 tables 0 0
      (mmKgetPage m pool (pfZero ||| pfAtomic)).2 0 := by
    intro tables
    have hnone : ∀ {p : Nat → Prop} d, d < 0 → p d := fun d hd => absurd hd (Nat.not_lt_zero d)
    refine ⟨hfirst.wf hwf, hfirst.pageCount.symm ▸ hpos, (hfirst.used 0 hpos).mpr Nat.one_pos, hnone, hnone, hnone,
      fun d _ hd => absurd hd (Nat.not_lt_zero d), fun d hd => absurd hd (Nat.succ_ne_zero d).symm, fun d hd => ?_,
      fun d _ hd => absurd hd (Nat.not_lt_zero d)⟩
    rw [if_neg (Nat.not_lt_zero d)]
    exact hgrant.zeroed (by decide) 0 _ (Nat.le_refl 0) Nat.one_pos
      (inPage_wordAt (hwf.pageAddr_aligned (Nat.zero_le _)) (Nat.mod_lt _ (by decide)))
  obtain ⟨tables, hinv, hpages⟩ := pgDirLoop_firstPages hwf hinit hfirst (Nat.le_of_lt hram) hsupply
  rw [kernelPgDirInit]
  simp only [haddr]
  exact ⟨trivial, hpages, tables, _, hinv⟩

/-- Where the pool of `mm_init` begins, and that the tables leave pages in it. -/
theorem mmInit_supply {m m' : Mem} {pageNum : Word} {pool : MemPool} (hinit : mmInit m pageNum = some (m', pool))
    (hbm : pool.bm = ptov kernelMemPoolPhyStart)
    (htop : pool.base.toNat + 0x1000 * pool.pageCount m' = 0xc0000000 + 0x1000 * pageNum.toNat)
    (hlow : 1024 ≤ pageNum.toNat) (hhigh : pageNum.toNat < 0x40000) :
    0xc0100000 ≤ pool.base.toNat ∧ pool.base.toNat ≤ 0xc0109000 ∧ tablesFor pageNum.toNat < pool.pageCount m' := by
  have hcnt : (pageNum - 256).toNat = pageNum.toNat - 256 := by bv_omega
  have hpages := toNat_bitmapPages (show (pageNum - 256).toNat < 2 ^ 20 by omega)
  have hbase : pool.base.toNat = 0xc0100000 + 0x1000 * (bitmapPages (pageNum - 256)).toNat := by
    rw [(mmInit_layout hinit).1, hbm, BitVec.toNat_add, BitVec.toNat_mul]
    change (0xc0100000 + _ * 0x1000 % 2 ^ 32) % 2 ^ 32 = _
    omega
  have htables : tablesFor pageNum.toNat = (pageNum.toNat + 1023) / 1024 := rfl
  omega

end I386Kernel
