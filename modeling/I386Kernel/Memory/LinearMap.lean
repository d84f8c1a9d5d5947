import I386Kernel.Memory.PageTable

/-!
# The page tables realise the linear map

The loop of `kernel_pg_dir_init` is an induction over pages that keeps `PgDirInv`: which pages of the pool hold the tables made so far, that they are distinct pages, and the full contents of the directory and of every table. The directory index of page `i` is that of the directory `i / 1024` counted from 3 GB, modulo 1024, so no table is met twice before the addresses have wrapped all the way around.
-/

namespace I386Kernel

/-! ## Indices -/

private theorem toNat_page {i : Nat} (hi : i < 2 ^ 20) :
    (BitVec.ofNat 32 i <<< pageBits : Word).toNat = 0x1000 * i := by
  rw [BitVec.toNat_shiftLeft, BitVec.toNat_ofNat, pageBits, Nat.shiftLeft_eq]
  omega

private theorem toNat_ptov_mod (paddr : Word) :
    (ptov paddr).toNat = (paddr.toNat + 0xc0000000) % 2 ^ 32 := by
  rw [ptov, BitVec.toNat_add]
  rfl

private theorem toNat_vtop (vaddr : Word) : (vtop vaddr).toNat = (vaddr.toNat + 0x40000000) % 2 ^ 32 := by
  rw [vtop, BitVec.toNat_sub, Nat.add_comm]
  rfl

/-- The directory entry of the 4 MB block `d` above 3 GB. -/
def dirIdx (d : Nat) : Nat := (768 + d) % 1024

theorem virtToPdIdx_ptov {i : Nat} (hi : i < 2 ^ 20) :
    virtToPdIdx (ptov (BitVec.ofNat 32 i <<< pageBits)) = BitVec.ofNat 32 (dirIdx (i / 1024)) := by
  apply BitVec.eq_of_toNat_eq
  rw [virtToPdIdx, BitVec.toNat_ushiftRight, toNat_ptov_mod, toNat_page hi, Nat.shiftRight_eq_div_pow,
    BitVec.toNat_ofNat, dirIdx]
  omega

theorem virtToPtIdx_eq (v : Word) : virtToPtIdx v = v >>> 12 &&& 0x3ff := by
  rw [virtToPtIdx, pageBits, BitVec.ushiftRight_and_distrib]
  rfl

theorem toNat_virtToPtIdx (v : Word) : (virtToPtIdx v).toNat = v.toNat / 4096 % 1024 := by
  rw [virtToPtIdx_eq, BitVec.toNat_and, BitVec.toNat_ushiftRight, Nat.shiftRight_eq_div_pow]
  exact Nat.and_two_pow_sub_one_eq_mod _ 10

theorem virtToPtIdx_ptov {i : Nat} (hi : i < 2 ^ 20) :
    virtToPtIdx (ptov (BitVec.ofNat 32 i <<< pageBits)) = BitVec.ofNat 32 (i % 1024) := by
  apply BitVec.eq_of_toNat_eq
  rw [toNat_virtToPtIdx, toNat_ptov_mod, toNat_page hi, BitVec.toNat_ofNat]
  omega

/-! ## Words of a page -/

private theorem toNat_wordAt {p : Word} (hp : p.toNat % 0x1000 = 0) {x : Nat} (hx : x < 1024) :
    (wordAt p (BitVec.ofNat 32 x)).toNat = p.toNat + 4 * x := by
  have hlt := p.isLt
  have hmul : ((4 : Word) * BitVec.ofNat 32 x).toNat = 4 * x := by
    change 4 * (x % 2 ^ 32) % 2 ^ 32 = _
    omega
  rw [wordAt, BitVec.toNat_add, hmul]
  omega

theorem inPage_wordAt {p : Word} (hp : p.toNat % 0x1000 = 0) {x : Nat} (hx : x < 1024) :
    InPage p (wordAt p (BitVec.ofNat 32 x)) := by
  rw [InPage, toNat_wordAt hp hx]
  omega

theorem wordAt_inj {p : Word} (hp : p.toNat % 0x1000 = 0) {x y : Nat} (hx : x < 1024) (hy : y < 1024)
    (h : wordAt p (BitVec.ofNat 32 x) = wordAt p (BitVec.ofNat 32 y)) : x = y := by
  have hnat := congrArg BitVec.toNat h
  rw [toNat_wordAt hp hx, toNat_wordAt hp hy] at hnat
  omega

/-- Words of two pages of the pool are different words. -/
theorem PoolWf.wordAt_ne {m : Mem} {pool : MemPool} (h : PoolWf m pool) {i j x y : Nat}
    (hi : i < pool.pageCount m) (hj : j < pool.pageCount m) (hij : i ≠ j) (hx : x < 1024) (hy : y < 1024) :
    wordAt (pool.pageAddr i) (BitVec.ofNat 32 x) ≠ wordAt (pool.pageAddr j) (BitVec.ofNat 32 y) := by
  intro heq
  have hi' := h.pageAddr_aligned (Nat.le_of_lt hi)
  have hj' := h.pageAddr_aligned (Nat.le_of_lt hj)
  have hin := inPage_wordAt hj' hy
  rw [← heq] at hin
  exact hij (h.pageAddr_inj (Nat.le_of_lt hi) (Nat.le_of_lt hj)
    (InPage.unique hi' hj' (inPage_wordAt hi' hx) hin))

/-! ## The invariant of the loop -/

/-- The entry of page `i`. -/
def pageEntry (kernelStart kernelTextEnd : Word) (i : Nat) : Word :=
  mkPte (BitVec.ofNat 32 i <<< pageBits)
    (pgFlags kernelStart kernelTextEnd (ptov (BitVec.ofNat 32 i <<< pageBits)))

/-- With `t` tables made and the first `k` pages mapped: page `dir` of the pool holds the directory and page `tables d` the table of the 4 MB block `d`. -/
structure PgDirInv (pool : MemPool) (kernelStart kernelTextEnd : Word) (dir : Nat) (tables : Nat → Nat)
    (t k : Nat) (m : Mem) (pt : Word) : Prop where
  wf : PoolWf m pool
  dir_lt : dir < pool.pageCount m
  dir_used : pool.used m dir = true
  tables_lt : ∀ d, d < t → tables d < pool.pageCount m
  tables_used : ∀ d, d < t → pool.used m (tables d) = true
  tables_ne : ∀ d, d < t → tables d ≠ dir
  tables_inj : ∀ d e, d < t → e < t → tables d = tables e → d = e
  latest : ∀ d, t = d + 1 → pt = pool.pageAddr (tables d)
  dir_entry : ∀ d, d < 1024 → m (wordAt (pool.pageAddr dir) (BitVec.ofNat 32 (dirIdx d))) =
    if d < t then mkPde (vtop (pool.pageAddr (tables d))) (pteP ||| pteW) else 0
  table_entry : ∀ d r, d < t → r < 1024 → m (wordAt (pool.pageAddr (tables d)) (BitVec.ofNat 32 r)) =
    if 1024 * d + r < k then pageEntry kernelStart kernelTextEnd (1024 * d + r) else 0

namespace PgDirInv

variable {pool : MemPool} {kernelStart kernelTextEnd : Word} {dir t k : Nat} {tables : Nat → Nat}
  {m : Mem} {pt : Word}

private theorem dirIdx_lt (d : Nat) : dirIdx d < 1024 := Nat.mod_lt _ (by decide)

private theorem dirIdx_inj {d e : Nat} (hd : d < 1024) (he : e < 1024) (h : dirIdx d = dirIdx e) : d = e := by
  rw [dirIdx, dirIdx] at h
  omega

/-- Writing one word of a marked page leaves the bitmap alone. -/
private theorem used_update (hwf : PoolWf m pool) {i x : Nat} (hi : i < pool.pageCount m)
    (hx : x < 1024) (w : Word) {j : Nat} (hj : j < pool.pageCount m) :
    pool.used (Function.update m (wordAt (pool.pageAddr i) (BitVec.ofNat 32 x)) w) j = pool.used m j := by
  refine used_congr (m := m) ?_ hj
  intro a ha
  refine Function.update_of_ne ?_ _ _
  rintro rfl
  exact hwf.not_inBitmap_of_inPage hi
    (inPage_wordAt (hwf.pageAddr_aligned (Nat.le_of_lt hi)) hx) ha

private theorem header_update (hwf : PoolWf m pool) {i x : Nat} (hi : i < pool.pageCount m)
    (hx : x < 1024) (w : Word) :
    Function.update m (wordAt (pool.pageAddr i) (BitVec.ofNat 32 x)) w pool.bm = m pool.bm := by
  refine Function.update_of_ne (fun h => ?_) _ _
  exact hwf.not_inBitmap_of_inPage hi
    (inPage_wordAt (hwf.pageAddr_aligned (Nat.le_of_lt hi)) hx) (Or.inl h.symm)

/-- Filling the entry of page `k` in the table of its block. -/
theorem write (h : PgDirInv pool kernelStart kernelTextEnd dir tables (k / 1024 + 1) k m pt) :
    PgDirInv pool kernelStart kernelTextEnd dir tables (k / 1024 + 1) (k + 1)
      (Function.update m (wordAt pt (BitVec.ofNat 32 (k % 1024))) (pageEntry kernelStart kernelTextEnd k))
      pt := by
  have hd : k / 1024 < k / 1024 + 1 := Nat.lt_succ_self _
  have hr : k % 1024 < 1024 := Nat.mod_lt _ (by decide)
  have hlt := h.tables_lt _ hd
  have hpt := h.latest _ rfl
  subst hpt
  have hheader := header_update h.wf hlt hr (pageEntry kernelStart kernelTextEnd k)
  have hcount := pageCount_congr hheader
  constructor
  · exact h.wf.congr hheader
  · rw [hcount]
    exact h.dir_lt
  · exact (used_update h.wf hlt hr _ h.dir_lt).trans h.dir_used
  · intro d hdt
    rw [hcount]
    exact h.tables_lt d hdt
  · intro d hdt
    exact (used_update h.wf hlt hr _ (h.tables_lt d hdt)).trans (h.tables_used d hdt)
  · exact h.tables_ne
  · exact h.tables_inj
  · exact h.latest
  · intro d hd1024
    rw [Function.update_of_ne (h.wf.wordAt_ne h.dir_lt hlt (h.tables_ne _ hd).symm (dirIdx_lt d) hr)]
    exact h.dir_entry d hd1024
  · intro d r hdt hr1024
    by_cases hentry : d = k / 1024 ∧ r = k % 1024
    · obtain ⟨rfl, rfl⟩ := hentry
      have hk : 1024 * (k / 1024) + k % 1024 = k := Nat.div_add_mod k 1024
      rw [hk, if_pos (Nat.lt_succ_self k)]
      exact Function.update_self _ _ _
    · have hne : wordAt (pool.pageAddr (tables d)) (BitVec.ofNat 32 r) ≠
          wordAt (pool.pageAddr (tables (k / 1024))) (BitVec.ofNat 32 (k % 1024)) := by
        by_cases htab : tables d = tables (k / 1024)
        · have hdk := h.tables_inj d _ hdt hd htab
          subst hdk
          intro heq
          exact hentry ⟨rfl, wordAt_inj (h.wf.pageAddr_aligned (Nat.le_of_lt hlt)) hr1024 hr heq⟩
        · exact h.wf.wordAt_ne (h.tables_lt d hdt) hlt htab hr1024 hr
      have hiff : 1024 * d + r < k + 1 ↔ 1024 * d + r < k := by omega
      rw [Function.update_of_ne hne, h.table_entry d r hdt hr1024]
      exact if_congr hiff.symm rfl rfl

/-- Page `i` of the pool is taken and zeroed to hold the next table; nothing else that the invariant speaks of changes. -/
theorem take {m' : Mem} {i : Nat} (h : PgDirInv pool kernelStart kernelTextEnd dir tables t (1024 * t) m pt)
    (hi : i < pool.pageCount m) (hunused : pool.used m i = false) (hgrant : Granted m m' pool i 1 True) :
    PoolWf m' pool ∧ dir ≠ i ∧ (∀ d, d < t → tables d ≠ i) ∧
      (∀ j, j < pool.pageCount m → pool.used m j = true ∨ j = i → pool.used m' j = true) ∧
      (∀ j x, j < pool.pageCount m → j ≠ i → x < 1024 →
        m' (wordAt (pool.pageAddr j) (BitVec.ofNat 32 x)) = m (wordAt (pool.pageAddr j) (BitVec.ofNat 32 x))) ∧
      ∀ x, x < 1024 → m' (wordAt (pool.pageAddr i) (BitVec.ofNat 32 x)) = 0 := by
  have hmarked : ∀ j, pool.used m j = true → j ≠ i := by
    rintro j hj rfl
    rw [hj] at hunused
    cases hunused
  refine ⟨h.wf.congr hgrant.header, hmarked dir h.dir_used, fun d hd => hmarked _ (h.tables_used d hd),
    fun j hj hmark => ?_, fun j x hj hne hx => ?_, fun x hx => ?_⟩
  · rw [hgrant.used j hj]
    rcases hmark with hmark | rfl
    · rw [hmark, ite_self]
    · rw [if_pos (by omega)]
  · have hin := inPage_wordAt (h.wf.pageAddr_aligned (Nat.le_of_lt hj)) hx
    refine hgrant.frame _ (h.wf.not_inBitmap_of_inPage hj hin) fun j' hij' hj' hin' => ?_
    obtain rfl : j' = i := by omega
    exact hne (h.wf.pageAddr_inj (Nat.le_of_lt hj) (Nat.le_of_lt hi)
      (InPage.unique (h.wf.pageAddr_aligned (Nat.le_of_lt hj)) (h.wf.pageAddr_aligned (Nat.le_of_lt hi))
        hin hin'))
  · exact hgrant.zeroed trivial i _ (Nat.le_refl i) (Nat.lt_succ_self i)
      (inPage_wordAt (h.wf.pageAddr_aligned (Nat.le_of_lt hi)) hx)

/-- Making the table of a new block. -/
theorem link {m' : Mem} {i : Nat} (h : PgDirInv pool kernelStart kernelTextEnd dir tables t (1024 * t) m pt)
    (ht : t < 1024) (hi : i < pool.pageCount m) (hunused : pool.used m i = false)
    (hgrant : Granted m m' pool i 1 True) :
    PgDirInv pool kernelStart kernelTextEnd dir (Function.update tables t i) (t + 1) (1024 * t)
      (Function.update m' (wordAt (pool.pageAddr dir) (BitVec.ofNat 32 (dirIdx t)))
        (mkPde (vtop (pool.pageAddr i)) (pteP ||| pteW))) (pool.pageAddr i) := by
  obtain ⟨hwf, hdir_ne, htab_ne, hmark, hkeep, hzero⟩ := h.take hi hunused hgrant
  have hcount := pageCount_congr hgrant.header
  have hdir_lt : dir < pool.pageCount m' := by
    rw [hcount]
    exact h.dir_lt
  have hheader := header_update hwf hdir_lt (dirIdx_lt t) (mkPde (vtop (pool.pageAddr i)) (pteP ||| pteW))
  have hcount' := (pageCount_congr hheader).trans hcount
  have hused : ∀ j, j < pool.pageCount m → pool.used m j = true ∨ j = i →
      pool.used (Function.update m' (wordAt (pool.pageAddr dir) (BitVec.ofNat 32 (dirIdx t)))
        (mkPde (vtop (pool.pageAddr i)) (pteP ||| pteW))) j = true := fun j hj hm =>
    (used_update hwf hdir_lt (dirIdx_lt t) _ (by rwa [hcount])).trans (hmark j hj hm)
  -- a table index below `t + 1` is an old table or the new one
  have hold : ∀ d, d < t → Function.update tables t i d = tables d := fun d hd =>
    Function.update_of_ne (Nat.ne_of_lt hd) _ _
  have hnew : Function.update tables t i t = i := Function.update_self _ _ _
  have hcases : ∀ d, d < t + 1 → d < t ∨ d = t := fun d hd => by omega
  constructor
  · exact hwf.congr hheader
  · rw [hcount']
    exact h.dir_lt
  · exact hused dir h.dir_lt (Or.inl h.dir_used)
  · intro d hd
    rw [hcount']
    rcases hcases d hd with hdt | rfl
    · rw [hold d hdt]
      exact h.tables_lt d hdt
    · rwa [hnew]
  · intro d hd
    rcases hcases d hd with hdt | rfl
    · rw [hold d hdt]
      exact hused _ (h.tables_lt d hdt) (Or.inl (h.tables_used d hdt))
    · rw [hnew]
      exact hused i hi (Or.inr rfl)
  · intro d hd
    rcases hcases d hd with hdt | rfl
    · rw [hold d hdt]
      exact h.tables_ne d hdt
    · rw [hnew]
      exact hdir_ne.symm
  · intro d e hd he heq
    rcases hcases d hd with hdt | rfl <;> rcases hcases e he with het | rfl
    · rw [hold d hdt, hold e het] at heq
      exact h.tables_inj d e hdt het heq
    · rw [hold d hdt, hnew] at heq
      exact absurd heq (htab_ne d hdt)
    · rw [hold e het, hnew] at heq
      exact absurd heq.symm (htab_ne e het)
    · rfl
  · intro d hd
    obtain rfl : d = t := by omega
    rw [hnew]
  · intro d hd
    by_cases hdt : d = t
    · subst hdt
      rw [if_pos (Nat.lt_succ_self d), hnew]
      exact Function.update_self _ _ _
    · have hne : wordAt (pool.pageAddr dir) (BitVec.ofNat 32 (dirIdx d)) ≠
          wordAt (pool.pageAddr dir) (BitVec.ofNat 32 (dirIdx t)) := fun heq =>
        hdt (dirIdx_inj hd ht (wordAt_inj (hwf.pageAddr_aligned (Nat.le_of_lt hdir_lt)) (dirIdx_lt d)
          (dirIdx_lt t) heq))
      rw [Function.update_of_ne hne, hkeep dir _ h.dir_lt hdir_ne (dirIdx_lt d), h.dir_entry d hd]
      by_cases hlt : d < t
      · rw [if_pos hlt, if_pos (by omega), hold d hlt]
      · rw [if_neg hlt, if_neg (by omega)]
  · intro d r hd hr
    rcases hcases d hd with hdt | rfl
    · rw [hold d hdt, Function.update_of_ne (hwf.wordAt_ne (by rw [hcount]; exact h.tables_lt d hdt) hdir_lt
        (h.tables_ne d hdt) hr (dirIdx_lt t)), hkeep _ _ (h.tables_lt d hdt) (htab_ne d hdt) hr]
      exact h.table_entry d r hdt hr
    · rw [hnew, Function.update_of_ne (hwf.wordAt_ne (by rwa [hcount]) hdir_lt hdir_ne.symm hr (dirIdx_lt d)),
        if_neg (by omega)]
      exact hzero r hr

theorem freeCount_link {m' : Mem} {i : Nat}
    (h : PgDirInv pool kernelStart kernelTextEnd dir tables t (1024 * t) m pt) {zero : Prop}
    (hgrant : Granted m m' pool i 1 zero) (w : Word) :
    pool.freeCount (Function.update m' (wordAt (pool.pageAddr dir) (BitVec.ofNat 32 (dirIdx t))) w) =
      pool.freeCount m' := by
  have hwf : PoolWf m' pool := h.wf.congr hgrant.header
  have hdir_lt : dir < pool.pageCount m' := by
    rw [pageCount_congr hgrant.header]
    exact h.dir_lt
  exact freeCount_congr (header_update hwf hdir_lt (dirIdx_lt t) w)
    fun j hj => used_update hwf hdir_lt (dirIdx_lt t) w hj

theorem freeCount_write (h : PgDirInv pool kernelStart kernelTextEnd dir tables (k / 1024 + 1) k m pt)
    (w : Word) :
    pool.freeCount (Function.update m (wordAt pt (BitVec.ofNat 32 (k % 1024))) w) = pool.freeCount m := by
  have hlt := h.tables_lt _ (Nat.lt_succ_self (k / 1024))
  have hr : k % 1024 < 1024 := Nat.mod_lt _ (by decide)
  rw [h.latest _ rfl]
  exact freeCount_congr (header_update h.wf hlt hr w) fun j hj => used_update h.wf hlt hr w hj

end PgDirInv

/-! ## The loop -/

/-- How many tables the first `k` pages need. -/
def tablesFor (k : Nat) : Nat := (k + 1023) / 1024

theorem tablesFor_mul (d : Nat) : tablesFor (1024 * d) = d := by
  rw [tablesFor]
  omega

theorem tablesFor_succ (k : Nat) : tablesFor (k + 1) = k / 1024 + 1 := by
  rw [tablesFor]
  omega

theorem tablesFor_of_ne {k : Nat} (hk : k % 1024 ≠ 0) : tablesFor k = k / 1024 + 1 := by
  rw [tablesFor]
  omega

/-- The block that makes a missing table leaves the table of page `k` in `pt`, for one free page when the block of `k` is new. -/
theorem pgDirTable_inv {pool : MemPool} {kernelStart kernelTextEnd : Word} {dir k : Nat} {tables : Nat → Nat}
    {st : PgDirState} (hk : k < 2 ^ 20)
    (h : PgDirInv pool kernelStart kernelTextEnd dir tables (tablesFor k) k st.mem st.pt)
    (hfree : tablesFor (k + 1) ≤ tablesFor k + pool.freeCount st.mem) :
    ∃ tables', PgDirInv pool kernelStart kernelTextEnd dir tables' (k / 1024 + 1) k
        (pgDirTable pool (pool.pageAddr dir) (BitVec.ofNat 32 (dirIdx (k / 1024))) st).mem
        (pgDirTable pool (pool.pageAddr dir) (BitVec.ofNat 32 (dirIdx (k / 1024))) st).pt ∧
      pool.freeCount (pgDirTable pool (pool.pageAddr dir) (BitVec.ofNat 32 (dirIdx (k / 1024))) st).mem +
        tablesFor (k + 1) = pool.freeCount st.mem + tablesFor k := by
  have hentry := h.dir_entry (k / 1024) (by omega)
  rw [tablesFor_succ] at hfree ⊢
  by_cases hblock : k % 1024 = 0
  · -- the first page of a block: its directory entry is still empty
    obtain ⟨d, rfl⟩ : ∃ d, k = 1024 * d := ⟨k / 1024, by omega⟩
    have hd : 1024 * d / 1024 = d := Nat.mul_div_cancel_left d (by decide)
    rw [tablesFor_mul] at h hfree hentry ⊢
    rw [hd] at hfree hentry ⊢
    rw [if_neg (Nat.lt_irrefl d)] at hentry
    rw [pgDirTable, if_pos hentry]
    obtain ⟨-, -, hnone⟩ | ⟨i, hi, hunused, haddr, hgrant⟩ := mmKgetPage_spec h.wf (pfZero ||| pfAtomic)
    · omega
    have hgrant' : Granted st.mem (mmKgetPage st.mem pool (pfZero ||| pfAtomic)).2 pool i 1 True :=
      ⟨hgrant.header, hgrant.used, hgrant.frame, fun _ => hgrant.zeroed (by decide)⟩
    have hdrop := hgrant.freeCount hi hunused
    have hlink := h.link (by omega) hi hunused hgrant'
    have hcount := h.freeCount_link hgrant (mkPde (vtop (pool.pageAddr i)) (pteP ||| pteW))
    simp only [haddr]
    exact ⟨Function.update tables d i, hlink, by omega⟩
  · rw [tablesFor_of_ne hblock] at h hentry ⊢
    rw [if_pos (Nat.lt_succ_self _)] at hentry
    have hne : ¬ st.mem (wordAt (pool.pageAddr dir) (BitVec.ofNat 32 (dirIdx (k / 1024)))) = 0 := by
      rw [hentry]
      exact mkPde_ne_zero _
    rw [pgDirTable, if_neg hne]
    exact ⟨tables, h, rfl⟩

theorem pgDirStep_inv {pool : MemPool} {kernelStart kernelTextEnd : Word} {dir k : Nat} {tables : Nat → Nat}
    {st : PgDirState} (hk : k < 2 ^ 20)
    (h : PgDirInv pool kernelStart kernelTextEnd dir tables (tablesFor k) k st.mem st.pt)
    (hfree : tablesFor (k + 1) ≤ tablesFor k + pool.freeCount st.mem) :
    ∃ tables', PgDirInv pool kernelStart kernelTextEnd dir tables' (tablesFor (k + 1)) (k + 1)
        (pgDirStep pool kernelStart kernelTextEnd (pool.pageAddr dir) st (BitVec.ofNat 32 k)).mem
        (pgDirStep pool kernelStart kernelTextEnd (pool.pageAddr dir) st (BitVec.ofNat 32 k)).pt ∧
      pool.freeCount (pgDirStep pool kernelStart kernelTextEnd (pool.pageAddr dir) st
        (BitVec.ofNat 32 k)).mem + tablesFor (k + 1) = pool.freeCount st.mem + tablesFor k := by
  obtain ⟨tables', hinv, hcount⟩ := pgDirTable_inv hk h hfree
  have hstep : pgDirStep pool kernelStart kernelTextEnd (pool.pageAddr dir) st (BitVec.ofNat 32 k) =
      { pgDirTable pool (pool.pageAddr dir) (BitVec.ofNat 32 (dirIdx (k / 1024))) st with
        mem := Function.update
          (pgDirTable pool (pool.pageAddr dir) (BitVec.ofNat 32 (dirIdx (k / 1024))) st).mem
          (wordAt (pgDirTable pool (pool.pageAddr dir) (BitVec.ofNat 32 (dirIdx (k / 1024))) st).pt
            (BitVec.ofNat 32 (k % 1024)))
          (pageEntry kernelStart kernelTextEnd k) } := by
    rw [pgDirStep]
    simp only [virtToPdIdx_ptov hk, virtToPtIdx_ptov hk, vtop_ptov]
    rfl
  refine ⟨tables', ?_, ?_⟩
  · rw [hstep, tablesFor_succ]
    exact hinv.write
  · rw [hstep, hinv.freeCount_write]
    exact hcount

/-- How the kernel maps page `i` of RAM: to its own frame, for the supervisor only, read only in the kernel text. -/
def linearTranslation (kernelStart kernelTextEnd : Word) (i : Word) : Translation where
  frame := i
  writable := ¬ (kernelStart ≤ ptov (i <<< pageBits) ∧ ptov (i <<< pageBits) < kernelTextEnd)
  user := false

theorem walk_of_inv {pool : MemPool} {kernelStart kernelTextEnd : Word} {dir n : Nat} {tables : Nat → Nat}
    {m : Mem} {pt : Word} (hn : n ≤ 2 ^ 20)
    (h : PgDirInv pool kernelStart kernelTextEnd dir tables (tablesFor n) n m pt) (v : Word) :
    walk m (vtop (pool.pageAddr dir)) v =
      if (pgNo (vtop v)).toNat < n then some (linearTranslation kernelStart kernelTextEnd (pgNo (vtop v)))
      else none := by
  -- `i` is the page of RAM behind `v`, in block `d` and slot `r` of its table
  have hi := toNat_pgNo (vtop v)
  rw [toNat_vtop] at hi
  generalize hpg : pgNo (vtop v) = i at hi
  have hv := v.isLt
  have hdir : v >>> 22 = BitVec.ofNat 32 (dirIdx (i.toNat / 1024)) := by
    apply BitVec.eq_of_toNat_eq
    rw [BitVec.toNat_ushiftRight, Nat.shiftRight_eq_div_pow, BitVec.toNat_ofNat, dirIdx]
    omega
  have htab : v >>> 12 &&& 0x3ff = BitVec.ofNat 32 (i.toNat % 1024) := by
    apply BitVec.eq_of_toNat_eq
    rw [← virtToPtIdx_eq, toNat_virtToPtIdx, BitVec.toNat_ofNat]
    omega
  have hphys : ∀ p : Word, p.toNat % 0x1000 = 0 → ptov (vtop p &&& 0xfffff000) = p := by
    intro p hp
    have hpv : (vtop p).toNat % 0x1000 = 0 := by
      rw [toNat_vtop]
      omega
    rw [and_phy_of_aligned hpv, ptov_vtop]
  have hentry := h.dir_entry (i.toNat / 1024) (by omega)
  rw [walk]
  simp only [hphys _ (h.wf.pageAddr_aligned (Nat.le_of_lt h.dir_lt)), hdir, htab, hentry]
  have htables : tablesFor n = (n + 1023) / 1024 := rfl
  by_cases hblock : i.toNat / 1024 < tablesFor n
  · have hslot := h.table_entry (i.toNat / 1024) (i.toNat % 1024) hblock (Nat.mod_lt _ (by decide))
    rw [Nat.div_add_mod] at hslot
    simp only [if_pos hblock, mkPde_phy,
      hphys _ (h.wf.pageAddr_aligned (Nat.le_of_lt (h.tables_lt _ hblock))), hslot]
    rw [getLsbD_mkPde _ _ (by decide), getLsbD_mkPde _ _ (by decide), getLsbD_mkPde _ _ (by decide)]
    by_cases hin : i.toNat < n
    · have hofNat : BitVec.ofNat 32 i.toNat = i := by simp
      have hshift : i <<< pageBits >>> 12 = i := by
        apply BitVec.eq_of_toNat_eq
        rw [BitVec.toNat_ushiftRight, ← hofNat, toNat_page (by omega), Nat.shiftRight_eq_div_pow,
          BitVec.toNat_ofNat]
        omega
      simp only [if_pos hin, pageEntry, mkPte, hofNat, mkPde_frame, hshift, linearTranslation]
      rw [getLsbD_mkPde _ _ (by decide), getLsbD_mkPde _ _ (by decide), getLsbD_mkPde _ _ (by decide)]
      by_cases htext : kernelStart ≤ ptov (i <<< pageBits) ∧ ptov (i <<< pageBits) < kernelTextEnd
      · simp [pgFlags, htext, pteP, pteW]
      · simp [pgFlags, htext, pteP, pteW]
    · simp [hin]
  · have hout : ¬ i.toNat < n := by omega
    simp [hblock, hout]

end I386Kernel
