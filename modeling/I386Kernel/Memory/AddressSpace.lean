import I386Kernel.Memory.FirstPages
import I386Kernel.Memory.PageAllocator

/-!
# The address space while the kernel runs

After `kernel_pg_dir_init` the kernel takes pages from the pool, writes to the pages it has and gives some of them back; the pages of the directory and of the tables are never given back. Whatever it does, the processor keeps walking the tables that were built at the start: the allocator writes no page that is in use, and no page of the tables is handed out again. So every page of RAM stays mapped where the linear map puts it, and a page that is handed out can be written.
-/

namespace I386Kernel

local instance decidableInPage (p a : Word) : Decidable (InPage p a) := inferInstanceAs (Decidable (_ ∧ _))

/-- A call of the allocator, or a store to a page by whoever has it. -/
inductive SpaceCall where
  | pool (c : PoolCall)
  | store (a val : Word)

/-- The call gives back none of these pages. -/
def PoolCall.Spares (kept : List Word) : PoolCall → Prop
  | .kget _ _ => True
  | .kfree p n => ∀ a ∈ pageRange p n.toNat, a ∉ kept

instance (kept : List Word) : (c : PoolCall) → Decidable (c.Spares kept)
  | .kget _ _ => .isTrue trivial
  | .kfree p n => inferInstanceAs (Decidable (∀ a ∈ pageRange p n.toNat, a ∉ kept))

/-- Pages in `kept` are in use by the processor. -/
def spaceStep (kept : List Word) (s : PoolSys) : SpaceCall → Option PoolSys
  | .pool c => if c.Spares kept then poolStep s c else none
  | .store a val =>
      if ∃ p ∈ s.allocated, p ∉ kept ∧ InPage p a then some { s with mem := Function.update s.mem a val } else none

/-- The directory and the tables for so many pages of RAM. -/
def tablePages (pool : MemPool) (initRamPages : Word) : List Word :=
  (List.range (tablesFor initRamPages.toNat + 1)).map pool.pageAddr

/-- What follows `kernel_pg_dir_init`. -/
def spaceSystem (m : Mem) (pool : MemPool) (kernelStart kernelTextEnd initRamPages : Word) :
    TransitionSystem PoolSys SpaceCall :=
  .ofFn (fun s => s = ⟨(kernelPgDirInit m pool kernelStart kernelTextEnd initRamPages).1, pool, [tablePages pool initRamPages]⟩)
    (spaceStep (tablePages pool initRamPages))

/-! ## Pages in use -/

/-- The allocator writes to no page that is in use. -/
theorem poolStep_frame {s s' : PoolSys} {c : PoolCall} (h : PoolInv s) (hstep : poolStep s c = some s') {p a : Word}
    (hp : p ∈ s.allocated) (ha : InPage p a) : s'.mem a = s.mem a := by
  obtain ⟨j, hj, rfl⟩ := h.within p hp
  have hbitmap := h.ok.not_inBitmap_of_inPage hj ha
  cases c with
  | kget pfFlag n =>
      cases hstep
      change (mmKgetPages s.mem s.pool pfFlag n).2 a = _
      rcases mmKgetPages_spec h.ok.toPoolWf pfFlag n with ⟨-, hmem, -⟩ | ⟨-, i, hfirst, -, hgrant⟩
      · rw [hmem]
      · refine hgrant.frame a hbitmap fun k hik hkn hin => ?_
        have hrun := hfirst.run.1
        -- the pages of the run were free
        have hkj := h.ok.pageAddr_inj (Nat.le_of_lt (show k < _ by omega)) (Nat.le_of_lt hj)
          (InPage.unique (h.ok.pageAddr_aligned (by omega)) (h.ok.pageAddr_aligned (Nat.le_of_lt hj)) hin ha)
        exact (h.free_iff (by omega)).mp (hfirst.run.2 k hik hkn) (hkj ▸ hp)
  | kfree p n =>
      simp only [poolStep, Option.ite_none_right_eq_some, Option.some.injEq] at hstep
      obtain ⟨⟨-, hall⟩, rfl⟩ := hstep
      change mmKfreePages s.mem s.pool p n a = _
      rcases Nat.eq_zero_or_pos n.toNat with hn | hn
      · rw [BitVec.eq_of_toNat_eq (y := 0) hn, PoolInv.mmKfreePages_zero]
      · obtain ⟨i, rfl, hrun⟩ := h.range_of_allocated hn hall
        refine (mmKfreePages_spec h.ok (by omega) hrun).frame a ?_
        rintro k hk rfl
        exact hbitmap (Or.inr ⟨k, hk, rfl⟩)

/-- A page stays in use while it is spared. -/
theorem poolStep_allocated {s s' : PoolSys} {c : PoolCall} {kept : List Word} (hstep : poolStep s c = some s')
    (hspares : c.Spares kept) {p : Word} (hp : p ∈ s.allocated) (hkept : p ∈ kept) : p ∈ s'.allocated := by
  cases c with
  | kget pfFlag n =>
      cases hstep
      rw [PoolSys.allocated, PoolSys.kget]
      split
      · exact hp
      · rw [List.flatten_append]
        exact List.mem_append_left _ hp
  | kfree q n =>
      simp only [poolStep, Option.ite_none_right_eq_some, Option.some.injEq] at hstep
      obtain ⟨-, rfl⟩ := hstep
      rw [PoolSys.allocated, PoolSys.kfree, ← List.filter_flatten, List.mem_filter]
      exact ⟨hp, decide_eq_true fun hin => hspares p hin hkept⟩

theorem PoolInv.store {s : PoolSys} (h : PoolInv s) {p a : Word} (hp : p ∈ s.allocated) (ha : InPage p a) (val : Word) :
    PoolInv { s with mem := Function.update s.mem a val } := by
  obtain ⟨j, hj, rfl⟩ := h.within p hp
  have hout : ∀ b, s.pool.InBitmap s.mem b → Function.update s.mem a val b = s.mem b := by
    intro b hb
    refine Function.update_of_ne ?_ _ _
    rintro rfl
    exact h.ok.not_inBitmap_of_inPage hj ha hb
  have hheader := hout _ (Or.inl rfl)
  have hcount := pageCount_congr hheader
  refine ⟨h.ok.congr hheader, fun i hi => ?_, fun b hb => ?_, h.nodup⟩
  · have hi' : i < s.pool.pageCount s.mem := hcount ▸ hi
    change s.pool.used (Function.update s.mem a val) i = true ↔ _
    rw [used_congr hout hi']
    exact h.marked i hi'
  · obtain ⟨i, hi, rfl⟩ := h.within b hb
    exact ⟨i, hcount.symm ▸ hi, rfl⟩

/-! ## Runs -/

/-- The kept pages are in use and hold what they held in `m`. -/
structure SpaceInv (m : Mem) (pool : MemPool) (kept : List Word) (s : PoolSys) : Prop where
  pool_inv : PoolInv s
  pool_eq : s.pool = pool
  pageCount : pool.pageCount s.mem = pool.pageCount m
  inUse : ∀ p ∈ kept, p ∈ s.allocated
  same : ∀ p ∈ kept, ∀ a, InPage p a → s.mem a = m a

theorem SpaceInv.step {m : Mem} {pool : MemPool} {kept : List Word} {s s' : PoolSys} {c : SpaceCall}
    (h : SpaceInv m pool kept s) (hstep : spaceStep kept s c = some s') : SpaceInv m pool kept s' := by
  cases c with
  | pool c =>
      simp only [spaceStep, Option.ite_none_right_eq_some] at hstep
      obtain ⟨hspares, hstep⟩ := hstep
      have hpool := poolStep_pool hstep
      have hcount := poolStep_pageCount h.pool_inv hstep
      rw [hpool, h.pool_eq] at hcount
      refine ⟨poolInv_step h.pool_inv hstep, hpool.trans h.pool_eq, hcount.trans h.pageCount, fun p hp => ?_, fun p hp a ha => ?_⟩
      · exact poolStep_allocated hstep hspares (h.inUse p hp) hp
      · exact (poolStep_frame h.pool_inv hstep (h.inUse p hp) ha).trans (h.same p hp a ha)
  | store a val =>
      simp only [spaceStep, Option.ite_none_right_eq_some, Option.some.injEq] at hstep
      obtain ⟨⟨q, hq, hnot, hin⟩, rfl⟩ := hstep
      have hstore := h.pool_inv.store hq hin val
      have haligned : ∀ p ∈ s.allocated, p.toNat % 0x1000 = 0 := by
        intro p hp
        obtain ⟨i, hi, rfl⟩ := h.pool_inv.within p hp
        exact h.pool_inv.ok.pageAddr_aligned (Nat.le_of_lt hi)
      have hout : ∀ b, (∀ p, p ∈ s.allocated → InPage p b → p ≠ q) → Function.update s.mem a val b = s.mem b := by
        intro b hb
        refine Function.update_of_ne ?_ _ _
        rintro rfl
        exact hb q hq hin rfl
      refine ⟨hstore, h.pool_eq, ?_, h.inUse, fun p hp b hb => ?_⟩
      · rw [← h.pageCount]
        refine pageCount_congr (hout _ fun p hp hbm heq => ?_)
        obtain ⟨i, hi, rfl⟩ := h.pool_inv.within p hp
        exact h.pool_inv.ok.not_inBitmap_of_inPage hi hbm (Or.inl (by rw [h.pool_eq]))
      · refine (hout b ?_).trans (h.same p hp b hb)
        rintro p' hp' hb' rfl
        have hpp' := InPage.unique (haligned p (h.inUse p hp)) (haligned p' hp') hb hb'
        exact hnot (hpp' ▸ hp)

theorem mem_tablePages {pool : MemPool} {initRamPages p : Word} :
    p ∈ tablePages pool initRamPages ↔ ∃ i, i < tablesFor initRamPages.toNat + 1 ∧ pool.pageAddr i = p := by
  rw [tablePages, List.mem_map]
  simp only [List.mem_range]

/-- When `kernel_pg_dir_init` is done exactly the pages it took are in use. -/
theorem SpaceInv.start {m m₀ : Mem} {pool : MemPool} {initRamPages : Word} (hok : PoolOk m₀ pool)
    (hfirst : FirstPages pool m₀ (tablesFor initRamPages.toNat + 1) m)
    (hsupply : tablesFor initRamPages.toNat < pool.pageCount m₀) :
    SpaceInv m pool (tablePages pool initRamPages) ⟨m, pool, [tablePages pool initRamPages]⟩ := by
  have halloc : PoolSys.allocated ⟨m, pool, [tablePages pool initRamPages]⟩ = tablePages pool initRamPages :=
    List.flatten_singleton
  have hlt : ∀ i, i < tablesFor initRamPages.toNat + 1 → i < pool.pageCount m₀ := by
    intro i hi
    omega
  refine ⟨⟨hok.congr hfirst.header, fun i hi => ?_, fun a ha => ?_, ?_⟩, rfl, rfl, fun p hp => ?_, fun p _ a _ => rfl⟩
  · have hi' : i < pool.pageCount m₀ := hfirst.pageCount ▸ hi
    change pool.used m i = true ↔ pool.pageAddr i ∈ _
    rw [halloc, hfirst.used i hi', mem_tablePages]
    constructor
    · intro hk
      exact ⟨i, hk, rfl⟩
    · rintro ⟨j, hj, heq⟩
      exact hok.pageAddr_inj (Nat.le_of_lt (hlt j hj)) (Nat.le_of_lt hi') heq ▸ hj
  · rw [halloc, mem_tablePages] at ha
    obtain ⟨i, hi, rfl⟩ := ha
    exact ⟨i, hfirst.pageCount.symm ▸ hlt i hi, rfl⟩
  · rw [halloc, tablePages]
    refine List.Nodup.map_on (fun i hi j hj heq => ?_) List.nodup_range
    rw [List.mem_range] at hi hj
    exact hok.pageAddr_inj (Nat.le_of_lt (hlt i hi)) (Nat.le_of_lt (hlt j hj)) heq
  · rw [halloc]
    exact hp

theorem SpaceInv.used {m : Mem} {pool : MemPool} {kept : List Word} {s : PoolSys} (h : SpaceInv m pool kept s) {i : Nat}
    (hi : i < pool.pageCount m) (hkept : pool.pageAddr i ∈ kept) : pool.used s.mem i = true := by
  obtain rfl := h.pool_eq
  exact (h.pool_inv.marked i (h.pageCount.symm ▸ hi)).mpr (h.inUse _ hkept)

/-- The invariant of the loop speaks of the pages of the tables only. -/
theorem PgDirInv.congr {pool : MemPool} {kernelStart kernelTextEnd : Word} {dir n t : Nat} {tables : Nat → Nat}
    {m m' : Mem} {pt : Word} (h : PgDirInv pool kernelStart kernelTextEnd dir tables t n m pt)
    (hcount : pool.pageCount m' = pool.pageCount m)
    (hsame : ∀ i, i < pool.pageCount m → pool.used m i = true →
      pool.used m' i = true ∧ ∀ a, InPage (pool.pageAddr i) a → m' a = m a) :
    PgDirInv pool kernelStart kernelTextEnd dir tables t n m' pt := by
  have hword : ∀ i x, i < pool.pageCount m → pool.used m i = true → x < 1024 →
      m' (wordAt (pool.pageAddr i) (BitVec.ofNat 32 x)) = m (wordAt (pool.pageAddr i) (BitVec.ofNat 32 x)) :=
    fun i x hi hused hx => (hsame i hi hused).2 _ (inPage_wordAt (h.wf.pageAddr_aligned (Nat.le_of_lt hi)) hx)
  refine ⟨h.wf.congr (BitVec.eq_of_toNat_eq hcount), hcount.symm ▸ h.dir_lt, (hsame dir h.dir_lt h.dir_used).1,
    fun d hd => hcount.symm ▸ h.tables_lt d hd, fun d hd => (hsame _ (h.tables_lt d hd) (h.tables_used d hd)).1,
    h.tables_ne, h.tables_inj, h.latest, fun d hd => ?_, fun d r hd hr => ?_⟩
  · exact (hword dir (dirIdx d) h.dir_lt h.dir_used (Nat.mod_lt _ (by decide))).trans (h.dir_entry d hd)
  · rw [hword _ _ (h.tables_lt d hd) (h.tables_used d hd) hr]
    exact h.table_entry d r hd hr

/-- RAM is mapped linearly, and every page in use may be written at its address. -/
structure AddressSpace (kernelStart kernelTextEnd initRamPages cr3 : Word) (s : PoolSys) : Prop where
  linear : ∀ v, walk s.mem cr3 v =
    if (pgNo (vtop v)).toNat < initRamPages.toNat then some (linearTranslation kernelStart kernelTextEnd (pgNo (vtop v)))
    else none
  inUse : ∀ p ∈ s.allocated, ∀ a, InPage p a → walk s.mem cr3 a = some ⟨pgNo (vtop a), true, false⟩

/-- A page above the kernel text is mapped to itself and can be written. -/
theorem linearTranslation_of_inPage {kernelStart kernelTextEnd p a : Word} (hp : p.toNat % 0x1000 = 0)
    (hlow : 0xc0100000 ≤ p.toNat) (htext : kernelTextEnd.toNat ≤ 0xc0100000) (ha : InPage p a) :
    linearTranslation kernelStart kernelTextEnd (pgNo (vtop a)) = ⟨pgNo (vtop a), true, false⟩ := by
  have hvtop : (vtop a).toNat + 0xc0000000 = a.toNat := by
    have := ha.1
    simp only [vtop, kernelVaddrBase]
    bv_omega
  have hpage : ptov (pgNo (vtop a) <<< pageBits) = p := by
    have hpg := toNat_pgNo (vtop a)
    have hlt := a.isLt
    obtain ⟨ha₁, ha₂⟩ := ha
    apply BitVec.eq_of_toNat_eq
    have hshift : (pgNo (vtop a) <<< pageBits).toNat = 0x1000 * (pgNo (vtop a)).toNat := by
      rw [BitVec.toNat_shiftLeft, pageBits, Nat.shiftLeft_eq]
      omega
    rw [toNat_ptov (by omega), hshift]
    omega
  have hout : ¬ (kernelStart ≤ p ∧ p < kernelTextEnd) := by
    rintro ⟨-, hlt⟩
    have hlt' : p.toNat < kernelTextEnd.toNat := hlt
    omega
  simp [linearTranslation, hpage, hout]

theorem addressSpace_runs (m : Mem) (initRamPages kernelStart kernelTextEnd : Word) (hlow : 1024 ≤ initRamPages.toNat)
    (hhigh : initRamPages.toNat < 0x40000) (htext : kernelTextEnd ≤ ptov kernelMemPoolPhyStart) :
    ∃ m₁ pool, mmInit m initRamPages = some (m₁, pool) ∧
      ∀ s, (spaceSystem m₁ pool kernelStart kernelTextEnd initRamPages).Reachable s →
        AddressSpace kernelStart kernelTextEnd initRamPages
          (kernelPgDirInit m₁ pool kernelStart kernelTextEnd initRamPages).2 s := by
  obtain ⟨m₁, pool, hinit, hwf, hbm, htop, hempty⟩ := mmInit_spec m initRamPages (by omega) (by omega)
  refine ⟨m₁, pool, hinit, fun s hs => ?_⟩
  obtain ⟨hbase, -, hsupply⟩ := mmInit_supply hinit hbm htop hlow hhigh
  have hok : PoolOk m₁ pool := ⟨hwf, by omega⟩
  obtain ⟨hcr3, hfirst, tables, pt, hinv⟩ := kernelPgDirInit_spec hwf hempty (show initRamPages.toNat < 2 ^ 20 by omega) hsupply
    kernelStart kernelTextEnd
  generalize hm : (kernelPgDirInit m₁ pool kernelStart kernelTextEnd initRamPages).1 = m₂ at hfirst hinv
  have hspace : SpaceInv m₂ pool (tablePages pool initRamPages) s := by
    refine TransitionSystem.invariant _ ?_ (fun s c s' _ hinv hstep => hinv.step hstep) hs
    rintro s rfl
    rw [hm]
    exact SpaceInv.start hok hfirst hsupply
  have hused : ∀ i, i < pool.pageCount m₂ → pool.used m₂ i = true → pool.pageAddr i ∈ tablePages pool initRamPages :=
    fun i hi hu => mem_tablePages.mpr ⟨i, (hfirst.used i (hfirst.pageCount ▸ hi)).mp hu, rfl⟩
  have hwalk := walk_of_inv (show initRamPages.toNat ≤ 2 ^ 20 by omega) (hinv.congr hspace.pageCount fun i hi hu =>
    ⟨hspace.used hi (hused i hi hu), hspace.same _ (hused i hi hu)⟩)
  rw [← hcr3] at hwalk
  refine ⟨hwalk, fun p hp a ha => ?_⟩
  obtain ⟨i, hi, rfl⟩ := hspace.pool_inv.within p hp
  rw [hspace.pool_eq] at hi ha
  rw [hspace.pageCount, hfirst.pageCount] at hi
  have haddr := hok.toNat_pageAddr (Nat.le_of_lt hi)
  rw [hwalk, linearTranslation_of_inPage (hwf.pageAddr_aligned (Nat.le_of_lt hi)) (by omega) htext ha, if_pos]
  obtain ⟨ha₁, ha₂⟩ := ha
  have hvtop : (vtop a).toNat + 0xc0000000 = a.toNat := by
    simp only [vtop, kernelVaddrBase]
    bv_omega
  rw [toNat_pgNo]
  omega

theorem addressSpace_runs_64mb : ∃ m₁ pool, mmInit (fun _ => 0) 0x4000 = some (m₁, pool) ∧
    ∀ s, (spaceSystem m₁ pool 0xc0020000 0xc0028000 0x4000).Reachable s →
      AddressSpace 0xc0020000 0xc0028000 0x4000 (kernelPgDirInit m₁ pool 0xc0020000 0xc0028000 0x4000).2 s :=
  addressSpace_runs (fun _ => 0) 0x4000 0xc0020000 0xc0028000 (by decide) (by decide) (by decide)

end I386Kernel
