import I386Kernel.Boot.Paging
import I386Kernel.Memory.FirstPages

/-!
# From the first page tables to the kernel's

`mm_init` and `kernel_pg_dir_init` run under the page tables of `start`, which reach only the first 64 MB, and build the tables that replace them. Every word that is written before the switch lies in the bitmap or in the first pages of the pool, thus within the reach of the old tables and outside them. The new tables agree with the old ones on every kernel address, which the instruction after the load of `cr3` relies on.
-/

namespace I386Kernel.BootPaging

/-- The tables of `start` are in force in `m`; the kernel's directory is at `cr3` in `m'`, just before `cr3` is loaded. -/
structure Handover (kernelStart kernelTextEnd : Word) (m m' : Mem) (cr3 : Word) : Prop where
  /-- The old tables translate as before. -/
  before : ∀ v, walk m' 0xf000 v = walk m 0xf000 v
  /-- Every word written so far could be written through them, where it lies in physical memory. -/
  stores : ∀ a, m' a ≠ m a → walk m 0xf000 a = some ⟨pgNo (vtop a), true, true⟩
  /-- What they map from 3 GB on is mapped to the same frame. -/
  kept : ∀ v t, kernelVaddrBase ≤ v → walk m 0xf000 v = some t →
    walk m' cr3 v = some (linearTranslation kernelStart kernelTextEnd t.frame)
  /-- Nothing below is mapped any more. -/
  low : ∀ v, v < kernelVaddrBase → walk m' cr3 v = none

/-- Words from 1 MB to 4 MB are in reach of the old tables and outside them. -/
theorem bootTranslation_stores {blocks : Nat} (hpos : 0 < blocks) (hle : blocks ≤ 16) {a : Word} (hlow : 0xc0100000 ≤ a.toNat)
    (hhigh : a.toNat < 0xc0400000) : bootTranslation blocks a = some ⟨pgNo (vtop a), true, true⟩ ∧ ¬ InBootTables a := by
  have hvtop : (vtop a).toNat + 0xc0000000 = a.toNat := by
    simp only [vtop, kernelVaddrBase]
    bv_omega
  constructor
  · rw [bootTranslation, if_neg (by omega), if_pos (by omega)]
  · rw [InBootTables]
    omega

theorem bootTables_handover (m₀ : Mem) (initRamPages kernelStart kernelTextEnd : Word) (hlow : 1024 ≤ initRamPages.toNat)
    (hhigh : initRamPages.toNat < 0x40000) : ∃ m₁, bootTables m₀ initRamPages = .ok (m₁, 0xf000) ∧
      ∀ m, (∀ a, InBootTables a → m a = m₁ a) → ∃ m₂ pool, mmInit m initRamPages = some (m₂, pool) ∧
        Handover kernelStart kernelTextEnd m (kernelPgDirInit m₂ pool kernelStart kernelTextEnd initRamPages).1
          (kernelPgDirInit m₂ pool kernelStart kernelTextEnd initRamPages).2 := by
  have hends := bootTables_ends m₀ initRamPages
  cases hrun : bootTables m₀ initRamPages with
  | error e =>
      rw [hrun] at hends
      exact absurd hends (Nat.not_lt_of_le hlow)
  | ok r =>
  rw [hrun] at hends
  refine ⟨r.1, by rw [← hends.cr3], fun m hm => ?_⟩
  have hblocks : 0 < bootBlocks initRamPages ∧ bootBlocks initRamPages ≤ 16 := by
    rw [bootBlocks]
    omega
  have hboot := hends.tables.congr hm
  obtain ⟨m₂, pool, hinit, hwf, hbm, htop, hempty⟩ := mmInit_spec m initRamPages (by omega) (by omega)
  refine ⟨m₂, pool, hinit, ?_⟩
  obtain ⟨-, hframe⟩ := mmInit_layout hinit
  obtain ⟨hbase₁, hbase₂, hsupply⟩ := mmInit_supply hinit hbm htop hlow hhigh
  have htables : tablesFor initRamPages.toNat = (initRamPages.toNat + 1023) / 1024 := rfl
  obtain ⟨hcr3, hfirst, tables, pt, hinv⟩ := kernelPgDirInit_spec hwf hempty (show initRamPages.toNat < 2 ^ 20 by omega) hsupply
    kernelStart kernelTextEnd
  have hwalk := walk_of_inv (show initRamPages.toNat ≤ 2 ^ 20 by omega) hinv
  rw [← hcr3] at hwalk
  generalize kernelPgDirInit m₂ pool kernelStart kernelTextEnd initRamPages = r' at hfirst hwalk
  have hstores : ∀ a, r'.1 a ≠ m a → 0xc0100000 ≤ a.toNat ∧ a.toNat < 0xc0400000 := by
    intro a ha
    by_cases hbitmap : pool.InBitmap m₂ a
    · have hbounds := hwf.inBitmap_bounds hbitmap
      have hbm' : pool.bm.toNat = 0xc0100000 := by rw [hbm]; rfl
      omega
    by_contra hout
    refine ha ((hfirst.frame a hbitmap fun j hj hin => ?_).trans (hframe a hbitmap))
    obtain ⟨hin₁, hin₂⟩ := hin
    have haddr := hwf.toNat_pageAddr_mod (i := j) (by omega)
    omega
  have hvtop : ∀ v : Word, (vtop v).toNat = (v.toNat + 0x40000000) % 2 ^ 32 := by
    intro v
    rw [vtop, BitVec.toNat_sub, Nat.add_comm]
    rfl
  refine ⟨fun v => ?_, fun a ha => ?_, fun v t hv ht => ?_, fun v hv => ?_⟩
  · have hsame : ∀ a, InBootTables a → r'.1 a = m a := by
      intro a ha
      by_contra hne
      obtain ⟨h₁, h₂⟩ := hstores a hne
      exact (bootTranslation_stores hblocks.1 hblocks.2 h₁ h₂).2 ha
    rw [(hboot.congr hsame).walk hblocks.2, hboot.walk hblocks.2]
  · obtain ⟨h₁, h₂⟩ := hstores a ha
    rw [hboot.walk hblocks.2]
    exact (bootTranslation_stores hblocks.1 hblocks.2 h₁ h₂).1
  · have hv' : 0xc0000000 ≤ v.toNat := hv
    rw [hboot.walk hblocks.2, bootTranslation, if_neg (by omega)] at ht
    split at ht
    · rename_i hin
      cases ht
      rw [hwalk, if_pos]
      rw [toNat_pgNo]
      rw [bootBlocks] at hin
      omega
    · cases ht
  · have hv' : v.toNat < 0xc0000000 := hv
    rw [hwalk, if_neg]
    rw [toNat_pgNo, hvtop]
    omega

theorem bootTables_handover_64mb : ∃ m₁, bootTables (fun _ => 0) 0x4000 = .ok (m₁, 0xf000) ∧
    ∀ m, (∀ a, InBootTables a → m a = m₁ a) → ∃ m₂ pool, mmInit m 0x4000 = some (m₂, pool) ∧
      Handover 0xc0020000 0xc0028000 m (kernelPgDirInit m₂ pool 0xc0020000 0xc0028000 0x4000).1
        (kernelPgDirInit m₂ pool 0xc0020000 0xc0028000 0x4000).2 :=
  bootTables_handover (fun _ => 0) 0x4000 0xc0020000 0xc0028000 (by decide) (by decide)

end I386Kernel.BootPaging
