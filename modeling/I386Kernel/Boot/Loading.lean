import I386Kernel.Boot.Scan

/-!
# What the loader loads

The loop `next_sector` counts down the sectors of the partition, 1024 at most, in `cx`, and counts up the sector number in `bx`, so that the upper half of the sector number stays as it is. After `i` passes the first `512 * i` bytes of the partition lie from 0x20000 on. With the scan this says of a whole run of the loader what lies in memory when the kernel is entered.
-/

namespace I386Kernel.Loader

open ByteStack (Byte Memory load16 load32 store extractLsb'_append_low extractLsb'_append_high)
open CountedLoop (Ends count)

variable {b : Bios} {s : State}

/-- The 32-bit field of a sector. -/
def Sector.word (sec : Sector) (off : Nat) : Word :=
  sec.byte (off + 3) ++ sec.byte (off + 2) ++ sec.byte (off + 1) ++ sec.byte off

/-- The number of the first sector of partition `j`. -/
def firstSector (sec : Sector) (j : Nat) : Word := sec.word (446 + 16 * j + 8)

/-- The number of its sectors. -/
def sectorCount (sec : Sector) (j : Nat) : Word := sec.word (446 + 16 * j + 12)

/-- The sector number after `i` passes. -/
def lba (first : Word) (i : Nat) : Word := first.extractLsb' 16 16 ++ (first.extractLsb' 0 16 + BitVec.ofNat 16 i)

/-- Byte `i` of the partition that begins at sector `first`. -/
def partitionByte (b : Bios) (dl : Byte) (first : Word) (i : Nat) : Byte :=
  ((b.read dl (lba first (i / 512))).map fun sec => sec.byte (i % 512)).getD 0

/-- One dot for every sixteenth sector. -/
def dots (first : Word) (n : Nat) : List Byte :=
  (List.range n).flatMap fun i => if lba first i &&& 15 = 0 then text "." else []

/-- Memory with the first `n` sectors of the partition at 0x20000. -/
def withSectors (b : Bios) (dl : Byte) (first : Word) (n : Nat) (m : Memory) : Memory := fun x =>
  if (x - 0x20000).toNat < 512 * n then partitionByte b dl first (x - 0x20000).toNat else m x

/-! ## The loop -/

theorem lba_zero (first : Word) : lba first 0 = first := by
  rw [lba, BitVec.add_zero, BitVec.extractLsb'_append_extractLsb'_eq_extractLsb' (show 16 = 0 + 16 from rfl)]
  exact BitVec.extractLsb'_eq_self

theorem incBx_lba (first : Word) (i : Nat) : incBx (lba first i) = lba first (i + 1) := by
  rw [incBx, lba, extractLsb'_append_high, extractLsb'_append_low, lba, BitVec.ofNat_add, BitVec.add_assoc]
  rfl

theorem phys_load {i : Nat} (hi : i < 1024) : phys (kernSeg + BitVec.ofNat 16 (0x20 * i)) 0 = 0x20000 + BitVec.ofNat 32 (512 * i) := by
  simp only [phys, kernSeg]
  apply BitVec.eq_of_toNat_eq
  have hseg : ((0x2000 : BitVec 16) + BitVec.ofNat 16 (0x20 * i)).toNat = 0x2000 + 0x20 * i := by
    rw [BitVec.toNat_add, BitVec.toNat_ofNat]
    change (0x2000 + 32 * i % 65536) % 65536 = _
    omega
  rw [BitVec.toNat_add, BitVec.toNat_mul, BitVec.toNat_setWidth, hseg, BitVec.toNat_add, BitVec.toNat_ofNat]
  change ((0x2000 + 32 * i) % 2 ^ 32 * 16 % 2 ^ 32 + 0) % 2 ^ 32 = (0x20000 + 512 * i % 2 ^ 32) % 2 ^ 32
  omega

/-- The next sector goes behind those already loaded. -/
theorem store_withSectors {dl : Byte} {first : Word} {i : Nat} (hi : i < 1024) {sec : Sector}
    (hread : b.read dl (lba first i) = some sec) (m : Memory) :
    store (withSectors b dl first i m) (0x20000 + BitVec.ofNat 32 (512 * i)) sec.val = withSectors b dl first (i + 1) m := by
  funext x
  have hx := x.isLt
  have hback : (x - (0x20000 + BitVec.ofNat 32 (512 * i))).toNat = ((x - 0x20000).toNat + (2 ^ 32 - 512 * i)) % 2 ^ 32 := by
    have hsize : (BitVec.ofNat 32 (512 * i)).toNat = 512 * i := Nat.mod_eq_of_lt (by omega)
    have hsplit : x - (0x20000 + BitVec.ofNat 32 (512 * i)) = x - 0x20000 - BitVec.ofNat 32 (512 * i) := by bv_omega
    rw [hsplit, BitVec.toNat_sub, hsize, Nat.add_comm]
  have hoff := (x - 0x20000).isLt
  rw [store, withSectors, withSectors, hback]
  generalize (x - 0x20000).toNat = d at hoff
  by_cases hold : d < 512 * i
  · have hout : 512 ≤ (d + (2 ^ 32 - 512 * i)) % 2 ^ 32 := by omega
    rw [List.getElem?_eq_none (by rw [sec.property]; exact hout), if_pos hold, if_pos (by omega)]
    rfl
  · have hin : (d + (2 ^ 32 - 512 * i)) % 2 ^ 32 = d - 512 * i := by omega
    rw [hin, if_neg hold]
    by_cases hnew : d < 512 * (i + 1)
    · have hdiv : d / 512 = i := by omega
      have hmod : d % 512 = d - 512 * i := by omega
      rw [if_pos hnew, partitionByte, hdiv, hread, hmod]
      rw [List.getElem?_eq_getElem (by rw [sec.property]; omega), Option.map_some, Sector.byte,
        List.getD_eq_getElem?_getD, List.getElem?_eq_getElem (by rw [sec.property]; omega)]
      rfl
    · rw [List.getElem?_eq_none (by rw [sec.property]; omega), if_neg hnew]
      rfl

/-- After `i` passes. -/
structure Loading (b : Bios) (dl : Byte) (first : Word) (s : State) (i : Nat) (l : Load) : Prop where
  ax : l.ax = kernSeg + BitVec.ofNat 16 (0x20 * i)
  ebx : l.ebx = lba first i
  read : ∀ k, k < i → ∃ sec, b.read dl (lba first k) = some sec
  mem : l.state.mem = withSectors b dl first i s.mem
  screen : l.state.screen = s.screen ++ dots first i

/-- The read of sector `i` has failed in the state `e`. -/
structure Failed (b : Bios) (dl : Byte) (first : Word) (s : State) (i : Nat) (e : State) : Prop where
  read : ∀ k, k < i → ∃ sec, b.read dl (lba first k) = some sec
  failed : b.read dl (lba first i) = none
  mem : e.mem = withSectors b dl first i s.mem

theorem withSectors_zero (dl : Byte) (first : Word) (m : Memory) : withSectors b dl first 0 m = m := by
  funext x
  rw [withSectors, if_neg (Nat.not_lt_zero _)]

theorem nextSector_ends {dl : Byte} {first : Word} {i : Nat} (hi : i < 1024) {l : Load} (h : Loading b dl first s i l) :
    Ends (Loading b dl first s (i + 1)) (Failed b dl first s i) (nextSector b dl l) := by
  rw [nextSector, readSector, h.ebx, h.ax, phys_load hi, h.mem]
  cases hread : b.read dl (lba first i) with
  | none => exact ⟨h.read, hread, h.mem⟩
  | some sec =>
      refine ⟨?_, incBx_lba first i, fun k hk => ?_, ?_, ?_⟩
      · change kernSeg + BitVec.ofNat 16 (0x20 * i) + 0x20 = _
        rw [Nat.mul_succ, BitVec.ofNat_add, BitVec.add_assoc]
        rfl
      · rcases Nat.lt_succ_iff_lt_or_eq.mp hk with hlt | rfl
        · exact h.read k hlt
        · exact ⟨sec, hread⟩
      · rw [← store_withSectors hi hread]
        split
        · exact mem_puts _ _
        · rfl
      · rw [dots, List.range_succ, List.flatMap_append, List.flatMap_singleton, ← List.append_assoc]
        rw [← dots, ← h.screen]
        split
        · exact screen_puts _ _
        · exact (List.append_nil _).symm

/-! ## The partition -/

theorem HoldsSector.word {m : Memory} {sec : Sector} (h : HoldsSector m sec) {off : BitVec 16} (hoff : off.toNat + 4 ≤ 512) :
    load32 m (phys kernSeg off) = sec.word off.toNat := by
  have hbyte : ∀ i : BitVec 16, i.toNat < 4 → m (phys kernSeg off + i.setWidth 32) = sec.byte (off.toNat + i.toNat) := by
    intro i hi
    have hsum : (off + i).toNat = off.toNat + i.toNat := by
      rw [BitVec.toNat_add]
      exact Nat.mod_eq_of_lt (by omega)
    have hphys : phys kernSeg off + i.setWidth 32 = phys kernSeg (off + i) := by
      simp only [phys, kernSeg]
      apply BitVec.eq_of_toNat_eq
      simp only [BitVec.toNat_add, BitVec.toNat_setWidth]
      omega
    rw [hphys, h _ (by omega), hsum]
  have h₀ := hbyte 0 (by decide)
  have h₁ := hbyte 1 (by decide)
  have h₂ := hbyte 2 (by decide)
  have h₃ := hbyte 3 (by decide)
  have hzero : phys kernSeg off + (0 : BitVec 16).setWidth 32 = phys kernSeg off := BitVec.add_zero _
  rw [hzero] at h₀
  rw [load32, Sector.word]
  exact congrArg₂ _ (congrArg₂ _ (congrArg₂ _ h₃ h₂) h₁) h₀

theorem HoldsSector.congr {m m' : Memory} {sec : Sector} (h : HoldsSector m sec) (heq : m' = m) : HoldsSector m' sec :=
  heq ▸ h

/-- How many sectors are loaded of a partition that has so many. -/
def loadedSectors (sectors : Word) : Nat := min sectors.toNat 1024

/-- The counter of the loop, from the field of the entry. -/
theorem count_sectors {sectors : Word} (h : sectors ≠ 0) :
    count ((if sectors ≤ 1024 then sectors else 1024).setWidth 16) = loadedSectors sectors := by
  have hpos : sectors.toNat ≠ 0 := fun h0 => h (BitVec.eq_of_toNat_eq h0)
  have hcx : ((if sectors ≤ 1024 then sectors else 1024).setWidth 16).toNat = loadedSectors sectors := by
    rw [BitVec.toNat_setWidth, loadedSectors]
    by_cases hle : sectors ≤ 1024
    · have hle' : sectors.toNat ≤ 1024 := hle
      rw [if_pos hle, Nat.min_eq_left hle', Nat.mod_eq_of_lt (by omega)]
    · have hle' : ¬ sectors.toNat ≤ 1024 := hle
      rw [if_neg hle, Nat.min_eq_right (by omega)]
      rfl
  rw [CountedLoop.count_of_ne, hcx]
  intro h0
  rw [h0, loadedSectors] at hcx
  change 0 = _ at hcx
  omega

/-- The kernel has been loaded, and the jump goes to the lower half of the entry point in its header. -/
structure Entered (b : Bios) (dl : Byte) (first : Word) (n : Nat) (m : Memory) (s : State) (cs ip : BitVec 16) : Prop where
  read : ∀ k, k < n → ∃ sec, b.read dl (lba first k) = some sec
  mem : s.mem = withSectors b dl first n m
  cs : cs = kernSeg
  ip : ip = partitionByte b dl first 0x19 ++ partitionByte b dl first 0x18

/-- What `load_kernel` comes to. -/
theorem loadKernel_spec {sec : Sector} {j : Nat} (hj : j < 4) (hsec : HoldsSector s.mem sec) (hcount : sectorCount sec j ≠ 0)
    (dl : Byte) : match loadKernel b dl (entryOff j) s with
      | .notFound _ => False
      | .badRead e => ∃ i, i < loadedSectors (sectorCount sec j) ∧ Failed b dl (firstSector sec j) s i e
      | .start s' cs ip => Entered b dl (firstSector sec j) (loadedSectors (sectorCount sec j)) s.mem s' cs ip ∧
          s'.screen = s.screen ++ (text "\rLoading").flatMap shown ++
            dots (firstSector sec j) (loadedSectors (sectorCount sec j)) ++ (text "\r").flatMap shown := by
  have hentry : (entryOff j).toNat = 446 + 16 * j := Nat.mod_eq_of_lt (by omega)
  have hoff : ∀ d : BitVec 16, d.toNat ≤ 12 → (entryOff j + d).toNat = 446 + 16 * j + d.toNat := by
    intro d hd
    rw [BitVec.toNat_add, hentry]
    exact Nat.mod_eq_of_lt (by omega)
  have hput := (Shows.refl (b := b) s).puts (text "\rLoading")
  have hscreen := screen_puts (b := b) s (text "\rLoading")
  rw [loadKernel]
  generalize puts b s (text "\rLoading") = s₁ at hput hscreen
  have hsec₁ := hsec.congr hput.mem
  have hfirst : load32 s₁.mem (phys kernSeg (entryOff j + 8)) = firstSector sec j := by
    rw [hsec₁.word (by rw [hoff 8 (by decide)]; change 446 + 16 * j + 8 + 4 ≤ 512; omega), hoff 8 (by decide)]
    rfl
  have hsectors : load32 s₁.mem (phys kernSeg (entryOff j + 12)) = sectorCount sec j := by
    rw [hsec₁.word (by rw [hoff 12 (by decide)]; change 446 + 16 * j + 12 + 4 ≤ 512; omega), hoff 12 (by decide)]
    rfl
  simp only [hfirst, hsectors]
  have hstart : Loading b dl (firstSector sec j) s₁ 0 ⟨kernSeg, firstSector sec j, s₁⟩ :=
    ⟨(BitVec.add_zero _).symm, (lba_zero _).symm, fun k hk => absurd hk (Nat.not_lt_zero k),
      (withSectors_zero dl _ _).symm, (List.append_nil _).symm⟩
  have hle : loadedSectors (sectorCount sec j) ≤ 1024 := Nat.min_le_right _ _
  have hloop := CountedLoop.loop_ends (c := (if sectorCount sec j ≤ 1024 then sectorCount sec j else 1024).setWidth 16)
    hstart fun i l hi hl => nextSector_ends (by rw [count_sectors hcount] at hi; omega) hl
  rw [count_sectors hcount] at hloop
  generalize CountedLoop.loop (nextSector b dl)
    ((if sectorCount sec j ≤ 1024 then sectorCount sec j else 1024).setWidth 16) _ = r at hloop
  cases r with
  | error e =>
      obtain ⟨i, hi, hfail⟩ := hloop
      refine ⟨i, hi, hfail.read, hfail.failed, ?_⟩
      rw [mem_puts, hfail.mem, hput.mem]
  | ok l =>
      have hmem : (puts b l.state (text "\r")).mem =
          withSectors b dl (firstSector sec j) (loadedSectors (sectorCount sec j)) s.mem := by
        rw [mem_puts, hloop.mem, hput.mem]
      have hone : 1 ≤ loadedSectors (sectorCount sec j) := by
        have : (sectorCount sec j).toNat ≠ 0 := fun h0 => hcount (BitVec.eq_of_toNat_eq h0)
        rw [loadedSectors]
        omega
      refine ⟨⟨hloop.read, hmem, rfl, ?_⟩, ?_⟩
      · -- the header lies in the first sector
        rw [hmem, load16, withSectors, withSectors, if_pos, if_pos]
        · rfl
        · change 24 < _
          omega
        · change 25 < _
          omega
      · rw [screen_puts, hloop.screen, hscreen]

/-- Whatever lay in the first sector is covered. -/
theorem withSectors_congr {dl : Byte} {first : Word} {n : Nat} (hn : 0 < n) {m m' : Memory}
    (h : ∀ x, 512 ≤ (x - phys kernSeg 0).toNat → m' x = m x) : withSectors b dl first n m' = withSectors b dl first n m := by
  funext x
  rw [withSectors, withSectors]
  split
  · rfl
  · rename_i hout
    exact h x (by change 512 ≤ (x - 0x20000).toNat; omega)

/-- The ways a run may end that loads partition `j` of the table `sec` of hard disk `k`. -/
def Loads (b : Bios) (k : Nat) (sec : Sector) (j : Nat) (mem : Memory) : Option Outcome → Prop
  | some (.start s cs ip) =>
      Entered b (0x80 + BitVec.ofNat 8 k) (firstSector sec j) (loadedSectors (sectorCount sec j)) mem s cs ip
  | some (.badRead _) => ∃ i, i < loadedSectors (sectorCount sec j) ∧
      b.read (0x80 + BitVec.ofNat 8 k) (lba (firstSector sec j) i) = none ∧
      ∀ i', i' < i → ∃ sec', b.read (0x80 + BitVec.ofNat 8 k) (lba (firstSector sec j) i') = some sec'
  | _ => False

/-- From any memory the loader either enters the kernel with the partition in memory, or stops at its first sector that cannot be read. -/
theorem loader_loads {k j drives : Nat} {ebx : Word} {sec : Sector} (hk : k < drives) (hpassed : ∀ i, i < k → Passed (mbr b ebx i))
    (hmbr : mbr b ebx k = some sec) (hboots : Boots (some sec) j) (hcount : sectorCount sec j ≠ 0) (mem : Memory) :
    Loads b k sec j mem (loader b drives ebx mem) := by
  have hj : j < 4 := by
    obtain ⟨-, -, -, hj, -⟩ := hboots
    exact hj
  have hverdict : verdict (mbr b ebx k) = .boot j := by
    rw [hmbr, verdict_eq_boot_iff]
    exact hboots
  have hstop : StopsAt b ebx k := by
    refine ⟨fun i hi => (verdict_eq_pass_iff _).mpr (hpassed i hi), ?_⟩
    rw [hverdict]
    simp
  obtain ⟨s, hexam, -, hboot⟩ := readMbr_stopsAt hstop hk (puts b ⟨mem, [], [], false⟩ (text "Scanning"))
  rw [hmbr] at hexam
  have hspec := loadKernel_spec (b := b) hj (hexam.sector sec rfl) hcount (0x80 + BitVec.ofNat 8 k)
  have hpos : 0 < loadedSectors (sectorCount sec j) := by
    have : (sectorCount sec j).toNat ≠ 0 := fun h0 => hcount (BitVec.eq_of_toNat_eq h0)
    rw [loadedSectors]
    omega
  rw [loader, hboot j hverdict]
  cases hload : loadKernel b (0x80 + BitVec.ofNat 8 k) (entryOff j) s with
  | notFound e =>
      rw [hload] at hspec
      exact hspec
  | badRead e =>
      rw [hload] at hspec
      obtain ⟨i, hi, hfail⟩ := hspec
      exact ⟨i, hi, hfail.failed, hfail.read⟩
  | start s' cs ip =>
      rw [hload] at hspec
      obtain ⟨hentered, -⟩ := hspec
      refine ⟨hentered.read, ?_, hentered.cs, hentered.ip⟩
      rw [hentered.mem]
      refine withSectors_congr hpos fun x hx => ?_
      rw [hexam.frame x hx, mem_puts]

/-- A table whose first entry has this status: a partition of two sectors from sector 1 on. -/
def tableSector (status : Byte) : Sector :=
  ⟨List.replicate 446 0 ++ [status, 0, 0, 0, 0x20, 0, 0, 0, 1, 0, 0, 0, 2, 0, 0, 0] ++ List.replicate 48 0 ++ [0x55, 0xaa],
    by simp only [List.length_append, List.length_replicate, List.length_cons, List.length_nil]⟩

/-- The second of two drives is bootable. -/
def twoDrives : Bios := ⟨fun dl _ => if dl = 0x80 then some (tableSector 0) else if dl = 0x81 then some (tableSector 0x80) else none,
  fun _ => true⟩

theorem loader_loads_twoDrives : Loads twoDrives 1 (tableSector 0x80) 0 (fun _ => 0) (loader twoDrives 2 0 (fun _ => 0)) := by
  have hpassed : ∀ i, i < 1 → Passed (mbr twoDrives 0 i) := by
    intro i hi
    obtain rfl : i = 0 := by omega
    exact ⟨tableSector 0, rfl, Or.inr ⟨by decide +kernel, by decide +kernel⟩⟩
  have hboots : Boots (some (tableSector 0x80)) 0 :=
    ⟨_, rfl, by decide +kernel, by decide, by decide +kernel, fun i hi => absurd hi (Nat.not_lt_zero i)⟩
  have hmbr : mbr twoDrives 0 1 = some (tableSector 0x80) := rfl
  have hcount : sectorCount (tableSector 0x80) 0 ≠ 0 := by decide +kernel
  exact loader_loads (b := twoDrives) (by decide) hpassed hmbr hboots hcount (fun _ => 0)

end I386Kernel.Loader
