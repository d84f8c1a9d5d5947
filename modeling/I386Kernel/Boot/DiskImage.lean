import I386Kernel.Boot.Loading

/-!
# The disk image

`start.sh` makes the disk from which the emulator boots: zeros, over them the loader as first sector, over that the kernel from the second sector on, and last the fields of the first partition table entry. The loader finds that entry where the BIOS has left zero in the upper half of `ebx`.
-/

namespace I386Kernel.Loader

open ByteStack (Byte bytes32)

/-- `dd bs=1 seek=seek conv=notrunc` of so many bytes over a file. -/
def dd (file bytes : List Byte) (seek : Nat) : List Byte :=
  (file ++ List.replicate (seek - file.length) 0).take seek ++ bytes ++ file.drop (seek + bytes.length)

def kernelSectors (kernelSize : Nat) : Nat :=
  if kernelSize % 512 = 0 then kernelSize / 512 else kernelSize / 512 + 1

/-- The count goes through `printf`, `sed` and `xxd`, which leave its four bytes in reversed order. -/
def diskImage (loader kernel : List Byte) : List Byte :=
  let img := List.replicate (16 * 1024 * 512) 0
  let img := dd img (loader.take 512) 0
  let img := dd img kernel 512
  let img := dd img [0x80] 446
  let img := dd img [0x20] 450
  let img := dd img [0x01] 454
  dd img (bytes32 (BitVec.ofNat 32 (kernelSectors kernel.length))) 458

/-- A read of the emulated drive. -/
def readImage (img : List Byte) (lba : Word) : Option Sector :=
  if h : 512 * lba.toNat + 512 ≤ img.length then
    some ⟨(img.drop (512 * lba.toNat)).take 512, by rw [List.length_take, List.length_drop]; omega⟩
  else none

/-- The loader as assembled: the partition table is left empty, and the signature ends the sector. -/
structure LoaderBin (loader : List Byte) : Prop where
  length : loader.length = 512
  parts : ∀ i, 446 ≤ i → i < 510 → loader.getD i 0 = 0
  signature : loader.getD 510 0 = 0x55 ∧ loader.getD 511 0 = 0xaa

/-! ## The bytes of the image -/

theorem length_dd (file bytes : List Byte) (seek : Nat) : (dd file bytes seek).length = max file.length (seek + bytes.length) := by
  simp only [dd, List.length_append, List.length_take, List.length_replicate, List.length_drop]
  omega

theorem getD_dd (file bytes : List Byte) (seek i : Nat) : (dd file bytes seek).getD i 0 =
    if seek ≤ i ∧ i < seek + bytes.length then bytes.getD (i - seek) 0 else file.getD i 0 := by
  have hfront : ((file ++ List.replicate (seek - file.length) (0 : Byte)).take seek).length = seek := by
    simp only [List.length_take, List.length_append, List.length_replicate]
    omega
  simp only [List.getD_eq_getElem?_getD]
  rw [dd, List.append_assoc, List.getElem?_append, hfront]
  by_cases hlow : i < seek
  · rw [if_pos hlow, if_neg (by omega), List.getElem?_take_of_lt hlow, List.getElem?_append]
    split
    · rfl
    · rename_i hlong
      rw [List.getElem?_replicate, List.getElem?_eq_none (by omega)]
      split <;> rfl
  · rw [if_neg hlow, List.getElem?_append]
    by_cases hin : i < seek + bytes.length
    · rw [if_pos (by omega), if_pos (by omega)]
    · rw [if_neg (by omega), if_neg (by omega), List.getElem?_drop]
      congr 2
      omega

theorem getD_dd_singleton (file : List Byte) (x : Byte) (seek i : Nat) :
    (dd file [x] seek).getD i 0 = if i = seek then x else file.getD i 0 := by
  rw [getD_dd, List.length_singleton]
  by_cases h : i = seek
  · rw [if_pos (by omega), if_pos h, h, Nat.sub_self]
    rfl
  · rw [if_neg (by omega), if_neg h]

variable {loader kernel : List Byte}

/-- The first sector of the image: the loader and the four fields. -/
def mbrByte (loader : List Byte) (sectors i : Nat) : Byte :=
  if 458 ≤ i ∧ i < 462 then (bytes32 (BitVec.ofNat 32 sectors)).getD (i - 458) 0
  else if i = 454 then 0x01 else if i = 450 then 0x20 else if i = 446 then 0x80 else loader.getD i 0

theorem mbrByte_loader {sectors i : Nat} (h : ¬ (458 ≤ i ∧ i < 462) ∧ i ≠ 454 ∧ i ≠ 450 ∧ i ≠ 446) :
    mbrByte loader sectors i = loader.getD i 0 := by
  obtain ⟨hsectors, hfirst, htype, hstatus⟩ := h
  rw [mbrByte, if_neg hsectors, if_neg hfirst, if_neg htype, if_neg hstatus]

theorem getD_diskImage_mbr (h : LoaderBin loader) {i : Nat} (hi : i < 512) :
    (diskImage loader kernel).getD i 0 = mbrByte loader (kernelSectors kernel.length) i := by
  have htake : loader.take 512 = loader := List.take_of_length_le (Nat.le_of_eq h.length)
  simp only [diskImage]
  rw [getD_dd]
  simp only [getD_dd_singleton]
  rw [getD_dd, getD_dd, htake, ByteStack.length_bytes32]
  rw [if_neg (show ¬ (512 ≤ i ∧ i < 512 + kernel.length) by omega), if_pos (show 0 ≤ i ∧ i < 0 + loader.length by rw [h.length]; omega),
    Nat.sub_zero]
  rfl

/-- From the second sector on lies the kernel, and zeros behind it. -/
theorem getD_diskImage_kernel (h : LoaderBin loader) (i : Nat) :
    (diskImage loader kernel).getD (512 + i) 0 = kernel.getD i 0 := by
  have htake : loader.take 512 = loader := List.take_of_length_le (Nat.le_of_eq h.length)
  simp only [diskImage, getD_dd, htake, ByteStack.length_bytes32, List.length_singleton, h.length]
  rw [if_neg (by omega), if_neg (by omega), if_neg (by omega), if_neg (by omega), Nat.add_sub_cancel_left]
  split
  · rfl
  · rename_i hout
    rw [if_neg (by omega), List.getD_eq_getElem?_getD, List.getD_eq_getElem?_getD, List.getElem?_replicate,
      List.getElem?_eq_none (l := kernel) (by omega)]
    split <;> rfl

theorem length_diskImage (loader kernel : List Byte) : 16 * 1024 * 512 ≤ (diskImage loader kernel).length := by
  simp only [diskImage, length_dd, List.length_replicate]
  omega

/-! ## Booting from the image -/

theorem readImage_of_le {img : List Byte} {n : Word} (h : 512 * n.toNat + 512 ≤ img.length) :
    ∃ sec, readImage img n = some sec ∧ ∀ i, i < 512 → sec.byte i = img.getD (512 * n.toNat + i) 0 := by
  refine ⟨_, dif_pos h, fun i hi => ?_⟩
  rw [Sector.byte, List.getD_eq_getElem?_getD, List.getD_eq_getElem?_getD]
  simp only
  rw [List.getElem?_take_of_lt hi, List.getElem?_drop]

/-- The first sectors of a partition that begins at sector 1. -/
theorem toNat_lba_one {i : Nat} (hi : i < 1024) : (lba 1 i).toNat = 1 + i := by
  have hlow : (1 + BitVec.ofNat 16 i : BitVec 16).toNat = 1 + i := by
    rw [BitVec.toNat_add, BitVec.toNat_ofNat]
    change (1 + i % 65536) % 65536 = _
    omega
  rw [lba, BitVec.toNat_append]
  change 0 <<< 16 ||| (1 + BitVec.ofNat 16 i : BitVec 16).toNat = _
  rw [hlow, Nat.zero_shiftLeft, Nat.zero_or]

/-- The first partition of the image: bootable, from sector 1 on, as long as the kernel. -/
theorem boots_diskImage (h : LoaderBin loader) (hkernel : kernel ≠ []) (hsize : kernel.length ≤ 512 * (2 ^ 32 - 1)) :
    ∃ sec, readImage (diskImage loader kernel) 0 = some sec ∧ Boots (some sec) 0 ∧ firstSector sec 0 = 1 ∧
      (sectorCount sec 0).toNat = kernelSectors kernel.length ∧ sectorCount sec 0 ≠ 0 := by
  have hlen := length_diskImage loader kernel
  have hfirst : 512 * (0 : Word).toNat + 512 ≤ (diskImage loader kernel).length := by
    change 512 * 0 + 512 ≤ _
    omega
  obtain ⟨sec, hread, hbyte⟩ := readImage_of_le hfirst
  have hmbr : ∀ i, i < 512 → sec.byte i = mbrByte loader (kernelSectors kernel.length) i := fun i hi => by
    rw [hbyte i hi, show 512 * (0 : Word).toNat + i = i from Nat.zero_add i]
    exact getD_diskImage_mbr h hi
  have hpos : kernel.length ≠ 0 := fun h0 => hkernel (List.eq_nil_of_length_eq_zero h0)
  have hbound : kernelSectors kernel.length < 2 ^ 32 ∧ 0 < kernelSectors kernel.length := by
    rw [kernelSectors]
    split <;> omega
  generalize kernelSectors kernel.length = sectors at hmbr hbound
  have hcount : sectorCount sec 0 = BitVec.ofNat 32 sectors := by
    have hheld : ByteStack.Holds (fun a => sec.byte a.toNat) (458 + 0) (bytes32 (BitVec.ofNat 32 sectors) ++ []) := by
      refine ByteStack.holds_iff_getElem.mpr fun i hi => ?_
      have hlt : i < 4 := hi
      have haddr : ((458 + 0 : Word) + BitVec.ofNat 32 i).toNat = 458 + i := by
        rw [BitVec.toNat_add, BitVec.toNat_ofNat, Nat.mod_eq_of_lt (show i < 2 ^ 32 by omega)]
        exact Nat.mod_eq_of_lt (show 458 + i < 2 ^ 32 by omega)
      rw [haddr, hmbr _ (by omega), mbrByte, if_pos (by omega), Nat.add_sub_cancel_left, List.getD_eq_getElem?_getD,
        List.getElem?_eq_getElem (by rw [ByteStack.length_bytes32]; exact hlt)]
      simp
    exact hheld.load32.1
  have hboots : Boots (some sec) 0 := by
    refine ⟨sec, rfl, ?_, by decide, ⟨?_, ?_⟩, fun i hi => absurd hi (Nat.not_lt_zero i)⟩
    · obtain ⟨hlow, hhigh⟩ := h.signature
      rw [signature, hmbr 511 (by decide), hmbr 510 (by decide), mbrByte_loader (by decide), mbrByte_loader (by decide),
        hlow, hhigh]
      rfl
    · rw [hmbr _ (by decide), mbrByte]
      rfl
    · rw [hmbr _ (by decide), mbrByte]
      rfl
  have hfirst : firstSector sec 0 = 1 := by
    have hzero : ∀ i, 455 ≤ i → i < 458 → sec.byte i = 0 := by
      intro i hlow hhigh
      rw [hmbr i (by omega), mbrByte_loader (by omega), h.parts i (by omega) (by omega)]
    have hone : sec.byte (446 + 16 * 0 + 8) = 1 := by
      rw [hmbr _ (by decide), mbrByte, if_neg (by decide), if_pos (by decide)]
    rw [firstSector, Sector.word, hzero _ (by decide) (by decide), hzero _ (by decide) (by decide),
      hzero _ (by decide) (by decide), hone]
    rfl
  have hnat : (sectorCount sec 0).toNat = sectors := by rw [hcount, BitVec.toNat_ofNat, Nat.mod_eq_of_lt hbound.1]
  refine ⟨sec, hread, hboots, hfirst, hnat, fun h0 => ?_⟩
  rw [h0] at hnat
  exact Nat.ne_of_lt hbound.2 hnat

/-- The kernel comes back from the image: the loader, started from the disk that `start.sh` makes, enters it with its bytes in memory, 512 kB of them at most. -/
theorem loader_diskImage {b : Bios} (hloader : LoaderBin loader) (hkernel : kernel ≠ [])
    (hsize : kernel.length ≤ 512 * (2 ^ 32 - 1)) (hdisk : ∀ n, b.read 0x80 n = readImage (diskImage loader kernel) n)
    {drives : Nat} (hdrives : 0 < drives) {ebx : Word} (hebx : ebx.extractLsb' 16 16 = 0) (mem : ByteStack.Memory) :
    ∃ s, Loader.loader b drives ebx mem = some (.start s kernSeg (kernel.getD 0x19 0 ++ kernel.getD 0x18 0)) ∧
      ∀ x, s.mem x = if (x - 0x20000).toNat < 512 * min (kernelSectors kernel.length) 1024
        then kernel.getD (x - 0x20000).toNat 0 else mem x := by
  obtain ⟨sec, hmbr, hboots, hfirst, hsectors, hcount⟩ := boots_diskImage hloader hkernel hsize
  have hlen := length_diskImage loader kernel
  have hread : ∀ i, i < 1024 → ∃ sec', b.read 0x80 (lba 1 i) = some sec' ∧
      ∀ off, off < 512 → sec'.byte off = kernel.getD (512 * i + off) 0 := by
    intro i hi
    have hlba := toNat_lba_one hi
    have hin : 512 * (lba 1 i).toNat + 512 ≤ (diskImage loader kernel).length := by omega
    obtain ⟨sec', hsec', hbyte⟩ := readImage_of_le hin
    refine ⟨sec', (hdisk _).trans hsec', fun off hoff => ?_⟩
    rw [hbyte off hoff, hlba, show 512 * (1 + i) + off = 512 + (512 * i + off) by omega]
    exact getD_diskImage_kernel hloader _
  have hpartition : ∀ i, i < 512 * 1024 → partitionByte b 0x80 1 i = kernel.getD i 0 := by
    intro i hi
    obtain ⟨sec', hsec', hbyte⟩ := hread (i / 512) (by omega)
    rw [partitionByte, hsec', Option.map_some, Option.getD_some, hbyte _ (Nat.mod_lt _ (by decide)), Nat.div_add_mod]
  have hmbr₀ : mbr b ebx 0 = some sec := by
    have hzero : xorBx ebx = 0 := by rw [xorBx, hebx]; rfl
    rw [mbr, BitVec.add_zero, hzero, hdisk]
    exact hmbr
  have hloads := loader_loads (b := b) hdrives (fun i hi => absurd hi (Nat.not_lt_zero i)) hmbr₀ hboots hcount mem
  have hn : loadedSectors (sectorCount sec 0) = min (kernelSectors kernel.length) 1024 := by
    rw [loadedSectors, hsectors]
  cases hrun : Loader.loader b drives ebx mem with
  | none =>
      rw [hrun] at hloads
      exact hloads.elim
  | some out =>
      rw [hrun] at hloads
      cases out with
      | notFound s => exact hloads.elim
      | badRead s =>
          obtain ⟨i, hi, hnone, -⟩ := hloads
          rw [hn] at hi
          rw [hfirst, BitVec.add_zero] at hnone
          obtain ⟨sec', hsec', -⟩ := hread i (by omega)
          rw [hnone] at hsec'
          cases hsec'
      | start s cs ip =>
          obtain ⟨-, hmem, rfl, rfl⟩ := hloads
          rw [hn, hfirst, BitVec.add_zero] at hmem
          rw [hfirst, BitVec.add_zero]
          rw [hpartition _ (by decide), hpartition _ (by decide)]
          refine ⟨s, rfl, fun x => ?_⟩
          rw [hmem, withSectors]
          split
          · exact hpartition _ (by omega)
          · rfl

/-- A loader that is all zeros but for the signature. -/
def emptyLoader : List Byte := List.replicate 510 0 ++ [0x55, 0xaa]

theorem loaderBin_emptyLoader : LoaderBin emptyLoader := by
  refine ⟨?_, fun i _ hhigh => ?_, ⟨by decide +kernel, by decide +kernel⟩⟩
  · rw [emptyLoader, List.length_append, List.length_replicate]
    rfl
  · rw [emptyLoader, List.getD_eq_getElem?_getD, List.getElem?_append_left (by rw [List.length_replicate]; exact hhigh),
      List.getElem?_replicate, if_pos hhigh]
    rfl

/-- A machine whose drives all hold the image. -/
def imageDrives (img : List Byte) : Bios := ⟨fun _ => readImage img, fun _ => true⟩

theorem read_imageDrives (img : List Byte) (dl : Byte) (n : Word) : (imageDrives img).read dl n = readImage img n := rfl

/-- The first bytes of an ELF file. -/
def elfKernel : List Byte := [0x7f, 0x45, 0x4c, 0x46]

theorem loader_diskImage_elf : ∃ s, Loader.loader (imageDrives (diskImage emptyLoader elfKernel)) 1 0xaa55 (fun _ => 0) =
      some (.start s kernSeg (elfKernel.getD 0x19 0 ++ elfKernel.getD 0x18 0)) ∧
    ∀ x, s.mem x = if (x - 0x20000).toNat < 512 * min (kernelSectors elfKernel.length) 1024
      then elfKernel.getD (x - 0x20000).toNat 0 else (fun _ => 0) x :=
  loader_diskImage (b := imageDrives (diskImage emptyLoader elfKernel)) loaderBin_emptyLoader (by decide) (by decide)
    (read_imageDrives _ _) (by decide) (by decide) (fun _ => 0)

end I386Kernel.Loader
