import I386Kernel.Block.IdeInit
import I386Kernel.Block.Lookup
import I386Kernel.Block.SectorAddress

/-!
# The disk `main` reads from

After `ide_init` `main` asks the registry for `hda` and reads sector 0 of the block it gets. All the names `ide_init` gives differ only in their last character, which is the one `strcmp` passes over: whatever the last character of the name asked for, the block is the first disk of a known type. A disk that failed its IDENTIFY is registered too, but with a size of 0, and a read of it never reaches the driver.
-/

namespace I386Kernel.IdeInit

/-- `block_read`, with the `read` operation of the driver: the result and the state the driver leaves. -/
def blockRead {S : Type} (b : Block) (read : Word → Word → S → Word × S) (sector : Word) (s : S) : Word × S :=
  if Ide.validSectorNo b.nrSectors sector then read sector b.params s else (-1, s)

/-- The name `hd` with one more character. -/
def hd (c : UInt8) (hc : c ≠ 0) : CString where
  chars := [ascii 'h', ascii 'd', c]
  nonul := by
    intro h
    obtain h | h | h : 0 = ascii 'h' ∨ 0 = ascii 'd' ∨ 0 = c := by simpa using h
    · exact absurd h (by decide)
    · exact absurd h (by decide)
    · exact hc h.symm

instance : DecidablePred Identified := fun _ => inferInstanceAs (Decidable (_ ∧ _))

/-- The first disk of a known type, in the order of the loops of `ide_init`. -/
def firstDisk (devices : Devices) : Option (Fin 2 × Fin 2) :=
  allDisks.find? fun x => decide (TypeChecked devices x.1 x.2)

theorem typeChecked_of_firstDisk {devices : Devices} {x : Fin 2 × Fin 2} (h : firstDisk devices = some x) :
    TypeChecked devices x.1 x.2 := by
  have hfound := List.find?_some h
  exact of_decide_eq_true hfound

/-! ## The names -/

theorem diskName_eq (chan dev : Fin 2) : diskName chan dev = [ascii 'h', ascii 'd', UInt8.ofNat (97 + chan * 2 + dev)] := by
  revert chan dev
  decide +kernel

/-- The characters at which `strcmp` can tell the names apart are the one it passes over and the terminator after it. -/
theorem strcmp_hd {c : UInt8} (hc : c ≠ 0) {b : Block} (hnul : ∃ i, b.name i = 0) {chan dev : Fin 2}
    (hname : b.storedName = diskName chan dev) : strcmp (hd c hc).chars b.bytes = 0 := by
  have hspelled : SpelledAs (diskName chan dev) b.bytes :=
    (Block.storedName_eq_iff hnul ⟨_, nonul_diskName chan dev⟩).mp hname
  rw [diskName_eq] at hspelled
  obtain ⟨hbytes, hend⟩ := hspelled
  have hfirst : ascii 'h' = b.bytes 0 := hbytes 0 (by decide : 0 < 3)
  have hsecond : ascii 'd' = b.bytes 1 := hbytes 1 (by decide : 1 < 3)
  have hend : b.bytes 3 = 0 := hend
  have hagree : ∀ j < 2, (hd c hc).chars.getD j 0 = b.bytes j := by
    intro j hj
    match j, hj with
    | 0, _ => exact hfirst
    | 1, _ => exact hsecond
  rw [strcmp_eq_zero_iff]
  by_cases hlast : c = b.bytes 2
  · refine Or.inl ⟨fun j hj => ?_, hend⟩
    match j, hj with
    | 0, _ => exact hfirst
    | 1, _ => exact hsecond
    | 2, _ => exact hlast
  · exact Or.inr ⟨2, (by decide : 2 < 3), hagree, hlast, hend.symm⟩

/-! ## The data of the registered blocks -/

/-- Only an IDENTIFY sets the size of a disk, and a registered block has the data of its disk. -/
structure Sized (l : Layout) (devices : Devices) (s : Ide) : Prop where
  disk : ∀ x : Fin 2 × Fin 2, ¬ Identified (devices x.1 x.2) → (s.disk x).nrSectors = 0
  size : ∀ x : Fin 2 × Fin 2, l.block x.1 x.2 ∈ s.registry.order → ¬ Identified (devices x.1 x.2) →
    (s.registry.block (l.block x.1 x.2)).nrSectors = 0
  params : ∀ x : Fin 2 × Fin 2, l.block x.1 x.2 ∈ s.registry.order →
    (s.registry.block (l.block x.1 x.2)).params = l.ataDisk x.1 x.2

/-- A step on one disk that keeps its size keeps the sizes of all. -/
theorem update_nrSectors (disk : Fin 2 × Fin 2 → AtaDisk) (y : Fin 2 × Fin 2) {d : AtaDisk}
    (hd : d.nrSectors = (disk y).nrSectors) (x : Fin 2 × Fin 2) : (Function.update disk y d x).nrSectors = (disk x).nrSectors := by
  rw [Function.update_apply]
  split
  · rename_i hx
    rw [hd, hx]
  · rfl

namespace Sized

variable {l : Layout} {devices : Devices} {s t : Ide}

theorem frame (h : Sized l devices s) (hregistry : t.registry = s.registry)
    (hdisk : ∀ x, (t.disk x).nrSectors = (s.disk x).nrSectors) : Sized l devices t := by
  refine ⟨fun x hx => ?_, ?_, ?_⟩
  · rw [hdisk]
    exact h.disk x hx
  · rw [hregistry]
    exact h.size
  · rw [hregistry]
    exact h.params

theorem nameDisks (h : Sized l devices s) (chan : Fin 2) : Sized l devices (nameDisks chan s) := by
  refine h.frame rfl fun x => ?_
  rw [nameDisks_disk]
  split <;> rfl

theorem checkDiskType (h : Sized l devices s) (chan dev : Fin 2) (a : Answers) :
    Sized l devices (checkDiskType chan dev a s).2 := by
  refine h.frame (checkDiskType_registry ..) fun x => ?_
  rw [checkDiskType_disk]
  refine update_nrSectors s.disk (chan, dev) ?_ x
  rfl

theorem checkDisks (h : Sized l devices s) (chan : Fin 2) : Sized l devices (checkDisks devices chan s) := by
  rw [IdeInit.checkDisks]
  split
  · exact (h.checkDiskType chan 0 _).checkDiskType chan 1 _
  · exact h.checkDiskType chan 0 _

/-- `identify_ata_device` leaves the size as it is when the device has no data. -/
theorem identifyAtaDevice (h : Sized l devices s) (chan dev : Fin 2) :
    Sized l devices (identifyAtaDevice chan dev (devices chan dev) s) := by
  rw [IdeInit.identifyAtaDevice]
  split
  · have hwait := waitWhileBusy_iff chan (devices chan dev)
      ((s.io.selectDiskWait chan dev (devices chan dev)).outb (regBase chan + 7) 0xec)
    dsimp only
    split
    · rename_i hbusy
      refine ⟨fun x hx => ?_, h.size, h.params⟩
      have hne : x ≠ (chan, dev) := by
        rintro rfl
        exact hx (hwait.mp hbusy)
      show (Function.update s.disk (chan, dev) _ x).nrSectors = 0
      rw [Function.update_of_ne hne]
      exact h.disk x hx
    · refine h.frame rfl (update_nrSectors s.disk (chan, dev) ?_)
      rfl
  · exact h

theorem blockRegister (h : Sized l devices s) (chan dev : Fin 2) :
    Sized l devices { s with
      registry := s.registry.blockRegister (l.block chan dev) (some (s.disk (chan, dev)).name)
        (s.disk (chan, dev)).nrSectors l.ideOps (l.ataDisk chan dev) } := by
  have hself := h.disk (chan, dev)
  have horder : (s.registry.blockRegister (l.block chan dev) (some (s.disk (chan, dev)).name)
      (s.disk (chan, dev)).nrSectors l.ideOps (l.ataDisk chan dev)).order = s.registry.order ++ [l.block chan dev] :=
    order_blockRegister ..
  have hmem (x : Fin 2 × Fin 2) (hx : x ≠ (chan, dev)) (hin : l.block x.1 x.2 ∈ s.registry.order ++ [l.block chan dev]) :
      l.block x.1 x.2 ∈ s.registry.order := by
    obtain hin | hin := List.mem_append.mp hin
    · exact hin
    · exact absurd (l.block_inj (y := (chan, dev)) (List.mem_singleton.mp hin)) hx
  refine ⟨h.disk, fun x hx hid => ?_, fun x hx => ?_⟩
  · rw [horder] at hx
    by_cases hxy : x = (chan, dev)
    · subst hxy
      rw [nrSectors_blockRegister]
      exact hself hid
    · rw [block_register_ne _ _ _ _ _ hxy]
      exact h.size x (hmem x hxy hx) hid
  · rw [horder] at hx
    by_cases hxy : x = (chan, dev)
    · subst hxy
      rw [Registry.blockRegister, if_neg (l.block_ne_zero chan dev)]
      show (Function.update s.registry.block _ _ _).params = _
      rw [Function.update_self]
    · rw [block_register_ne _ _ _ _ _ hxy]
      exact h.params x (hmem x hxy hx)

theorem initDisk (h : Sized l devices s) (chan dev : Fin 2) :
    Sized l devices (initDisk l (devices chan dev) s chan dev) := by
  rw [IdeInit.initDisk]
  split
  · exact (h.identifyAtaDevice chan dev).blockRegister chan dev
  · exact h

theorem initChannel (h : Sized l devices s) (chan : Fin 2) : Sized l devices (initChannel l devices s chan) := by
  rw [IdeInit.initChannel]
  have hreset : Sized l devices
      { IdeInit.nameDisks chan s with io := (IdeInit.nameDisks chan s).io.resetAdaptor chan (devices chan) } :=
    (h.nameDisks chan).frame rfl fun _ => rfl
  exact List.foldlRecOn _ _ (hreset.checkDisks chan) fun t ht dev _ => ht.initDisk chan dev

end Sized

theorem sized_ideInit (l : Layout) (devices : Devices) (r : Registry) : Sized l devices (ideInit l devices (boot r)) := by
  have hboot : Sized l devices (boot r) := by
    refine ⟨fun _ _ => rfl, fun x hx => ?_, fun x hx => ?_⟩ <;> exact nomatch hx
  exact List.foldlRecOn _ _ hboot fun s hs chan _ => hs.initChannel chan

/-! ## The lookup and the read -/

theorem find?_eq_head? {α : Type} {p : α → Bool} {as : List α} (h : ∀ a ∈ as, p a = true) : as.find? p = as.head? := by
  cases as with
  | nil => rfl
  | cons a as => exact List.find?_cons_of_pos (h a (List.mem_cons_self ..))

/-- Any name of this form finds the first disk. -/
theorem blcokGetByName_hd (l : Layout) (devices : Devices) (r : Registry) {c : UInt8} (hc : c ≠ 0) {fuel : Nat}
    (hfuel : 4 < fuel) : (ideInit l devices (boot r)).registry.blcokGetByName (hd c hc).chars fuel =
      some ((firstDisk devices).map fun x => l.block x.1 x.2) := by
  have hinv := inv_ideInit l devices r
  have hlen : (ideInit l devices (boot r)).registry.order.length < fuel := by
    rw [hinv.order, List.length_map]
    exact Nat.lt_of_le_of_lt (List.length_filter_le _ allDisks) hfuel
  rw [Registry.blcokGetByName, Registry.lookupLoop_seg _ _ hinv.registry.ring.seg hlen, find?_eq_head?]
  · rw [hinv.order, List.head?_map, List.head?_filter]
    rfl
  · intro b hb
    have hnul := hinv.registry.terminated b hb
    rw [hinv.order] at hb
    obtain ⟨x, hx, rfl⟩ := List.mem_map.mp hb
    obtain ⟨hall, htype⟩ := List.mem_filter.mp hx
    exact decide_eq_true (strcmp_hd hc hnul (hinv.name x hall (of_decide_eq_true htype)))

/-- A read of a registered disk reaches the driver, with that disk, exactly when the disk was identified and reported more sectors than the one asked for. -/
theorem blockRead_ideInit (l : Layout) (devices : Devices) (r : Registry) {x : Fin 2 × Fin 2}
    (hx : TypeChecked devices x.1 x.2) {S : Type} (read : Word → Word → S → Word × S) (sector : Word) (s : S) :
    blockRead ((ideInit l devices (boot r)).registry.block (l.block x.1 x.2)) read sector s =
      if Identified (devices x.1 x.2) ∧ sector < reported (devices x.1 x.2) then read sector (l.ataDisk x.1 x.2) s
      else (-1, s) := by
  have hmem := (mem_order_ideInit l devices r x.1 x.2).mpr hx
  have hsized := sized_ideInit l devices r
  rw [blockRead, Ide.validSectorNo, hsized.params x hmem]
  by_cases hid : Identified (devices x.1 x.2)
  · rw [(inv_ideInit l devices r).sectors x (mem_allDisks x) hx hid]
    simp only [hid, true_and, decide_eq_true_eq]
  · have hnot : ¬ sector < (0 : Word) := BitVec.not_lt_zero
    rw [hsized.size x hmem hid, if_neg (by rw [decide_eq_true_eq]; exact hnot), if_neg fun h => hid h.1]

/-- What `main` does with the name `hda`, and with any other of the names. -/
theorem bootDisk (l : Layout) (devices : Devices) (r : Registry) (c : UInt8) (hc : c ≠ 0) (fuel : Nat) (hfuel : 4 < fuel) :
    let t := (ideInit l devices (boot r)).registry
    t.blcokGetByName (hd c hc).chars fuel = some ((firstDisk devices).map fun x => l.block x.1 x.2) ∧
      ∀ x ∈ firstDisk devices, ∀ {S : Type} (read : Word → Word → S → Word × S) (sector : Word) (s : S),
        blockRead (t.block (l.block x.1 x.2)) read sector s =
          if Identified (devices x.1 x.2) ∧ sector < reported (devices x.1 x.2) then read sector (l.ataDisk x.1 x.2) s
          else (-1, s) := by
  refine ⟨blcokGetByName_hd l devices r hc hfuel, fun x hx S read sector s => ?_⟩
  exact blockRead_ideInit l devices r (typeChecked_of_firstDisk hx) read sector s

/-- No disk 0, and one of 4096 sectors as disk 1. -/
private def secondOnly (chan dev : Fin 2) : Answers :=
  if chan.val = 0 ∧ dev.val = 1 then { silent with identify := ⟨fun _ => 0, 0x08⟩, data := fun i => if i = 60 then 0x1000 else 0 }
  else { silent with error := 0 }

/-- `hdb` is found under the name `hda`, and its first sector is read. -/
theorem bootDisk_secondOnly :
    let l : Layout := ⟨0xc0110000, 0xc0108000, fun _ dev => if dev = 0 then 0xc0112000 else 0xc0112024, by decide⟩
    let r : Registry := ⟨⟨fun _ => none, fun _ => none⟩, fun _ => ⟨fun _ => 0, 0, 0, 0⟩, []⟩
    let t := (ideInit l secondOnly (boot r)).registry
    t.blcokGetByName Registry.hda.chars 5 = some (some (l.block 0 1)) ∧
      blockRead (t.block (l.block 0 1)) (fun _ disk (reads : List Word) => (512, disk :: reads)) 0 [] =
        (512, [0xc0112024]) := by
  intro l r t
  have hdisk : firstDisk secondOnly = some (0, 1) := by decide
  have hid : Identified (secondOnly 0 1) ∧ (0 : Word) < reported (secondOnly 0 1) :=
    ⟨⟨⟨0, by decide, by decide⟩, by decide⟩, by decide⟩
  obtain ⟨hfound, hread⟩ := bootDisk l secondOnly r (ascii 'a') (by decide) 5 (by decide)
  refine ⟨?_, ?_⟩
  · rw [hdisk] at hfound
    exact hfound
  · rw [hread (0, 1) hdisk, if_pos hid]
    rfl

end I386Kernel.IdeInit
