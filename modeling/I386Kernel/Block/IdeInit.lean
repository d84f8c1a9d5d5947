import I386Kernel.Block.Lookup
import I386Kernel.Text.Vsprintf

/-!
# Detection of the disks

`ide_init` with `reset_adaptor`, `check_disk_type` and `identify_ata_device`. What the devices return is given by the place of the read and, within a loop, its round; the port accesses are recorded in order. The wait for the interrupt of IDENTIFY is taken to end.
-/

namespace I386Kernel.IdeInit

open CircularList (Ring)

/-- What is read in a `wait_while_busy`: the status in each round, and once more after BSY was clear. -/
structure Polls where
  altStatus : Nat → UInt8
  again : UInt8

/-- What a disk returns during detection. -/
structure Answers where
  presentNsect : UInt8
  presentLbal : UInt8
  resetNsect : Nat → UInt8
  resetLbal : Nat → UInt8
  reset : Polls
  error : UInt8
  lbam : UInt8
  lbah : UInt8
  status : UInt8
  idleBefore : Nat → UInt8
  idleAfter : Nat → UInt8
  identify : Polls
  data : Nat → BitVec 16

/-- The disks of the two channels. -/
abbrev Devices := Fin 2 → Fin 2 → Answers

/-! ## Port accesses -/

inductive Access where
  | inb (port : Word) (value : UInt8)
  | outb (port : Word) (value : UInt8)
  | insw (port : Word) (count : Nat)

abbrev Io := List Access

def regBase (chan : Fin 2) : Word := if chan = 0 then 0x1f0 else 0x170

namespace Io

def inb (io : Io) (port : Word) (value : UInt8) : Io := io ++ [.inb port value]

def outb (io : Io) (port : Word) (value : UInt8) : Io := io ++ [.outb port value]

def selectDisk (chan dev : Fin 2) (io : Io) : Io := io.outb (regBase chan + 6) (if dev = 1 then 0xa0 ||| 0x10 else 0xa0)

/-- The loop of `wait_while_busy` from round `i` on, with the number of rounds left. -/
def busyLoop (chan : Fin 2) (p : Polls) : Nat → Nat → Io → Bool × Io
  | 0, _, io => (false, io)
  | left + 1, i, io =>
      let io := io.inb (regBase chan + 0x206) (p.altStatus i)
      if p.altStatus i &&& 0x80 = 0 then (p.again &&& 0x08 ≠ 0, io.inb (regBase chan + 0x206) p.again)
      else busyLoop chan p left (i + 1) io

def waitWhileBusy (chan : Fin 2) (p : Polls) (io : Io) : Bool × Io := busyLoop chan p 3000 0 io

def idleLoop (chan : Fin 2) (status : Nat → UInt8) : Nat → Nat → Io → Io
  | 0, _, io => io
  | left + 1, i, io =>
      let io := io.inb (regBase chan + 7) (status i)
      if status i &&& (0x80 ||| 0x08) = 0 then io else idleLoop chan status left (i + 1) io

def waitUntilIdle (chan : Fin 2) (status : Nat → UInt8) (io : Io) : Io := idleLoop chan status 1000 0 io

def selectDiskWait (chan dev : Fin 2) (a : Answers) (io : Io) : Io :=
  waitUntilIdle chan a.idleAfter (selectDisk chan dev (waitUntilIdle chan a.idleBefore io))

/-- One round of the loop over the disks in `reset_adaptor`. -/
def detectPresence (chan dev : Fin 2) (a : Answers) (io : Io) : Bool × Io :=
  let io := selectDisk chan dev io
  let io := (io.outb (regBase chan + 2) 0x55).outb (regBase chan + 3) 0xaa
  let io := (io.outb (regBase chan + 2) 0xaa).outb (regBase chan + 3) 0x55
  let io := (io.outb (regBase chan + 2) 0x55).outb (regBase chan + 3) 0xaa
  let io := io.inb (regBase chan + 2) a.presentNsect
  if a.presentNsect = 0x55 then (a.presentLbal = 0xaa, io.inb (regBase chan + 3) a.presentLbal) else (false, io)

/-- The loop that waits for the signature of disk 1 after the reset. -/
def signatureLoop (chan : Fin 2) (a : Answers) : Nat → Nat → Io → Io
  | 0, _, io => io
  | left + 1, i, io =>
      let io := io.inb (regBase chan + 2) (a.resetNsect i)
      if a.resetNsect i = 1 then
        let io := io.inb (regBase chan + 3) (a.resetLbal i)
        if a.resetLbal i = 1 then io else signatureLoop chan a left (i + 1) io
      else signatureLoop chan a left (i + 1) io

def resetAdaptor (chan : Fin 2) (devices : Fin 2 → Answers) (io : Io) : Io :=
  let present₀ := detectPresence chan 0 (devices 0) io
  let present₁ := detectPresence chan 1 (devices 1) present₀.2
  let io := ((present₁.2.outb (regBase chan + 0x206) 0).outb (regBase chan + 0x206) 0x04).outb (regBase chan + 0x206) 0
  let io := if present₀.1 then (waitWhileBusy chan (devices 0).reset (selectDisk chan 0 io)).2 else io
  if present₁.1 then
    (waitWhileBusy chan (devices 1).reset (signatureLoop chan (devices 1) 3000 0 (selectDisk chan 1 io))).2
  else io

end Io

/-! ## The disks -/

/-- `sprintf(disk->name, "hd%c", 'a' + chan_no * NR_ATA_DISKS + dev_no)` -/
def diskName (chan dev : Fin 2) : List UInt8 :=
  (vsprintf ("hd%c".toList.map ascii) [⟨BitVec.ofNat 32 ('a'.toNat + chan * 2 + dev), []⟩]).1

theorem nonul_diskName (chan dev : Fin 2) : 0 ∉ diskName chan dev := by
  revert chan dev
  decide +kernel

theorem length_diskName (chan dev : Fin 2) : (diskName chan dev).length = 3 := by
  revert chan dev
  decide +kernel

structure AtaDisk where
  name : CString
  isAtaDisk : Bool
  nrSectors : Word

/-- The addresses of `ide_disks`, of `ide_ops` and of the disks in `channels`. -/
structure Layout where
  ideDisks : Word
  ideOps : Word
  ataDisk : Fin 2 → Fin 2 → Word
  fits : 0 < ideDisks.toNat ∧ ideDisks.toNat + 4 * 36 ≤ 2 ^ 32

/-- `&ide_disks[chan_no * NR_ATA_DISKS + dev_no]`; a block takes 36 bytes. -/
def Layout.block (l : Layout) (chan dev : Fin 2) : Word := l.ideDisks + BitVec.ofNat 32 (36 * (chan * 2 + dev))

structure Ide where
  disk : Fin 2 × Fin 2 → AtaDisk
  registry : Registry
  io : Io

def setDisk (s : Ide) (chan dev : Fin 2) (disk : AtaDisk) : Ide :=
  { s with disk := Function.update s.disk (chan, dev) disk }

/-- The test of `check_disk_type`: the disk is not there. -/
def absent (dev : Fin 2) (a : Answers) : Bool :=
  (a.error ≠ 1 ∧ (a.error ≠ 0x81 ∨ dev = 1)) ∨ a.status &&& 0x40 = 0 ∨ a.status &&& 0x80 ≠ 0

def checkDiskType (chan dev : Fin 2) (a : Answers) (s : Ide) : Bool × Ide :=
  let io := ((((s.io.selectDisk chan dev).inb (regBase chan + 1) a.error).inb (regBase chan + 4) a.lbam).inb
    (regBase chan + 5) a.lbah).inb (regBase chan + 7) a.status
  let s := { s with io := io }
  if absent dev a then (a.error ≠ 0x81, setDisk s chan dev { s.disk (chan, dev) with isAtaDisk := false })
  else
    (true, setDisk s chan dev { s.disk (chan, dev) with
      isAtaDisk := (a.lbam = 0 ∧ a.lbah = 0) ∨ (a.lbam = 0x3c ∧ a.lbah = 0xc3) })

/-- Without the messages. -/
def identifyAtaDevice (chan dev : Fin 2) (a : Answers) (s : Ide) : Ide :=
  if (s.disk (chan, dev)).isAtaDisk then
    let io := (s.io.selectDiskWait chan dev a).outb (regBase chan + 7) 0xec
    let busy := io.waitWhileBusy chan a.identify
    let s := { s with io := busy.2 }
    if busy.1 then
      setDisk { s with io := s.io ++ [.insw (regBase chan) 256] } chan dev
        { s.disk (chan, dev) with nrSectors := a.data 61 ++ a.data 60 }
    else setDisk s chan dev { s.disk (chan, dev) with isAtaDisk := false }
  else s

/-- One round of the last loop of `ide_init`. -/
def initDisk (l : Layout) (a : Answers) (s : Ide) (chan dev : Fin 2) : Ide :=
  if (s.disk (chan, dev)).isAtaDisk then
    let s := identifyAtaDevice chan dev a s
    let disk := s.disk (chan, dev)
    { s with
      registry := s.registry.blockRegister (l.block chan dev) (some disk.name) disk.nrSectors l.ideOps (l.ataDisk chan dev) }
  else s

def named (chan dev : Fin 2) (disk : AtaDisk) : AtaDisk :=
  { disk with name := ⟨diskName chan dev, nonul_diskName chan dev⟩ }

/-- The loop that fills in the disks of a channel. -/
def nameDisks (chan : Fin 2) (s : Ide) : Ide :=
  (List.finRange 2).foldl (fun s dev => setDisk s chan dev (named chan dev (s.disk (chan, dev)))) s

/-- The two calls of `check_disk_type`. -/
def checkDisks (devices : Devices) (chan : Fin 2) (s : Ide) : Ide :=
  let first := checkDiskType chan 0 (devices chan 0) s
  if first.1 then (checkDiskType chan 1 (devices chan 1) first.2).2 else first.2

def initChannel (l : Layout) (devices : Devices) (s : Ide) (chan : Fin 2) : Ide :=
  let s := nameDisks chan s
  let s := checkDisks devices chan { s with io := s.io.resetAdaptor chan (devices chan) }
  (List.finRange 2).foldl (fun s dev => initDisk l (devices chan dev) s chan dev) s

def ideInit (l : Layout) (devices : Devices) (s : Ide) : Ide := (List.finRange 2).foldl (initChannel l devices) s

/-- After `block_init`, with `channels` still zero. -/
def boot (r : Registry) : Ide := ⟨fun _ => ⟨⟨[], List.not_mem_nil⟩, false, 0⟩, r.blockInit, []⟩

/-! ## What should be published -/

/-- The device is there and its signature is that of a disk. -/
structure AtaSignature (dev : Fin 2) (a : Answers) : Prop where
  passed : a.error = 1 ∨ a.error = 0x81 ∧ dev ≠ 1
  ready : a.status &&& 0x40 ≠ 0 ∧ a.status &&& 0x80 = 0
  signature : (a.lbam = 0 ∧ a.lbah = 0) ∨ (a.lbam = 0x3c ∧ a.lbah = 0xc3)

/-- Disk 1 is checked only if disk 0 does not report that it failed. -/
def Checked (devices : Devices) (chan : Fin 2) : Fin 2 → Prop
  | 0 => True
  | 1 => absent 0 (devices chan 0) = false ∨ (devices chan 0).error ≠ 0x81

def TypeChecked (devices : Devices) (chan dev : Fin 2) : Prop :=
  Checked devices chan dev ∧ AtaSignature dev (devices chan dev)

/-- BSY is clear in one of the rounds, and then the data are there. -/
def Identified (a : Answers) : Prop :=
  (∃ i < 3000, a.identify.altStatus i &&& 0x80 = 0) ∧ a.identify.again &&& 0x08 ≠ 0

/-- Words 60 and 61 of the IDENTIFY data. -/
def reported (a : Answers) : Word := a.data 61 ++ a.data 60

/-- The list of the registry has just the disks that were identified, each once and with its own data. -/
structure Published (l : Layout) (devices : Devices) (s : Ide) (blks : List Word) : Prop where
  ring : Ring s.registry.links none (blks.map some)
  disks : ∀ b ∈ blks, ∃ chan dev, b = l.block chan dev
  once : ∀ chan dev, blks.count (l.block chan dev) ≤ 1
  flag : ∀ chan dev, l.block chan dev ∈ blks ↔ (s.disk (chan, dev)).isAtaDisk = true
  identified : ∀ chan dev, l.block chan dev ∈ blks ↔ TypeChecked devices chan dev ∧ Identified (devices chan dev)
  name : ∀ chan dev, l.block chan dev ∈ blks → (s.registry.block (l.block chan dev)).storedName = diskName chan dev
  sectors : ∀ chan dev, l.block chan dev ∈ blks →
    (s.registry.block (l.block chan dev)).nrSectors = reported (devices chan dev)

/-! ## The steps of a channel -/

theorem Io.busyLoop_iff (chan : Fin 2) (p : Polls) (left i : Nat) (io : Io) : (Io.busyLoop chan p left i io).1 = true ↔
    (∃ k, i ≤ k ∧ k < i + left ∧ p.altStatus k &&& 0x80 = 0) ∧ p.again &&& 0x08 ≠ 0 := by
  induction left generalizing i io with
  | zero =>
      refine iff_of_false Bool.false_ne_true ?_
      rintro ⟨⟨k, hlow, hhigh, _⟩, _⟩
      omega
  | succ left ih =>
      rw [busyLoop]
      by_cases hclear : p.altStatus i &&& 0x80 = 0
      · rw [if_pos hclear, decide_eq_true_iff]
        exact (and_iff_right ⟨i, Nat.le_refl i, by omega, hclear⟩).symm
      · rw [if_neg hclear, ih]
        refine and_congr_left fun _ => ?_
        constructor
        · rintro ⟨k, hlow, hhigh, hk⟩
          exact ⟨k, by omega, by omega, hk⟩
        · rintro ⟨k, hlow, hhigh, hk⟩
          have hne : k ≠ i := by
            rintro rfl
            exact hclear hk
          exact ⟨k, by omega, by omega, hk⟩

theorem waitWhileBusy_iff (chan : Fin 2) (a : Answers) (io : Io) :
    (io.waitWhileBusy chan a.identify).1 = true ↔ Identified a := by
  rw [Io.waitWhileBusy, Io.busyLoop_iff, Identified]
  simp only [Nat.zero_le, true_and, Nat.zero_add]

theorem ataSignature_iff (dev : Fin 2) (a : Answers) : AtaSignature dev a ↔
    absent dev a = false ∧ ((a.lbam = 0 ∧ a.lbah = 0) ∨ (a.lbam = 0x3c ∧ a.lbah = 0xc3)) := by
  have habsent : absent dev a = false ↔
      (a.error = 1 ∨ a.error = 0x81 ∧ dev ≠ 1) ∧ a.status &&& 0x40 ≠ 0 ∧ a.status &&& 0x80 = 0 := by
    rw [absent, decide_eq_false_iff_not]
    tauto
  rw [habsent]
  constructor
  · intro h
    exact ⟨⟨h.passed, h.ready⟩, h.signature⟩
  · rintro ⟨⟨hpassed, hready⟩, hsignature⟩
    exact ⟨hpassed, hready, hsignature⟩

instance (dev : Fin 2) (a : Answers) : Decidable (AtaSignature dev a) := decidable_of_iff' _ (ataSignature_iff dev a)

instance (devices : Devices) (chan : Fin 2) : (dev : Fin 2) → Decidable (Checked devices chan dev)
  | 0 => inferInstanceAs (Decidable True)
  | 1 => inferInstanceAs (Decidable (_ ∨ _))

instance (devices : Devices) (chan dev : Fin 2) : Decidable (TypeChecked devices chan dev) :=
  inferInstanceAs (Decidable (_ ∧ _))

section Check

variable (chan dev : Fin 2) (a : Answers) (s : Ide)

theorem checkDiskType_goesOn : (checkDiskType chan dev a s).1 = true ↔ absent dev a = false ∨ a.error ≠ 0x81 := by
  rw [checkDiskType]
  cases habsent : absent dev a
  · exact iff_of_true rfl (Or.inl rfl)
  · simp

theorem checkDiskType_disk : (checkDiskType chan dev a s).2.disk =
    Function.update s.disk (chan, dev) { s.disk (chan, dev) with isAtaDisk := decide (AtaSignature dev a) } := by
  simp only [checkDiskType, ataSignature_iff]
  cases habsent : absent dev a
  · simp only [Bool.false_eq_true, if_false, true_and]
    rfl
  · simp only [if_true, Bool.true_eq_false, false_and, decide_false]
    rfl

theorem checkDiskType_registry : (checkDiskType chan dev a s).2.registry = s.registry := by
  rw [checkDiskType]
  split <;> rfl

end Check

/-- The disk is named and its type is known. -/
structure Ready (devices : Devices) (s : Ide) (chan dev : Fin 2) : Prop where
  name : (s.disk (chan, dev)).name.chars = diskName chan dev
  flag : (s.disk (chan, dev)).isAtaDisk = decide (TypeChecked devices chan dev)

theorem nameDisks_disk (chan : Fin 2) (s : Ide) (x : Fin 2 × Fin 2) : (nameDisks chan s).disk x =
    if x.1 = chan then named chan x.2 (s.disk x) else s.disk x := by
  obtain ⟨c, d⟩ := x
  obtain ⟨first, hfirst⟩ : ∃ f, f = Function.update s.disk (chan, 0) (named chan 0 (s.disk (chan, 0))) := ⟨_, rfl⟩
  have hnamed : (nameDisks chan s).disk = Function.update first (chan, 1) (named chan 1 (first (chan, 1))) := by
    rw [hfirst]
    rfl
  rw [hnamed]
  by_cases hc : c = chan
  · subst hc
    rw [if_pos rfl]
    match d with
    | 0 => rw [Function.update_of_ne (by simp), hfirst, Function.update_self]
    | 1 => rw [Function.update_self, hfirst, Function.update_of_ne (by simp)]
  · have hne (d' : Fin 2) : (c, d) ≠ (chan, d') := fun h => hc (congrArg Prod.fst h)
    rw [if_neg hc, Function.update_of_ne (hne 1), hfirst, Function.update_of_ne (hne 0)]

section Checks

variable (devices : Devices) (chan : Fin 2) (s : Ide)

theorem checkDisks_registry : (checkDisks devices chan s).registry = s.registry := by
  rw [checkDisks]
  split
  · rw [checkDiskType_registry, checkDiskType_registry]
  · rw [checkDiskType_registry]

theorem checkDisks_other {x : Fin 2 × Fin 2} (hx : x.1 ≠ chan) : (checkDisks devices chan s).disk x = s.disk x := by
  have hne (d : Fin 2) : x ≠ (chan, d) := fun h => hx (congrArg Prod.fst h)
  rw [checkDisks]
  split
  · rw [checkDiskType_disk, Function.update_of_ne (hne 1), checkDiskType_disk, Function.update_of_ne (hne 0)]
  · rw [checkDiskType_disk, Function.update_of_ne (hne 0)]

theorem checkDisks_disk (hfresh : (s.disk (chan, 1)).isAtaDisk = false) (dev : Fin 2) :
    (checkDisks devices chan s).disk (chan, dev) =
      { s.disk (chan, dev) with isAtaDisk := decide (TypeChecked devices chan dev) } := by
  have hfirst := checkDiskType_goesOn chan 0 (devices chan 0) s
  have hdisk := checkDiskType_disk chan 0 (devices chan 0) s
  have hchecked : TypeChecked devices chan 0 ↔ AtaSignature 0 (devices chan 0) := and_iff_right trivial
  rw [checkDisks]
  by_cases hgo : (checkDiskType chan 0 (devices chan 0) s).1 = true
  · have hchecked₁ : TypeChecked devices chan 1 ↔ AtaSignature 1 (devices chan 1) := and_iff_right (hfirst.mp hgo)
    rw [if_pos hgo, checkDiskType_disk, hdisk]
    match dev with
    | 0 =>
        rw [Function.update_of_ne (by simp), Function.update_self]
        simp only [hchecked]
    | 1 =>
        rw [Function.update_self, Function.update_of_ne (by simp)]
        simp only [hchecked₁]
  · have hnot : ¬ TypeChecked devices chan 1 := fun h => hgo (hfirst.mpr h.1)
    rw [if_neg hgo, hdisk]
    match dev with
    | 0 =>
        rw [Function.update_self]
        simp only [hchecked]
    | 1 =>
        rw [Function.update_of_ne (by simp)]
        simp only [hnot, decide_false, ← hfresh]

end Checks

/-! ## The registry after some of the disks -/

theorem Layout.toNat_block (l : Layout) (chan dev : Fin 2) :
    (l.block chan dev).toNat = l.ideDisks.toNat + 36 * (chan * 2 + dev) := by
  have hfits := l.fits
  have hchan := chan.isLt
  have hdev := dev.isLt
  rw [block, BitVec.toNat_add, BitVec.toNat_ofNat]
  omega

theorem Layout.block_ne_zero (l : Layout) (chan dev : Fin 2) : l.block chan dev ≠ 0 := by
  intro h
  have hnat := l.toNat_block chan dev
  rw [h] at hnat
  have hpos := l.fits.1
  change 0 = _ at hnat
  omega

theorem Layout.block_inj (l : Layout) {x y : Fin 2 × Fin 2} (h : l.block x.1 x.2 = l.block y.1 y.2) : x = y := by
  have hnat := congrArg BitVec.toNat h
  rw [l.toNat_block, l.toNat_block] at hnat
  have hchan : x.1 = y.1 := by omega
  have hdev : x.2 = y.2 := by omega
  exact Prod.ext hchan hdev

/-- What holds after the disks of `done`. -/
structure Inv (l : Layout) (devices : Devices) (s : Ide) (done : List (Fin 2 × Fin 2)) : Prop where
  registry : s.registry.Inv
  order : s.registry.order = (done.filter fun x => decide (TypeChecked devices x.1 x.2)).map fun x => l.block x.1 x.2
  flag : ∀ x ∈ done, (s.disk x).isAtaDisk = true ↔ TypeChecked devices x.1 x.2 ∧ Identified (devices x.1 x.2)
  name : ∀ x ∈ done, TypeChecked devices x.1 x.2 →
    (s.registry.block (l.block x.1 x.2)).storedName = diskName x.1 x.2
  sectors : ∀ x ∈ done, TypeChecked devices x.1 x.2 → Identified (devices x.1 x.2) →
    (s.registry.block (l.block x.1 x.2)).nrSectors = reported (devices x.1 x.2)

theorem Inv.frame {l : Layout} {devices : Devices} {s t : Ide} {done : List (Fin 2 × Fin 2)} (h : Inv l devices s done)
    (hregistry : t.registry = s.registry) (hdisk : ∀ x ∈ done, (t.disk x).isAtaDisk = (s.disk x).isAtaDisk) :
    Inv l devices t done := by
  constructor
  · rw [hregistry]
    exact h.registry
  · rw [hregistry]
    exact h.order
  · intro x hx
    rw [hdisk x hx]
    exact h.flag x hx
  · rw [hregistry]
    exact h.name
  · rw [hregistry]
    exact h.sectors

theorem identifyAtaDevice_spec {chan dev : Fin 2} {s : Ide} (hata : (s.disk (chan, dev)).isAtaDisk = true) (a : Answers) :
    (identifyAtaDevice chan dev a s).registry = s.registry ∧
      ∃ disk, (identifyAtaDevice chan dev a s).disk = Function.update s.disk (chan, dev) disk ∧
        disk.name = (s.disk (chan, dev)).name ∧ (disk.isAtaDisk = true ↔ Identified a) ∧
        (Identified a → disk.nrSectors = reported a) := by
  have hwait := waitWhileBusy_iff chan a ((s.io.selectDiskWait chan dev a).outb (regBase chan + 7) 0xec)
  rw [identifyAtaDevice, if_pos hata]
  dsimp only
  split
  · next hdone =>
      have hid : Identified a := hwait.mp hdone
      exact ⟨rfl, _, rfl, rfl, iff_of_true hata hid, fun _ => rfl⟩
  · next hfailed =>
      have hid : ¬ Identified a := fun h => hfailed (hwait.mpr h)
      exact ⟨rfl, _, rfl, rfl, iff_of_false Bool.false_ne_true hid, fun h => absurd h hid⟩

section InitDisk

variable {l : Layout} {devices : Devices} {s : Ide} {chan dev : Fin 2}

/-- What `block_register` leaves at the other disks. -/
theorem block_register_ne (r : Registry) (name : CString) (nrSectors ops params : Word) {x : Fin 2 × Fin 2}
    (hx : x ≠ (chan, dev)) : (r.blockRegister (l.block chan dev) (some name) nrSectors ops params).block (l.block x.1 x.2) =
      r.block (l.block x.1 x.2) := by
  have hne : l.block x.1 x.2 ≠ l.block chan dev := fun h => hx (l.block_inj (y := (chan, dev)) h)
  rw [Registry.blockRegister, if_neg (l.block_ne_zero chan dev)]
  exact Function.update_of_ne hne ..

theorem initDisk_absent (hata : (s.disk (chan, dev)).isAtaDisk = false) (a : Answers) : initDisk l a s chan dev = s := by
  rw [initDisk, if_neg (by rw [hata]; decide)]

theorem initDisk_spec (hata : (s.disk (chan, dev)).isAtaDisk = true) (a : Answers) :
    ∃ disk, (initDisk l a s chan dev).disk = Function.update s.disk (chan, dev) disk ∧
      (initDisk l a s chan dev).registry = s.registry.blockRegister (l.block chan dev) (some disk.name) disk.nrSectors
        l.ideOps (l.ataDisk chan dev) ∧
      disk.name = (s.disk (chan, dev)).name ∧ (disk.isAtaDisk = true ↔ Identified a) ∧
      (Identified a → disk.nrSectors = reported a) := by
  obtain ⟨hregistry, disk, hdisk, hspec⟩ := identifyAtaDevice_spec hata a
  have hself : (identifyAtaDevice chan dev a s).disk (chan, dev) = disk := by rw [hdisk, Function.update_self]
  refine ⟨disk, ?_, ?_, hspec⟩
  · rw [initDisk, if_pos hata]
    exact hdisk
  · rw [initDisk, if_pos hata, ← hregistry, ← hself]

theorem initDisk_other (a : Answers) {x : Fin 2 × Fin 2} (hx : x ≠ (chan, dev)) :
    (initDisk l a s chan dev).disk x = s.disk x := by
  cases hata : (s.disk (chan, dev)).isAtaDisk with
  | false => rw [initDisk_absent hata]
  | true =>
      obtain ⟨disk, hdisk, -⟩ := initDisk_spec (l := l) hata a
      rw [hdisk, Function.update_of_ne hx]

theorem order_blockRegister (r : Registry) (name : CString) (nrSectors ops params : Word) :
    (r.blockRegister (l.block chan dev) (some name) nrSectors ops params).order = r.order ++ [l.block chan dev] := by
  rw [Registry.blockRegister, if_neg (l.block_ne_zero chan dev)]

theorem nrSectors_blockRegister (r : Registry) (name : CString) (nrSectors ops params : Word) :
    ((r.blockRegister (l.block chan dev) (some name) nrSectors ops params).block (l.block chan dev)).nrSectors =
      nrSectors := by
  rw [Registry.blockRegister, if_neg (l.block_ne_zero chan dev)]
  show (Function.update r.block _ _ _).nrSectors = _
  rw [Function.update_self]

theorem Inv.initDisk {done : List (Fin 2 × Fin 2)} (h : Inv l devices s done) (hnew : (chan, dev) ∉ done)
    (hready : Ready devices s chan dev) :
    Inv l devices (initDisk l (devices chan dev) s chan dev) (done ++ [(chan, dev)]) := by
  have hold (x : Fin 2 × Fin 2) (hx : x ∈ done) : x ≠ (chan, dev) := fun heq => hnew (heq ▸ hx)
  have hcase {p : Fin 2 × Fin 2 → Prop} (hdone : ∀ x ∈ done, p x) (hlast : p (chan, dev)) :
      ∀ x ∈ done ++ [(chan, dev)], p x :=
    List.forall_mem_append.mpr ⟨hdone, List.forall_mem_singleton.mpr hlast⟩
  by_cases htype : TypeChecked devices chan dev
  · have hata : (s.disk (chan, dev)).isAtaDisk = true := by
      rw [hready.flag]
      exact decide_eq_true htype
    obtain ⟨disk, hdisk, hregistry, hname, hflag, hsectors⟩ := initDisk_spec (l := l) hata (devices chan dev)
    have hfresh : l.block chan dev ∉ s.registry.order := by
      rw [h.order]
      intro hmem
      obtain ⟨x, hx, heq⟩ := List.mem_map.mp hmem
      exact hold x (List.mem_filter.mp hx).1 (l.block_inj (y := (chan, dev)) heq)
    constructor
    · rw [hregistry]
      exact h.registry.register hfresh ..
    · rw [hregistry, order_blockRegister, h.order, List.filter_append, List.map_append]
      have hkeep : [(chan, dev)].filter (fun x => decide (TypeChecked devices x.1 x.2)) = [(chan, dev)] := by
        rw [List.filter_singleton, decide_eq_true htype, cond_true]
      rw [hkeep]
      rfl
    · rw [hdisk]
      refine hcase (fun x hx => ?_) ?_
      · rw [Function.update_of_ne (hold x hx)]
        exact h.flag x hx
      · rw [Function.update_self, hflag]
        exact (and_iff_right htype).symm
    · rw [hregistry]
      refine hcase (fun x hx => ?_) fun _ => ?_
      · rw [block_register_ne _ _ _ _ _ (hold x hx)]
        exact h.name x hx
      · rw [storedName_blockRegister _ _ _ _ _ (l.block_ne_zero chan dev), hname, hready.name,
          List.take_of_length_le (by rw [length_diskName]; decide)]
    · rw [hregistry]
      refine hcase (fun x hx => ?_) fun _ hid => ?_
      · rw [block_register_ne _ _ _ _ _ (hold x hx)]
        exact h.sectors x hx
      · rw [nrSectors_blockRegister]
        exact hsectors hid
  · have hata : (s.disk (chan, dev)).isAtaDisk = false := by
      rw [hready.flag]
      exact decide_eq_false htype
    rw [initDisk_absent hata]
    constructor
    · exact h.registry
    · have hdrop : [(chan, dev)].filter (fun x => decide (TypeChecked devices x.1 x.2)) = [] := by
        rw [List.filter_singleton, decide_eq_false htype, cond_false]
      rw [h.order, List.filter_append, hdrop, List.append_nil]
    · refine hcase h.flag ?_
      rw [hata]
      exact iff_of_false Bool.false_ne_true fun h => htype h.1
    · exact hcase h.name fun h => absurd h htype
    · exact hcase h.sectors fun h => absurd h htype

end InitDisk

/-- The disks of a channel that are not done are as they were at the start. -/
theorem Inv.initChannel {l : Layout} {devices : Devices} {s : Ide} {done : List (Fin 2 × Fin 2)} (h : Inv l devices s done)
    (chan : Fin 2) (hdone : ∀ x ∈ done, x.1 ≠ chan) (hfresh : ∀ dev, (s.disk (chan, dev)).isAtaDisk = false) :
    Inv l devices (initChannel l devices s chan) (done ++ [(chan, 0)] ++ [(chan, 1)]) ∧
      ∀ x : Fin 2 × Fin 2, x.1 ≠ chan → (initChannel l devices s chan).disk x = s.disk x := by
  obtain ⟨t, ht⟩ : ∃ t, t = checkDisks devices chan
      { nameDisks chan s with io := (nameDisks chan s).io.resetAdaptor chan (devices chan) } := ⟨_, rfl⟩
  have hchannel : IdeInit.initChannel l devices s chan =
      IdeInit.initDisk l (devices chan 1) (IdeInit.initDisk l (devices chan 0) t chan 0) chan 1 := by
    rw [ht]
    rfl
  have hname (dev : Fin 2) : (nameDisks chan s).disk (chan, dev) = named chan dev (s.disk (chan, dev)) := by
    rw [nameDisks_disk, if_pos rfl]
  have hother (x : Fin 2 × Fin 2) (hx : x.1 ≠ chan) : t.disk x = s.disk x := by
    rw [ht, checkDisks_other _ _ _ hx]
    show (nameDisks chan s).disk x = _
    rw [nameDisks_disk, if_neg hx]
  have hready (dev : Fin 2) : Ready devices t chan dev := by
    have hdisk := checkDisks_disk devices chan
      { nameDisks chan s with io := (nameDisks chan s).io.resetAdaptor chan (devices chan) }
      (by show ((nameDisks chan s).disk (chan, 1)).isAtaDisk = false; rw [hname]; exact hfresh 1) dev
    rw [← ht] at hdisk
    constructor
    · rw [hdisk]
      show ((nameDisks chan s).disk (chan, dev)).name.chars = _
      rw [hname]
      rfl
    · rw [hdisk]
  have hframe : Inv l devices t done := by
    refine h.frame ?_ fun x hx => by rw [hother x (hdone x hx)]
    rw [ht, checkDisks_registry]
    rfl
  have hfirst := hframe.initDisk (fun hx => hdone _ hx rfl) (hready 0)
  have hready₁ : Ready devices (IdeInit.initDisk l (devices chan 0) t chan 0) chan 1 := by
    have hne : ((chan, 1) : Fin 2 × Fin 2) ≠ (chan, 0) := by simp
    constructor
    · rw [initDisk_other _ hne]
      exact (hready 1).name
    · rw [initDisk_other _ hne]
      exact (hready 1).flag
  have hnew : ((chan, 1) : Fin 2 × Fin 2) ∉ done ++ [(chan, 0)] := by
    intro hx
    obtain hx | hx := List.mem_append.mp hx
    · exact hdone _ hx rfl
    · simp at hx
  rw [hchannel]
  refine ⟨hfirst.initDisk hnew hready₁, fun x hx => ?_⟩
  have hne (dev : Fin 2) : x ≠ (chan, dev) := fun heq => hx (congrArg Prod.fst heq)
  rw [initDisk_other _ (hne 1), initDisk_other _ (hne 0), hother x hx]

def allDisks : List (Fin 2 × Fin 2) := [(0, 0), (0, 1), (1, 0), (1, 1)]

theorem mem_allDisks (x : Fin 2 × Fin 2) : x ∈ allDisks := by
  revert x
  decide

theorem inv_ideInit (l : Layout) (devices : Devices) (r : Registry) : Inv l devices (ideInit l devices (boot r)) allDisks := by
  have hboot : Inv l devices (boot r) [] := by
    have hmem {p : Fin 2 × Fin 2 → Prop} : ∀ x ∈ ([] : List (Fin 2 × Fin 2)), p x := List.forall_mem_nil _
    exact ⟨⟨Ring.makeHead r.links none, List.forall_mem_nil _⟩, rfl, hmem, hmem, hmem⟩
  obtain ⟨hfirst, hother⟩ := hboot.initChannel 0 (List.forall_mem_nil _) fun _ => rfl
  have hfresh (dev : Fin 2) : ((initChannel l devices (boot r) 0).disk (1, dev)).isAtaDisk = false := by
    rw [hother _ (show (1 : Fin 2) ≠ 0 by decide)]
    rfl
  exact (hfirst.initChannel 1 (by simp) hfresh).1

/-- The registry holds the disks of a known type, identified or not. -/
theorem mem_order_ideInit (l : Layout) (devices : Devices) (r : Registry) (chan dev : Fin 2) :
    l.block chan dev ∈ (ideInit l devices (boot r)).registry.order ↔ TypeChecked devices chan dev := by
  rw [(inv_ideInit l devices r).order]
  constructor
  · intro hmem
    obtain ⟨x, hx, heq⟩ := List.mem_map.mp hmem
    have hx' : x = (chan, dev) := l.block_inj (y := (chan, dev)) heq
    rw [hx'] at hx
    exact of_decide_eq_true (List.mem_filter.mp hx).2
  · intro htype
    exact List.mem_map.mpr ⟨(chan, dev), List.mem_filter.mpr ⟨mem_allDisks _, decide_eq_true htype⟩, rfl⟩

/-- The list of the registry can only be the recorded one. -/
theorem Published.eq_order {l : Layout} {devices : Devices} {s : Ide} {blks : List Word} (h : Published l devices s blks)
    (hinv : s.registry.Inv) : blks = s.registry.order :=
  List.map_injective_iff.mpr (Option.some_injective _) (h.ring.unique hinv.ring)

/-- Just the identified disks are published exactly when no disk of a known type fails its IDENTIFY. -/
theorem published_iff (l : Layout) (devices : Devices) (r : Registry) :
    (∃ blks, Published l devices (ideInit l devices (boot r)) blks) ↔
      ∀ chan dev, TypeChecked devices chan dev → Identified (devices chan dev) := by
  have hinv := inv_ideInit l devices r
  have hmem := mem_order_ideInit l devices r
  generalize ideInit l devices (boot r) = t at hinv hmem ⊢
  constructor
  · rintro ⟨blks, h⟩ chan dev htype
    have hblk : l.block chan dev ∈ blks := by
      rw [h.eq_order hinv.registry, hmem]
      exact htype
    exact ((h.identified chan dev).mp hblk).2
  · intro hid
    have hboth (chan dev : Fin 2) : TypeChecked devices chan dev ↔
        TypeChecked devices chan dev ∧ Identified (devices chan dev) := (and_iff_left_of_imp (hid chan dev)).symm
    refine ⟨t.registry.order, hinv.registry.ring, ?_, ?_, ?_, ?_, ?_, ?_⟩
    · intro b hb
      rw [hinv.order] at hb
      obtain ⟨x, -, rfl⟩ := List.mem_map.mp hb
      exact ⟨x.1, x.2, rfl⟩
    · have hnodup := (List.nodup_cons.mp hinv.registry.ring.nodup).2
      exact fun chan dev => List.nodup_iff_count_le_one.mp hnodup.of_map _
    · intro chan dev
      rw [hmem, hboth]
      exact (hinv.flag (chan, dev) (mem_allDisks _)).symm
    · intro chan dev
      rw [hmem]
      exact hboth chan dev
    · intro chan dev hblk
      exact hinv.name (chan, dev) (mem_allDisks _) ((hmem chan dev).mp hblk)
    · intro chan dev hblk
      have htype := (hmem chan dev).mp hblk
      exact hinv.sectors (chan, dev) (mem_allDisks _) htype (hid chan dev htype)

/-- A disk that is ready and never has data for the IDENTIFY. -/
def silent : Answers where
  presentNsect := 0x55
  presentLbal := 0xaa
  resetNsect := fun _ => 1
  resetLbal := fun _ => 1
  reset := ⟨fun _ => 0x40, 0x40⟩
  error := 1
  lbam := 0
  lbah := 0
  status := 0x40
  idleBefore := fun _ => 0x40
  idleAfter := fun _ => 0x40
  identify := ⟨fun _ => 0x40, 0x40⟩
  data := fun _ => 0

theorem not_published : ¬ ∀ (l : Layout) (devices : Devices) (r : Registry),
    ∃ blks, Published l devices (ideInit l devices (boot r)) blks := by
  intro h
  let l : Layout := ⟨0xc0110000, 0xc0108000, fun _ _ => 0xc0112000, by decide⟩
  obtain ⟨blks, hpub⟩ := h l (fun _ _ => silent) ⟨⟨fun _ => none, fun _ => none⟩, fun _ => ⟨fun _ => 0, 0, 0, 0⟩, []⟩
  have htype : TypeChecked (fun _ _ => silent) 0 0 := by decide
  have hblk : l.block 0 0 ∈ blks := by
    rw [hpub.eq_order (inv_ideInit l _ _).registry, mem_order_ideInit]
    exact htype
  exact absurd ((hpub.identified 0 0).mp hblk).2.2 (by decide)

end I386Kernel.IdeInit
