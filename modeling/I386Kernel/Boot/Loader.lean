import I386Kernel.Base
import I386Kernel.Lib.ByteStack
import I386Kernel.Lib.CountedLoop

/-!
# The boot loader

`boot/loader.S` runs in real mode from the first sector of a disk. It looks through the partition tables of the hard disks for a bootable partition of the kernel's type, reads at most 512 kB of that partition to physical address 0x20000 and jumps to the entry the ELF header names. The services of the BIOS are a parameter: what a drive answers to a read, and whether a transmission on the serial port succeeds. Memory is physical and byte-addressed; the loader's own code and stack are not part of it.

Of the registers at the entry only `ebx` matters, whose upper half the loader never clears; `puts` addresses its return address through all of `esp`, of which only `sp` has been set, so the upper half of `esp` is taken to be zero; and the services of the BIOS are taken to keep the upper halves of the registers.
-/

namespace I386Kernel.Loader

open ByteStack (Byte Memory load16 load32 store)

abbrev Sector := { bytes : List Byte // bytes.length = 512 }

structure Bios where
  /-- Function 42h of int 13h for one sector of a drive; `none` is the carry set. -/
  read : Byte → Word → Option Sector
  /-- Whether function 01h of int 14h succeeds, for each call in turn. -/
  transmits : Nat → Bool

structure State where
  mem : Memory
  screen : List Byte
  /-- The characters given to the serial port. -/
  line : List Byte
  /-- The `int $0x14` of `putc` has been turned into two `nop`. -/
  patched : Bool

def chr (c : Char) : Byte := BitVec.ofNat 8 c.toNat

def text (str : String) : List Byte := str.toList.map chr

/-- The physical address of `seg:off`. -/
def phys (seg off : BitVec 16) : Word := seg.setWidth 32 * 16 + off.setWidth 32

/-- `LOADER_KERN_BASE` as a segment. -/
def kernSeg : BitVec 16 := 0x2000

variable (b : Bios)

/-- `putc` from label 1 to label 3. -/
def putOne (s : State) (al : Byte) : State :=
  if s.patched then { s with screen := s.screen ++ [al] }
  else { s with screen := s.screen ++ [al], line := s.line ++ [al], patched := !b.transmits s.line.length }

/-- A carriage return is followed by a line feed. -/
def putc (s : State) (al : Byte) : State :=
  if al = chr '\r' then putOne b (putOne b s al) (chr '\n') else putOne b s al

def puts (s : State) (str : List Byte) : State := str.foldl (putc b) s

/-- `read_sector` to `es:0000`. -/
def readSector (dl : Byte) (ebx : Word) (es : BitVec 16) (s : State) : Option State :=
  (b.read dl ebx).map fun data => { s with mem := store s.mem (phys es 0) data.val }

/-! ## Loading -/

/-- `ax`, `ebx` and the rest in the loop `next_sector`. -/
structure Load where
  ax : BitVec 16
  ebx : Word
  state : State

/-- `inc %bx` -/
def incBx (ebx : Word) : Word := ebx.extractLsb' 16 16 ++ (ebx.extractLsb' 0 16 + 1)

/-- The body of the loop; it is left for `read_failed` when a sector cannot be read. -/
def nextSector (dl : Byte) (l : Load) : Except State Load :=
  match readSector b dl l.ebx l.ax l.state with
  | none => .error l.state
  | some s => .ok ⟨l.ax + 0x20, incBx l.ebx, if l.ebx &&& 15 = 0 then puts b s (text ".") else s⟩

inductive Outcome where
  /-- `no_boot_partition` -/
  | notFound (s : State)
  /-- `read_failed` -/
  | badRead (s : State)
  /-- The far jump to `cs:ip`. -/
  | start (s : State) (cs ip : BitVec 16)

def Outcome.state : Outcome → State
  | notFound s => s
  | badRead s => s
  | start s _ _ => s

/-- `load_kernel`, with the partition table entry at `es:si`. -/
def loadKernel (dl : Byte) (si : BitVec 16) (s : State) : Outcome :=
  let s := puts b s (text "\rLoading")
  let sectors := load32 s.mem (phys kernSeg (si + 12))
  let ecx := if sectors ≤ 1024 then sectors else 1024
  let ebx := load32 s.mem (phys kernSeg (si + 8))
  match CountedLoop.loop (nextSector b dl) (ecx.setWidth 16) ⟨kernSeg, ebx, s⟩ with
  | .error s => .badRead (puts b s (text "\rBad read\r"))
  | .ok l =>
      let s := puts b l.state (text "\r")
      .start s kernSeg (load16 s.mem (phys kernSeg 0x18))

/-! ## Scanning -/

/-- `check_partition` for at most so many entries: the entry found, if any. -/
def checkPartition : Nat → BitVec 16 → Byte → State → Option (BitVec 16) × State
  | 0, _, _, s => (none, s)
  | n + 1, si, al, s =>
      let s := putc b s al
      if s.mem (phys kernSeg (si + 4)) = 0x20 ∧ s.mem (phys kernSeg si) = 0x80 then (some si, s)
      else if al + 1 ≤ chr '4' then checkPartition n (si + 16) (al + 1) s
      else (none, s)

/-- Where `read_mbr` goes on. -/
inductive Exit where
  | noSuchDrive
  | nextDrive
  | loadKernel (si : BitVec 16)

/-- A drive whose partition table has been read. The `jnc` of `next_drive` sees the carry of the comparison that led there. -/
def examine (dl : Byte) (s : State) : Exit × State :=
  let s := putc b (puts b s (text " hd")) (dl + (chr 'a' - 0x80))
  let signature := load16 s.mem (phys kernSeg 510)
  if signature = 0xaa55 then
    match checkPartition b 4 446 (chr '1') s with
    | (some si, s) => (.loadKernel si, s)
    | (none, s) => (.nextDrive, s)
  else if signature < 0xaa55 then (.noSuchDrive, s)
  else (.nextDrive, s)

/-- `xor %bx, %bx`, which leaves the upper half of `ebx`. -/
def xorBx (ebx : Word) : Word := ebx.extractLsb' 16 16 ++ (0 : BitVec 16)

/-- `read_mbr` for at most so many drives. `read_sector` takes the sector number in all of `ebx`. -/
def readMbr : Nat → Byte → Word → State → Option Outcome
  | 0, _, _, _ => none
  | n + 1, dl, ebx, s =>
      match readSector b dl (xorBx ebx) kernSeg s with
      | none => some (.notFound (puts b s (text "\rNot found\r")))
      | some s =>
          match examine b dl s with
          | (.noSuchDrive, s) => some (.notFound (puts b s (text "\rNot found\r")))
          | (.nextDrive, s) => readMbr n (dl + 1) (xorBx ebx) s
          | (.loadKernel si, s) => some (loadKernel b dl si s)

/-- From the banner on, beginning with hard disk 0 and with what the BIOS has left in `ebx`. -/
def loader (drives : Nat) (ebx : Word) (mem : Memory) : Option Outcome :=
  readMbr b drives 0x80 ebx (puts b ⟨mem, [], [], false⟩ (text "Scanning"))

end I386Kernel.Loader
