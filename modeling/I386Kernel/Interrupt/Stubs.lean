import I386Kernel.Base
import I386Kernel.Lib.ByteStack
import I386Kernel.Lib.I386

/-!
# `isr-stubs.S`

The stub of every vector, `isr_entry` and `isr_exit` as lists of instructions, on a byte-addressed stack with pushes of 16 and of 32 bits. A `jmp` to `isr_entry` is that list appended, and `eip` is followed only where the stack holds it. The frame is read as `interrupt.h` declares it, packed.
-/

namespace I386Kernel.Interrupt

open I386 (Reg)
open ByteStack (Memory Byte bytes16 bytes32 load16 load32 store Holds)

inductive Seg where
  | ds
  | es
  | fs
  | gs
deriving DecidableEq

structure Cpu where
  reg : Reg → Word
  seg : Seg → BitVec 16
  cs : BitVec 16
  eip : Word
  eflags : Word
  mem : Memory

inductive Instr where
  | pushl (src : Reg)
  | pushImm (imm : Word)
  | pushw (src : Seg)
  /-- `mov $imm, %ax` -/
  | movAx (imm : BitVec 16)
  /-- `mov %ax, dst` -/
  | movSeg (dst : Seg)
  /-- `add $imm, %esp` -/
  | addEsp (imm : Word)
  | popw (dst : Seg)
  | popl (dst : Reg)
  /-- The return address of a call. -/
  | call (next : Word)
  | iret

namespace Cpu

variable (c : Cpu)

def setReg (r : Reg) (w : Word) : Cpu := { c with reg := Function.update c.reg r w }

def setSeg (s : Seg) (w : BitVec 16) : Cpu := { c with seg := Function.update c.seg s w }

def pushBytes (bs : List Byte) : Cpu :=
  let esp := c.reg .esp - BitVec.ofNat 32 bs.length
  { c.setReg .esp esp with mem := store c.mem esp bs }

def exec : Instr → Cpu
  | .pushl src => c.pushBytes (bytes32 (c.reg src))
  | .pushImm imm => c.pushBytes (bytes32 imm)
  | .pushw src => c.pushBytes (bytes16 (c.seg src))
  | .movAx imm => c.setReg .eax ((c.reg .eax).extractLsb' 16 16 ++ imm)
  | .movSeg dst => c.setSeg dst ((c.reg .eax).extractLsb' 0 16)
  | .addEsp imm => c.setReg .esp (c.reg .esp + imm)
  | .popw dst => (c.setReg .esp (c.reg .esp + 2)).setSeg dst (load16 c.mem (c.reg .esp))
  | .popl dst => (c.setReg .esp (c.reg .esp + 4)).setReg dst (load32 c.mem (c.reg .esp))
  | .call next => c.pushBytes (bytes32 next)
  | .iret =>
      { c.setReg .esp (c.reg .esp + 12) with
        eip := load32 c.mem (c.reg .esp)
        cs := (load32 c.mem (c.reg .esp + 4)).extractLsb' 0 16
        eflags := load32 c.mem (c.reg .esp + 8) }

def run (code : List Instr) : Cpu := code.foldl exec c

end Cpu

/-! ## The code -/

def selKcseg : BitVec 16 := 0x08

def selKdseg : BitVec 16 := 0x10

inductive Stub where
  /-- `NO_ERROR_CODE_ENTRY` -/
  | noErrorCode (vecNo : Nat)
  /-- `ERROR_CODE_ENTRY` -/
  | errorCode (vecNo : Nat)
deriving DecidableEq

/-- The entries of the table, which from 0x12 on have no error code. -/
def isrStubs : List Stub :=
  ([.noErrorCode 0x00, .noErrorCode 0x01, .noErrorCode 0x02, .noErrorCode 0x03,
    .noErrorCode 0x04, .noErrorCode 0x05, .noErrorCode 0x06, .noErrorCode 0x07,
    .errorCode 0x08, .noErrorCode 0x09, .errorCode 0x0a, .errorCode 0x0b,
    .noErrorCode 0x0c, .errorCode 0x0d, .errorCode 0x0e, .noErrorCode 0x0f,
    .noErrorCode 0x10, .errorCode 0x11] : List Stub) ++ (List.range' 0x12 0xee).map Stub.noErrorCode

def Stub.code : Stub → List Instr
  | noErrorCode vecNo => [.pushImm 0, .pushImm (BitVec.ofNat 32 vecNo)]
  | errorCode vecNo => [.pushImm (BitVec.ofNat 32 vecNo)]

/-- `isr_entry` up to and with the call of `generic_isr`, which is to return to `next`. -/
def isrEntry (next : Word) : List Instr :=
  [.pushl .eax, .pushl .ebx, .pushl .ecx, .pushl .edx, .pushl .esi, .pushl .edi, .pushl .ebp,
    .pushw .ds, .pushw .es, .pushw .fs, .pushw .gs,
    .movAx selKdseg, .movSeg .ds, .movSeg .es, .movSeg .fs, .movSeg .gs,
    .pushl .esp, .call next]

/-- From the return of `generic_isr` on. -/
def isrExit : List Instr :=
  [.addEsp 4,
    .popw .gs, .popw .fs, .popw .es, .popw .ds,
    .popl .ebp, .popl .edi, .popl .esi, .popl .edx, .popl .ecx, .popl .ebx, .popl .eax,
    .addEsp 8, .iret]

/-! ## The frame -/

/-- The fields of `interrupt_stack_frame`. -/
structure InterruptStackFrame where
  gs : BitVec 16
  fs : BitVec 16
  es : BitVec 16
  ds : BitVec 16
  ebp : Word
  edi : Word
  esi : Word
  edx : Word
  ecx : Word
  ebx : Word
  eax : Word
  vecNo : Word
  errorCode : Word
  eip : Word
  cs : BitVec 16
  eflag : Word
  esp : Word
  ss : BitVec 16

/-- The fields at their offsets in the packed structure. -/
def readFrame (m : Memory) (stack : Word) : InterruptStackFrame where
  gs := load16 m stack
  fs := load16 m (stack + 2)
  es := load16 m (stack + 4)
  ds := load16 m (stack + 6)
  ebp := load32 m (stack + 8)
  edi := load32 m (stack + 12)
  esi := load32 m (stack + 16)
  edx := load32 m (stack + 20)
  ecx := load32 m (stack + 24)
  ebx := load32 m (stack + 28)
  eax := load32 m (stack + 32)
  vecNo := load32 m (stack + 36)
  errorCode := load32 m (stack + 40)
  eip := load32 m (stack + 44)
  cs := load16 m (stack + 48)
  eflag := load32 m (stack + 50)
  esp := load32 m (stack + 54)
  ss := load16 m (stack + 58)

/-! ## An interrupt -/

/-- The vectors for which the processor pushes an error code. -/
def pushesErrorCode (n : Nat) : Bool := n = 8 ∨ (10 ≤ n ∧ n ≤ 14) ∨ n = 17

/-- The processor takes the interrupt `n` without a change of privilege: it pushes `eflags`, `cs` filled up with `pad`, `eip` and, for some vectors, an error code, and clears `TF`, `IF`, `NT`, `RF` and `VM`. -/
def deliver (c : Cpu) (n : Nat) (pad : BitVec 16) (err : Word) : Cpu :=
  let c := c.pushBytes (bytes32 c.eflags)
  let c := c.pushBytes (bytes32 (pad ++ c.cs))
  let c := c.pushBytes (bytes32 c.eip)
  let c := if pushesErrorCode n then c.pushBytes (bytes32 err) else c
  { c with cs := selKcseg, eflags := c.eflags &&& ~~~0x34300 }

theorem length_isrStubs : isrStubs.length = 256 := by
  decide +kernel

def isrStub (n : Fin 256) : Stub := isrStubs.get (n.cast length_isrStubs.symm)

/-- At the first instruction of `generic_isr`. -/
def enter (c : Cpu) (n : Fin 256) (pad : BitVec 16) (err next : Word) : Cpu :=
  (deliver c n pad err).run ((isrStub n).code ++ isrEntry next)

/-- The argument of `generic_isr`. -/
def frameOf (e : Cpu) : Word := load32 e.mem (e.reg .esp + 4)

/-- `generic_isr` returns with the bytes from the frame up to the interrupted stack as it found them. -/
structure Unchanged (c e c' : Cpu) : Prop where
  esp : c'.reg .esp = e.reg .esp + 4
  mem : ∀ a, a - frameOf e < c.reg .esp - frameOf e → c'.mem a = e.mem a

/-- The frame shows the interrupted state, and whatever else `generic_isr` does, all of it comes back. -/
structure Transparent (c : Cpu) (n : Fin 256) (pad : BitVec 16) (err next : Word) : Prop where
  reads : let f := readFrame (enter c n pad err next).mem (frameOf (enter c n pad err next))
    f.vecNo = BitVec.ofNat 32 n ∧
      (f.eax = c.reg .eax ∧ f.ebx = c.reg .ebx ∧ f.ecx = c.reg .ecx ∧ f.edx = c.reg .edx ∧ f.esi = c.reg .esi ∧
        f.edi = c.reg .edi ∧ f.ebp = c.reg .ebp) ∧
      (f.ds = c.seg .ds ∧ f.es = c.seg .es ∧ f.fs = c.seg .fs ∧ f.gs = c.seg .gs) ∧
      f.eip = c.eip ∧ f.cs = c.cs ∧ f.eflag = c.eflags ∧ (pushesErrorCode n = true → f.errorCode = err)
  restores : ∀ c', Unchanged c (enter c n pad err next) c' →
    let r := c'.run isrExit
    r.reg = c.reg ∧ r.seg = c.seg ∧ r.cs = c.cs ∧ r.eip = c.eip ∧ r.eflags = c.eflags

end I386Kernel.Interrupt
