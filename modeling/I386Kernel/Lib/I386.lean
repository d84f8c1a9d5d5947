import Mathlib.Logic.Function.Basic
import Mathlib.Tactic.Common

/-!
# A fragment of the i386

Registers, a memory of 32-bit words and the instructions a context switch is written with. Code is a list of instructions run in order; a `call` and a `ret` end such a list, with `eip` at the address the machine goes on from.
-/

namespace I386

abbrev Word := BitVec 32

inductive Reg where
  | eax
  | ecx
  | edx
  | ebx
  | esp
  | ebp
  | esi
  | edi
deriving DecidableEq

structure Machine where
  reg : Reg → Word
  eip : Word
  /-- Interrupts are enabled. -/
  intr : Bool
  mem : Word → Word

inductive Instr where
  | push (src : Reg)
  | pop (dst : Reg)
  /-- `mov $imm, dst` -/
  | movImm (imm : Word) (dst : Reg)
  /-- `mov off(base), dst` -/
  | load (off : Word) (base dst : Reg)
  /-- `mov (base, index, 1), dst` -/
  | loadIndex (base index dst : Reg)
  /-- `mov src, (base, index, 1)` -/
  | storeIndex (src base index : Reg)
  /-- `add $imm, dst` -/
  | addImm (imm : Word) (dst : Reg)
  | sti
  /-- A call of the code at `target`, which is to return to `next`. -/
  | call (target next : Word)
  | ret

namespace Machine

variable (M : Machine)

def setReg (r : Reg) (w : Word) : Machine := { M with reg := Function.update M.reg r w }

def store (a w : Word) : Machine := { M with mem := Function.update M.mem a w }

def pushWord (w : Word) : Machine := (M.setReg .esp (M.reg .esp - 4)).store (M.reg .esp - 4) w

def popWord (r : Reg) : Machine := (M.setReg .esp (M.reg .esp + 4)).setReg r (M.mem (M.reg .esp))

def exec : Instr → Machine
  | .push src => M.pushWord (M.reg src)
  | .pop dst => M.popWord dst
  | .movImm imm dst => M.setReg dst imm
  | .load off base dst => M.setReg dst (M.mem (M.reg base + off))
  | .loadIndex base index dst => M.setReg dst (M.mem (M.reg base + M.reg index))
  | .storeIndex src base index => M.store (M.reg base + M.reg index) (M.reg src)
  | .addImm imm dst => M.setReg dst (M.reg dst + imm)
  | .sti => { M with intr := true }
  | .call target next => { M.pushWord next with eip := target }
  | .ret => { M.setReg .esp (M.reg .esp + 4) with eip := M.mem (M.reg .esp) }

def run (code : List Instr) : Machine := code.foldl exec M

@[simp] theorem run_nil : M.run [] = M := rfl

@[simp] theorem run_cons (i : Instr) (code : List Instr) : M.run (i :: code) = (M.exec i).run code := rfl

theorem run_append (code code' : List Instr) : M.run (code ++ code') = (M.run code).run code' :=
  List.foldl_append

@[simp] theorem reg_setReg (r r' : Reg) (w : Word) : (M.setReg r w).reg r' = if r' = r then w else M.reg r' :=
  Function.update_apply ..

@[simp] theorem mem_setReg (r : Reg) (w : Word) : (M.setReg r w).mem = M.mem := rfl

@[simp] theorem reg_store (a w : Word) : (M.store a w).reg = M.reg := rfl

@[simp] theorem mem_store (a w : Word) : (M.store a w).mem = Function.update M.mem a w := rfl

@[simp] theorem reg_pushWord (w : Word) (r : Reg) :
    (M.pushWord w).reg r = if r = .esp then M.reg .esp - 4 else M.reg r :=
  M.reg_setReg .esp r _

@[simp] theorem mem_pushWord (w : Word) : (M.pushWord w).mem = Function.update M.mem (M.reg .esp - 4) w := rfl

@[simp] theorem reg_popWord (r r' : Reg) : (M.popWord r).reg r' =
    if r' = r then M.mem (M.reg .esp) else if r' = .esp then M.reg .esp + 4 else M.reg r' := by
  rw [popWord, reg_setReg, reg_setReg]

@[simp] theorem mem_popWord (r : Reg) : (M.popWord r).mem = M.mem := rfl

end Machine

end I386
