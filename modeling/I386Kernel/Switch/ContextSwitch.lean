import I386Kernel.Lib.I386
import I386Kernel.Task.Create

/-!
# `switch.S`

The two assembly procedures as lists of instructions, and what running them does to the registers and to memory.
-/

namespace I386Kernel

open I386 (Machine Instr Reg)

/-- `offset_of(struct task_struct, sp)`, the value of `saved_sp_offset`, which no code writes. -/
def savedSpOffset : Word := 24

/-- `sizeof(struct task_struct)`. -/
def taskStructSize : Word := 64

def offsetCurr : Word := 20
def offsetNext : Word := 24

def saveCode : List Instr := [.push .ebx, .push .ebp, .push .esi, .push .edi]

def swapCode : List Instr :=
  [.load offsetCurr .esp .eax,
    .movImm savedSpOffset .edx,
    .storeIndex .esp .eax .edx,
    .load offsetNext .esp .ecx,
    .loadIndex .ecx .edx .esp]

def restoreCode : List Instr := [.pop .edi, .pop .esi, .pop .ebp, .pop .ebx, .ret]

/-- `switch_to`: the registers go to the stack, the stack pointers are exchanged, the registers come back. -/
def switchToCode : List Instr := saveCode ++ swapCode ++ restoreCode

/-- `switch_initial` up to its call of `task_sched_post_proc`. -/
def switchInitialHead (postProc next : Word) : List Instr :=
  [.addImm 8 .esp, .push .eax, .call postProc next]

/-- `switch_initial` after that call. -/
def switchInitialTail : List Instr := [.addImm 4 .esp, .sti, .ret]

/-- A call of `switch_to` that returns to `ra`. -/
def callSwitchTo (M : Machine) (ra : Word) : Machine := (M.pushWord ra).run switchToCode

/-! ## What they do -/

/-- Memory with the return address and the saved registers below `esp`. -/
def frameMem (M : Machine) (ra : Word) : Mem :=
  let m := Function.update M.mem (M.reg .esp - 4) ra
  let m := Function.update m (M.reg .esp - 8) (M.reg .ebx)
  let m := Function.update m (M.reg .esp - 12) (M.reg .ebp)
  let m := Function.update m (M.reg .esp - 16) (M.reg .esi)
  Function.update m (M.reg .esp - 20) (M.reg .edi)

/-- The offsets of the words four pushes write. -/
private theorem push_offsets (e : Word) :
    e - 4 - 4 = e - 8 ∧ e - 8 - 4 = e - 12 ∧ e - 12 - 4 = e - 16 ∧ e - 16 - 4 = e - 20 :=
  ⟨by bv_omega, by bv_omega, by bv_omega, by bv_omega⟩

/-- The offsets of the words five pops read. -/
private theorem pop_offsets (e : Word) :
    e + 4 + 4 = e + 8 ∧ e + 8 + 4 = e + 12 ∧ e + 12 + 4 = e + 16 ∧ e + 16 + 4 = e + 20 :=
  ⟨by bv_omega, by bv_omega, by bv_omega, by bv_omega⟩

/-- The arguments of a call lie above the words the call pushes. -/
private theorem arg_offsets (e : Word) :
    e - 20 + offsetCurr = e ∧ e - 20 + offsetNext = e + 4 ∧
      (∀ off ∈ [(4 : Word), 8, 12, 16, 20], e ≠ e - off ∧ e + 4 ≠ e - off) := by
  refine ⟨?_, ?_, ?_⟩
  · rw [offsetCurr]
    bv_omega
  · rw [offsetNext]
    bv_omega
  · intro off hoff
    simp only [List.mem_cons, List.not_mem_nil, or_false] at hoff
    obtain rfl | rfl | rfl | rfl | rfl := hoff <;> constructor <;> bv_omega

theorem run_saveCode (M : Machine) (ra : Word) :
    ((M.pushWord ra).run saveCode).mem = frameMem M ra ∧
      ((M.pushWord ra).run saveCode).reg .esp = M.reg .esp - 20 := by
  obtain ⟨h8, h12, h16, h20⟩ := push_offsets (M.reg .esp)
  simp only [saveCode, Machine.run_cons, Machine.run_nil, Machine.exec, Machine.reg_pushWord, Machine.mem_pushWord,
    reduceCtorEq, if_true, if_false, h8, h12, h16, h20]
  exact ⟨rfl, trivial⟩

theorem run_swapCode {M : Machine} {curr next : Word} (hcurr : M.mem (M.reg .esp + offsetCurr) = curr)
    (hnext : M.mem (M.reg .esp + offsetNext) = next) (hne : M.reg .esp + offsetNext ≠ curr + savedSpOffset) :
    (M.run swapCode).mem = Function.update M.mem (curr + savedSpOffset) (M.reg .esp) ∧
      (M.run swapCode).reg .eax = curr ∧
      (M.run swapCode).reg .esp =
        Function.update M.mem (curr + savedSpOffset) (M.reg .esp) (next + savedSpOffset) := by
  simp only [swapCode, Machine.run_cons, Machine.run_nil, Machine.exec, Machine.reg_setReg, Machine.mem_setReg,
    Machine.reg_store, Machine.mem_store, reduceCtorEq, if_true, if_false, hcurr]
  rw [Function.update_of_ne hne, hnext]
  exact ⟨trivial, trivial, rfl⟩

theorem run_restoreCode (M : Machine) :
    (M.run restoreCode).mem = M.mem ∧ (M.run restoreCode).reg .eax = M.reg .eax ∧
      (M.run restoreCode).reg .edi = M.mem (M.reg .esp) ∧
      (M.run restoreCode).reg .esi = M.mem (M.reg .esp + 4) ∧
      (M.run restoreCode).reg .ebp = M.mem (M.reg .esp + 8) ∧
      (M.run restoreCode).reg .ebx = M.mem (M.reg .esp + 12) ∧
      (M.run restoreCode).eip = M.mem (M.reg .esp + 16) ∧
      (M.run restoreCode).reg .esp = M.reg .esp + 20 := by
  obtain ⟨h8, h12, h16, h20⟩ := pop_offsets (M.reg .esp)
  simp only [restoreCode, Machine.run_cons, Machine.run_nil, Machine.exec, Machine.reg_popWord, Machine.mem_popWord,
    Machine.reg_setReg, Machine.mem_setReg, reduceCtorEq, if_true, if_false, h8, h12, h16, h20]
  exact ⟨trivial, trivial, trivial, trivial, trivial, trivial, trivial, trivial⟩

/-- The words of memory once `switch_to` has saved the registers and the stack pointer of `curr`. -/
def savedMem (M : Machine) (ra curr : Word) : Mem :=
  Function.update (frameMem M ra) (curr + savedSpOffset) (M.reg .esp - 20)

/-- A call with its arguments at `esp`: `curr` is suspended, and what `next` saved is taken from the stack at `sp`. -/
theorem callSwitchTo_spec {M : Machine} {ra curr next sp : Word} (hcurr : M.mem (M.reg .esp) = curr)
    (hnext : M.mem (M.reg .esp + 4) = next) (hne : M.reg .esp + 4 ≠ curr + savedSpOffset)
    (hsp : savedMem M ra curr (next + savedSpOffset) = sp) :
    (callSwitchTo M ra).mem = savedMem M ra curr ∧
      (callSwitchTo M ra).reg .eax = curr ∧
      (callSwitchTo M ra).reg .edi = savedMem M ra curr sp ∧
      (callSwitchTo M ra).reg .esi = savedMem M ra curr (sp + 4) ∧
      (callSwitchTo M ra).reg .ebp = savedMem M ra curr (sp + 8) ∧
      (callSwitchTo M ra).reg .ebx = savedMem M ra curr (sp + 12) ∧
      (callSwitchTo M ra).eip = savedMem M ra curr (sp + 16) ∧
      (callSwitchTo M ra).reg .esp = sp + 20 := by
  obtain ⟨hmem, hesp⟩ := run_saveCode M ra
  obtain ⟨hoff, hoff', hne'⟩ := arg_offsets (M.reg .esp)
  have hargs : ∀ a, a = M.reg .esp ∨ a = M.reg .esp + 4 → frameMem M ra a = M.mem a := by
    intro a ha
    have hpushed : ∀ off ∈ [(4 : Word), 8, 12, 16, 20], a ≠ M.reg .esp - off := by
      intro off hoff
      obtain rfl | rfl := ha
      · exact (hne' off hoff).1
      · exact (hne' off hoff).2
    rw [frameMem, Function.update_of_ne (hpushed 20 (by decide)), Function.update_of_ne (hpushed 16 (by decide)),
      Function.update_of_ne (hpushed 12 (by decide)), Function.update_of_ne (hpushed 8 (by decide)),
      Function.update_of_ne (hpushed 4 (by decide))]
  have hswap := run_swapCode (M := (M.pushWord ra).run saveCode)
    (by rw [hmem, hesp, hoff, hargs _ (Or.inl rfl), hcurr])
    (by rw [hmem, hesp, hoff', hargs _ (Or.inr rfl), hnext]) (by rw [hesp, hoff']; exact hne)
  rw [hmem, hesp] at hswap
  obtain ⟨hmem', heax, hesp'⟩ := hswap
  have hrest := run_restoreCode (((M.pushWord ra).run saveCode).run swapCode)
  rw [hmem', heax, hesp', ← savedMem, hsp] at hrest
  rw [callSwitchTo, switchToCode, Machine.run_append, Machine.run_append]
  exact hrest

end I386Kernel
