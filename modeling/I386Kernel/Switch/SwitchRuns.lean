import I386Kernel.Lib.Transition
import I386Kernel.Switch.ContextSwitch

/-!
# Context switches over whole runs

One CPU, any number of tasks. Between switches the current task runs C code, which may do anything to the registers and to memory except for the other tasks' stacks and the saved stack pointers. The state records what every task that is not running has to find when it runs again: the registers at its call of `switch_to`, or the procedure and argument it was created with.
-/

namespace I386Kernel

open I386 (Machine Instr Reg)

structure SwitchSymbols extends Symbols where
  taskSchedPostProc : Word
  /-- Where `switch_initial` goes on after its call of `task_sched_post_proc`. -/
  switchInitialNext : Word

/-- The registers at a call of `switch_to`, `esp` before the return address is pushed. -/
structure CallRegs where
  edi : Word
  esi : Word
  ebp : Word
  ebx : Word
  esp : Word
  ra : Word
deriving DecidableEq

inductive Saved where
  | inCall (r : CallRegs)
  | fresh (proc params : Word)
deriving DecidableEq

structure SwitchSys where
  machine : Machine
  tasks : List Word
  curr : Word
  saved : Word → Option Saved
  /-- The CPU is at `switch_initial`. -/
  entering : Bool
  /-- The calls of `task_sched_post_proc` in `switch_initial`: the task and the argument. -/
  posts : List (Word × Word)

inductive SwitchLabel where
  /-- C code of the current task. -/
  | compute (reg : Reg → Word) (eip : Word) (writes : List (Word × Word))
  /-- `task_create`, for which the allocator returns `page`. -/
  | create (page proc params : Word)
  /-- A call of `switch_to` that is to return to `ra`. -/
  | switch (next ra : Word)
  /-- `switch_initial`; `task_sched_post_proc` leaves these values in the scratch registers and makes these writes. -/
  | enter (eax ecx edx : Word) (writes : List (Word × Word))

instance (p a : Word) : Decidable (InPage p a) := inferInstanceAs (Decidable (_ ∧ _))

def writeAll (m : Mem) (writes : List (Word × Word)) : Mem :=
  writes.foldl (fun m w => Function.update m w.1 w.2) m

namespace SwitchSys

variable (s : SwitchSys)

/-- What the code of the current task may write: no word of another task's stack, and no saved stack pointer. -/
def MayWrite (a : Word) : Prop :=
  a.toNat % 4 = 0 ∧ (∀ t ∈ s.tasks, t ≠ s.curr → InPage t a → a.toNat < t.toNat + taskStructSize.toNat) ∧
    ∀ t ∈ s.tasks, a ≠ t + savedSpOffset

-- over the tasks, not over all words
instance (s : SwitchSys) (a : Word) : Decidable (s.MayWrite a) :=
  letI := List.decidableBAll (fun t => t ≠ s.curr → InPage t a → a.toNat < t.toNat + taskStructSize.toNat) s.tasks
  letI := List.decidableBAll (fun t => a ≠ t + savedSpOffset) s.tasks
  inferInstanceAs (Decidable (_ ∧ _ ∧ _))

/-- The current task may call `switch_to`: the arguments are at `esp`, and the call has room on the stack. -/
def CanSwitch (sym : SwitchSymbols) (next ra : Word) : Prop :=
  let esp := s.machine.reg .esp
  s.entering = false ∧ next ∈ s.tasks ∧ s.machine.mem esp = s.curr ∧ s.machine.mem (esp + 4) = next ∧
    s.curr.toNat + taskStructSize.toNat + 20 ≤ esp.toNat ∧ esp.toNat + 8 ≤ s.curr.toNat + 0x1000 ∧
    ra ≠ sym.switchInitial

instance (s : SwitchSys) (sym : SwitchSymbols) (next ra : Word) : Decidable (s.CanSwitch sym next ra) :=
  inferInstanceAs (Decidable (_ ∧ _ ∧ _ ∧ _ ∧ _ ∧ _ ∧ _))

def callRegs (ra : Word) : CallRegs where
  edi := s.machine.reg .edi
  esi := s.machine.reg .esi
  ebp := s.machine.reg .ebp
  ebx := s.machine.reg .ebx
  esp := s.machine.reg .esp
  ra := ra

/-- The records with that of the current task, which calls `switch_to`. -/
def records (ra : Word) : Word → Option Saved :=
  Function.update s.saved s.curr (some (.inCall (s.callRegs ra)))

/-- At the first instruction of `task_sched_post_proc`. -/
def atPostProc (sym : SwitchSymbols) : Machine :=
  s.machine.run (switchInitialHead sym.taskSchedPostProc sym.switchInitialNext)

/-- A C function keeps to the calling convention: above its return address it writes only its argument. -/
def Conforms (sym : SwitchSymbols) (writes : List (Word × Word)) : Prop :=
  ∀ w ∈ writes, s.MayWrite w.1 ∧ (InPage s.curr w.1 →
    w.1.toNat < ((s.atPostProc sym).reg .esp).toNat ∨ w.1 = (s.atPostProc sym).reg .esp + 4)

instance (s : SwitchSys) (sym : SwitchSymbols) (writes : List (Word × Word)) :
    Decidable (s.Conforms sym writes) := inferInstanceAs (Decidable (∀ _ ∈ _, _))

/-- `task_sched_post_proc` has returned. -/
def afterPostProc (sym : SwitchSymbols) (eax ecx edx : Word) (writes : List (Word × Word)) : Machine :=
  let M := s.atPostProc sym
  let M := ((M.setReg .eax eax).setReg .ecx ecx).setReg .edx edx
  ({ M with mem := writeAll M.mem writes } : Machine).exec .ret

end SwitchSys

/-- Memory after `task_create` has built a task in `page`. -/
def createMem (m : Mem) (sym : Symbols) (page proc params : Word) : Mem :=
  Function.update (frames (memsetZero m page pageSize) sym (page + pageSize) proc params)
    (page + savedSpOffset) (page + pageSize - kernelProcStackSize - switchFrameSize)

def switchStep (sym : SwitchSymbols) (s : SwitchSys) : SwitchLabel → Option SwitchSys
  | .compute reg eip writes =>
      if s.entering = false ∧ ∀ w ∈ writes, s.MayWrite w.1 then
        some { s with machine := { s.machine with reg := reg, eip := eip, mem := writeAll s.machine.mem writes } }
      else none
  | .create page proc params =>
      if s.entering = false ∧ page.toNat % 0x1000 = 0 ∧ page ∉ s.tasks then
        some { s with
          machine := { s.machine with mem := createMem s.machine.mem sym.toSymbols page proc params }
          tasks := page :: s.tasks
          saved := Function.update s.saved page (some (.fresh proc params)) }
      else none
  | .switch next ra =>
      if s.CanSwitch sym next ra then
        let M := callSwitchTo s.machine ra
        some { s with
          machine := M
          curr := next
          saved := Function.update (s.records ra) next none
          entering := M.eip = sym.switchInitial }
      else none
  | .enter eax ecx edx writes =>
      let M := s.afterPostProc sym eax ecx edx writes
      if s.entering = true ∧ s.Conforms sym writes ∧ M.eip = sym.switchInitialNext then
        some { s with
          machine := M.run switchInitialTail
          entering := false
          posts := s.posts ++ [(s.curr, (s.atPostProc sym).mem ((s.atPostProc sym).reg .esp + 4))] }
      else none

/-- The boot code runs as the only task. -/
def switchSystem (sym : SwitchSymbols) : TransitionSystem SwitchSys SwitchLabel :=
  .ofFn (fun s => s.tasks = [s.curr] ∧ s.curr.toNat % 0x1000 = 0 ∧ (∀ t, s.saved t = none) ∧
    s.entering = false ∧ s.posts = []) (switchStep sym)

/-! ## Words of a stack -/

/-- The words of a task that only the task itself changes while it is not running. -/
def Protected (t a : Word) : Prop :=
  InPage t a ∧ (a = t + savedSpOffset ∨ t.toNat + taskStructSize.toNat ≤ a.toNat)

theorem SwitchSys.MayWrite.not_protected {s : SwitchSys} {a t : Word} (h : s.MayWrite a) (ht : t ∈ s.tasks)
    (hne : t ≠ s.curr) : ¬ Protected t a := by
  rintro ⟨hin, rfl | hle⟩
  · exact h.2.2 t ht rfl
  · exact Nat.not_lt.mpr hle (h.2.1 t ht hne hin)

theorem writeAll_of_ne {m : Mem} {writes : List (Word × Word)} {a : Word} (h : ∀ w ∈ writes, w.1 ≠ a) :
    writeAll m writes a = m a := by
  induction writes generalizing m with
  | nil => rfl
  | cons w writes ih =>
      change writeAll (Function.update m w.1 w.2) writes a = m a
      rw [ih fun w' hw' => h w' (List.mem_cons_of_mem w hw')]
      exact Function.update_of_ne (h w (List.mem_cons_self ..)).symm _ _

/-- What a task that is not running has on its stack. -/
def Holds (sym : SwitchSymbols) (m : Mem) (t : Word) : Saved → Prop
  | .inCall r => t.toNat + taskStructSize.toNat + 20 ≤ r.esp.toNat ∧ r.esp.toNat + 8 ≤ t.toNat + 0x1000 ∧
      r.ra ≠ sym.switchInitial ∧ m (t + savedSpOffset) = r.esp - 20 ∧
      m (r.esp - 20) = r.edi ∧ m (r.esp - 16) = r.esi ∧ m (r.esp - 12) = r.ebp ∧ m (r.esp - 8) = r.ebx ∧
      m (r.esp - 4) = r.ra
  | .fresh proc params => m (t + savedSpOffset) = t + 0xfd8 ∧ m (t + 0xfe8) = sym.switchInitial ∧
      m (t + 0xff4) = proc ∧ m (t + 0xff8) = sym.taskExit ∧ m (t + 0xffc) = params

private theorem toNat_sub_of_le {e off : Word} (h : off.toNat ≤ e.toNat) : (e - off).toNat = e.toNat - off.toNat :=
  BitVec.toNat_sub_of_le h

private theorem toNat_off {t off : Word} (ht : t.toNat % 0x1000 = 0) (hoff : off.toNat < 0x1000) :
    (t + off).toNat = t.toNat + off.toNat := by
  have := t.isLt
  rw [BitVec.toNat_add]
  omega

theorem protected_off {t off : Word} (ht : t.toNat % 0x1000 = 0) (hoff : off.toNat < 0x1000)
    (hcase : off = savedSpOffset ∨ 64 ≤ off.toNat) : Protected t (t + off) := by
  rw [Protected, InPage, toNat_off ht hoff]
  refine ⟨by omega, hcase.imp (fun h => by rw [h]) fun h => ?_⟩
  change t.toNat + 64 ≤ _
  omega

theorem protected_below {t e off : Word} (hlow : t.toNat + taskStructSize.toNat + 20 ≤ e.toNat)
    (hhigh : e.toNat + 8 ≤ t.toNat + 0x1000) (hpos : 0 < off.toNat) (hoff : off.toNat ≤ 20) : Protected t (e - off) := by
  have hsub : (e - off).toNat = e.toNat - off.toNat := toNat_sub_of_le (by omega)
  have hlow' : t.toNat + 64 + 20 ≤ e.toNat := hlow
  rw [Protected, InPage, hsub]
  refine ⟨by omega, Or.inr ?_⟩
  change t.toNat + 64 ≤ _
  omega

/-- A change outside the protected words of a task is none to what it has saved. -/
theorem Holds.congr {sym : SwitchSymbols} {m m' : Mem} {t : Word} {rec : Saved} (h : Holds sym m t rec)
    (ht : t.toNat % 0x1000 = 0) (hm : ∀ a, Protected t a → m' a = m a) : Holds sym m' t rec := by
  have hsp : m' (t + savedSpOffset) = m (t + savedSpOffset) :=
    hm _ (protected_off ht (by decide) (Or.inl rfl))
  cases rec with
  | inCall r =>
      obtain ⟨hlow, hhigh, hra, h0, h1, h2, h3, h4, h5⟩ := h
      refine ⟨hlow, hhigh, hra, hsp.trans h0, (hm _ ?_).trans h1, (hm _ ?_).trans h2, (hm _ ?_).trans h3,
        (hm _ ?_).trans h4, (hm _ ?_).trans h5⟩
      all_goals exact protected_below hlow hhigh (by decide) (by decide)
  | fresh proc params =>
      obtain ⟨h0, h1, h2, h3, h4⟩ := h
      refine ⟨hsp.trans h0, (hm _ ?_).trans h1, (hm _ ?_).trans h2, (hm _ ?_).trans h3, (hm _ ?_).trans h4⟩
      all_goals exact protected_off ht (by decide) (Or.inr (by decide))

end I386Kernel
