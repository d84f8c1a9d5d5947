import I386Kernel.Lib.Transition
import I386Kernel.Task.Kernel

/-!
# `serial.c` under interrupts

Tasks that call `serial_putc`, statement by statement on one processor, with the timer and the receive interrupt of the serial port, which may come between any two statements while interrupts are enabled. Both run on the stack of the task they interrupt, and `serial_interrupt` calls `serial_putc` itself. The lists are sequences of tasks, every task is a valid one, and `ready` are the lists of `sched.c`.
-/

namespace I386Kernel.Serial

/-- The next statement of a function in progress. -/
inductive Pc (τ : Type) where
  | down (ch : UInt8)
  | poll (ch : UInt8)
  | out (ch : UInt8)
  | downLock
  | downTest
  | downDec
  | downUnlock
  | suspLock
  | suspBlock
  | suspDel
  | suspAdd
  | suspUnlock
  | waitUnlock
  | upLock
  | upInc
  | upEmpty
  | upPop
  | resLock (w : τ)
  | resTest (w : τ)
  | resMark (w : τ)
  | resLink (w : τ)
  | resUnlock
  | upUnlock
  | schRead
  | schTest (next : τ)
  | rotLock (next : τ)
  | rotDel (next : τ)
  | rotAdd (next : τ)
  | rotUnlock (next : τ)
  | schCli (next : τ)
  | schMark (next : τ)
  | schSwitch (next : τ)
  | schSti
  | iir (ch : UInt8)
  | rbr (ch : UInt8)
  | again (ch : UInt8)
  | ier
  | eoi
  | iret
deriving DecidableEq

namespace Pc

variable {τ : Type}

/-- The places of `task_suspend` and `schedule`, and the return from an interrupt. -/
def leaves : Pc τ → Bool
  | suspLock | suspBlock | suspDel | suspAdd | suspUnlock | waitUnlock | schRead | schTest _ | rotLock _ | rotDel _
  | rotAdd _ | rotUnlock _ | schCli _ | schMark _ | schSwitch _ | schSti | iret => true
  | _ => false

/-- The places of `serial_interrupt`, up to the end of interrupt. -/
def handler : Pc τ → Bool
  | iir _ | rbr _ | again _ | ier | eoi => true
  | _ => false

end Pc

structure Machine (τ : Type) where
  /-- `sema_write.slock` is taken. -/
  slock : Bool
  /-- `list_slock` is taken. -/
  listSlock : Bool
  count : Int
  wait : List τ
  ready : Fin 64 → List τ
  priority : τ → Fin 64
  status : τ → TaskStatus
  current : τ
  /-- The interrupt flag. -/
  intr : Bool
  /-- `LSR_THRE` -/
  thre : Bool
  /-- What is in progress on the stack of a task, the innermost function first. -/
  stack : τ → List (Pc τ)

namespace Machine

variable {τ : Type} [DecidableEq τ] (m : Machine τ)

def goto (pcs : List (Pc τ)) : Machine τ := { m with stack := Function.update m.stack m.current pcs }

def setStatus (t : τ) (st : TaskStatus) : Machine τ := { m with status := Function.update m.status t st }

def listDel (t : τ) : Machine τ := { m with wait := m.wait.erase t, ready := fun p => (m.ready p).erase t }

def listAddTail (p : Fin 64) (t : τ) : Machine τ := { m with ready := Function.update m.ready p (m.ready p ++ [t]) }

/-- One statement of the current task, with `rest` below it on its stack. `spin_lock` and the loop of `serial_putc_poll` go on only when the lock is free and the register is empty. -/
def exec (rest : List (Pc τ)) : Pc τ → Option (Machine τ)
  -- `serial_putc`
  | .down ch => some (m.goto (.downLock :: .poll ch :: rest))
  | .poll ch => if m.thre then some (m.goto (.out ch :: rest)) else none
  | .out _ => some ({ m with thre := false }.goto (.upLock :: rest))
  -- `sema_down`
  | .downLock => if m.slock then none else some ({ m with slock := true }.goto (.downTest :: rest))
  | .downTest => some (m.goto ((if m.count ≤ 0 then .suspLock else .downDec) :: rest))
  | .downDec => some ({ m with count := m.count - 1 }.goto (.downUnlock :: rest))
  | .downUnlock => some ({ m with slock := false }.goto rest)
  -- `task_suspend`, and the rest of the branch of `sema_down` that calls it
  | .suspLock => if m.listSlock then none else some ({ m with listSlock := true }.goto (.suspBlock :: rest))
  | .suspBlock => some ((m.setStatus m.current .blocked).goto (.suspDel :: rest))
  | .suspDel => some ((m.listDel m.current).goto (.suspAdd :: rest))
  | .suspAdd => some ({ m with wait := m.current :: m.wait }.goto (.suspUnlock :: rest))
  | .suspUnlock => some ({ m with listSlock := false }.goto (.waitUnlock :: rest))
  | .waitUnlock => some ({ m with slock := false }.goto (.schRead :: rest))
  -- `sema_up`
  | .upLock => if m.slock then none else some ({ m with slock := true }.goto (.upInc :: rest))
  | .upInc => some ({ m with count := int32 (m.count + 1) }.goto
      ((if int32 (m.count + 1) > 0 then .upEmpty else .upUnlock) :: rest))
  | .upEmpty => some (m.goto ((if m.wait = [] then .upUnlock else .upPop) :: rest))
  | .upPop => m.wait.head?.map fun w => { m with wait := m.wait.tail }.goto (.resLock w :: rest)
  -- `task_resume`
  | .resLock w => if m.listSlock then none else some ({ m with listSlock := true }.goto (.resTest w :: rest))
  | .resTest w => some (m.goto ((if m.status w = .blocked then .resMark w else .resUnlock) :: rest))
  | .resMark w => some ((m.setStatus w .running).goto (.resLink w :: rest))
  | .resLink w => some ((m.listAddTail (m.priority w) w).goto (.resUnlock :: rest))
  | .resUnlock => some ({ m with listSlock := false }.goto (.upUnlock :: rest))
  | .upUnlock => some ({ m with slock := false }.goto rest)
  -- `schedule` and `next_task_to_run`
  | .schRead => (m.ready prioDefault).head?.map fun next => m.goto (.schTest next :: rest)
  | .schTest next => some (m.goto ((if m.status m.current = .running then .rotLock next else .schCli next) :: rest))
  | .rotLock next => if m.listSlock then none else some ({ m with listSlock := true }.goto (.rotDel next :: rest))
  | .rotDel next => some ((m.listDel m.current).goto (.rotAdd next :: rest))
  | .rotAdd next => some ((m.listAddTail prioDefault m.current).goto (.rotUnlock next :: rest))
  | .rotUnlock next => some ({ m with listSlock := false }.goto (.schCli next :: rest))
  | .schCli next => some ({ m with intr := false }.goto (.schMark next :: rest))
  | .schMark next => some ((m.setStatus next .running).goto (.schSwitch next :: rest))
  | .schSwitch next => some { m.goto (.schSti :: rest) with current := next }
  | .schSti => some ({ m with intr := true }.goto rest)
  -- `serial_interrupt`, in `generic_isr`
  | .iir ch => some (m.goto (.rbr ch :: rest))
  | .rbr ch => some (m.goto (.down ch :: .again ch :: rest))
  | .again ch => some (m.goto (if ch = ascii '\r' then .down (ascii '\n') :: .ier :: rest else .ier :: rest))
  | .ier => some (m.goto (.eoi :: rest))
  | .eoi => some (m.goto (.iret :: rest))
  | .iret => some ({ m with intr := true }.goto rest)

def run : Option (Machine τ) :=
  match m.stack m.current with
  | [] => none
  | pc :: rest => m.exec rest pc

/-- A receive interrupt, with the character that `RBR_REG` holds. -/
def interrupt (ch : UInt8) : Machine τ := { m.goto (.iir ch :: m.stack m.current) with intr := false }

end Machine

/-! ## Runs -/

inductive Label where
  | step
  | putc (ch : UInt8)
  | tick
  | rx (ch : UInt8)
  /-- The transmitter has taken the character. -/
  | empty
deriving DecidableEq

variable {τ : Type} [DecidableEq τ]

def next (m : Machine τ) : Label → Option (Machine τ)
  | .step => m.run
  | .putc ch => if m.stack m.current = [] then some (m.goto [.down ch]) else none
  | .tick => if m.intr then some { m.goto (.schRead :: .iret :: m.stack m.current) with intr := false } else none
  | .rx ch => if m.intr then some (m.interrupt ch) else none
  | .empty => some { m with thre := true }

/-- After `serial_init`, when every other task has been switched away from or is new, and about to enable interrupts. -/
structure Start (m : Machine τ) : Prop where
  slock : m.slock = false
  listSlock : m.listSlock = false
  count : m.count = 1
  wait : m.wait = []
  intr : m.intr = true
  current : m.stack m.current = []
  others : ∀ t, t ≠ m.current → m.stack t = [.schSti]

def system (τ : Type) [DecidableEq τ] : TransitionSystem (Machine τ) Label := .ofFn Start next

/-! ## What is asked of `serial_interrupt` -/

/-- The current task goes on to the end of interrupt, through no place of `task_suspend` or `schedule`, and waits for nothing but the transmitter. -/
inductive Handled : Machine τ → Prop where
  | eoi {m : Machine τ} {rest : List (Pc τ)} (htop : m.stack m.current = .eoi :: rest) : Handled m
  | step {m m' : Machine τ} {pc : Pc τ} {rest : List (Pc τ)} (htop : m.stack m.current = pc :: rest)
      (hpc : pc.leaves = false) (hexec : m.exec rest pc = some m') (h : Handled m') : Handled m
  | wait {m : Machine τ} {ch : UInt8} {rest : List (Pc τ)} (htop : m.stack m.current = .poll ch :: rest)
      (h : Handled { m with thre := true }) : Handled m

/-- `serial_interrupt` is in progress on the stack of `t`. -/
def InHandler (m : Machine τ) (t : τ) : Prop := ∃ pc ∈ m.stack t, pc.handler = true

/-- The condition on an interrupt: `sema_write` can be passed, and if a task waits for it, the lists can be changed. -/
def Calm (m : Machine τ) : Label → Prop
  | .rx _ => m.slock = false ∧ 0 < m.count ∧ (m.listSlock = false ∨ m.wait = [])
  | _ => True

instance (m : Machine τ) : (l : Label) → Decidable (Calm m l)
  | .rx _ => inferInstanceAs (Decidable (_ ∧ _))
  | .step | .putc _ | .tick | .empty => isTrue trivial

end I386Kernel.Serial
