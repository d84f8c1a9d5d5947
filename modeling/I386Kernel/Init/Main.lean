import I386Kernel.Lib.Transition
import I386Kernel.Task.Kernel

/-!
# Timer interrupts while `main` initialises the kernel

`main` up to the point where `sched_init` links `init_task` on its ready list, statement by statement, and the handler of the timer on top of it. `serial_init` enables interrupts before `sched_init` has run, and `task_tick` counts down a time slice that is whatever bytes the boot stack page holds there. From where `schedule` has taken `list_slock`, or has found that it does not have to, it is no longer followed.
-/

namespace I386Kernel.Init

open CircularList (Links)

/-! ## Statements -/

/-- What vector 0x20 leads to; `start.S` has filled the table with `unknown_isr`. -/
inductive Isr where
  | unknownIsr
  | defaultIsr
  | systickIntr
deriving DecidableEq

inductive Lock where
  | pid
  | list
deriving DecidableEq

/-- The fields of the `task_struct` at the start of the boot stack page, other than its name and its list nodes. -/
inductive Field where
  | pid
  | status
  | sp
  | priority
  | timeSliceInit
  | timeSliceRes
  | magic
deriving DecidableEq

inductive Stmt where
  | bssInit
  | mmInit
  | kernelPgDirInit
  | setGates (isr : Isr)
  | picInit
  | hwTimerConfig
  | setTimerGate (isr : Isr)
  | serialInitPoll
  | semaInit (sema : Word) (count : Int)
  /-- `set_interrupt_gate` of the serial port and of the keyboard. -/
  | setOtherGate (vector : Nat)
  | interruptDisable
  | outbIer
  | interruptEnable
  | spinLockInit (l : Lock)
  | listHeadInit (q : QueueId)
  | setInitTask
  | clearTask
  | store (f : Field) (w : Word)
  | copyName
  | spinLock (l : Lock)
  | spinUnlock (l : Lock)
  | listAddAll
  | incPid
  | readPid
  | linkInitTask
deriving DecidableEq

/-- `TASK_RUNNING` and `TASK_BLOCKED`. -/
def taskRunning : Word := 0
def taskBlocked : Word := 2

/-- The page of the boot stack, `current` in all of `main`. -/
def bootPage : Word := 0xc000e000

/-- `hw_timer_init`, `serial_init` and `kbd_init`, with what comes before them; the semaphore is `sema_write`. -/
def initDevices (semaWrite : Word) : List Stmt :=
  [.bssInit, .mmInit, .kernelPgDirInit, .setGates .defaultIsr, .picInit, .hwTimerConfig, .setTimerGate .systickIntr,
    .serialInitPoll, .semaInit semaWrite 1, .setOtherGate 0x24, .interruptDisable, .outbIer, .interruptEnable,
    .setOtherGate 0x21]

/-- `sched_init` up to `list_add(&init_task->queued_tasks, ..)`. -/
def schedInit (sem : Word) : List Stmt :=
  [.semaInit sem 0, .spinLockInit .pid, .spinLockInit .list] ++
    ((List.finRange 64).map fun i => .listHeadInit (.ready i)) ++
    [.listHeadInit .all, .setInitTask, .clearTask, .store .status taskBlocked, .store .sp (bootPage + pageSize),
      .store .priority 31, .store .magic taskMagic, .copyName, .spinLock .list, .listAddAll, .spinUnlock .list,
      .spinLock .pid, .incPid, .spinUnlock .pid, .readPid, .store .timeSliceRes 1, .store .timeSliceInit 1,
      .store .status taskRunning, .linkInitTask]

def main (semaWrite sem : Word) : List Stmt := initDevices semaWrite ++ schedInit sem

/-! ## The machine -/

/-- The next statement of the interrupt in progress: `generic_isr`, `systick_intr` with `task_tick`, and `schedule` with `next_task_to_run`. -/
inductive HandlerPc where
  | entry
  | isr
  | tick
  | setFlag
  | reload
  | endOfInterrupt
  | check
  | iret
  | schRead
  | schTest
  | rotLock
  | rotDel
  | schCli
deriving DecidableEq

inductive Event where
  | schedule
  /-- By the handler, or by `main` itself. -/
  | lockList (handler : Bool)
deriving DecidableEq

structure Machine where
  /-- The statements `main` has yet to execute. -/
  todo : List Stmt
  /-- The interrupt flag. -/
  intr : Bool
  /-- The PIC does not let the timer through. -/
  masked : Bool
  gate : Isr
  handler : Option HandlerPc
  schedOnReturn : Bool
  inInterrupt : Bool
  /-- The bytes of the locks: 0 while held, and in a cleared `.bss`. -/
  lock : Lock → BitVec 8
  task : Field → Word
  links : Links Node
  semaCount : Word → Int
  initTask : Word
  nextPid : Word
  /-- A record of the calls of `schedule` and the acquisitions of `list_slock`, each with what `main` had yet to execute. -/
  log : List (Event × List Stmt)

namespace Machine

variable (m : Machine)

/-- A statement of `main`; `spin_lock` goes on only when the byte is not 0. -/
def exec (m : Machine) : Stmt → Option Machine
  | .bssInit => some { m with
      schedOnReturn := false, inInterrupt := false, lock := fun _ => 0, links := ⟨fun _ => .null, fun _ => .null⟩,
      semaCount := fun _ => 0, initTask := 0 }
  | .setGates isr => some { m with gate := isr }
  | .picInit => some { m with masked := false }
  | .setTimerGate isr => some { m with gate := isr }
  | .semaInit s n => some { m with
      semaCount := Function.update m.semaCount s n, links := listHeadInit m.links (.head (.wait s)) }
  | .interruptDisable => some { m with intr := false }
  | .interruptEnable => some { m with intr := true }
  | .spinLockInit l => some { m with lock := Function.update m.lock l 1 }
  | .listHeadInit q => some { m with links := listHeadInit m.links (.head q) }
  | .setInitTask => some { m with initTask := bootPage }
  | .clearTask =>
      let L := setPrev (setNext m.links (.queued bootPage) .null) (.queued bootPage) .null
      some { m with
        task := fun _ => 0, links := setPrev (setNext L (.all bootPage) .null) (.all bootPage) .null }
  | .store f w => some { m with task := Function.update m.task f w }
  | .spinLock l =>
      if m.lock l = 0 then none
      else some { m with
        lock := Function.update m.lock l 0,
        log := if l = .list then (.lockList false, m.todo.tail) :: m.log else m.log }
  | .spinUnlock l => some { m with lock := Function.update m.lock l 1 }
  | .listAddAll => some { m with links := listAdd m.links (.all bootPage) (.head .all) }
  | .incPid => some { m with nextPid := m.nextPid + 1 }
  | .readPid => some { m with task := Function.update m.task .pid m.nextPid }
  | .linkInitTask =>
      if h : (m.task .priority).toNat < 64 then
        some { m with links := listAdd m.links (.queued bootPage) (.head (.ready ⟨(m.task .priority).toNat, h⟩)) }
      else none
  | _ => some m

/-- A statement of the handler. -/
def handle (m : Machine) : HandlerPc → Option Machine
  | .entry =>
      -- `unknown_isr` is no handler of `generic_isr`
      if m.gate = .unknownIsr then some { m with handler := some .iret }
      else some { m with inInterrupt := true, schedOnReturn := false, handler := some .isr }
  | .isr => some { m with handler := some (if m.gate = .systickIntr then .tick else .endOfInterrupt) }
  | .tick => some { m with
      task := Function.update m.task .timeSliceRes (m.task .timeSliceRes - 1),
      handler := some (if (m.task .timeSliceRes - 1).toInt ≤ 0 then .setFlag else .endOfInterrupt) }
  | .setFlag => some { m with schedOnReturn := true, handler := some .reload }
  | .reload => some { m with
      task := Function.update m.task .timeSliceRes (m.task .timeSliceInit), handler := some .endOfInterrupt }
  | .endOfInterrupt => some { m with inInterrupt := false, handler := some .check }
  | .check =>
      if m.schedOnReturn then some { m with handler := some .schRead, log := (.schedule, m.todo) :: m.log }
      else some { m with handler := some .iret }
  | .iret => some { m with handler := none, intr := true }
  | .schRead => some { m with handler := some .schTest }
  | .schTest => some { m with handler := some (if m.task .status = taskRunning then .rotLock else .schCli) }
  | .rotLock =>
      if m.lock .list = 0 then none
      else some { m with
        lock := Function.update m.lock .list 0, handler := some .rotDel, log := (.lockList true, m.todo) :: m.log }
  | .rotDel => none
  | .schCli => none

end Machine

inductive Label where
  | step
  | timer
deriving DecidableEq

namespace Machine

def next (m : Machine) : Label → Option Machine
  | .step =>
      match m.handler with
      | some pc => m.handle pc
      | none =>
          match m.todo with
          | [] => none
          | s :: rest => (m.exec s).map fun m => { m with todo := rest }
  | .timer =>
      if m.intr ∧ m.masked = false then some { m with intr := false, handler := some .entry } else none

end Machine

/-- `start.S` calls `main` with interrupts off; nothing is known of the memory but `static pid_t next_pid = -1`. -/
def Start (m : Machine) : Prop :=
  (∃ semaWrite sem, m.todo = main semaWrite sem) ∧ m.intr = false ∧ m.gate = .unknownIsr ∧ m.handler = none ∧
    m.nextPid = -1 ∧ m.log = []

/-- `main` and the timer in every order. -/
def system : TransitionSystem Machine Label := .ofFn Start Machine.next

end I386Kernel.Init
