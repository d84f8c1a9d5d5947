import I386Kernel.Lib.Transition
import I386Kernel.Lib.Custody
import I386Kernel.Task.Boot

/-!
# The kernel under preemption

The functions of `sched.c` and `sync.c` taken statement by statement on one processor. A task carries a stack of frames, each a place in a function in progress and the entry it came in by: a call the task made, the timer, a device, or the first dispatch of a new task. While interrupts are enabled the timer may push a frame that runs `schedule`, as `generic_isr` does on a tick that ends a time slice, and a device one that runs operations on semaphores: `ide_interrupt` one `sema_up`, and `serial_interrupt` the `sema_down` and the `sema_up` of `serial_putc`, a second time after a carriage return. A handler that has to wait blocks the task it has interrupted and calls `schedule` on its stack. The data are those of `Kernel`; one list operation is one statement, and so is what `task_create` does to a page that no other task can reach yet.
-/

namespace I386Kernel.Preempt

open CircularList (Links)

/-! ## Places -/

/-- `list_slock`, `pid_slock`, the lock of the page pool, and the `slock` of a semaphore. -/
inductive Lock where
  | list
  | pid
  | pool
  | slock (sema : Word)
deriving DecidableEq

/-- The arguments of `task_create` in the calls that succeed in `task_struct_init`: the name is not `NULL` and the priority is valid. -/
structure CreateArgs where
  proc : Word
  params : Word
  name : List UInt8
  priority : Int
  status : TaskStatus
  valid : validPriority priority
deriving DecidableEq

inductive Call where
  | semaDown (sema : Word)
  | semaUp (sema : Word)
  | taskCreate (args : CreateArgs)
  | taskExit
  | schedule
deriving DecidableEq

/-- The next statement of a function in progress. `sema_down`, `task_suspend`, `sema_up` and `task_resume` carry the semaphore and the task they work on, `schedule` the task it chose, `task_create` its arguments and the new page. -/
inductive Pc where
  | downLock (s : Word)
  | downTest (s : Word)
  | downDec (s : Word)
  | downUnlock (s : Word)
  | suspLock (s : Word)
  | suspBlock (s : Word)
  | suspDel (s : Word)
  | suspAdd (s : Word)
  | suspUnlock (s : Word)
  | waitUnlock (s : Word)
  | upLock (s : Word)
  | upInc (s : Word)
  | upEmpty (s : Word)
  | upPop (s : Word)
  | resValid (s w : Word)
  | resLock (s w : Word)
  | resTest (s w : Word)
  | resMark (s w : Word)
  | resLink (s w : Word)
  | resUnlock (s w : Word)
  /-- With the task this `sema_up` took off the wait list. -/
  | upUnlock (s : Word) (woken : Option Word)
  | schRead
  | schTest (next : Word)
  | rotLock (next : Word)
  | rotDel (next : Word)
  | rotAdd (next : Word)
  | rotUnlock (next : Word)
  | schCli (next : Word)
  | schMark (next : Word)
  | schSwitch (next : Word)
  | schPost
  | schSti
  | exitLock
  | exitDying
  | exitDel
  | exitUnlock
  | mkLock (a : CreateArgs)
  | mkTake (a : CreateArgs)
  | mkUnlock (a : CreateArgs) (n : Word)
  | mkZero (a : CreateArgs) (n : Word)
  | mkInit (a : CreateArgs) (n : Word)
  | allLock (a : CreateArgs) (n : Word)
  | allAdd (a : CreateArgs) (n : Word)
  | allUnlock (a : CreateArgs) (n : Word)
  | pidLock (a : CreateArgs) (n : Word)
  | pidInc (a : CreateArgs) (n : Word)
  | pidUnlock (a : CreateArgs) (n : Word)
  | pidRead (a : CreateArgs) (n : Word)
  | mkSlice (a : CreateArgs) (n : Word)
  | mkStack (a : CreateArgs) (n : Word)
  | linkLock (a : CreateArgs) (n : Word)
  | linkAdd (a : CreateArgs) (n : Word)
  | linkUnlock (a : CreateArgs) (n : Word)
  | mkStatus (a : CreateArgs) (n : Word)
  | mkReturn (n : Word)
  | initPost
  | initSti
  | ret
deriving DecidableEq

/-- What the handler of a device does to a semaphore. -/
inductive SemaOp where
  | down (sema : Word)
  | up (sema : Word)
deriving DecidableEq

def SemaOp.entry : SemaOp → Pc
  | .down s => .downLock s
  | .up s => .upLock s

/-- The handler of a device is at the operation `op` and has `ops` still to do; `late` is a record that it has been through `schedule`, which enables interrupts. -/
inductive Origin where
  | call (c : Call)
  | timer
  | device (op : SemaOp) (ops : List SemaOp) (late : Bool)
  | fresh
deriving DecidableEq

/-- Entered through an interrupt gate, to be left by `iret`. -/
def Origin.isr : Origin → Bool
  | .timer => true
  | .device _ _ _ => true
  | _ => false

/-- Past the `switch_to` of `schedule`. -/
def Origin.waited : Origin → Origin
  | .device op ops _ => .device op ops true
  | o => o

structure Frame where
  pc : Pc
  origin : Origin
deriving DecidableEq

/-- The next operation of a handler. -/
def Origin.proceed : Origin → Option Frame
  | .device _ (op :: ops) late => some ⟨op.entry, .device op ops late⟩
  | _ => none

/-- `proc` is tested before anything else; a call without one returns at once. -/
def Call.entry : Call → Pc
  | .semaDown s => .downLock s
  | .semaUp s => .upLock s
  | .taskCreate a => if a.proc = 0 then .ret else .mkLock a
  | .taskExit => .exitLock
  | .schedule => .schRead

/-! ## Statements -/

/-- What a statement does besides going on to the next one. -/
inductive Effect where
  | skip
  | acquire (l : Lock)
  | release (l : Lock)
  | setIntr (b : Bool)
  | setStatus (t : Word) (st : TaskStatus)
  | setCount (s : Word) (n : Int)
  | listDel (t : Word)
  | listAdd (q : QueueId) (t : Word)
  | listAddTail (q : QueueId) (t : Word)
  | listPop (s : Word)
  | takePage (n : Word) (m : Mem) (proc : Word)
  | zeroPage (n : Word)
  | initTask (n : Word) (a : CreateArgs)
  | incPid
  | storePid (n : Word)
  | storeSlices (n : Word) (priority : Int)
  | buildStack (n proc params : Word)
  | returnPid (n : Word)

/-- `task_struct_init` between its `memset` and its first lock. -/
def initialised (a : CreateArgs) (n : Word) : TaskStruct :=
  { TaskStruct.zero with
    status := .blocked
    sp := n + pageSize
    priority := ⟨a.priority.toNat, toNat_lt_of_validPriority a.valid⟩
    magic := taskMagic
    name := a.name.take 15 }

/-- What an effect does to the data of the kernel. -/
def Effect.kernel (k : Kernel) : Effect → Kernel
  | .setStatus t st => k.setStatus t st
  | .setCount s n => k.setCount s n
  | .listDel t => k.setLinks (I386Kernel.listDel k.links (.queued t))
  | .listAdd q t => k.setLinks (I386Kernel.listAdd k.links (q.node t) (.head q))
  | .listAddTail q t => k.setLinks (I386Kernel.listAddTail k.links (q.node t) (.head q))
  | .listPop s => k.setLinks (I386Kernel.listPop k.links (.head (.wait s))).2
  | .takePage n m proc => { k with mem := m, created := if n = 0 then k.created else (n, proc) :: k.created }
  | .zeroPage n => { (k.zeroNodes n).setTask n fun _ => .zero with mem := memsetZero k.mem n pageSize }
  | .initTask n a => (k.zeroNodes n).setTask n fun _ => initialised a n
  | .incPid => { k with nextPid := int32 (k.nextPid + 1) }
  | .storePid n => k.setTask n fun t => { t with pid := k.nextPid }
  | .storeSlices n priority => k.setTask n fun t =>
      { t with timeSliceInit := (priority + 31 - 1) / 31, timeSliceRes := (priority + 31 - 1) / 31 }
  | .buildStack n proc params => buildFrames k n proc params
  | _ => k

/-- The statement at a place of the task `c`, and where it goes on. There is none at `ret` and `schSwitch`, and where the code would follow a pointer that is no task. -/
def stmt (k : Kernel) (c : Word) : Pc → Option (Effect × Pc)
  -- `sema_down`
  | .downLock s => some (.acquire (.slock s), .downTest s)
  | .downTest s => some (.skip, if k.semaCount s ≤ 0 then .suspLock s else .downDec s)
  | .downDec s => some (.setCount s (k.semaCount s - 1), .downUnlock s)
  | .downUnlock s => some (.release (.slock s), .ret)
  -- `task_suspend`, and the rest of the branch of `sema_down` that calls it
  | .suspLock s => some (.acquire .list, .suspBlock s)
  | .suspBlock s => some (.setStatus c .blocked, .suspDel s)
  | .suspDel s => some (.listDel c, .suspAdd s)
  | .suspAdd s => some (.listAdd (.wait s) c, .suspUnlock s)
  | .suspUnlock s => some (.release .list, .waitUnlock s)
  | .waitUnlock s => some (.release (.slock s), .schRead)
  -- `sema_up`
  | .upLock s => some (.acquire (.slock s), .upInc s)
  | .upInc s => some (.setCount s (int32 (k.semaCount s + 1)),
      if int32 (k.semaCount s + 1) > 0 then .upEmpty s else .upUnlock s none)
  | .upEmpty s => some (.skip, if listEmpty k.links (.head (.wait s)) then .upUnlock s none else .upPop s)
  | .upPop s => (listEntry (k.links.next (.head (.wait s)))).map fun w => (.listPop s, .resValid s w)
  -- `task_resume`
  | .resValid s w => some (.skip, if validTask (k.task w) then .resLock s w else .upUnlock s (some w))
  | .resLock s w => some (.acquire .list, .resTest s w)
  | .resTest s w => some (.skip, if k.status w = .blocked then .resMark s w else .resUnlock s w)
  | .resMark s w => some (.setStatus w .running, .resLink s w)
  | .resLink s w => some (.listAddTail (.ready (k.task w).priority) w, .resUnlock s w)
  | .resUnlock s w => some (.release .list, .upUnlock s (some w))
  | .upUnlock s _ => some (.release (.slock s), .ret)
  -- `schedule` and `next_task_to_run`
  | .schRead => (listEntry (k.links.next (.head (.ready prioDefault)))).map fun next => (.skip, .schTest next)
  | .schTest next => some (.skip, if k.status c = .running then .rotLock next else .schCli next)
  | .rotLock next => some (.acquire .list, .rotDel next)
  | .rotDel next => some (.listDel c, .rotAdd next)
  | .rotAdd next => some (.listAddTail (.ready prioDefault) c, .rotUnlock next)
  | .rotUnlock next => some (.release .list, .schCli next)
  | .schCli next => some (.setIntr false, .schMark next)
  | .schMark next => some (.setStatus next .running, .schSwitch next)
  | .schSwitch _ => none
  -- `task_sched_post_proc(prev)`: its test `!prev && ..` fails, for the task switched away from is not `NULL`
  | .schPost => some (.skip, .schSti)
  | .schSti => some (.setIntr true, .ret)
  -- `task_exit`
  | .exitLock => some (.acquire .list, .exitDying)
  | .exitDying => some (.setStatus c .dying, .exitDel)
  | .exitDel => some (.listDel c, .exitUnlock)
  | .exitUnlock => some (.release .list, .schRead)
  -- `mm_kget_page(PF_ZERO)`
  | .mkLock a => some (.acquire .pool, .mkTake a)
  | .mkTake a =>
      let page := mmKgetPage k.mem k.pool 0
      some (.takePage page.1 page.2 a.proc, .mkUnlock a page.1)
  | .mkUnlock a n => some (.release .pool, if n = 0 then .ret else .mkZero a n)
  | .mkZero a n => some (.zeroPage n, .mkInit a n)
  -- `task_struct_init` and `allocate_pid`
  | .mkInit a n => some (.initTask n a, .allLock a n)
  | .allLock a n => some (.acquire .list, .allAdd a n)
  | .allAdd a n => some (.listAdd .all n, .allUnlock a n)
  | .allUnlock a n => some (.release .list, .pidLock a n)
  | .pidLock a n => some (.acquire .pid, .pidInc a n)
  | .pidInc a n => some (.incPid, .pidUnlock a n)
  | .pidUnlock a n => some (.release .pid, .pidRead a n)
  | .pidRead a n => some (.storePid n, .mkSlice a n)
  | .mkSlice a n => some (.storeSlices n a.priority, .mkStack a n)
  -- the rest of `task_create`
  | .mkStack a n => some (.buildStack n a.proc a.params, .linkLock a n)
  | .linkLock a n => some (.acquire .list, .linkAdd a n)
  | .linkAdd a n => some (.listAddTail (.ready (k.task n).priority) n, .linkUnlock a n)
  | .linkUnlock a n => some (.release .list, .mkStatus a n)
  | .mkStatus a n => some (.setStatus n a.status, .mkReturn n)
  | .mkReturn n => some (.returnPid n, .ret)
  -- `switch_initial`
  | .initPost => some (.skip, .initSti)
  | .initSti => some (.setIntr true, .ret)
  | .ret => none

/-! ## The machine -/

structure Machine where
  kernel : Kernel
  /-- The interrupt flag. -/
  intr : Bool
  /-- A lock is free when nobody holds it. -/
  holder : Lock → Option Word
  /-- What is in progress on the stack of a task, the innermost function first. -/
  frames : Word → List Frame
  /-- A record of the tasks whose `pid` has been stored. -/
  numbered : List Word
  /-- A record of the pids `task_create` has returned. -/
  returned : List Int
  /-- A record of the number of increments of `next_pid`. -/
  allocations : Nat

namespace Effect

def holder (c : Word) (holder : Lock → Option Word) : Effect → Lock → Option Word
  | .acquire l => Function.update holder l (some c)
  | .release l => Function.update holder l none
  | _ => holder

def intr (intr : Bool) : Effect → Bool
  | .setIntr b => b
  | _ => intr

/-- A new stack makes the first dispatch go through `switch_initial`. -/
def frames (frames : Word → List Frame) : Effect → Word → List Frame
  | .buildStack n _ _ => Function.update frames n [⟨.initPost, .fresh⟩]
  | _ => frames

def numbered (numbered : List Word) : Effect → List Word
  | .storePid n => n :: numbered
  | _ => numbered

def returned (k : Kernel) (returned : List Int) : Effect → List Int
  | .returnPid n => (k.task n).pid :: returned
  | _ => returned

def allocations (allocations : Nat) : Effect → Nat
  | .incPid => allocations + 1
  | _ => allocations

/-- `spin_lock` goes on only when the lock is free. -/
def enabled (holder : Lock → Option Word) : Effect → Bool
  | .acquire l => (holder l).isNone
  | _ => true

end Effect

namespace Machine

variable (m : Machine)

def current : Word := m.kernel.current

def setFrames (t : Word) (stack : List Frame) : Machine := { m with frames := Function.update m.frames t stack }

def apply (e : Effect) : Machine where
  kernel := e.kernel m.kernel
  intr := e.intr m.intr
  holder := e.holder m.current m.holder
  frames := e.frames m.frames
  numbered := e.numbered m.numbered
  returned := e.returned m.kernel m.returned
  allocations := e.allocations m.allocations

/-- `switch_to`: the CPU goes on where `next` left it. -/
def switchTo (next : Word) : Machine := { m with kernel := { m.kernel with current := next } }

/-- One statement of the current task. -/
def run : Option Machine :=
  match m.frames m.current with
  | [] => none
  | ⟨pc, origin⟩ :: rest =>
      match pc with
      | .ret =>
          match origin.proceed with
          | some f => some (m.setFrames m.current (f :: rest))
          | none => some { m.setFrames m.current rest with intr := m.intr || origin.isr }
      | .schSwitch next =>
          if next = m.current then some (m.setFrames m.current (⟨.schSti, origin.waited⟩ :: rest))
          else if m.frames next = [] then none
          else some ((m.setFrames m.current (⟨.schPost, origin.waited⟩ :: rest)).switchTo next)
      | pc => (stmt m.kernel m.current pc).bind fun (e, pc') =>
          if e.enabled m.holder then some ((m.setFrames m.current (⟨pc', origin⟩ :: rest)).apply e) else none

end Machine

/-! ## Runs -/

inductive Label where
  | step
  | call (c : Call)
  | timer
  | device (op : SemaOp) (ops : List SemaOp)
deriving DecidableEq

/-- An idle task only calls `sema_up`. -/
def Call.allowed (k : Kernel) : Call → Prop
  | .semaUp _ => True
  | _ => ¬ k.IsIdle k.current

instance (k : Kernel) : (c : Call) → Decidable (c.allowed k)
  | .semaUp _ => .isTrue trivial
  | .semaDown _ | .taskCreate _ | .taskExit | .schedule => inferInstanceAs (Decidable (¬ _))

namespace Machine

variable (m : Machine)

/-- An interrupt gate clears the interrupt flag. -/
def interrupt (f : Frame) : Machine :=
  { m.setFrames m.current (f :: m.frames m.current) with intr := false }

def next : Label → Option Machine
  | .step => m.run
  | .call c =>
      if m.frames m.current = [] ∧ c.allowed m.kernel then some (m.setFrames m.current [⟨c.entry, .call c⟩])
      else none
  | .timer => if m.intr then some (m.interrupt ⟨.schRead, .timer⟩) else none
  | .device op ops => if m.intr then some (m.interrupt ⟨op.entry, .device op ops false⟩) else none

/-- `sched_init` has created the idle tasks, which have not run, and is about to wait for one of them. -/
def start (k : Kernel) : Machine where
  kernel := k
  intr := true
  holder := fun _ => none
  frames := fun t => if t ∈ k.created.map Prod.fst ∧ t ≠ k.current then [⟨.initPost, .fresh⟩] else []
  numbered := k.created.map Prod.fst
  returned := ((k.created.map Prod.fst).filter (· ≠ k.current)).map fun t => (k.task t).pid
  allocations := k.created.length

end Machine

/-- Where the runs start: `static pid_t next_pid = -1`, and `sched_init` up to its `sema_down`. -/
def Start (m : Machine) : Prop :=
  ∃ k sem, Boot k sem ∧ k.nextPid = -1 ∧ m = Machine.start (schedInitTasks k sem)

/-- Tasks, the timer and devices in every order. -/
def system : TransitionSystem Machine Label := .ofFn Start Machine.next

end I386Kernel.Preempt
