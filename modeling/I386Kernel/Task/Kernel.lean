import I386Kernel.Memory.PagePool
import I386Kernel.Task.List

/-!
# Tasks, scheduler and semaphores

The data of `sched.c` and `sync.c` and their functions, each taken as one atomic call. A `task_struct` sits at the start of the page that also holds the task's stack, and is named by the address of that page; its two list nodes and the list heads are the nodes of one heap of links. Where the code would follow a pointer that is no `task_struct`, the model has no result.
-/

namespace I386Kernel

open CircularList (Links)

inductive TaskStatus where
  | running
  | ready
  | blocked
  | dying
deriving DecidableEq, Repr

def prioHigh : Int := 0
def prioDefault : Fin 64 := 31
def prioLow : Int := 63

def taskMagic : Word := 0xae5f83d2

/-- The fields of `task_struct` other than its list nodes. -/
structure TaskStruct where
  pid : Int
  status : TaskStatus
  name : List UInt8
  sp : Word
  priority : Fin 64
  timeSliceInit : Int
  timeSliceRes : Int
  magic : Word
deriving DecidableEq

/-- The `task_struct` of a zeroed page. -/
def TaskStruct.zero : TaskStruct := ⟨0, .running, [], 0, 0, 0, 0, 0⟩

def validPriority (prio : Int) : Prop := prio ≥ prioHigh ∧ prio ≤ prioLow

instance (prio : Int) : Decidable (validPriority prio) := inferInstanceAs (Decidable (_ ∧ _))

theorem toNat_lt_of_validPriority {prio : Int} (h : validPriority prio) : prio.toNat < 64 := by
  obtain ⟨hlow, hhigh⟩ := h
  rw [prioHigh] at hlow
  rw [prioLow] at hhigh
  omega

def validTask (tsk : TaskStruct) : Prop := tsk.magic = taskMagic

instance (tsk : TaskStruct) : Decidable (validTask tsk) := inferInstanceAs (Decidable (_ = _))

/-- The list heads: `ready_task_list[prio]`, the `wait` list of the semaphore at an address, and `all_tasks_list`. -/
inductive QueueId where
  | ready (prio : Fin 64)
  | wait (sema : Word)
  | all
deriving DecidableEq

/-- What a `struct list_head *` points at: a head, one of the two nodes of a task, or nothing. -/
inductive Node where
  | null
  | head (q : QueueId)
  | queued (tsk : Word)
  | all (tsk : Word)
deriving DecidableEq

/-- The member of a task by which it is linked on a queue. -/
def QueueId.node : QueueId → Word → Node
  | .all, tsk => .all tsk
  | _, tsk => .queued tsk

/-- `list_entry(node, struct task_struct, queued_tasks)`. -/
def listEntry : Node → Option Word
  | .queued tsk => some tsk
  | _ => none

/-- Addresses of code. -/
structure Symbols where
  taskExit : Word
  switchInitial : Word
  idleProc : Word

structure Kernel where
  sym : Symbols
  links : Links Node
  /-- The `task_struct` at the start of a page. -/
  task : Word → TaskStruct
  /-- `count` of the semaphore at an address. -/
  semaCount : Word → Int
  mem : Mem
  pool : MemPool
  nextPid : Int
  initTask : Word
  current : Word
  /-- The pages `task_create` built a task in, and their procedures: a record that no function reads. -/
  created : List (Word × Word)

namespace Kernel

variable (k : Kernel)

def status (tsk : Word) : TaskStatus := (k.task tsk).status

def setTask (tsk : Word) (f : TaskStruct → TaskStruct) : Kernel :=
  { k with task := Function.update k.task tsk (f (k.task tsk)) }

def setStatus (tsk : Word) (status : TaskStatus) : Kernel := k.setTask tsk fun t => { t with status := status }

def setLinks (links : Links Node) : Kernel := { k with links := links }

def store (a w : Word) : Kernel := { k with mem := Function.update k.mem a w }

def setCount (sema : Word) (count : Int) : Kernel :=
  { k with semaCount := Function.update k.semaCount sema count }

/-- The two list nodes of a task are zeroed with the page or the `task_struct` they are in. -/
def zeroNodes (tsk : Word) : Kernel :=
  let L := setPrev (setNext k.links (.queued tsk) .null) (.queued tsk) .null
  k.setLinks (setPrev (setNext L (.all tsk) .null) (.all tsk) .null)

end Kernel

/-! ## `sched.c` -/

def allocatePid (k : Kernel) : Int × Kernel :=
  let nextPid := int32 (k.nextPid + 1)
  (nextPid, { k with nextPid := nextPid })

/-- `memset`, the fields, the link on `all_tasks_list`, the pid and the time slices; nothing at all for an invalid argument. -/
def taskStructInit (k : Kernel) (tsk : Word) (name : Option (List UInt8)) (priority : Int) : Kernel :=
  match name with
  | none => k
  | some name =>
      if h : tsk ≠ 0 ∧ validPriority priority then
        let k := (k.zeroNodes tsk).setTask tsk fun _ =>
          { TaskStruct.zero with
            status := .blocked
            sp := tsk + pageSize
            priority := ⟨priority.toNat, toNat_lt_of_validPriority h.2⟩
            magic := taskMagic
            name := name.take 15 }
        let k := k.setLinks (listAdd k.links (.all tsk) (.head .all))
        let (pid, k) := allocatePid k
        let slice := (priority + 31 - 1) / 31
        k.setTask tsk fun t => { t with pid := pid, timeSliceInit := slice, timeSliceRes := slice }
      else k

/-- `sizeof(struct kernel_proc_stack)` and the offsets of its fields. -/
def kernelProcStackSize : Word := 12
def offProc : Word := 0
def offKernelTaskRetEip : Word := 4
def offParams : Word := 8

/-- `sizeof(struct switch_frame)` and the offset of its `eip`. -/
def switchFrameSize : Word := 28
def offEip : Word := 16

/-- The stack of a task that has not run yet. -/
def buildFrames (k : Kernel) (tsk proc params : Word) : Kernel :=
  let k := k.setTask tsk fun t => { t with sp := t.sp - kernelProcStackSize }
  let procStack := (k.task tsk).sp
  let k := k.store (procStack + offParams) params
  let k := k.store (procStack + offKernelTaskRetEip) k.sym.taskExit
  let k := k.store (procStack + offProc) proc
  let k := k.setTask tsk fun t => { t with sp := t.sp - switchFrameSize }
  k.store ((k.task tsk).sp + offEip) k.sym.switchInitial

def taskCreate (k : Kernel) (proc params : Word) (name : Option (List UInt8)) (priority : Int)
    (status : TaskStatus) : Int × Kernel :=
  if proc = 0 then (-1, k)
  else
    let (tsk, mem) := mmKgetPage k.mem k.pool pfZero
    let k := { k with mem := mem }
    if tsk = 0 then (-1, k)
    else
      let k := (k.zeroNodes tsk).setTask tsk fun _ => .zero
      let k := taskStructInit k tsk name priority
      let k := buildFrames k tsk proc params
      let k := k.setLinks (listAddTail k.links (.queued tsk) (.head (.ready (k.task tsk).priority)))
      let k := k.setStatus tsk status
      ((k.task tsk).pid, { k with created := (tsk, proc) :: k.created })

def taskSuspend (k : Kernel) (tsk : Word) (wait : QueueId) : Kernel :=
  let k := k.setStatus tsk .blocked
  let k := k.setLinks (listDel k.links (.queued tsk))
  k.setLinks (listAdd k.links (.queued tsk) (.head wait))

def taskResume (k : Kernel) (tsk : Word) : Kernel :=
  if ¬ validTask (k.task tsk) then k
  else if k.status tsk = .blocked then
    let k := k.setStatus tsk .running
    k.setLinks (listAddTail k.links (.queued tsk) (.head (.ready (k.task tsk).priority)))
  else k

/-- The condition is the one of the source, `!prev && ..`. -/
def taskSchedPostProc (k : Kernel) (prev : Word) : Kernel :=
  if prev = 0 ∧ k.status prev = .dying ∧ prev ≠ k.initTask then
    let k := k.setLinks (listDel k.links (.all prev))
    { k with mem := mmKfreePage k.mem k.pool prev }
  else k

/-- The head is read before the current task goes to the tail. -/
def nextTaskToRun (k : Kernel) : Option Word × Kernel :=
  let next := listEntry (k.links.next (.head (.ready prioDefault)))
  let curr := k.current
  if k.status curr = .running then
    let k := k.setLinks (listDel k.links (.queued curr))
    (next, k.setLinks (listAddTail k.links (.queued curr) (.head (.ready prioDefault))))
  else (next, k)

/-- The CPU goes to `next`, which runs `task_sched_post_proc` on the task switched away from: in `schedule` if it was there before, in `switch_initial` if it is new. -/
def switchTo (k : Kernel) (curr next : Word) : Kernel :=
  taskSchedPostProc { k with current := next } curr

def schedule (k : Kernel) : Option Kernel :=
  let curr := k.current
  let (next, k) := nextTaskToRun k
  next.map fun next =>
    let k := k.setStatus next .running
    if curr ≠ next then switchTo k curr next else k

/-- `task_exit` up to its call of `schedule`. -/
def taskExitSection (k : Kernel) : Kernel :=
  let curr := k.current
  let k := k.setStatus curr .dying
  k.setLinks (listDel k.links (.queued curr))

def taskExit (k : Kernel) : Option Kernel := schedule (taskExitSection k)

/-! ## `sync.c` -/

def semaInit (k : Kernel) (sema : Word) (count : Int) : Kernel :=
  let k := k.setCount sema count
  k.setLinks (listHeadInit k.links (.head (.wait sema)))

/-- The section of `sema_down` under `slock`, and whether the caller has to wait. -/
def semaDownSection (k : Kernel) (sema : Word) : Bool × Kernel :=
  if k.semaCount sema ≤ 0 then (true, taskSuspend k k.current (.wait sema))
  else (false, k.setCount sema (k.semaCount sema - 1))

def semaDown (k : Kernel) (sema : Word) : Option Kernel :=
  let (waits, k) := semaDownSection k sema
  if waits then schedule k else some k

def semaUp (k : Kernel) (sema : Word) : Option Kernel :=
  let k := k.setCount sema (int32 (k.semaCount sema + 1))
  if k.semaCount sema > 0 ∧ listEmpty k.links (.head (.wait sema)) = false then
    let (node, links) := listPop k.links (.head (.wait sema))
    (listEntry node).map fun tskWait => taskResume (k.setLinks links) tskWait
  else some k

/-! ## `sched_init` -/

/-- `sched_init` up to the creation of the idle tasks. -/
def schedInitLists (k : Kernel) (sem : Word) : Kernel :=
  let k := semaInit k sem 0
  let k := (List.finRange 64).foldl (fun k i => k.setLinks (listHeadInit k.links (.head (.ready i)))) k
  let k := k.setLinks (listHeadInit k.links (.head .all))
  let k := { k with initTask := k.current, created := [(k.current, 0)] }
  let k := taskStructInit k k.initTask (some [0x69, 0x6e, 0x69, 0x74]) prioDefault
  let k := k.setStatus k.initTask .running
  k.setLinks (listAdd k.links (.queued k.initTask) (.head (.ready (k.task k.initTask).priority)))

/-- One of the two `task_create` calls of `sched_init`. -/
def createIdle (k : Kernel) (params : Word) : Int × Kernel :=
  taskCreate k k.sym.idleProc params (some [0x69, 0x64, 0x6c, 0x65]) prioDefault .ready

/-- `sched_init` up to its `sema_down`. -/
def schedInitTasks (k : Kernel) (sem : Word) : Kernel :=
  let k := schedInitLists k sem
  let k := (createIdle k sem).2
  (createIdle k 0).2

def schedInit (k : Kernel) (sem : Word) : Option Kernel := semaDown (schedInitTasks k sem) sem

/-- Both `task_create` calls of `sched_init` succeed. -/
def IdleTasksCreated (k : Kernel) (sem : Word) : Prop :=
  (createIdle (schedInitLists k sem) sem).1 ≠ -1 ∧
    (createIdle (createIdle (schedInitLists k sem) sem).2 0).1 ≠ -1

end I386Kernel
