import I386Kernel.Lib.Transition
import I386Kernel.Task.Create

/-!
# Time slices

`generic_isr` with `systick_intr` and `task_tick`, and `schedule`, statement by statement, on the stacks of any number of tasks: external interrupts arrive while interrupts are enabled, exceptions at any time, and every handler but that of the timer is one step. Which task `next_task_to_run` chooses is left open.
-/

namespace I386Kernel.TimeSlice

/-! ## The machine -/

/-- The statements of `generic_isr`, and of `task_tick` below it. -/
inductive IsrPc where
  | entry
  | isr
  | tick
  | setFlag
  | reload
  | endOfInterrupt
  | clearFlag
  | check
  | iret
deriving DecidableEq

/-- The statements of `schedule`; a new task starts at `postProc`, as `switch_initial` goes on like `schedule`. -/
inductive SchedPc where
  | choose
  | cli
  | setRunning
  | switchTo
  | postProc
  | sti
  | ret
deriving DecidableEq

/-- An interrupt has a vector, the interrupt flag to return to and a record of the number of the tick it has charged. -/
inductive Frame where
  | isr (pc : IsrPc) (vec : BitVec 8) (intr : Bool) (nth : Option Nat)
  | sched (pc : SchedPc) (next : Word)
deriving DecidableEq

structure Machine where
  task : Word → TaskStruct
  created : List Word
  current : Word
  /-- The interrupt flag. -/
  intr : Bool
  inInterrupt : Bool
  schedOnReturn : Bool
  frames : Word → List Frame
  /-- The ticks charged to a task since its creation or its last reload: a record that no statement reads. -/
  charged : Word → Nat

/-- `HARDWARE_INTR_START` -/
def external (vec : BitVec 8) : Bool := 0x20 ≤ vec

def timerIntrNo : BitVec 8 := 0x20

namespace Machine

variable (m : Machine)

def setFrames (frames : List Frame) : Machine :=
  { m with frames := Function.update m.frames m.current frames }

def setTask (t : Word) (tsk : TaskStruct) : Machine := { m with task := Function.update m.task t tsk }

def setCharged (t : Word) (n : Nat) : Machine := { m with charged := Function.update m.charged t n }

/-- A statement of the interrupt on top of the stack of the current task. -/
def execIsr (vec : BitVec 8) (intr : Bool) (nth : Option Nat) (rest : List Frame) : IsrPc → Machine
  | .entry =>
      let m := if external vec then { m with inInterrupt := true, schedOnReturn := false } else m
      m.setFrames (.isr .isr vec intr nth :: rest)
  | .isr =>
      let pc := if vec = timerIntrNo then .tick else if external vec then .endOfInterrupt else .iret
      m.setFrames (.isr pc vec intr nth :: rest)
  | .tick =>
      let curr := m.task m.current
      let res := int32 (curr.timeSliceRes - 1)
      let n := m.charged m.current + 1
      ((m.setTask m.current { curr with timeSliceRes := res }).setCharged m.current n).setFrames
        (.isr (if res ≤ 0 then .setFlag else .endOfInterrupt) vec intr (some n) :: rest)
  | .setFlag => { m with schedOnReturn := true }.setFrames (.isr .reload vec intr nth :: rest)
  | .reload =>
      let curr := m.task m.current
      ((m.setTask m.current { curr with timeSliceRes := curr.timeSliceInit }).setCharged m.current 0).setFrames
        (.isr .endOfInterrupt vec intr nth :: rest)
  | .endOfInterrupt => m.setFrames (.isr .clearFlag vec intr nth :: rest)
  | .clearFlag => { m with inInterrupt := false }.setFrames (.isr .check vec intr nth :: rest)
  | .check =>
      let frames := .isr .iret vec intr nth :: rest
      m.setFrames (if m.schedOnReturn then .sched .choose m.current :: frames else frames)
  | .iret => { m with intr := intr }.setFrames rest

/-- A statement of `schedule`; `choice` is what `next_task_to_run` returns. -/
def execSched (choice next : Word) (rest : List Frame) : SchedPc → Option Machine
  | .choose => if choice ∈ m.created then some (m.setFrames (.sched .cli choice :: rest)) else none
  | .cli => some ({ m with intr := false }.setFrames (.sched .setRunning next :: rest))
  | .setRunning =>
      let pc := if m.current ≠ next then .switchTo else .sti
      some ((m.setTask next { m.task next with status := .running }).setFrames (.sched pc next :: rest))
  | .switchTo => some { m.setFrames (.sched .postProc next :: rest) with current := next }
  | .postProc => some (m.setFrames (.sched .sti next :: rest))
  | .sti => some ({ m with intr := true }.setFrames (.sched .ret next :: rest))
  | .ret => some (m.setFrames rest)

end Machine

inductive Label where
  /-- A statement of the current task's uppermost activation. -/
  | run (choice : Word)
  | external (vec : BitVec 8)
  | exception (vec : BitVec 8)
  /-- A task calls `schedule`. -/
  | schedule
  /-- `cli` and `sti` of a task. -/
  | setIntr (intr : Bool)
  | taskCreate (tsk : Word) (pid : Int) (name : List UInt8) (priority : Int) (status : TaskStatus)
deriving DecidableEq

namespace Machine

variable (m : Machine)

/-- `task_struct_init` and the stack of a new task. -/
def enter (tsk : Word) (pid : Int) (name : List UInt8) (priority : Int) (h : validPriority priority)
    (status : TaskStatus) : Machine :=
  { m with
    task := Function.update m.task tsk
      (newTask pid name priority h (tsk + pageSize - kernelProcStackSize - switchFrameSize) status)
    created := tsk :: m.created
    frames := Function.update m.frames tsk [.sched .postProc tsk]
    charged := Function.update m.charged tsk 0 }

/-- Vector 0x0e has a trap gate, which leaves the interrupt flag as it is. -/
def next : Label → Option Machine
  | .run choice =>
      match m.frames m.current with
      | [] => none
      | .isr pc vec intr nth :: rest => some (m.execIsr vec intr nth rest pc)
      | .sched pc next :: rest => m.execSched choice next rest pc
  | .external vec =>
      if TimeSlice.external vec ∧ m.intr then
        some ({ m with intr := false }.setFrames (.isr .entry vec m.intr none :: m.frames m.current))
      else none
  | .exception vec =>
      if TimeSlice.external vec then none
      else
        let intr := if vec = 0x0e then m.intr else false
        some ({ m with intr := intr }.setFrames (.isr .entry vec m.intr none :: m.frames m.current))
  | .schedule => if m.frames m.current = [] then some (m.setFrames [.sched .choose m.current]) else none
  | .setIntr intr => if m.frames m.current = [] then some { m with intr := intr } else none
  | .taskCreate tsk pid name priority status =>
      if h : validPriority priority then
        if m.frames m.current = [] ∧ tsk ∉ m.created then some (m.enter tsk pid name priority h status) else none
      else none

end Machine

/-- The first task, with the slices of `task_struct_init`. -/
structure Start (m : Machine) : Prop where
  created : m.created = [m.current]
  frames : m.frames = fun _ => []
  task : ∃ pid name sp, m.task m.current = newTask pid name ((prioDefault : Fin 64) : Nat) (by decide) sp .running
  charged : m.charged m.current = 0

def sliceSystem : TransitionSystem Machine Label := .ofFn Start Machine.next

/-! ## The slice of a task -/

/-- The number of ticks after which a task of this priority is preempted. -/
def quantum (priority : Fin 64) : Nat := max 1 ((priority.val + 31 - 1) / 31)

/-- The residual slice is what the charged ticks have left of the initial one. -/
structure Slice (tsk : TaskStruct) (charged : Nat) : Prop where
  init : tsk.timeSliceInit = ((tsk.priority.val + 31 - 1) / 31 : Nat)
  res : tsk.timeSliceRes = tsk.timeSliceInit - charged

def Slices (m : Machine) : Prop :=
  ∀ t ∈ m.created, Slice (m.task t) (m.charged t) ∧ m.charged t < quantum (m.task t).priority

/-- The current task has used up its slice, which is not reloaded yet. -/
def Expired (m : Machine) : Prop :=
  (Slice (m.task m.current) (m.charged m.current) ∧ m.charged m.current = quantum (m.task m.current).priority) ∧
    ∀ t ∈ m.created, t ≠ m.current → Slice (m.task t) (m.charged t) ∧ m.charged t < quantum (m.task t).priority

theorem slice_newTask (pid : Int) (name : List UInt8) {priority : Int} (h : validPriority priority) (sp : Word)
    (status : TaskStatus) : Slice (newTask pid name priority h sp status) 0 := by
  have hlow : 0 ≤ priority := h.1
  constructor
  · show (priority + 31 - 1) / 31 = ((priority.toNat + 31 - 1) / 31 : Nat)
    omega
  · show (priority + 31 - 1) / 31 = (priority + 31 - 1) / 31 - (0 : Nat)
    omega

theorem quantum_pos (priority : Fin 64) : 0 < quantum priority := Nat.lt_of_lt_of_le Nat.one_pos (Nat.le_max_left ..)

/-- The slice that is left is not negative before it expires. -/
theorem Slice.bounds {tsk : TaskStruct} {n : Nat} (h : Slice tsk n) (hn : n < quantum tsk.priority) :
    0 ≤ tsk.timeSliceRes ∧ tsk.timeSliceRes ≤ tsk.timeSliceInit := by
  rw [h.res, h.init]
  rw [quantum] at hn
  omega

/-- One more tick: the slice is at its end exactly when the number of ticks has reached the quantum. -/
theorem Slice.tick {tsk : TaskStruct} {n : Nat} (h : Slice tsk n) (hn : n < quantum tsk.priority) :
    Slice { tsk with timeSliceRes := int32 (tsk.timeSliceRes - 1) } (n + 1) ∧
      (int32 (tsk.timeSliceRes - 1) ≤ 0 ↔ n + 1 = quantum tsk.priority) := by
  have hpriority := tsk.priority.isLt
  have hinit := h.init
  have hres := h.res
  have hbounds := h.bounds hn
  rw [quantum] at hn
  have hint : int32 (tsk.timeSliceRes - 1) = tsk.timeSliceRes - 1 := by
    rw [int32]
    omega
  rw [hint]
  refine ⟨⟨hinit, ?_⟩, ?_⟩
  · show tsk.timeSliceRes - 1 = tsk.timeSliceInit - (n + 1 : Nat)
    omega
  · rw [quantum]
    omega

theorem Slice.reload {tsk : TaskStruct} {n : Nat} (h : Slice tsk n) :
    Slice { tsk with timeSliceRes := tsk.timeSliceInit } 0 := by
  refine ⟨h.init, ?_⟩
  show tsk.timeSliceInit = tsk.timeSliceInit - (0 : Nat)
  omega

/-! ## The stacks -/

/-- An external interrupt that has not come to its return. -/
def Frame.active : Frame → Bool
  | .isr pc vec _ _ => external vec ∧ pc ≠ .iret
  | .sched _ _ => false

def Calm (frames : List Frame) : Prop := ∀ f ∈ frames, f.active = false

/-- An active interrupt stands on a calm stack, with interrupts disabled and only exceptions above it. -/
def Sound : Bool → List Frame → Prop
  | _, [] => True
  | _, .sched _ _ :: rest => Calm rest
  | intr, .isr pc vec saved _ :: rest =>
      if external vec then (pc ≠ .iret → intr = false) ∧ Calm rest else Sound saved rest ∧ (Calm rest ∨ intr = false)

/-- What is called is a task, and only the timer comes to `task_tick`, only an external interrupt to the end of `generic_isr`. -/
def Frame.Wf (created : List Word) : Frame → Prop
  | .sched _ next => next ∈ created
  | .isr pc vec _ _ =>
      match pc with
      | .entry | .isr | .iret => True
      | .tick | .setFlag | .reload => vec = timerIntrNo
      | .endOfInterrupt | .clearFlag | .check => external vec = true

theorem Calm.cons {f : Frame} {rest : List Frame} (hf : f.active = false) (h : Calm rest) : Calm (f :: rest) :=
  List.forall_mem_cons.mpr ⟨hf, h⟩

theorem Calm.find {frames : List Frame} (h : Calm frames) : frames.find? Frame.active = none :=
  List.find?_eq_none.mpr fun f hf => by rw [h f hf]; decide

theorem active_isr {pc : IsrPc} {vec : BitVec 8} (hvec : external vec = true) (hpc : pc ≠ .iret) (intr : Bool)
    (nth : Option Nat) : (Frame.isr pc vec intr nth).active = true := decide_eq_true ⟨hvec, hpc⟩

theorem not_active_exception {vec : BitVec 8} (hvec : external vec = false) (pc : IsrPc) (intr : Bool)
    (nth : Option Nat) : (Frame.isr pc vec intr nth).active = false := by
  rw [Frame.active, hvec]
  exact decide_eq_false fun h => Bool.false_ne_true h.1

theorem not_active_iret (vec : BitVec 8) (intr : Bool) (nth : Option Nat) :
    (Frame.isr .iret vec intr nth).active = false := decide_eq_false fun h => h.2 rfl

theorem Sound.of_calm {frames : List Frame} (h : Calm frames) (intr : Bool) : Sound intr frames := by
  induction frames generalizing intr with
  | nil => trivial
  | cons f rest ih =>
      obtain ⟨hf, hrest⟩ := List.forall_mem_cons.mp h
      cases f with
      | sched pc next => exact hrest
      | isr pc vec saved nth =>
          rw [Sound]
          split
          · next hvec =>
              refine ⟨fun hpc => ?_, hrest⟩
              rw [active_isr hvec hpc] at hf
              cases hf
          · exact ⟨ih hrest saved, Or.inl hrest⟩

/-- With interrupts enabled no interrupt is active. -/
theorem Sound.calm {frames : List Frame} (h : Sound true frames) : Calm frames := by
  cases frames with
  | nil => exact List.forall_mem_nil _
  | cons f rest =>
      cases f with
      | sched pc next => exact .cons rfl h
      | isr pc vec intr nth =>
          rw [Sound] at h
          cases hvec : external vec with
          | true =>
              rw [hvec, if_pos rfl] at h
              have hpc : pc = .iret := by
                by_contra hne
                exact absurd (h.1 hne) (by decide)
              rw [hpc]
              exact .cons (not_active_iret ..) h.2
          | false =>
              rw [hvec, if_neg Bool.false_ne_true] at h
              exact .cons (not_active_exception hvec ..) (h.2.resolve_right (by decide))

theorem Sound.external {intr : Bool} {pc : IsrPc} {vec : BitVec 8} {saved : Bool} {nth : Option Nat} {rest : List Frame}
    (hvec : external vec = true) : Sound intr (.isr pc vec saved nth :: rest) ↔ (pc ≠ .iret → intr = false) ∧ Calm rest := by
  rw [Sound, if_pos hvec]

theorem Sound.exception {intr : Bool} {pc : IsrPc} {vec : BitVec 8} {saved : Bool} {nth : Option Nat} {rest : List Frame}
    (hvec : TimeSlice.external vec = false) :
    Sound intr (.isr pc vec saved nth :: rest) ↔ Sound saved rest ∧ (Calm rest ∨ intr = false) := by
  rw [Sound, if_neg (by rw [hvec]; exact Bool.false_ne_true)]

end I386Kernel.TimeSlice
