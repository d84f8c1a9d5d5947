import I386Kernel.Base
import I386Kernel.Lib.Transition

/-!
# Requests on an ATA channel

`ide_read`, `ide_write` and `identify_ata_device` statement by statement, for any number of tasks on the two disks of one channel, with the device and its interrupts. The two semaphores of the channel are a parameter: ideal counting semaphores, or `sema_down` and `sema_up` with the sections under `slock` as single steps. A task waits inside `schedule`, and `sema_down` returns whenever `schedule` does; a preemption in `schedule` may let a task go on that is still on a wait list, and take it off that list at any time. The device executes a command on the register values it finds when the command is written, and raises one interrupt for each command: for a write after the data transfer, or at the error when it requests no data.
-/

namespace I386Kernel.Ide

/-! ## Semaphores -/

/-- What a task sees of a semaphore; `down` tells whether the caller goes on, `resume` is one that had to wait going on, and `unlink` what becomes of it when a task is moved off its wait list without a `sema_up`. -/
structure SemaKind (T : Type) where
  State : Type
  init : Int → State
  down : T → State → State × Bool
  resume : T → State → Option State
  up : State → State
  unlink : T → State → State

/-- A counting semaphore. -/
@[reducible] def idealSema (T : Type) : SemaKind T where
  State := Int
  init := fun count => count
  down := fun _ count => if count > 0 then (count - 1, true) else (count, false)
  resume := fun _ count => if count > 0 then some (count - 1) else none
  up := fun count => count + 1
  unlink := fun _ count => count

/-- The count, the wait list, the tasks `sema_up` has taken off it whose `sema_down` has not returned, and a record of how many it has taken off. -/
structure Sema (T : Type) where
  count : Int
  wait : List T
  woken : List T
  popped : Nat

/-- `sema_down` and `sema_up`. `sema_down` does not look at the semaphore again when its `schedule` returns: a task that is dispatched while it is still on the wait list goes on as one that has been taken off it, and stays on the list until a `sema_up`, or its own `schedule` or `task_suspend`, takes it off. -/
@[reducible] def codeSema (T : Type) [DecidableEq T] : SemaKind T where
  State := Sema T
  init := fun count => ⟨count, [], [], 0⟩
  down := fun t s =>
    if s.count ≤ 0 then ({ s with wait := t :: s.wait }, false) else ({ s with count := s.count - 1 }, true)
  resume := fun t s => some { s with woken := s.woken.erase t }
  up := fun s =>
    let s := { s with count := int32 (s.count + 1) }
    if s.count > 0 then
      match s.wait with
      | [] => s
      | t :: wait => { s with wait := wait, woken := t :: s.woken, popped := s.popped + 1 }
    else s
  unlink := fun t s => { s with wait := s.wait.erase t }

/-! ## The device -/

/-- The words of a sector. -/
abbrev Sector := { words : List (BitVec 16) // words.length = 256 }

inductive Kind where
  | identify
  | read
  | write
deriving DecidableEq

structure Regs where
  nsect : BitVec 8
  lbal : BitVec 8
  lbam : BitVec 8
  lbah : BitVec 8
  device : BitVec 8

/-- The disk the registers select. -/
def Regs.dev (r : Regs) : Bool := r.device.getLsbD 4

def Regs.lba (r : Regs) : Word :=
  r.lbal.setWidth 32 ||| (r.lbam.setWidth 32 <<< 8) ||| (r.lbah.setWidth 32 <<< 16) |||
    ((r.device &&& 0x0f).setWidth 32 <<< 24)

/-- A command with the register values it was written with; `id` is a record of its number. -/
structure Command where
  kind : Kind
  dev : Bool
  lba : Word
  id : Nat

inductive Device where
  | idle
  | busy (c : Command)
  | dataIn (c : Command) (words : List (BitVec 16))
  | dataOut (c : Command) (words : List (BitVec 16))
  | writing (c : Command) (sector : Sector)

namespace Device

/-- `STA_BSY` -/
def bsy : Device → Bool
  | busy _ | writing _ _ => true
  | _ => false

/-- `STA_DRQ` -/
def drq : Device → Bool
  | dataIn _ _ | dataOut _ _ => true
  | _ => false

/-- A read of the data register. -/
def inw : Device → BitVec 16 × Device
  | dataIn c (w :: words) => (w, if words = [] then idle else dataIn c words)
  | d => (0xffff, d)

/-- A write of the data register. -/
def outw (d : Device) (w : BitVec 16) : Device :=
  match d with
  | dataOut c words => if h : (words ++ [w]).length = 256 then writing c ⟨words ++ [w], h⟩ else dataOut c (words ++ [w])
  | d => d

end Device

/-! ## Requests -/

inductive Request where
  | identify (dev : Bool)
  | read (dev : Bool) (sector : Word)
  | write (dev : Bool) (sector : Word) (data : Sector)

namespace Request

def kind : Request → Kind
  | identify _ => .identify
  | read _ _ => .read
  | write _ _ _ => .write

def dev : Request → Bool
  | identify dev | read dev _ | write dev _ _ => dev

def sector : Request → Word
  | identify _ => 0
  | read _ sector | write _ sector _ => sector

end Request

/-- The next statement of a request. -/
inductive Pc where
  | rwDown
  | rwWait
  /-- The `i`-th turn of the first `wait_until_idle` of `select_disk_wait`. -/
  | idle₁ (i : Nat)
  | selectDisk
  | idle₂ (i : Nat)
  | outNsect
  | outLbal
  | outLbam
  | outLbah
  | outDevice
  | command
  | waitDown
  | waitWait
  /-- The `i`-th turn of `wait_while_busy`. -/
  | poll (i : Nat)
  | pollDrq
  /-- `input_sector` or `output_sector` from word `k` on. -/
  | transfer (k : Nat)
  | finish (ok : Bool)
deriving DecidableEq

/-- A request in progress: the command it has issued, and the words it has read. -/
structure Active where
  req : Request
  pc : Pc
  cmd : Nat
  buf : List (BitVec 16)

/-- A request that has returned, and whether it returned `BLOCK_SECTOR_SIZE`. -/
structure Done where
  req : Request
  buf : List (BitVec 16)
  ok : Bool

/-- The first statement of a request; `identify_ata_device` does not take `sema_rw`. -/
def Request.entry : Request → Pc
  | .identify _ => .idle₁ 0
  | _ => .rwDown

/-! ## The machine -/

/-- A channel with `n` tasks. -/
structure Machine (n : Nat) (K : SemaKind (Fin n)) where
  semaRw : K.State
  semaWait : K.State
  regs : Regs
  device : Device
  disk : Bool → Word → Sector
  info : Bool → Sector
  nrSectors : Bool → Word
  /-- The commands whose interrupt has been raised and not been taken. -/
  interrupts : List Nat
  active : Fin n → Option Active
  /-- Records: the number of commands issued, the commands whose interrupt has been handled, those of the requests that have come past `sema_down(&sema_wait)`, and the requests that have returned. -/
  commands : Nat
  handled : List Nat
  released : List Nat
  completed : List Done

namespace Machine

variable {n : Nat} {K : SemaKind (Fin n)} (m : Machine n K)

def setActive (t : Fin n) (a : Option Active) : Machine n K := { m with active := Function.update m.active t a }

/-- `DEV_MBS`, and `DEV_DEV` for the second disk. -/
def devRegVal (dev : Bool) : BitVec 8 := 0xa0 ||| if dev then 0x10 else 0

/-- The loop of `wait_until_idle` ends when neither `STA_BSY` nor `STA_DRQ` is set, or after 1000 turns. -/
def idleDone (i : Nat) : Bool := (!m.device.bsy && !m.device.drq) || i + 1 == 1000

/-- Past `sema_down(&sema_wait)`, which leaves the semaphore at `s`. -/
def pastWait (t : Fin n) (a : Active) (s : K.State) : Machine n K :=
  { m with semaWait := s, released := m.released ++ [a.cmd] }.setActive t
    (some { a with pc := if a.req.kind = Kind.write then .finish true else .poll 0 })

/-- `input_sector` from word `k` on. -/
def inputSector (t : Fin n) (a : Active) (k : Nat) : Machine n K :=
  if k < 256 then
    let (w, d) := m.device.inw
    { m with device := d }.setActive t (some { a with pc := .transfer (k + 1), buf := a.buf ++ [w] })
  else m.setActive t (some { a with pc := .finish true })

/-- `output_sector` from word `k` on. -/
def outputSector (t : Fin n) (a : Active) (data : Sector) (k : Nat) : Machine n K :=
  if h : k < 256 then
    { m with device := m.device.outw (data.1.get ⟨k, by rw [data.2]; exact h⟩) }.setActive t
      (some { a with pc := .transfer (k + 1) })
  else m.setActive t (some { a with pc := .waitDown })

/-- A statement of the request `a` of the task `t`. -/
def run (t : Fin n) (a : Active) : Option (Machine n K) :=
  let goto (m : Machine n K) (pc : Pc) : Option (Machine n K) := some (m.setActive t (some { a with pc := pc }))
  match a.pc with
  | .rwDown =>
      let (s, passed) := K.down t m.semaRw
      goto { m with semaRw := s } (if passed then .idle₁ 0 else .rwWait)
  | .rwWait => (K.resume t m.semaRw).bind fun s => goto { m with semaRw := s } (.idle₁ 0)
  | .idle₁ i => goto m (if m.idleDone i then .selectDisk else .idle₁ (i + 1))
  | .selectDisk => goto { m with regs := { m.regs with device := devRegVal a.req.dev } } (.idle₂ 0)
  | .idle₂ i =>
      goto m (if m.idleDone i then (if a.req.kind = Kind.identify then .command else .outNsect) else .idle₂ (i + 1))
  | .outNsect => goto { m with regs := { m.regs with nsect := 1 } } .outLbal
  | .outLbal => goto { m with regs := { m.regs with lbal := a.req.sector.setWidth 8 } } .outLbam
  | .outLbam => goto { m with regs := { m.regs with lbam := (a.req.sector >>> 8).setWidth 8 } } .outLbah
  | .outLbah => goto { m with regs := { m.regs with lbah := (a.req.sector >>> 16).setWidth 8 } } .outDevice
  | .outDevice =>
      goto { m with regs := { m.regs with
        device := devRegVal a.req.dev ||| 0x40 ||| (a.req.sector >>> 24).setWidth 8 } } .command
  | .command =>
      some ({ m with device := .busy ⟨a.req.kind, m.regs.dev, m.regs.lba, m.commands⟩, commands := m.commands + 1 }.setActive t
        (some { a with pc := if a.req.kind = Kind.write then .poll 0 else .waitDown, cmd := m.commands }))
  | .waitDown =>
      let (s, passed) := K.down t m.semaWait
      if passed then some (m.pastWait t a s) else goto { m with semaWait := s } .waitWait
  | .waitWait => (K.resume t m.semaWait).map (m.pastWait t a)
  | .poll i => goto m (if !m.device.bsy then .pollDrq else if i + 1 = 3000 then .finish false else .poll (i + 1))
  | .pollDrq => goto m (if m.device.drq then .transfer 0 else .finish false)
  | .transfer k =>
      match a.req with
      | .write _ _ data => some (m.outputSector t a data k)
      | _ => some (m.inputSector t a k)
  | .finish ok =>
      let m := if a.req.kind = Kind.identify then m else { m with semaRw := K.up m.semaRw }
      some { m.setActive t none with completed := m.completed ++ [⟨a.req, a.buf, ok⟩] }

theorem run_waitDown {t : Fin n} {a : Active} (hpc : a.pc = .waitDown) : m.run t a =
    if (K.down t m.semaWait).2 = true then some (m.pastWait t a (K.down t m.semaWait).1)
    else some ({ m with semaWait := (K.down t m.semaWait).1 }.setActive t (some { a with pc := .waitWait })) := by
  rw [run, hpc]

theorem run_rwDown {t : Fin n} {a : Active} (hpc : a.pc = .rwDown) : m.run t a =
    some ({ m with semaRw := (K.down t m.semaRw).1 }.setActive t
      (some { a with pc := if (K.down t m.semaRw).2 then .idle₁ 0 else .rwWait })) := by
  rw [run, hpc]

theorem run_transfer {m' : Machine n K} {t : Fin n} {a : Active} {k : Nat} (hpc : a.pc = .transfer k)
    (hrun : m.run t a = some m') :
    (∃ dev sector data, a.req = .write dev sector data ∧ m' = m.outputSector t a data k) ∨
      (a.req.kind ≠ .write ∧ m' = m.inputSector t a k) := by
  rw [run, hpc] at hrun
  cases hreq : a.req with
  | write dev sector data =>
      rw [hreq] at hrun
      cases hrun
      exact Or.inl ⟨dev, sector, data, rfl, rfl⟩
  | identify dev | read dev sector =>
      rw [hreq] at hrun
      cases hrun
      exact Or.inr ⟨nofun, rfl⟩

/-- The device goes on, to the end of a command or to its data transfer; `ok` is false when it ends the command with an error. -/
def deviceStep (ok : Bool) : Option (Machine n K) :=
  match m.device with
  | .busy c =>
      let raise (m : Machine n K) : Machine n K := { m with interrupts := m.interrupts ++ [c.id] }
      match c.kind, ok with
      | _, false => some (raise { m with device := .idle })
      | .identify, true => some (raise { m with device := .dataIn c (m.info c.dev).1 })
      | .read, true => some (raise { m with device := .dataIn c (m.disk c.dev c.lba).1 })
      | .write, true => some { m with device := .dataOut c [] }
  | .writing c sector =>
      some { m with
        device := .idle, disk := Function.update m.disk c.dev (Function.update (m.disk c.dev) c.lba sector),
        interrupts := m.interrupts ++ [c.id] }
  | _ => none

theorem deviceStep_eq_none (h : m.device.bsy = false) (ok : Bool) :
    m.deviceStep ok = none := by
  cases hdevice : m.device with
  | busy c | writing c sector =>
      rw [hdevice] at h
      cases h
  | idle | dataIn c words | dataOut c words => rw [deviceStep, hdevice]

/-- A busy device ends the command, with words for the reader or with an error, or requests the data of a write. -/
theorem deviceStep_busy {m' : Machine n K} {c : Command} {ok : Bool}
    (hdevice : m.device = .busy c) (h : m.deviceStep ok = some m') :
    m' = { m with device := .idle, interrupts := m.interrupts ++ [c.id] } ∨
      (c.kind ≠ .write ∧ ∃ words : Sector, (c.kind = .read → words = m.disk c.dev c.lba) ∧
        m' = { m with device := .dataIn c words.1, interrupts := m.interrupts ++ [c.id] }) ∨
      (c.kind = .write ∧ m' = { m with device := .dataOut c [] }) := by
  rw [deviceStep, hdevice] at h
  obtain ⟨kind, dev, lba, id⟩ := c
  cases ok with
  | false => cases kind <;> exact Or.inl (Option.some.inj h).symm
  | true =>
      refine Or.inr ?_
      cases kind with
      | identify =>
          refine Or.inl ⟨(by decide : Kind.identify ≠ .write), m.info dev, fun hread => ?_, (Option.some.inj h).symm⟩
          cases hread
      | read => exact Or.inl ⟨(by decide : Kind.read ≠ .write), m.disk dev lba, fun _ => rfl, (Option.some.inj h).symm⟩
      | write => exact Or.inr ⟨rfl, (Option.some.inj h).symm⟩

/-- `ide_interrupt` -/
def interrupt : Option (Machine n K) :=
  match m.interrupts with
  | [] => none
  | id :: rest => some { m with interrupts := rest, semaWait := K.up m.semaWait, handled := m.handled ++ [id] }

end Machine

inductive Label (n : Nat) where
  /-- `block_read`, `block_write`, or `identify_ata_device`. -/
  | start (t : Fin n) (req : Request)
  | step (t : Fin n)
  | device (ok : Bool)
  | interrupt
  /-- `list_del` in `next_task_to_run` or `task_suspend` of a task that has been dispatched while it was on a wait list. -/
  | unlink (t : Fin n)

namespace Machine

variable {n : Nat} {K : SemaKind (Fin n)} (m : Machine n K)

/-- `valid_sector_no`; a call with another number returns at once. -/
def accepts : Request → Bool
  | .identify _ => true
  | .read dev sector | .write dev sector _ => sector < m.nrSectors dev

def next : Label n → Option (Machine n K)
  | .start t req =>
      match m.active t with
      | none => some (if m.accepts req then m.setActive t (some ⟨req, req.entry, 0, []⟩) else m)
      | some _ => none
  | .step t => (m.active t).bind fun a => m.run t a
  | .device ok => m.deviceStep ok
  | .interrupt => m.interrupt
  | .unlink t => some { m with semaRw := K.unlink t m.semaRw, semaWait := K.unlink t m.semaWait }

end Machine

/-- `ide_init` has initialised the semaphores. -/
def Start {n : Nat} {K : SemaKind (Fin n)} (m : Machine n K) : Prop :=
  m.semaRw = K.init 1 ∧ m.semaWait = K.init 0 ∧ m.device = .idle ∧ m.interrupts = [] ∧ (∀ t, m.active t = none) ∧
    m.handled = [] ∧ m.released = [] ∧ m.completed = []

/-- Tasks, the device and its interrupts in every order. -/
def system (n : Nat) (K : SemaKind (Fin n)) : TransitionSystem (Machine n K) (Label n) := .ofFn Start Machine.next

end I386Kernel.Ide
