import I386Kernel.Base
import I386Kernel.Lib.Transition
import Mathlib.Data.Fin.Basic
import Mathlib.Order.Fin.Basic

/-!
# The interrupt controllers

`devices/pic.c` sets up the two cascaded controllers and acknowledges the interrupts that `generic_isr` has handled. A controller is the 8259A in fully nested mode: requests are latched, the one of the highest priority is delivered unless the same or a higher one is in service, and a non-specific end of interrupt takes the highest one out of service. The slave's output is line 2 of the master. Handlers may be interrupted by higher priorities, and then they end in the opposite order; `generic_isr` ends each with the number of its own vector, while the command that it gives names none.
-/

namespace I386Kernel.Pic

abbrev Byte := BitVec 8

/-- What the next write to the data port is. -/
inductive Stage where
  | icw2
  | icw3
  | icw4
  | ready
deriving DecidableEq

structure Chip where
  /-- Requests. -/
  irr : Fin 8 → Bool
  /-- In service. -/
  isr : Fin 8 → Bool
  /-- Masked. -/
  imr : Byte
  icw1 : Byte
  icw2 : Byte
  icw3 : Byte
  icw4 : Byte
  stage : Stage

namespace Chip

variable (p : Chip)

/-- Line 0 has the highest priority. -/
def endHighest : Chip :=
  match Fin.find? p.isr with
  | some i => { p with isr := Function.update p.isr i false }
  | none => p

/-- ICW1, or a command; of the commands only the non-specific end of interrupt is used. -/
def outCtrl (val : Byte) : Chip :=
  if val.getLsbD 4 then { p with irr := fun _ => false, imr := 0, icw1 := val, stage := .icw2 }
  else if val &&& 0xf8 = 0x20 then p.endHighest
  else p

/-- Bit 1 of ICW1 is a single controller, bit 0 that ICW4 follows. -/
def outData (val : Byte) : Chip :=
  match p.stage with
  | .icw2 => { p with icw2 := val, stage := if ¬ p.icw1.getLsbD 1 then .icw3 else if p.icw1.getLsbD 0 then .icw4 else .ready }
  | .icw3 => { p with icw3 := val, stage := if p.icw1.getLsbD 0 then .icw4 else .ready }
  | .icw4 => { p with icw4 := val, stage := .ready }
  | .ready => { p with imr := val }

/-- The highest of the lines that are up and not masked. -/
def wants (lines : Fin 8 → Bool) : Option (Fin 8) := Fin.find? fun i => lines i && !p.imr.getLsbD i

/-- It is delivered unless it has to wait for one in service. -/
def next (lines : Fin 8 → Bool) : Option (Fin 8) := (p.wants lines).filter fun i => ∀ j, j ≤ i → p.isr j = false

/-- The vector of a line in 8086 mode. -/
def vector (i : Fin 8) : Byte := (p.icw2 &&& 0xf8) ||| BitVec.ofNat 8 i

/-- The request goes into service, unless bit 1 of ICW4 ends it automatically. -/
def take (i : Fin 8) : Chip :=
  { p with irr := Function.update p.irr i false, isr := if p.icw4.getLsbD 1 then p.isr else Function.update p.isr i true }

def latch (i : Fin 8) : Chip := { p with irr := Function.update p.irr i true }

end Chip

structure Pics where
  master : Chip
  slave : Chip

namespace Pics

variable (p : Pics)

/-- A write to one of the four ports. -/
def outb (w : BitVec 16 × Byte) : Pics :=
  if w.1 = 0x20 then { p with master := p.master.outCtrl w.2 }
  else if w.1 = 0x21 then { p with master := p.master.outData w.2 }
  else if w.1 = 0xa0 then { p with slave := p.slave.outCtrl w.2 }
  else if w.1 = 0xa1 then { p with slave := p.slave.outData w.2 }
  else p

/-- The lines of the master: line 2 is up while the slave has something to deliver. -/
def lines : Fin 8 → Bool := Function.update p.master.irr 2 (p.slave.next p.slave.irr).isSome

/-- The processor acknowledges an interrupt. Where ICW3 names a slave, the slave gives the vector. -/
def ack : Option (Byte × Pics) :=
  (p.master.next p.lines).bind fun i =>
    if p.master.icw3.getLsbD i then
      (p.slave.next p.slave.irr).map fun j => (p.slave.vector j, ⟨p.master.take i, p.slave.take j⟩)
    else some (p.master.vector i, ⟨p.master.take i, p.slave⟩)

end Pics

/-! ## The code -/

def picMasterCtrl : BitVec 16 := 0x20

def picMasterData : BitVec 16 := 0x21

def picSlaveCtrl : BitVec 16 := 0xa0

def picSlaveData : BitVec 16 := 0xa1

def picInit (p : Pics) : Pics :=
  ([(picMasterData, 0xff), (picSlaveData, 0xff),
    (picMasterCtrl, 0x11), (picMasterData, 0x20), (picMasterData, 0x04), (picMasterData, 0x01),
    (picSlaveCtrl, 0x11), (picSlaveData, 0x28), (picSlaveData, 0x02), (picSlaveData, 0x01),
    (picMasterData, 0), (picSlaveData, 0)] : List (BitVec 16 × Byte)).foldl Pics.outb p

def picEndOfInterrupt (p : Pics) (vecNo : Word) : Pics :=
  let p := p.outb (picMasterCtrl, 0x20)
  if 0x28 ≤ vecNo ∧ vecNo ≤ 0x2f then p.outb (picSlaveCtrl, 0x20) else p

/-! ## Interrupts -/

structure State where
  pics : Pics
  /-- The vectors whose handlers run, the innermost first. -/
  running : List Byte

inductive Event where
  /-- A device raises its line. -/
  | raise (irq : Fin 16)
  /-- The processor takes the interrupt that is delivered. -/
  | accept
  /-- The innermost handler returns, and `generic_isr` ends its interrupt. -/
  | finish

/-- The chip and the line of a request. -/
def Pics.latch (p : Pics) (irq : Fin 16) : Pics :=
  if h : irq.val < 8 then { p with master := p.master.latch ⟨irq, h⟩ }
  else { p with slave := p.slave.latch ⟨irq.val - 8, by omega⟩ }

/-- No device is on line 2. -/
def step (s : State) : Event → Option State
  | .raise irq => if irq ≠ 2 then some { s with pics := s.pics.latch irq } else none
  | .accept => s.pics.ack.map fun r => ⟨r.2, r.1 :: s.running⟩
  | .finish =>
      match s.running with
      | [] => none
      | vec :: running => some ⟨picEndOfInterrupt s.pics (vec.setWidth 32), running⟩

/-- From the end of `pic_init` on, with nothing in service before. -/
def picSystem : TransitionSystem State Event :=
  .ofFn (fun s => ∃ p : Pics, (∀ i, p.master.isr i = false) ∧ (∀ i, p.slave.isr i = false) ∧ s = ⟨picInit p, []⟩) step

/-! ## Set up -/

/-- A controller as `pic_init` leaves it, but for what is requested and in service. -/
structure Configured (p : Chip) (icw2 icw3 : Byte) : Prop where
  imr : p.imr = 0
  icw2 : p.icw2 = icw2
  icw3 : p.icw3 = icw3
  icw4 : p.icw4 = 1
  stage : p.stage = .ready

/-- The writes that one controller sees. -/
def Chip.initialise (p : Chip) (icw2 icw3 : Byte) : Chip :=
  (((((p.outData 0xff).outCtrl 0x11).outData icw2).outData icw3).outData 0x01).outData 0

theorem picInit_eq (p : Pics) : picInit p = ⟨p.master.initialise 0x20 0x04, p.slave.initialise 0x28 0x02⟩ := rfl

theorem initialise_eq (p : Chip) (icw2 icw3 : Byte) :
    p.initialise icw2 icw3 = ⟨fun _ => false, p.isr, 0, 0x11, icw2, icw3, 0x01, .ready⟩ := by
  obtain ⟨irr, isr, imr, icw1, icw2', icw3', icw4, stage⟩ := p
  cases stage <;> simp [Chip.initialise, Chip.outData, Chip.outCtrl]

/-! ## Delivery -/

namespace Chip

variable {p : Chip} {lines : Fin 8 → Bool} {i : Fin 8} {a b : Byte}

theorem wants_eq_some (h : Configured p a b) : p.wants lines = some i ↔ lines i = true ∧ ∀ j, j < i → lines j = false := by
  rw [wants, Fin.find?_eq_some_iff, h.imr]
  simp

theorem next_eq_some (h : Configured p a b) : p.next lines = some i ↔
    lines i = true ∧ (∀ j, j < i → lines j = false) ∧ ∀ j, j ≤ i → p.isr j = false := by
  rw [next, Option.filter_eq_some_iff, wants_eq_some h, decide_eq_true_iff, and_assoc]

theorem wants_isSome (h : Configured p a b) (hi : lines i = true) : ∃ k, p.wants lines = some k ∧ k ≤ i := by
  have hex : (p.wants lines).isSome := by
    rw [wants, Fin.isSome_find?_iff]
    refine ⟨i, ?_⟩
    rw [hi, h.imr]
    simp
  obtain ⟨k, hk⟩ := Option.isSome_iff_exists.mp hex
  refine ⟨k, hk, ?_⟩
  by_contra hlt
  have := ((wants_eq_some h).mp hk).2 i (Nat.lt_of_not_le hlt)
  rw [hi] at this
  cases this

/-- With nothing in service the highest request is delivered. -/
theorem next_of_idle (h : Configured p a b) (hidle : ∀ j, p.isr j = false) (hi : lines i = true) :
    ∃ k, p.next lines = some k ∧ k ≤ i := by
  obtain ⟨k, hk, hle⟩ := wants_isSome h hi
  obtain ⟨hline, hfirst⟩ := (wants_eq_some h).mp hk
  exact ⟨k, (next_eq_some h).mpr ⟨hline, hfirst, fun j _ => hidle j⟩, hle⟩

theorem take_eq (h : Configured p a b) (i : Fin 8) :
    p.take i = { p with irr := Function.update p.irr i false, isr := Function.update p.isr i true } := by
  rw [take, h.icw4]
  rfl

/-- The end of interrupt takes the only highest one out of service. -/
theorem endHighest_eq (hi : p.isr i = true) (hfirst : ∀ j, p.isr j = true → i ≤ j) :
    p.endHighest = { p with isr := Function.update p.isr i false } := by
  have hfind : Fin.find? p.isr = some i := by
    refine Fin.find?_eq_some_iff.mpr ⟨hi, fun j hj => ?_⟩
    by_contra hset
    exact absurd (hfirst j (Bool.not_eq_false _ ▸ hset)) (Nat.not_le_of_lt hj)
  rw [endHighest, hfind]

end Chip

/-! ## What is in service -/

/-- The vector of a request, by ICW2 of the two chips. -/
def vectorOf (irq : Fin 16) : Byte := 0x20 + BitVec.ofNat 8 irq

/-- Its line at the master. -/
def line (irq : Fin 16) : Fin 8 := if h : irq.val < 8 then ⟨irq, h⟩ else 2

/-- The request of a line of the slave. -/
def slaveIrq (j : Fin 8) : Fin 16 := j.natAdd 8

def masterIrq (i : Fin 8) : Fin 16 := i.castAdd 8

theorem irq_cases (irq : Fin 16) : (∃ i, irq = masterIrq i) ∨ ∃ j, irq = slaveIrq j := by
  by_cases h : irq.val < 8
  · exact Or.inl ⟨⟨irq, h⟩, rfl⟩
  · refine Or.inr ⟨⟨irq - 8, by omega⟩, Fin.ext ?_⟩
    change irq.val = 8 + (irq.val - 8)
    omega

theorem masterIrq_lt (i : Fin 8) : (masterIrq i).val < 8 := i.isLt

theorem slaveIrq_not_lt (j : Fin 8) : ¬ (slaveIrq j).val < 8 := Nat.not_lt_of_le (Nat.le_add_right 8 j)

@[simp] theorem line_masterIrq (i : Fin 8) : line (masterIrq i) = i := dif_pos (masterIrq_lt i)

@[simp] theorem line_slaveIrq (j : Fin 8) : line (slaveIrq j) = 2 := dif_neg (slaveIrq_not_lt j)

theorem slaveIrq_inj {j k : Fin 8} (h : slaveIrq j = slaveIrq k) : j = k := Fin.ext (Nat.add_left_cancel (congrArg Fin.val h))

theorem slaveIrq_ne (i j : Fin 8) : masterIrq i ≠ slaveIrq j := by
  intro h
  have := congrArg Fin.val h
  change i.val = 8 + j.val at this
  omega

theorem vectorOf_inj : Function.Injective vectorOf := by
  have h : ∀ a b : Fin 16, vectorOf a = vectorOf b → a = b := by decide
  exact fun a b hab => h a b hab

/-- The handlers of these requests run, the innermost first, and these are the ones in service. -/
structure Serving (p : Pics) (irqs : List (Fin 16)) : Prop where
  device : 2 ∉ irqs
  nested : (irqs.map line).Pairwise (· < ·)
  master : ∀ i, p.master.isr i = true ↔ i ∈ irqs.map line
  slave : ∀ j, p.slave.isr j = true ↔ slaveIrq j ∈ irqs

/-- Both chips are set up. -/
structure Ready (p : Pics) : Prop where
  master : Configured p.master 0x20 0x04
  slave : Configured p.slave 0x28 0x02

/-- The request is latched. -/
def Pics.requested (p : Pics) (irq : Fin 16) : Bool :=
  if h : irq.val < 8 then irq ≠ 2 && p.master.irr ⟨irq, h⟩ else p.slave.irr ⟨irq.val - 8, by omega⟩

theorem requested_masterIrq (p : Pics) (i : Fin 8) : p.requested (masterIrq i) = (masterIrq i ≠ 2 && p.master.irr i) :=
  dif_pos i.isLt

theorem requested_slaveIrq (p : Pics) (j : Fin 8) : p.requested (slaveIrq j) = p.slave.irr j := by
  rw [Pics.requested, dif_neg (slaveIrq_not_lt j)]
  refine congrArg p.slave.irr (Fin.ext ?_)
  change 8 + j.val - 8 = j.val
  omega

/-- What goes into service with a request. -/
def Pics.serve (p : Pics) (irq : Fin 16) : Pics :=
  ⟨p.master.take (line irq), if irq.val < 8 then p.slave else p.slave.take ⟨irq.val % 8, Nat.mod_lt _ (by decide)⟩⟩

theorem serve_masterIrq (p : Pics) (i : Fin 8) : p.serve (masterIrq i) = ⟨p.master.take i, p.slave⟩ := by
  rw [Pics.serve, line_masterIrq, if_pos (masterIrq_lt i)]

theorem serve_slaveIrq (p : Pics) (j : Fin 8) : p.serve (slaveIrq j) = ⟨p.master.take 2, p.slave.take j⟩ := by
  have hj : (⟨(slaveIrq j).val % 8, Nat.mod_lt _ (by decide)⟩ : Fin 8) = j := by
    apply Fin.ext
    change (8 + j.val) % 8 = j.val
    omega
  rw [Pics.serve, line_slaveIrq, if_neg (slaveIrq_not_lt j), hj]

theorem icw3_master {p : Pics} (h : Ready p) (i : Fin 8) : p.master.icw3.getLsbD i = decide (i = 2) := by
  have hbit : ∀ i : Fin 8, (0x04 : Byte).getLsbD i = decide (i = 2) := by decide
  rw [h.master.icw3, hbit]

/-- A line of the master is acknowledged. -/
theorem ack_eq_master {p : Pics} (h : Ready p) {i : Fin 8} (hnext : p.master.next p.lines = some i) (hi : i ≠ 2) :
    p.ack = some (vectorOf (masterIrq i), p.serve (masterIrq i)) := by
  have hvec : ∀ i : Fin 8, ((0x20 : Byte) &&& 0xf8) ||| BitVec.ofNat 8 i = vectorOf (masterIrq i) := by decide
  rw [Pics.ack, hnext, Option.bind_some, icw3_master h, if_neg (by simp [hi]), Chip.vector, h.master.icw2, hvec, serve_masterIrq]

/-- A line of the slave. -/
theorem ack_eq_slave {p : Pics} (h : Ready p) {j : Fin 8} (hnext : p.master.next p.lines = some 2)
    (hslave : p.slave.next p.slave.irr = some j) : p.ack = some (vectorOf (slaveIrq j), p.serve (slaveIrq j)) := by
  have hvec : ∀ j : Fin 8, ((0x28 : Byte) &&& 0xf8) ||| BitVec.ofNat 8 j = vectorOf (slaveIrq j) := by decide
  rw [Pics.ack, hnext, Option.bind_some, icw3_master h, if_pos (decide_eq_true rfl), hslave, Option.map_some, Chip.vector,
    h.slave.icw2, hvec, serve_slaveIrq]

/-- Line 2 of the master is up only for the slave. -/
theorem next_slave {p : Pics} (h : Ready p) (hnext : p.master.next p.lines = some 2) :
    ∃ j, p.slave.next p.slave.irr = some j := by
  have hline := ((Chip.next_eq_some h.master).mp hnext).1
  rw [Pics.lines, Function.update_self] at hline
  exact Option.isSome_iff_exists.mp hline

/-- An acknowledged interrupt was requested, its line is above all in service at the master, and it goes into service. -/
theorem ack_spec {p p' : Pics} {vec : Byte} (h : Ready p) (hack : p.ack = some (vec, p')) :
    ∃ irq, irq ≠ 2 ∧ vec = vectorOf irq ∧ p' = p.serve irq ∧ p.requested irq = true ∧
      ∀ i, i ≤ line irq → p.master.isr i = false := by
  obtain ⟨i, hnext, -⟩ := Option.bind_eq_some_iff.mp hack
  obtain ⟨hline, -, hfree⟩ := (Chip.next_eq_some h.master).mp hnext
  by_cases hi : i = 2
  · subst hi
    obtain ⟨j, hslave⟩ := next_slave h hnext
    rw [ack_eq_slave h hnext hslave] at hack
    cases hack
    refine ⟨slaveIrq j, (slaveIrq_ne 2 j).symm, rfl, rfl, ?_, fun k hk => hfree k (by simpa using hk)⟩
    rw [requested_slaveIrq]
    exact ((Chip.next_eq_some h.slave).mp hslave).1
  · rw [ack_eq_master h hnext hi] at hack
    cases hack
    have hne : masterIrq i ≠ 2 := fun heq => hi (by rw [← line_masterIrq i, heq]; rfl)
    refine ⟨masterIrq i, hne, rfl, rfl, ?_, fun k hk => hfree k (by simpa using hk)⟩
    rw [Pics.lines, Function.update_of_ne hi] at hline
    rw [requested_masterIrq, hline]
    simp [hne]

theorem Configured.endHighest {p : Chip} {a b : Byte} (h : Configured p a b) : Configured p.endHighest a b := by
  rw [Chip.endHighest]
  split
  · exact ⟨h.imr, h.icw2, h.icw3, h.icw4, h.stage⟩
  · exact h

theorem Ready.serve {p : Pics} (h : Ready p) (irq : Fin 16) : Ready (p.serve irq) := by
  have htake : ∀ {q : Chip} {a b : Byte} (_ : Configured q a b) (i : Fin 8), Configured (q.take i) a b :=
    fun hq _ => ⟨hq.imr, hq.icw2, hq.icw3, hq.icw4, hq.stage⟩
  refine ⟨htake h.master _, ?_⟩
  rw [Pics.serve]
  split
  · exact h.slave
  · exact htake h.slave _

theorem Ready.latch {p : Pics} (h : Ready p) (irq : Fin 16) : Ready (p.latch irq) := by
  have hlatch : ∀ {q : Chip} {a b : Byte} (_ : Configured q a b) (i : Fin 8), Configured (q.latch i) a b :=
    fun hq _ => ⟨hq.imr, hq.icw2, hq.icw3, hq.icw4, hq.stage⟩
  rw [Pics.latch]
  split
  · exact ⟨hlatch h.master _, h.slave⟩
  · exact ⟨h.master, hlatch h.slave _⟩

theorem picEndOfInterrupt_masterIrq (p : Pics) (i : Fin 8) :
    picEndOfInterrupt p ((vectorOf (masterIrq i)).setWidth 32) = ⟨p.master.endHighest, p.slave⟩ := by
  have hvec : ∀ i : Fin 8, ¬ (0x28 ≤ (vectorOf (masterIrq i)).setWidth 32 ∧ (vectorOf (masterIrq i)).setWidth 32 ≤ (0x2f : Word)) := by
    decide
  rw [picEndOfInterrupt, if_neg (hvec i)]
  rfl

theorem picEndOfInterrupt_slaveIrq (p : Pics) (j : Fin 8) :
    picEndOfInterrupt p ((vectorOf (slaveIrq j)).setWidth 32) = ⟨p.master.endHighest, p.slave.endHighest⟩ := by
  have hvec : ∀ j : Fin 8, 0x28 ≤ (vectorOf (slaveIrq j)).setWidth 32 ∧ (vectorOf (slaveIrq j)).setWidth 32 ≤ (0x2f : Word) := by
    decide
  rw [picEndOfInterrupt, if_pos (hvec j)]
  rfl

theorem Ready.finish {p : Pics} (h : Ready p) (irq : Fin 16) : Ready (picEndOfInterrupt p ((vectorOf irq).setWidth 32)) := by
  rcases irq_cases irq with ⟨i, rfl⟩ | ⟨j, rfl⟩
  · rw [picEndOfInterrupt_masterIrq]
    exact ⟨h.master.endHighest, h.slave⟩
  · rw [picEndOfInterrupt_slaveIrq]
    exact ⟨h.master.endHighest, h.slave.endHighest⟩

namespace Serving

variable {p : Pics} {irqs : List (Fin 16)} {irq : Fin 16}

theorem slave_not_mem (h : Serving p (irq :: irqs)) {j k : Fin 8} (hirq : irq = slaveIrq j) : slaveIrq k ∉ irqs := by
  intro hmem
  have hlt := (List.pairwise_cons.mp h.nested).1 (line (slaveIrq k)) (List.mem_map_of_mem hmem)
  rw [hirq, line_slaveIrq, line_slaveIrq] at hlt
  exact absurd hlt (lt_irrefl 2)

theorem accept (h : Serving p irqs) (hready : Ready p) (hne : irq ≠ 2) (hfree : ∀ i, i ≤ line irq → p.master.isr i = false) :
    Serving (p.serve irq) (irq :: irqs) := by
  have hmaster : ∀ i, (p.master.take (line irq)).isr i = true ↔ i ∈ (irq :: irqs).map line := by
    intro i
    rw [Chip.take_eq hready.master, List.map_cons, List.mem_cons, ← h.master i]
    by_cases hi : i = line irq
    · subst hi
      simp
    · simp [hi]
  refine ⟨?_, ?_, hmaster, fun j => ?_⟩
  · rw [List.mem_cons, not_or]
    exact ⟨hne.symm, h.device⟩
  · refine List.pairwise_cons.mpr ⟨fun l hl => ?_, h.nested⟩
    by_contra hle
    have := (h.master l).mpr hl
    rw [hfree l (le_of_not_gt hle)] at this
    cases this
  · rw [List.mem_cons, ← h.slave j]
    rcases irq_cases irq with ⟨i, rfl⟩ | ⟨k, rfl⟩
    · rw [serve_masterIrq]
      simp [(slaveIrq_ne i j).symm]
    · rw [serve_slaveIrq, Chip.take_eq hready.slave]
      by_cases hj : j = k
      · subst hj
        simp
      · have hne : slaveIrq j ≠ slaveIrq k := fun heq => hj (slaveIrq_inj heq)
        simp [hj, hne]

theorem finish (h : Serving p (irq :: irqs)) : Serving (picEndOfInterrupt p ((vectorOf irq).setWidth 32)) irqs := by
  obtain ⟨hfirst, hnested⟩ := List.pairwise_cons.mp h.nested
  have hnot : line irq ∉ irqs.map line := fun hmem => lt_irrefl _ (hfirst _ hmem)
  have hend : p.master.endHighest = { p.master with isr := Function.update p.master.isr (line irq) false } := by
    refine Chip.endHighest_eq ((h.master _).mpr List.mem_cons_self) fun j hj => ?_
    rcases List.mem_cons.mp ((h.master j).mp hj) with rfl | hmem
    · exact le_refl _
    · exact le_of_lt (hfirst j hmem)
  have hmaster : ∀ i, p.master.endHighest.isr i = true ↔ i ∈ irqs.map line := by
    intro i
    rw [hend]
    by_cases hi : i = line irq
    · subst hi
      simpa using hnot
    · have hold := h.master i
      rw [List.map_cons, List.mem_cons] at hold
      simpa [hi] using hold
  have hdevice : 2 ∉ irqs := fun hmem => h.device (List.mem_cons_of_mem _ hmem)
  rcases irq_cases irq with ⟨i, rfl⟩ | ⟨j, rfl⟩
  · rw [picEndOfInterrupt_masterIrq]
    refine ⟨hdevice, hnested, hmaster, fun k => ?_⟩
    have hold := h.slave k
    rw [List.mem_cons] at hold
    simpa [(slaveIrq_ne i k).symm] using hold
  · have honly : ∀ k, p.slave.isr k = true → k = j := by
      intro k hk
      rcases List.mem_cons.mp ((h.slave k).mp hk) with heq | hmem
      · exact slaveIrq_inj heq
      · exact absurd hmem (h.slave_not_mem rfl)
    rw [picEndOfInterrupt_slaveIrq, Chip.endHighest_eq (p := p.slave) ((h.slave j).mpr List.mem_cons_self)
      fun k hk => le_of_eq (honly k hk).symm]
    refine ⟨hdevice, hnested, hmaster, fun k => ?_⟩
    have hnone : slaveIrq k ∉ irqs := h.slave_not_mem rfl
    by_cases hk : k = j
    · subst hk
      simpa using hnone
    · have hoff : p.slave.isr k = false := by
        by_contra hset
        exact hk (honly k (Bool.not_eq_false _ ▸ hset))
      simpa [hk, hoff] using hnone

end Serving

/-! ## Runs -/

/-- The controllers are set up, and the handlers that run are those of the interrupts in service. -/
structure Inv (s : State) : Prop where
  ready : Ready s.pics
  serving : ∃ irqs, s.running = irqs.map vectorOf ∧ Serving s.pics irqs

theorem Inv.init {p : Pics} (hmaster : ∀ i, p.master.isr i = false) (hslave : ∀ i, p.slave.isr i = false) :
    Inv ⟨picInit p, []⟩ := by
  rw [picInit_eq, initialise_eq, initialise_eq]
  refine ⟨⟨⟨rfl, rfl, rfl, rfl, rfl⟩, ⟨rfl, rfl, rfl, rfl, rfl⟩⟩, [], rfl, List.not_mem_nil, List.Pairwise.nil, fun i => ?_, fun j => ?_⟩
  · simp [hmaster i]
  · simp [hslave j]

theorem isr_latch (p : Pics) (irq : Fin 16) : (p.latch irq).master.isr = p.master.isr ∧ (p.latch irq).slave.isr = p.slave.isr := by
  rw [Pics.latch]
  split
  · exact ⟨rfl, rfl⟩
  · exact ⟨rfl, rfl⟩

theorem Inv.step {s s' : State} {e : Event} (h : Inv s) (hstep : step s e = some s') : Inv s' := by
  obtain ⟨irqs, hrunning, hserving⟩ := h.serving
  cases e with
  | raise irq =>
      simp only [Pic.step, Option.ite_none_right_eq_some, Option.some.injEq] at hstep
      obtain ⟨-, rfl⟩ := hstep
      obtain ⟨hmaster, hslave⟩ := isr_latch s.pics irq
      refine ⟨h.ready.latch irq, irqs, hrunning, hserving.device, hserving.nested, fun i => ?_, fun j => ?_⟩
      · exact hmaster ▸ hserving.master i
      · exact hslave ▸ hserving.slave j
  | accept =>
      obtain ⟨⟨vec, p'⟩, hack, rfl⟩ := Option.map_eq_some_iff.mp hstep
      obtain ⟨irq, hne, rfl, rfl, -, hfree⟩ := ack_spec h.ready hack
      refine ⟨h.ready.serve irq, irq :: irqs, ?_, hserving.accept h.ready hne hfree⟩
      rw [hrunning, List.map_cons]
  | finish =>
      cases irqs with
      | nil =>
          rw [Pic.step, hrunning] at hstep
          cases hstep
      | cons irq irqs =>
          rw [Pic.step, hrunning] at hstep
          cases hstep
          exact ⟨h.ready.finish irq, irqs, rfl, hserving.finish⟩

theorem inv_reachable {s : State} (h : picSystem.Reachable s) : Inv s := by
  refine TransitionSystem.invariant _ ?_ (fun s e s' _ hinv hstep => hinv.step hstep) h
  rintro s ⟨p, hmaster, hslave, rfl⟩
  exact Inv.init hmaster hslave

/-- The request is in service, at the slave where it has one. -/
def Pics.inService (p : Pics) (irq : Fin 16) : Bool :=
  if h : irq.val < 8 then irq ≠ 2 && p.master.isr ⟨irq, h⟩ else p.slave.isr ⟨irq.val - 8, by omega⟩

/-- The order of priorities: lines of the master, and those of the slave in place of line 2. -/
def Above (a b : Fin 16) : Prop := line a < line b ∨ line a = line b ∧ a ≤ b

/-- What holds between the controllers and the handlers. -/
structure Kept (s : State) : Prop where
  /-- In service are exactly the interrupts whose handlers run. -/
  inService : ∀ irq, s.pics.inService irq = true ↔ vectorOf irq ∈ s.running
  /-- The master has the line of the slave in service while one of the slave is. -/
  cascade : s.pics.master.isr 2 = true ↔ ∃ j, s.pics.slave.isr j = true
  nodup : s.running.Nodup
  /-- Every handler that runs is that of a hardware interrupt. -/
  vectors : ∀ vec ∈ s.running, 0x20 ≤ vec ∧ vec ≤ 0x2f
  /-- When none runs, a request is delivered, the highest first. -/
  delivered : s.running = [] → ∀ irq, s.pics.requested irq = true →
    ∃ irq' p', s.pics.ack = some (vectorOf irq', p') ∧ Above irq' irq
  /-- A request stays until its own interrupt is taken. -/
  kept : ∀ e s', step s e = some s' → ∀ irq, s.pics.requested irq = true →
    s'.pics.requested irq = true ∨ s'.running = vectorOf irq :: s.running

theorem inService_masterIrq (p : Pics) (i : Fin 8) : p.inService (masterIrq i) = (masterIrq i ≠ 2 && p.master.isr i) :=
  dif_pos (masterIrq_lt i)

theorem inService_slaveIrq (p : Pics) (j : Fin 8) : p.inService (slaveIrq j) = p.slave.isr j := by
  rw [Pics.inService, dif_neg (slaveIrq_not_lt j)]
  refine congrArg p.slave.isr (Fin.ext ?_)
  change 8 + j.val - 8 = j.val
  omega

/-- A line of the master but 2 is that of one request, and line 2 is that of the slave's. -/
theorem mem_map_line {irqs : List (Fin 16)} {i : Fin 8} (hi : i ≠ 2) : i ∈ irqs.map line ↔ masterIrq i ∈ irqs := by
  constructor
  · intro h
    obtain ⟨irq, hmem, rfl⟩ := List.mem_map.mp h
    rcases irq_cases irq with ⟨k, rfl⟩ | ⟨j, rfl⟩
    · rwa [line_masterIrq]
    · exact absurd (line_slaveIrq j) hi
  · intro h
    exact List.mem_map.mpr ⟨_, h, line_masterIrq i⟩

theorem two_mem_map_line {irqs : List (Fin 16)} (hdevice : 2 ∉ irqs) : 2 ∈ irqs.map line ↔ ∃ j, slaveIrq j ∈ irqs := by
  constructor
  · intro h
    obtain ⟨irq, hmem, hline⟩ := List.mem_map.mp h
    rcases irq_cases irq with ⟨k, rfl⟩ | ⟨j, rfl⟩
    · rw [line_masterIrq] at hline
      subst hline
      exact absurd hmem hdevice
    · exact ⟨j, hmem⟩
  · rintro ⟨j, hmem⟩
    exact List.mem_map.mpr ⟨_, hmem, line_slaveIrq j⟩

theorem Serving.inService {p : Pics} {irqs : List (Fin 16)} (h : Serving p irqs) (irq : Fin 16) :
    p.inService irq = true ↔ irq ∈ irqs := by
  rcases irq_cases irq with ⟨i, rfl⟩ | ⟨j, rfl⟩
  · rw [inService_masterIrq, Bool.and_eq_true, decide_eq_true_iff, h.master]
    by_cases hi : i = 2
    · subst hi
      exact iff_of_false (fun hand => hand.1 rfl) h.device
    · have hne : masterIrq i ≠ 2 := fun heq => hi (by rw [← line_masterIrq i, heq]; rfl)
      rw [mem_map_line hi]
      exact and_iff_right hne
  · rw [inService_slaveIrq, h.slave]

theorem delivered_of_idle {p : Pics} (h : Ready p) (hmaster : ∀ i, p.master.isr i = false) (hslave : ∀ j, p.slave.isr j = false)
    {irq : Fin 16} (hreq : p.requested irq = true) : ∃ irq' p', p.ack = some (vectorOf irq', p') ∧ Above irq' irq := by
  -- the line of the request is up, so some line at or above it is delivered
  have hline : p.lines (line irq) = true := by
    rcases irq_cases irq with ⟨i, rfl⟩ | ⟨j, rfl⟩
    · rw [requested_masterIrq, Bool.and_eq_true, decide_eq_true_iff] at hreq
      have hi : i ≠ 2 := fun heq => hreq.1 (heq ▸ rfl)
      rw [line_masterIrq, Pics.lines, Function.update_of_ne hi]
      exact hreq.2
    · rw [requested_slaveIrq] at hreq
      obtain ⟨k, hk, -⟩ := Chip.next_of_idle h.slave hslave hreq
      rw [line_slaveIrq, Pics.lines, Function.update_self, hk]
      rfl
  obtain ⟨i, hnext, hle⟩ := Chip.next_of_idle h.master hmaster hline
  by_cases hi : i = 2
  · subst hi
    obtain ⟨j, hj⟩ := next_slave h hnext
    refine ⟨slaveIrq j, _, ack_eq_slave h hnext hj, ?_⟩
    rw [Above, line_slaveIrq]
    rcases lt_or_eq_of_le hle with hlt | heq
    · exact Or.inl hlt
    · refine Or.inr ⟨heq, ?_⟩
      rcases irq_cases irq with ⟨i, rfl⟩ | ⟨k, rfl⟩
      · rw [line_masterIrq] at heq
        subst heq
        rw [requested_masterIrq, Bool.and_eq_true, decide_eq_true_iff] at hreq
        exact absurd rfl hreq.1
      · rw [requested_slaveIrq] at hreq
        obtain ⟨k', hk', hle'⟩ := Chip.next_of_idle h.slave hslave hreq
        obtain rfl : j = k' := Option.some.inj (hj.symm.trans hk')
        exact Nat.add_le_add_left hle' 8
  · refine ⟨masterIrq i, _, ack_eq_master h hnext hi, ?_⟩
    rw [Above, line_masterIrq]
    rcases lt_or_eq_of_le hle with hlt | heq
    · exact Or.inl hlt
    · refine Or.inr ⟨heq, ?_⟩
      rcases irq_cases irq with ⟨k, rfl⟩ | ⟨j, rfl⟩
      · rw [line_masterIrq] at heq
        rw [heq]
      · exact absurd (heq.trans (line_slaveIrq j)) hi

theorem requested_congr {p p' : Pics} (hmaster : ∀ i, i ≠ 2 → p'.master.irr i = p.master.irr i)
    (hslave : p'.slave.irr = p.slave.irr) (irq : Fin 16) : p'.requested irq = p.requested irq := by
  rcases irq_cases irq with ⟨i, rfl⟩ | ⟨j, rfl⟩
  · rw [requested_masterIrq, requested_masterIrq]
    by_cases hi : i = 2
    · subst hi
      rfl
    · rw [hmaster i hi]
  · rw [requested_slaveIrq, requested_slaveIrq, hslave]

theorem requested_latch (p : Pics) (irq irq' : Fin 16) (hreq : p.requested irq = true) : (p.latch irq').requested irq = true := by
  rcases irq_cases irq' with ⟨k, rfl⟩ | ⟨k, rfl⟩
  · have hlatch : p.latch (masterIrq k) = { p with master := p.master.latch k } := dif_pos (masterIrq_lt k)
    rw [hlatch]
    rcases irq_cases irq with ⟨i, rfl⟩ | ⟨j, rfl⟩
    · rw [requested_masterIrq, Bool.and_eq_true] at hreq ⊢
      refine ⟨hreq.1, ?_⟩
      by_cases hi : i = k
      · subst hi
        exact Function.update_self _ _ _
      · exact (Function.update_of_ne hi _ _).trans hreq.2
    · rw [requested_slaveIrq] at hreq ⊢
      exact hreq
  · have hlatch : p.latch (slaveIrq k) = { p with slave := p.slave.latch k } := by
      rw [Pics.latch, dif_neg (slaveIrq_not_lt k)]
      refine congrArg (fun i => { p with slave := p.slave.latch i }) (Fin.ext ?_)
      change 8 + k.val - 8 = k.val
      omega
    rw [hlatch]
    rcases irq_cases irq with ⟨i, rfl⟩ | ⟨j, rfl⟩
    · rw [requested_masterIrq] at hreq ⊢
      exact hreq
    · rw [requested_slaveIrq] at hreq ⊢
      by_cases hj : j = k
      · subst hj
        exact Function.update_self _ _ _
      · exact (Function.update_of_ne hj _ _).trans hreq

/-- Only the request that is taken goes away. -/
theorem requested_serve {p : Pics} {irq irq' : Fin 16} (hne : irq ≠ irq') (hreq : p.requested irq = true) :
    (p.serve irq').requested irq = true := by
  rcases irq_cases irq' with ⟨k, rfl⟩ | ⟨k, rfl⟩
  · rw [serve_masterIrq]
    rcases irq_cases irq with ⟨i, rfl⟩ | ⟨j, rfl⟩
    · have hi : i ≠ k := fun heq => hne (heq ▸ rfl)
      rw [requested_masterIrq, Bool.and_eq_true] at hreq ⊢
      exact ⟨hreq.1, (Function.update_of_ne hi _ _).trans hreq.2⟩
    · rw [requested_slaveIrq] at hreq ⊢
      exact hreq
  · rw [serve_slaveIrq]
    rcases irq_cases irq with ⟨i, rfl⟩ | ⟨j, rfl⟩
    · rw [requested_masterIrq, Bool.and_eq_true, decide_eq_true_iff] at hreq ⊢
      have hi : i ≠ 2 := fun heq => hreq.1 (heq ▸ rfl)
      exact ⟨hreq.1, (Function.update_of_ne hi _ _).trans hreq.2⟩
    · have hj : j ≠ k := fun heq => hne (heq ▸ rfl)
      rw [requested_slaveIrq] at hreq ⊢
      exact (Function.update_of_ne hj _ _).trans hreq

theorem irr_endHighest (p : Chip) : p.endHighest.irr = p.irr := by
  rw [Chip.endHighest]
  split <;> rfl

theorem requested_finish (p : Pics) (irq irq' : Fin 16) :
    (picEndOfInterrupt p ((vectorOf irq').setWidth 32)).requested irq = p.requested irq := by
  rcases irq_cases irq' with ⟨k, rfl⟩ | ⟨k, rfl⟩
  · rw [picEndOfInterrupt_masterIrq]
    refine requested_congr (fun i _ => ?_) ?_ irq
    · exact congrFun (irr_endHighest p.master) i
    · rfl
  · rw [picEndOfInterrupt_slaveIrq]
    exact requested_congr (fun i _ => congrFun (irr_endHighest p.master) i) (irr_endHighest p.slave) irq

/-- Whatever the order of requests, deliveries and returns, the code ends each interrupt in the controllers that have it in service, and none is lost. -/
theorem pic_runs {s : State} (h : picSystem.Reachable s) : Kept s := by
  obtain ⟨hready, irqs, hrunning, hserving⟩ := inv_reachable h
  have hmem : ∀ irq, vectorOf irq ∈ s.running ↔ irq ∈ irqs := by
    intro irq
    rw [hrunning]
    exact List.mem_map_of_injective vectorOf_inj
  refine ⟨fun irq => (hserving.inService irq).trans (hmem irq).symm, ?_, ?_, fun vec hvec => ?_, fun hidle irq hreq => ?_,
    fun e s' hstep irq hreq => ?_⟩
  · rw [hserving.master, two_mem_map_line hserving.device]
    exact exists_congr fun j => (hserving.slave j).symm
  · rw [hrunning]
    have hlines : (irqs.map line).Nodup := hserving.nested.imp fun hlt => ne_of_lt hlt
    exact hlines.of_map.map vectorOf_inj
  · rw [hrunning] at hvec
    obtain ⟨irq, -, rfl⟩ := List.mem_map.mp hvec
    have hrange : ∀ irq : Fin 16, 0x20 ≤ vectorOf irq ∧ vectorOf irq ≤ 0x2f := by decide
    exact hrange irq
  · have hnil : irqs = [] := List.map_eq_nil_iff.mp (hrunning.symm.trans hidle)
    subst hnil
    refine delivered_of_idle hready (fun i => ?_) (fun j => ?_) hreq
    · rw [← Bool.not_eq_true, hserving.master]
      exact List.not_mem_nil
    · rw [← Bool.not_eq_true, hserving.slave]
      exact List.not_mem_nil
  · cases e with
    | raise irq' =>
        simp only [Pic.step, Option.ite_none_right_eq_some, Option.some.injEq] at hstep
        obtain ⟨-, rfl⟩ := hstep
        exact Or.inl (requested_latch s.pics irq irq' hreq)
    | accept =>
        obtain ⟨⟨vec, p'⟩, hack, rfl⟩ := Option.map_eq_some_iff.mp hstep
        obtain ⟨irq', -, rfl, rfl, -, -⟩ := ack_spec hready hack
        by_cases hne : irq = irq'
        · exact Or.inr (hne ▸ rfl)
        · exact Or.inl (requested_serve hne hreq)
    | finish =>
        cases irqs with
        | nil =>
            rw [Pic.step, hrunning] at hstep
            cases hstep
        | cons irq' irqs =>
            rw [Pic.step, hrunning] at hstep
            cases hstep
            exact Or.inl ((requested_finish s.pics irq irq').trans hreq)

/-- Controllers with nothing in service. -/
def quiet : Pics :=
  ⟨⟨fun _ => false, fun _ => false, 0, 0, 0, 0, 0, .ready⟩, ⟨fun _ => false, fun _ => false, 0, 0, 0, 0, 0, .ready⟩⟩

/-- The interrupt of the keyboard is taken in the handler of the disk, and then both handlers return. -/
theorem pic_runs_disk : ∃ s s', picSystem.Reachable s ∧ s.running = [vectorOf 1, vectorOf 14] ∧ Kept s ∧
    TransitionSystem.exec step s [.finish, .finish] = some s' ∧ s'.running = [] ∧ Kept s' := by
  have hinit : picSystem.Reachable ⟨picInit quiet, []⟩ := .init ⟨quiet, fun _ => rfl, fun _ => rfl, rfl⟩
  have hview : (TransitionSystem.exec step ⟨picInit quiet, []⟩ [.raise 14, .accept, .raise 1, .accept]).any (fun s =>
      s.running == [vectorOf 1, vectorOf 14] && (TransitionSystem.exec step s [.finish, .finish]).any fun s' =>
        s'.running == []) = true := by decide +kernel
  obtain ⟨s, hexec, hview⟩ := (Option.any_eq_true ..).mp hview
  obtain ⟨hrunning, hview⟩ := Bool.and_eq_true_iff.mp hview
  obtain ⟨s', hexec', hended⟩ := (Option.any_eq_true ..).mp hview
  have hnested := TransitionSystem.reachable_exec _ hinit hexec
  have hreturned := TransitionSystem.reachable_exec _ hnested hexec'
  exact ⟨s, s', hnested, eq_of_beq hrunning, pic_runs hnested, hexec', eq_of_beq hended, pic_runs hreturned⟩

end I386Kernel.Pic
