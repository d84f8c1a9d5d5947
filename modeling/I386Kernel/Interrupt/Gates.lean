import I386Kernel.Interrupt.Entry
import I386Kernel.Lib.CountedLoop

/-!
# The interrupt descriptor table

`set_init_idt` of `boot/start.S` points every gate at `unknown_isr`; `init_interrupt` of `kernel/interrupt.c` points every gate at the stub of its vector and `set_gate` changes one. The table of handlers is written together with the gates, and `generic_isr` looks a handler up by the number that the stub has pushed, so gate, stub and handler have to agree on the vector after whatever calls the drivers have made. An entry is the two words of the union in `interrupt.h`; pointers to handlers are of any type, and `NULL` is `none`.
-/

namespace I386Kernel.Interrupt

open I386 (Reg)
open ByteStack (Memory Byte bytes16 bytes32 load16 load32 store Holds)
open CountedLoop (loop Ends)

/-- The lower half of a word. -/
def lowHalf (w : Word) : BitVec 16 := w.extractLsb' 0 16

def highHalf (w : Word) : BitVec 16 := w.extractLsb' 16 16

structure IdtEntry where
  lowerU32 : Word
  upperU32 : Word
deriving DecidableEq

namespace IdtEntry

variable (e : IdtEntry)

def setOffset0_15 (h : BitVec 16) : IdtEntry := { e with lowerU32 := highHalf e.lowerU32 ++ h }

def setSegSel (h : BitVec 16) : IdtEntry := { e with lowerU32 := h ++ lowHalf e.lowerU32 }

def setGateConfig (h : BitVec 16) : IdtEntry := { e with upperU32 := highHalf e.upperU32 ++ h }

def setOffset16_31 (h : BitVec 16) : IdtEntry := { e with upperU32 := h ++ lowHalf e.upperU32 }

end IdtEntry

/-! ## `set_init_idt` -/

/-- The table and the number of the entry at `edi`. -/
structure IdtFill where
  idt : Fin 256 → IdtEntry
  edi : Nat

/-- One pass of the loop; behind the table there is no entry. -/
def fillEntry (eax edx : Word) (s : IdtFill) : Except Nat IdtFill :=
  if h : s.edi < 256 then .ok ⟨Function.update s.idt ⟨s.edi, h⟩ ⟨eax, edx⟩, s.edi + 1⟩ else .error s.edi

/-- The table afterwards. -/
def setInitIdt (unknownIsr : Word) (idtStart : Fin 256 → IdtEntry) : Except Nat (Fin 256 → IdtEntry) :=
  let ecx : Word := (256 * 8) >>> 3
  let edx := unknownIsr
  let eax := selKcseg ++ lowHalf edx
  let edx := highHalf edx ++ (0x8e00 : BitVec 16)
  (loop (fillEntry eax edx) ecx ⟨idtStart, 0⟩).map IdtFill.idt

/-! ## `set_gate` -/

structure Tables (H : Type*) where
  idtTable : Fin 256 → IdtEntry
  isrTable : Fin 256 → Option H

def gateTypeIntr : BitVec 16 := 0xe

def gateTypeTrap : BitVec 16 := 0xf

variable {H : Type*} (stubs : Fin 256 → Word)

/-- The entry is that of vector `n`; `stubs` are the addresses in `isr_stubs`. -/
def setGate (t : Tables H) (n : Fin 256) (isr : Option H) (dpl type : BitVec 16) : Tables H where
  isrTable := Function.update t.isrTable n isr
  idtTable := Function.update t.idtTable n
    ((((t.idtTable n).setOffset0_15 (lowHalf (stubs n))).setOffset16_31 (highHalf (stubs n))).setSegSel selKcseg |>.setGateConfig
      ((0x8000 : BitVec 16) ||| dpl <<< 13 ||| type <<< 8))

def setInterruptGate (t : Tables H) (n : Fin 256) (isr : Option H) : Tables H := setGate stubs t n isr 0 gateTypeIntr

def setTrapGate (t : Tables H) (n : Fin 256) (isr : Option H) : Tables H := setGate stubs t n isr 0 gateTypeTrap

def setSystemGate (t : Tables H) (n : Fin 256) (isr : Option H) : Tables H := setGate stubs t n isr 3 gateTypeTrap

/-- The loop of `init_interrupt`. -/
def initGates (defaultIsr : H) (t : Tables H) : Tables H :=
  (List.finRange 256).foldl (fun t n => setInterruptGate stubs t n (some defaultIsr)) t

inductive GateKind where
  | interrupt
  | trap
  | system
deriving DecidableEq

/-- A call of one of the three functions. -/
structure GateCall (H : Type*) where
  kind : GateKind
  n : Fin 256
  isr : H

def GateCall.make (t : Tables H) (call : GateCall H) : Tables H :=
  match call.kind with
  | .interrupt => setInterruptGate stubs t call.n (some call.isr)
  | .trap => setTrapGate stubs t call.n (some call.isr)
  | .system => setSystemGate stubs t call.n (some call.isr)

/-- The tables after `init_interrupt` and the calls that follow. -/
def tablesAfter (defaultIsr : H) (t : Tables H) (calls : List (GateCall H)) : Tables H :=
  calls.foldl (GateCall.make stubs) (initGates stubs defaultIsr t)

/-! ## The processor -/

/-- What the processor makes of an entry. -/
structure Gate where
  selector : BitVec 16
  offset : Word
  dpl : BitVec 2
  /-- A trap gate leaves interrupts enabled. -/
  trap : Bool
deriving DecidableEq

/-- An interrupt or trap gate of 32 bits that is present. -/
def IdtEntry.gate (e : IdtEntry) : Option Gate :=
  let config := lowHalf e.upperU32
  let type := config.extractLsb' 8 5
  if config.getLsbD 15 ∧ (type = 0xe ∨ type = 0xf) then
    some ⟨highHalf e.lowerU32, highHalf e.upperU32 ++ lowHalf e.lowerU32, config.extractLsb' 13 2, type = 0xf⟩
  else none

/-- The processor takes the interrupt `n` through its gate and comes, by the code at the offset, to `generic_isr`. -/
def takeInterrupt (program : Word → List Instr) (idt : Fin 256 → IdtEntry) (c : Cpu) (n : Fin 256) (pad : BitVec 16) (err : Word) :
    Option Cpu :=
  (idt n).gate.map fun g =>
    Cpu.run { deliver c n pad err with cs := g.selector, eflags := c.eflags &&& ~~~(if g.trap then 0x34100 else 0x34300) }
      (program g.offset)

/-! ## Every gate after `set_init_idt` -/

theorem lowHalf_append (high low : BitVec 16) : lowHalf (high ++ low) = low := ByteStack.extractLsb'_append_low _ _

theorem highHalf_append (high low : BitVec 16) : highHalf (high ++ low) = high := ByteStack.extractLsb'_append_high _ _

theorem halves (w : Word) : highHalf w ++ lowHalf w = w := (eflags_halves w).symm

/-- The entry that `set_init_idt` stores. -/
def initEntry (unknownIsr : Word) : IdtEntry := ⟨selKcseg ++ lowHalf unknownIsr, highHalf unknownIsr ++ (0x8e00 : BitVec 16)⟩

/-- The table after `i` passes. -/
def filledTo (unknownIsr : Word) (idtStart : Fin 256 → IdtEntry) (i : Nat) (n : Fin 256) : IdtEntry :=
  if n.val < i then initEntry unknownIsr else idtStart n

theorem fillEntry_ends {unknownIsr : Word} {idtStart : Fin 256 → IdtEntry} {i : Nat} (hi : i < 256) {s : IdtFill}
    (h : s = ⟨filledTo unknownIsr idtStart i, i⟩) :
    Ends (fun s => s = ⟨filledTo unknownIsr idtStart (i + 1), i + 1⟩) (fun _ => False)
      (fillEntry (initEntry unknownIsr).lowerU32 (initEntry unknownIsr).upperU32 s) := by
  subst h
  rw [fillEntry, dif_pos hi]
  refine congrArg (IdtFill.mk · (i + 1)) (funext fun n => ?_)
  change Function.update (filledTo unknownIsr idtStart i) ⟨i, hi⟩ (initEntry unknownIsr) n = _
  by_cases hn : n = ⟨i, hi⟩
  · subst hn
    rw [Function.update_self, filledTo, if_pos (Nat.lt_succ_self i)]
  · have hne : n.val ≠ i := fun heq => hn (Fin.ext heq)
    have hiff : n.val < i ↔ n.val < i + 1 := by omega
    rw [Function.update_of_ne hn]
    exact if_congr hiff rfl rfl

theorem setInitIdt_eq (unknownIsr : Word) (idtStart : Fin 256 → IdtEntry) :
    setInitIdt unknownIsr idtStart = .ok fun _ => initEntry unknownIsr := by
  have hcount : CountedLoop.count ((256 * 8) >>> 3 : Word) = 256 := CountedLoop.count_of_ne (by decide)
  have hloop := CountedLoop.loop_ends (c := ((256 * 8) >>> 3 : Word)) (Q := fun _ _ => False)
    (P := fun i s => s = IdtFill.mk (filledTo unknownIsr idtStart i) i) (s := IdtFill.mk idtStart 0)
    (congrArg (IdtFill.mk · 0) (funext fun n => (if_neg (Nat.not_lt_zero _)).symm))
    fun i s hi h => fillEntry_ends (hcount ▸ hi) h
  rw [hcount] at hloop
  change (loop (fillEntry (initEntry unknownIsr).lowerU32 (initEntry unknownIsr).upperU32) _ _).map _ = _
  cases hrun : loop (fillEntry (initEntry unknownIsr).lowerU32 (initEntry unknownIsr).upperU32) ((256 * 8) >>> 3 : Word)
      ⟨idtStart, 0⟩ with
  | error e =>
      rw [hrun] at hloop
      obtain ⟨_, _, hfalse⟩ := hloop
      exact absurd hfalse id
  | ok s =>
      rw [hrun] at hloop
      rw [show s = _ from hloop]
      exact congrArg Except.ok (funext fun n => if_pos n.isLt)

/-! ## Every gate after calls of `set_gate` -/

theorem gate_mk (sel low high config : BitVec 16) : IdtEntry.gate ⟨sel ++ low, high ++ config⟩ =
    if config.getLsbD 15 ∧ (config.extractLsb' 8 5 = 0xe ∨ config.extractLsb' 8 5 = 0xf) then
      some ⟨sel, high ++ low, config.extractLsb' 13 2, config.extractLsb' 8 5 = 0xf⟩
    else none := by
  simp only [IdtEntry.gate, lowHalf_append, highHalf_append]

/-- The privilege and the kind of gate that a call asks for. -/
def GateKind.dpl : GateKind → BitVec 2
  | .system => 3
  | _ => 0

def GateKind.leavesEnabled : GateKind → Bool
  | .interrupt => false
  | _ => true

/-- The gate of vector `n` leads to its stub, and the handler in the table is `isr`. -/
structure Serves (t : Tables H) (n : Fin 256) (kind : GateKind) (isr : H) : Prop where
  gate : (t.idtTable n).gate = some ⟨selKcseg, stubs n, kind.dpl, kind.leavesEnabled⟩
  isr : t.isrTable n = some isr

variable {stubs} {t : Tables H} {n : Fin 256} {kind : GateKind} {isr : H}

theorem setGate_self (t : Tables H) (n : Fin 256) (isr : Option H) (dpl type : BitVec 16) :
    (setGate stubs t n isr dpl type).idtTable n =
      ⟨selKcseg ++ lowHalf (stubs n), highHalf (stubs n) ++ ((0x8000 : BitVec 16) ||| dpl <<< 13 ||| type <<< 8)⟩ := by
  simp only [setGate, Function.update_self, IdtEntry.setOffset0_15, IdtEntry.setOffset16_31, IdtEntry.setSegSel,
    IdtEntry.setGateConfig, lowHalf_append, highHalf_append]

theorem serves_make (t : Tables H) (call : GateCall H) : Serves stubs (call.make stubs t) call.n call.kind call.isr := by
  obtain ⟨kind, n, isr⟩ := call
  cases kind
  case interrupt =>
    refine ⟨?_, Function.update_self _ _ _⟩
    change ((setGate stubs t n (some isr) 0 gateTypeIntr).idtTable n).gate = _
    rw [setGate_self, gate_mk, if_pos (by decide), halves]
    rfl
  case trap =>
    refine ⟨?_, Function.update_self _ _ _⟩
    change ((setGate stubs t n (some isr) 0 gateTypeTrap).idtTable n).gate = _
    rw [setGate_self, gate_mk, if_pos (by decide), halves]
    rfl
  case system =>
    refine ⟨?_, Function.update_self _ _ _⟩
    change ((setGate stubs t n (some isr) 3 gateTypeTrap).idtTable n).gate = _
    rw [setGate_self, gate_mk, if_pos (by decide), halves]
    rfl

/-- Another vector keeps its gate and its handler. -/
theorem Serves.make_of_ne (h : Serves stubs t n kind isr) {call : GateCall H} (hne : n ≠ call.n) :
    Serves stubs (call.make stubs t) n kind isr := by
  obtain ⟨kind', n', isr'⟩ := call
  cases kind' <;>
  exact ⟨(congrArg IdtEntry.gate (Function.update_of_ne hne _ _)).trans h.gate, (Function.update_of_ne hne _ _).trans h.isr⟩

/-- The last call for vector `n`; before any it is as `init_interrupt` has left it. -/
def registered (defaultIsr : H) (calls : List (GateCall H)) (n : Fin 256) : GateCall H :=
  (calls.reverse.find? fun call => call.n = n).getD ⟨.interrupt, n, defaultIsr⟩

theorem registered_append (defaultIsr : H) (calls : List (GateCall H)) (call : GateCall H) (n : Fin 256) :
    registered defaultIsr (calls ++ [call]) n = if call.n = n then call else registered defaultIsr calls n := by
  rw [registered, List.reverse_append, List.reverse_singleton, List.singleton_append, List.find?_cons]
  by_cases hn : call.n = n
  · rw [if_pos hn, decide_eq_true hn, Option.getD_some]
  · rw [if_neg hn, decide_eq_false hn, registered]

theorem initGates_eq (defaultIsr : H) (t : Tables H) : initGates stubs defaultIsr t =
    ((List.finRange 256).map fun n => ⟨.interrupt, n, defaultIsr⟩).foldl (GateCall.make stubs) t := by
  rw [initGates, List.foldl_map]
  rfl

/-- A vector that some call is for. -/
theorem serves_foldl {calls : List (GateCall H)} (h : ∃ call ∈ calls, call.n = n) (t : Tables H) :
    ∃ call ∈ calls, call.n = n ∧ Serves stubs (calls.foldl (GateCall.make stubs) t) n call.kind call.isr := by
  induction calls using List.reverseRecOn with
  | nil =>
      obtain ⟨_, hmem, _⟩ := h
      exact absurd hmem List.not_mem_nil
  | append_singleton calls call ih =>
      rw [List.foldl_append, List.foldl_cons, List.foldl_nil]
      by_cases hn : call.n = n
      · subst hn
        exact ⟨call, List.mem_append_right _ List.mem_cons_self, rfl, serves_make _ call⟩
      · obtain ⟨call', hmem, hn'⟩ := h
        rcases List.mem_append.mp hmem with hold | hnew
        · obtain ⟨call'', hmem'', hn'', hserves⟩ := ih ⟨call', hold, hn'⟩
          exact ⟨call'', List.mem_append_left _ hmem'', hn'', hserves.make_of_ne fun heq => hn heq.symm⟩
        · rw [List.mem_singleton.mp hnew] at hn'
          exact absurd hn' hn

/-- After any sequence of calls every vector is served as the last call for it asks. -/
theorem serves_tablesAfter (defaultIsr : H) (t : Tables H) (calls : List (GateCall H)) (n : Fin 256) :
    Serves stubs (tablesAfter stubs defaultIsr t calls) n (registered defaultIsr calls n).kind
      (registered defaultIsr calls n).isr := by
  induction calls using List.reverseRecOn with
  | nil =>
      rw [tablesAfter, List.foldl_nil, initGates_eq]
      have hex : ∃ call ∈ (List.finRange 256).map fun n => (⟨.interrupt, n, defaultIsr⟩ : GateCall H), call.n = n :=
        ⟨_, List.mem_map_of_mem (List.mem_finRange n), rfl⟩
      obtain ⟨call, hmem, hn, hserves⟩ := serves_foldl hex t
      obtain ⟨m, -, rfl⟩ := List.mem_map.mp hmem
      exact hserves
  | append_singleton calls call ih =>
      rw [registered_append, tablesAfter, List.foldl_append, List.foldl_cons, List.foldl_nil]
      by_cases hn : call.n = n
      · subst hn
        rw [if_pos rfl]
        exact serves_make _ call
      · rw [if_neg hn]
        exact ih.make_of_ne fun heq => hn heq.symm

/-! ## From the gate to the handler and back -/

variable {c c' : Cpu} {pad : BitVec 16} {err next : Word}

/-- Code without `iret` neither reads nor changes the flags. -/
theorem run_eflags (code : List Instr) (h : Instr.iret ∉ code) (c : Cpu) (f : Word) :
    Cpu.run { c with eflags := f } code = { c.run code with eflags := f } := by
  induction code generalizing c with
  | nil => rfl
  | cons i code ih =>
      rw [List.mem_cons, not_or] at h
      have hstep : Cpu.exec { c with eflags := f } i = { c.exec i with eflags := f } := by
        cases i <;> first | rfl | exact absurd rfl h.1
      change Cpu.run (Cpu.exec { c with eflags := f } i) code = _
      rw [hstep]
      exact ih h.2 (c.exec i)

theorem iret_not_mem_entry (n : Fin 256) (next : Word) : Instr.iret ∉ (isrStub n).code ++ isrEntry next := by
  rw [isrStub_eq]
  split <;> simp [Stub.code, isrEntry]

/-- Through its gate an interrupt comes to `generic_isr` on the stack that the stub makes. -/
theorem takeInterrupt_eq {program : Word → List Instr} (hprogram : program (stubs n) = (isrStub n).code ++ isrEntry next)
    (h : Serves stubs t n kind isr) (c : Cpu) (pad : BitVec 16) (err : Word) :
    takeInterrupt program t.idtTable c n pad err = some { enter c n pad err next with
      eflags := c.eflags &&& ~~~(if kind.leavesEnabled then 0x34100 else 0x34300) } := by
  rw [takeInterrupt, h.gate, Option.map_some, hprogram]
  refine congrArg some ((run_eflags _ (iret_not_mem_entry n next) (deliver c n pad err) _).trans ?_)
  rfl

/-- The number in the frame is that of the vector. -/
theorem vecNo_enter (c : Cpu) (n : Fin 256) (pad : BitVec 16) (err next : Word) :
    (readFrame (enter c n pad err next).mem (frameOf (enter c n pad err next))).vecNo = BitVec.ofNat 32 n := by
  by_cases hn : n = 12
  · subst hn
    obtain ⟨-, hframe, hholds⟩ := enter_spec c 12 pad err next
    have htwelve : stubBytes 12 err = bytes32 12 ++ (bytes32 0 ++ bytes32 err) := rfl
    rw [htwelve, List.append_assoc, List.append_assoc, eflags_halves c.eip] at hholds
    rw [hframe]
    exact (readFrame_eq hholds).2.2.1
  · exact (readFrame_enter c pad err next hn).2.2.1

/-- How vector `n` is served for the interrupted `c`. -/
structure Dispatched (program : Word → List Instr) (t : Tables H) (c : Cpu) (n : Fin 256) (pad : BitVec 16) (err : Word)
    (last : GateCall H) (e : Cpu) : Prop where
  taken : takeInterrupt program t.idtTable c n pad err = some e
  /-- `generic_isr` finds this handler by the number in the frame. -/
  vecNo : (readFrame e.mem (frameOf e)).vecNo = BitVec.ofNat 32 n
  isr : t.isrTable n = some last.isr
  /-- The handler runs with interrupts enabled only behind a trap gate. -/
  enabled : e.eflags.getLsbD 9 = (c.eflags.getLsbD 9 && last.kind.leavesEnabled)
  /-- The return from the handler is to the interrupted state. -/
  restores : n ≠ 12 → ∀ c', Unchanged c e c' →
    let r := c'.run isrExit
    r.reg = c.reg ∧ r.seg = c.seg ∧ r.cs = c.cs ∧ r.eip = c.eip ∧ r.eflags = c.eflags

/-- After any calls of the gate functions, every interrupt reaches the handler that was registered last for its vector. -/
theorem interrupt_dispatch {program : Word → List Instr} (hprogram : ∀ n, program (stubs n) = (isrStub n).code ++ isrEntry next)
    (defaultIsr : H) (t : Tables H) (calls : List (GateCall H)) (c : Cpu) (n : Fin 256) (pad : BitVec 16) (err : Word) :
    ∃ e, Dispatched program (tablesAfter stubs defaultIsr t calls) c n pad err (registered defaultIsr calls n) e := by
  have hserves : Serves stubs _ n _ _ := serves_tablesAfter defaultIsr t calls n
  generalize registered defaultIsr calls n = last at hserves ⊢
  refine ⟨_, takeInterrupt_eq (hprogram n) hserves c pad err, vecNo_enter c n pad err next, hserves.isr, ?_, fun hn c' h => ?_⟩
  · change (c.eflags &&& ~~~(if last.kind.leavesEnabled then 0x34100 else 0x34300)).getLsbD 9 = _
    rw [BitVec.getLsbD_and, BitVec.getLsbD_not]
    cases last.kind.leavesEnabled <;> simp
  · exact restores hn ⟨h.esp, h.mem⟩

/-- Stubs sixteen bytes apart. -/
def spacedStubs (n : Fin 256) : Word := BitVec.ofNat 32 (16 * n)

def spacedProgram (a : Word) : List Instr := (isrStub ⟨a.toNat / 16 % 256, Nat.mod_lt _ (by decide)⟩).code ++ isrEntry 0x101000

theorem spacedProgram_stubs (n : Fin 256) : spacedProgram (spacedStubs n) = (isrStub n).code ++ isrEntry 0x101000 := by
  have hn : (⟨(spacedStubs n).toNat / 16 % 256, Nat.mod_lt _ (by decide)⟩ : Fin 256) = n := by
    apply Fin.ext
    simp only [spacedStubs, BitVec.toNat_ofNat]
    omega
  rw [spacedProgram, hn]

/-- The page fault of `main` behind the timer: handlers are numbers here. -/
theorem interrupt_dispatch_pageFault : ∃ e, Dispatched spacedProgram
    (tablesAfter spacedStubs 0 ⟨fun _ => ⟨0, 0⟩, fun _ => none⟩ [⟨.interrupt, 0x20, 1⟩, ⟨.trap, 0x0e, 2⟩]) interrupted 0x0e 0 0
    ⟨.trap, 0x0e, 2⟩ e :=
  interrupt_dispatch spacedProgram_stubs 0 ⟨fun _ => ⟨0, 0⟩, fun _ => none⟩ [⟨.interrupt, 0x20, 1⟩, ⟨.trap, 0x0e, 2⟩] interrupted
    0x0e 0 0

/-- Until `init_interrupt` every interrupt goes to `unknown_isr`. -/
theorem setInitIdt_gate (unknownIsr : Word) (idtStart : Fin 256 → IdtEntry) : ∃ idt, setInitIdt unknownIsr idtStart = .ok idt ∧
    ∀ n, (idt n).gate = some ⟨selKcseg, unknownIsr, 0, false⟩ := by
  refine ⟨_, setInitIdt_eq unknownIsr idtStart, fun n => ?_⟩
  rw [initEntry, gate_mk, if_pos (by decide), halves]
  rfl

end I386Kernel.Interrupt
