import I386Kernel.Block.Channel
import Mathlib.Tactic.IntervalCases

/-!
# The address of a sector

`select_sector` splits a sector number over the registers of the channel. Its top four bits share the device register with the selection of the disk and the addressing mode, and nothing keeps a disk from having more sectors than the remaining 28 bits can tell apart.
-/

namespace I386Kernel.Ide

/-- The registers `select_sector` writes. -/
inductive Reg where
  | nsect
  | lbal
  | lbam
  | lbah
  | device

/-- `outb` -/
def Regs.outb (r : Regs) (w : Reg × BitVec 8) : Regs :=
  match w.1 with
  | .nsect => { r with nsect := w.2 }
  | .lbal => { r with lbal := w.2 }
  | .lbam => { r with lbam := w.2 }
  | .lbah => { r with lbah := w.2 }
  | .device => { r with device := w.2 }

/-- The LBA mode bit. -/
def Regs.lbaMode (r : Regs) : Bool := r.device.getLsbD 6

/-- The writes of `select_sector`, with that of `select_disk` first. -/
def selectSector (dev : Bool) (sectNo : Word) : List (Reg × BitVec 8) :=
  [(.device, Machine.devRegVal dev), (.nsect, 1),
    (.lbal, sectNo.setWidth 8), (.lbam, (sectNo >>> 8).setWidth 8), (.lbah, (sectNo >>> 16).setWidth 8),
    (.device, Machine.devRegVal dev ||| 0x40 ||| (sectNo >>> 24).setWidth 8)]

def selected (r : Regs) (dev : Bool) (sectNo : Word) : Regs := (selectSector dev sectNo).foldl Regs.outb r

/-- What the registers address: the mode, the disk and the sector. -/
def Regs.address (r : Regs) : Bool × Bool × Word := (r.lbaMode, r.dev, r.lba)

/-- `valid_sector_no` -/
def validSectorNo (nrSectors sector : Word) : Bool := sector < nrSectors

/-- The registers address just this sector of just this disk. -/
def Faithful (r : Regs) (dev : Bool) (sectNo : Word) : Prop := (selected r dev sectNo).address = (true, dev, sectNo)

/-! ## The bits -/

theorem device_low (dev : Bool) (hi : BitVec 8) : (Machine.devRegVal dev ||| 0x40 ||| hi) &&& 0x0f = hi &&& 0x0f := by
  rw [BitVec.and_comm, BitVec.and_or_distrib_left, BitVec.and_comm hi]
  cases dev
  · rw [show (0x0f : BitVec 8) &&& (Machine.devRegVal false ||| 0x40) = 0#8 by decide, BitVec.zero_or]
  · rw [show (0x0f : BitVec 8) &&& (Machine.devRegVal true ||| 0x40) = 0#8 by decide, BitVec.zero_or]

/-- The bytes of a sector number, the last one cut to four bits. -/
theorem lba_bytes (s : Word) : (s.setWidth 8).setWidth 32 ||| (((s >>> 8).setWidth 8).setWidth 32 <<< 8) |||
    (((s >>> 16).setWidth 8).setWidth 32 <<< 16) ||| (((s >>> 24).setWidth 8 &&& 0x0f).setWidth 32 <<< 24) =
      s &&& 0x0fffffff := by
  apply BitVec.eq_of_getLsbD_eq
  intro i hi
  interval_cases i
  all_goals simp

variable (r : Regs)

theorem lba_selected (dev : Bool) (sectNo : Word) : (selected r dev sectNo).lba = sectNo &&& 0x0fffffff := by
  have hdevice : (selected r dev sectNo).device &&& (0x0f : BitVec 8) = (sectNo >>> 24).setWidth 8 &&& 0x0f :=
    device_low dev _
  rw [← lba_bytes, Regs.lba, hdevice]
  rfl

theorem address_selected (dev : Bool) (sectNo : Word) :
    (selected r dev sectNo).address = (true, dev || sectNo.getLsbD 28, sectNo &&& 0x0fffffff) := by
  have hmode : (selected r dev sectNo).lbaMode = true := by
    show (Machine.devRegVal dev ||| 0x40 ||| (sectNo >>> 24).setWidth 8).getLsbD 6 = true
    cases dev <;> simp [Machine.devRegVal]
  have hdev : (selected r dev sectNo).dev = (dev || sectNo.getLsbD 28) := by
    show (Machine.devRegVal dev ||| 0x40 ||| (sectNo >>> 24).setWidth 8).getLsbD 4 = _
    cases dev <;> simp [Machine.devRegVal]
  rw [Regs.address, hmode, hdev, lba_selected]

theorem toNat_low (s : Word) : (s &&& 0x0fffffff).toNat = s.toNat % 2 ^ 28 :=
  Nat.and_two_pow_sub_one_eq_mod s.toNat 28

theorem faithful_iff (dev : Bool) (sectNo : Word) : Faithful r dev sectNo ↔ sectNo.toNat < 2 ^ 28 := by
  rw [Faithful, address_selected]
  constructor
  · intro h
    have hlow : (sectNo &&& 0x0fffffff).toNat = sectNo.toNat := congrArg (fun a => a.2.2.toNat) h
    rw [toNat_low] at hlow
    omega
  · intro h
    have hbit : sectNo.getLsbD 28 = false := Nat.testBit_lt_two_pow h
    have hlow : sectNo &&& 0x0fffffff = sectNo := BitVec.eq_of_toNat_eq ((toNat_low sectNo).trans (Nat.mod_eq_of_lt h))
    rw [hbit, hlow, Bool.or_false]

/-! ## The two disks of a channel -/

/-- Every sector number that is accepted is addressed faithfully, and no two sectors by the same register values. -/
structure Addressable (r : Regs) (nrSectors : Bool → Word) : Prop where
  faithful : ∀ dev sectNo, validSectorNo (nrSectors dev) sectNo = true → Faithful r dev sectNo
  distinct : ∀ dev dev' s s', validSectorNo (nrSectors dev) s = true → validSectorNo (nrSectors dev') s' = true →
    (selected r dev s).address = (selected r dev' s').address → dev = dev' ∧ s = s'

theorem validSectorNo_iff (nrSectors sector : Word) : validSectorNo nrSectors sector = true ↔ sector.toNat < nrSectors.toNat := by
  rw [validSectorNo, decide_eq_true_iff, BitVec.lt_def]

/-- For all sector counts the disks of a channel may report. -/
theorem addressable_iff (nrSectors : Bool → Word) :
    (∀ dev sectNo, validSectorNo (nrSectors dev) sectNo = true → (Faithful r dev sectNo ↔ sectNo.toNat < 2 ^ 28)) ∧
      (Addressable r nrSectors ↔ ∀ dev, (nrSectors dev).toNat ≤ 2 ^ 28) := by
  refine ⟨fun dev sectNo _ => faithful_iff r dev sectNo, fun h dev => ?_, fun h => ?_⟩
  · -- the sector 2 ^ 28 would be accepted
    by_contra hlarge
    have hvalid : validSectorNo (nrSectors dev) (0x10000000 : Word) = true := by
      rw [validSectorNo_iff]
      exact Nat.lt_of_not_le hlarge
    exact absurd ((faithful_iff r dev _).mp (h.faithful dev _ hvalid)) (by decide)
  · have hfaithful : ∀ dev s, validSectorNo (nrSectors dev) s = true → Faithful r dev s := by
      intro dev s hvalid
      have hlt := (validSectorNo_iff ..).mp hvalid
      exact (faithful_iff r dev s).mpr (Nat.lt_of_lt_of_le hlt (h dev))
    refine ⟨hfaithful, fun dev dev' s s' hs hs' heq => ?_⟩
    rw [hfaithful dev s hs, hfaithful dev' s' hs'] at heq
    injection heq with _ heq
    injection heq with hdev hsect
    exact ⟨hdev, hsect⟩

/-- Sector 2 ^ 28 of the first disk of a channel is addressed as sector 0 of the second. -/
theorem not_addressable : ¬ ∀ r nrSectors, Addressable r nrSectors := by
  intro h
  have haddress := h ⟨0, 0, 0, 0, 0⟩ fun _ => 0x10000001
  have hsame := haddress.distinct false true 0x10000000 0 (by decide) (by decide) (by decide)
  exact absurd hsame.1 (by decide)

/-! ## In a request -/

namespace Machine

variable {n : Nat} {K : SemaKind (Fin n)}

theorem next_setActive (m : Machine n K) (t : Fin n) (a : Active) :
    (m.setActive t (some a)).next (.step t) = (m.setActive t (some a)).run t a := by
  show (Function.update m.active t (some a) t).bind _ = _
  rw [Function.update_self]
  rfl

theorem setActive_regs (m : Machine n K) (t : Fin n) (a b : Option Active) (regs : Regs) :
    ({ m.setActive t a with regs := regs } : Machine n K).setActive t b =
      ({ m with regs := regs } : Machine n K).setActive t b := by
  show ({ m with regs := regs, active := Function.update (Function.update m.active t a) t b } : Machine n K) = _
  rw [Function.update_idem]
  rfl

/-- The statements of a request from `outb(reg_nsect(chan), 1)` on leave what `select_sector` selects. -/
theorem exec_selectSector (m : Machine n K) (t : Fin n) (a : Active) (hpc : a.pc = .outNsect) :
    TransitionSystem.exec Machine.next (m.setActive t (some a)) (List.replicate 5 (.step t)) =
      some (({ m with regs := selected m.regs a.req.dev a.req.sector } : Machine n K).setActive t
        (some { a with pc := .command })) := by
  simp only [List.replicate, TransitionSystem.exec, next_setActive, run, hpc, setActive_regs, Option.bind_some]
  rfl

end Machine

end I386Kernel.Ide
