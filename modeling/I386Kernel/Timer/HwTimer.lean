import I386Kernel.Base
import Mathlib.Data.Nat.Basic

/-!
# The divisor of `devices/hw_timer.c`

`hw_timer_config` as the list of its port writes, and as much of the 8254 as they reach: a control word chooses a counter and its mode, then the count follows, the low byte first.
-/

namespace I386Kernel.HwTimer

/-! ## The 8254 -/

structure Counter where
  mode : BitVec 3
  /-- The low byte, while the high byte is awaited. -/
  low : Option (BitVec 8)
  count : BitVec 16

abbrev Pit := BitVec 2 → Counter

namespace Pit

variable (p : Pit)

/-- A control word; only the access that takes two bytes is of interest. -/
def control (b : BitVec 8) : Pit :=
  if b.extractLsb' 4 2 = 3 then
    Function.update p (b.extractLsb' 6 2) { p (b.extractLsb' 6 2) with mode := b.extractLsb' 1 3, low := none }
  else p

def data (c : BitVec 2) (b : BitVec 8) : Pit :=
  match (p c).low with
  | none => Function.update p c { p c with low := some b }
  | some low => Function.update p c { p c with low := none, count := b ++ low }

def outb (w : Word × BitVec 8) : Pit :=
  if w.1 = 0x43 then p.control w.2
  else if 0x40 ≤ w.1 ∧ w.1 < 0x43 then p.data (w.1.extractLsb' 0 2) w.2
  else p

/-- The number of input pulses in a period: a count of 0 stands for 65536. -/
def period (c : BitVec 2) : Nat := if (p c).count = 0 then 65536 else (p c).count.toNat

end Pit

/-! ## `hw_timer_config` -/

def timerCtrl : Word := 0x43

def timerData (channel : Word) : Word := 0x40 + channel

def tickHz : Nat := 1193180

def counter (frequency : Word) : BitVec 16 :=
  if frequency.toNat < tickHz / (1 <<< 16) then 0
  else if frequency.toNat > tickHz then 2
  else BitVec.ofNat 16 (tickHz / frequency.toNat)

def hwTimerConfig (channel mode frequency : Word) : List (Word × BitVec 8) :=
  if channel ≠ 0 ∧ channel ≠ 2 then []
  else if mode ≠ 2 ∧ mode ≠ 3 then []
  else
    [(timerCtrl, ((channel <<< 6) ||| 0x30 ||| (mode <<< 1)).setWidth 8),
      (timerData channel, (counter frequency).setWidth 8),
      (timerData channel, (counter frequency >>> 8).setWidth 8)]

/-- The timer after the port writes. -/
def configured (p : Pit) (channel mode frequency : Word) : Pit :=
  (hwTimerConfig channel mode frequency).foldl Pit.outb p

/-! ## The period -/

/-- `TICK_HZ / frequency` between 2 and 65536. -/
def divisor (frequency : Nat) : Nat := if frequency = 0 then 65536 else max 2 (min 65536 (tickHz / frequency))

theorem append_bytes (w : BitVec 16) : (w >>> 8).setWidth 8 ++ w.setWidth 8 = w := by
  apply BitVec.eq_of_getLsbD_eq
  intro i hi
  rw [BitVec.getLsbD_append, BitVec.getLsbD_setWidth, BitVec.getLsbD_setWidth, BitVec.getLsbD_ushiftRight]
  by_cases hlow : i < 8
  · rw [if_pos hlow, decide_eq_true hlow, Bool.true_and]
  · rw [if_neg hlow, decide_eq_true (by omega), Bool.true_and, Nat.add_sub_cancel' (Nat.le_of_not_lt hlow)]

namespace Pit

/-- The two bytes of a count, one after the other. -/
theorem data_data (p : Pit) {c : BitVec 2} (hlow : (p c).low = none) (w : BitVec 16) :
    (p.data c (w.setWidth 8)).data c ((w >>> 8).setWidth 8) =
      Function.update p c { p c with low := none, count := w } := by
  have hfirst : p.data c (w.setWidth 8) = Function.update p c { p c with low := some (w.setWidth 8) } := by
    rw [data, hlow]
  rw [hfirst, data, Function.update_self]
  show Function.update (Function.update p c _) c { p c with low := none, count := (w >>> 8).setWidth 8 ++ w.setWidth 8 } = _
  rw [append_bytes, Function.update_idem]

theorem outb_timerData (p : Pit) {channel : Word} (hchannel : channel = 0 ∨ channel = 2) (b : BitVec 8) :
    p.outb (timerData channel, b) = p.data (channel.setWidth 2) b := by
  have hport : timerData channel ≠ 0x43 ∧ (0x40 ≤ timerData channel ∧ timerData channel < 0x43) ∧
      (timerData channel).extractLsb' 0 2 = channel.setWidth 2 := by
    obtain rfl | rfl := hchannel <;> decide
  obtain ⟨hctrl, hdata, hcounter⟩ := hport
  rw [outb, if_neg hctrl, if_pos hdata, hcounter]

end Pit

theorem configured_eq (p : Pit) {channel mode : Word} (hchannel : channel = 0 ∨ channel = 2)
    (hmode : mode = 2 ∨ mode = 3) (frequency : Word) :
    configured p channel mode frequency =
      Function.update p (channel.setWidth 2) ⟨mode.setWidth 3, none, counter frequency⟩ := by
  let chosen : Pit :=
    Function.update p (channel.setWidth 2) { p (channel.setWidth 2) with mode := mode.setWidth 3, low := none }
  have hwrites : configured p channel mode frequency =
      (chosen.outb (timerData channel, (counter frequency).setWidth 8)).outb
        (timerData channel, (counter frequency >>> 8).setWidth 8) := by
    obtain rfl | rfl := hchannel <;> obtain rfl | rfl := hmode <;> rfl
  rw [Pit.outb_timerData _ hchannel, Pit.outb_timerData _ hchannel] at hwrites
  have hchosen : chosen (channel.setWidth 2) = { p (channel.setWidth 2) with mode := mode.setWidth 3, low := none } :=
    Function.update_self ..
  rw [hwrites, Pit.data_data chosen (by rw [hchosen]), hchosen, Function.update_idem]

theorem period_configured (p : Pit) {channel mode : Word} (hchannel : channel = 0 ∨ channel = 2)
    (hmode : mode = 2 ∨ mode = 3) (frequency : Word) :
    (configured p channel mode frequency).period (channel.setWidth 2) =
      if counter frequency = 0 then 65536 else (counter frequency).toNat := by
  rw [configured_eq p hchannel hmode, Pit.period, Function.update_self]

/-- The frequencies whose quotient is at least 2 and fits the counter, or is not used. -/
def Divides (frequency : Nat) : Prop :=
  frequency < 18 ∨ (18 < frequency ∧ frequency ≤ tickHz / 2) ∨ tickHz < frequency

instance : DecidablePred Divides := fun _ => inferInstanceAs (Decidable (_ ∨ _ ∨ _))

theorem counter_of_divides {frequency : Word} (h : Divides frequency.toNat) :
    (if counter frequency = 0 then 65536 else (counter frequency).toNat) = divisor frequency.toNat := by
  have hlt : frequency.toNat < tickHz / (1 <<< 16) ↔ frequency.toNat < 18 := Iff.rfl
  obtain hlow | ⟨hmin, hmax⟩ | hhigh := h
  · have hzero : counter frequency = 0 := if_pos (hlt.mpr hlow)
    rw [if_pos hzero, divisor]
    by_cases h0 : frequency.toNat = 0
    · rw [if_pos h0]
    · have hq : 65536 ≤ tickHz / frequency.toNat := by
        rw [Nat.le_div_iff_mul_le (by omega), tickHz]
        omega
      rw [if_neg h0, Nat.min_eq_left hq]
      rfl
  · have hq₁ : tickHz / frequency.toNat < 65536 := by
      rw [Nat.div_lt_iff_lt_mul (by omega), tickHz]
      omega
    have hq₂ : 2 ≤ tickHz / frequency.toNat := by
      rw [Nat.le_div_iff_mul_le (by omega)]
      rw [tickHz] at hmax ⊢
      omega
    have hq : counter frequency = BitVec.ofNat 16 (tickHz / frequency.toNat) := by
      rw [counter, if_neg (by rw [hlt]; omega), if_neg (by rw [tickHz] at hmax ⊢; omega)]
    have hnat : (counter frequency).toNat = tickHz / frequency.toNat := by
      rw [hq, BitVec.toNat_ofNat, Nat.mod_eq_of_lt hq₁]
    have hne : counter frequency ≠ 0 := by
      intro h0
      rw [h0] at hnat
      change 0 = _ at hnat
      omega
    rw [if_neg hne, hnat, divisor, if_neg (by omega), Nat.min_eq_right (Nat.le_of_lt hq₁), Nat.max_eq_right hq₂]
  · have htwo : counter frequency = 2 := by
      rw [counter, if_neg (by rw [hlt]; rw [tickHz] at hhigh; omega), if_pos hhigh]
    have hq : tickHz / frequency.toNat = 0 := Nat.div_eq_of_lt hhigh
    rw [htwo, if_neg (by decide), divisor, if_neg (by rw [tickHz] at hhigh; omega), hq]
    rfl

theorem counter_of_not_divides {frequency : Word} (h : ¬ Divides frequency.toNat) :
    (if counter frequency = 0 then 65536 else (counter frequency).toNat) ≠ divisor frequency.toNat := by
  by_cases h18 : frequency.toNat = 18
  · have hf : frequency = 18 := BitVec.eq_of_toNat_eq h18
    rw [hf]
    decide
  · -- the quotient is 1
    have hrange : tickHz / 2 < frequency.toNat ∧ frequency.toNat ≤ tickHz := by
      rw [Divides] at h
      omega
    have hq : tickHz / frequency.toNat = 1 := by
      rw [tickHz] at hrange ⊢
      exact Nat.div_eq_of_lt_le (by omega) (by omega)
    have hone : counter frequency = 1 := by
      rw [tickHz] at hrange
      rw [counter, if_neg (by show ¬ frequency.toNat < 18; omega), if_neg (by rw [tickHz]; omega), hq]
      rfl
    rw [hone, if_neg (by decide), divisor, if_neg (by rw [tickHz] at hrange; omega), hq]
    decide

theorem divisor_anti {f g : Nat} (hfg : f ≤ g) : divisor g ≤ divisor f := by
  by_cases hf : f = 0
  · rw [hf, divisor, divisor, if_pos rfl]
    split
    · exact Nat.le_refl _
    · omega
  · have hq : tickHz / g ≤ tickHz / f := Nat.div_le_div_left hfg (by omega)
    rw [divisor, divisor, if_neg hf, if_neg (by omega)]
    omega

/-- The period is the clamped quotient exactly for the frequencies that divide; among these a higher frequency has no longer period. -/
theorem hwTimerConfig_period_iff (p : Pit) {channel mode : Word} (hchannel : channel = 0 ∨ channel = 2)
    (hmode : mode = 2 ∨ mode = 3) (f g : Word) :
    ((configured p channel mode f).period (channel.setWidth 2) = divisor f.toNat ↔ Divides f.toNat) ∧
      (f ≤ g → Divides f.toNat → Divides g.toNat →
        (configured p channel mode g).period (channel.setWidth 2) ≤
          (configured p channel mode f).period (channel.setWidth 2)) := by
  rw [period_configured p hchannel hmode, period_configured p hchannel hmode]
  constructor
  · exact ⟨fun heq => by_contra fun h => counter_of_not_divides h heq, counter_of_divides⟩
  · intro hfg hf hg
    rw [counter_of_divides hf, counter_of_divides hg]
    exact divisor_anti (BitVec.le_def.mp hfg)

/-- The system tick. -/
theorem hwTimerConfig_period_tick :
    (configured (fun _ => ⟨0, none, 0⟩) 0 2 100).period 0 = divisor 100 ∧
      (configured (fun _ => ⟨0, none, 0⟩) 0 2 100).period 0 ≤ (configured (fun _ => ⟨0, none, 0⟩) 0 2 50).period 0 :=
  ⟨(hwTimerConfig_period_iff _ (Or.inl rfl) (Or.inl rfl) 100 100).1.mpr (by decide),
    (hwTimerConfig_period_iff _ (Or.inl rfl) (Or.inl rfl) 50 100).2 (by decide) (by decide) (by decide)⟩

/-- At 18 Hz the quotient 66287 is cut to 751. -/
theorem not_hwTimerConfig_period : ¬ ∀ (p : Pit) (channel mode f : Word), channel = 0 ∨ channel = 2 → mode = 2 ∨ mode = 3 →
    (configured p channel mode f).period (channel.setWidth 2) = divisor f.toNat := by
  intro h
  have h18 := h (fun _ => ⟨0, none, 0⟩) 0 2 18 (Or.inl rfl) (Or.inl rfl)
  rw [period_configured _ (Or.inl rfl) (Or.inl rfl)] at h18
  exact counter_of_not_divides (by decide) h18

end I386Kernel.HwTimer
