import I386Kernel.Block.Channel

/-!
# Signals on a channel

With ideal semaphores: which command's interrupt is outstanding or has been counted on `sema_wait` at each place of the request that has the channel, and how the device and `ide_interrupt` keep to it.
-/

namespace I386Kernel.Ide

variable {n : Nat}

/-! ## Signals -/

/-- No interrupt is outstanding and no signal is left over. -/
structure Quiet (m : Machine n (idealSema (Fin n))) : Prop where
  interrupts : m.interrupts = []
  count : m.semaWait = (0 : Int)
  handled : m.handled = m.released

/-- The interrupt of the command `id` has been raised, and has not been waited for. -/
inductive Signalled (m : Machine n (idealSema (Fin n))) (id : Nat) : Prop
  | raised (interrupts : m.interrupts = [id]) (count : m.semaWait = (0 : Int)) (handled : m.handled = m.released)
  | handled (interrupts : m.interrupts = []) (count : m.semaWait = (1 : Int)) (handled : m.handled = m.released ++ [id])

theorem Quiet.congr {m m' : Machine n (idealSema (Fin n))} (h : Quiet m) (hint : m'.interrupts = m.interrupts)
    (hwait : m'.semaWait = m.semaWait) (hhandled : m'.handled = m.handled) (hreleased : m'.released = m.released) :
    Quiet m' :=
  ⟨hint.trans h.interrupts, hwait.trans h.count, by rw [hhandled, hreleased, h.handled]⟩

theorem Signalled.congr {m m' : Machine n (idealSema (Fin n))} {id id' : Nat} (h : Signalled m id)
    (hint : m'.interrupts = m.interrupts) (hwait : m'.semaWait = m.semaWait) (hhandled : m'.handled = m.handled)
    (hreleased : m'.released = m.released) (hid : id' = id) : Signalled m' id' := by
  subst hid
  cases h with
  | raised h₁ h₂ h₃ => exact .raised (hint.trans h₁) (hwait.trans h₂) (by rw [hhandled, hreleased, h₃])
  | handled h₁ h₂ h₃ => exact .handled (hint.trans h₁) (hwait.trans h₂) (by rw [hhandled, hreleased, h₃])

/-- The device has answered a read: with an error, or with the words of a sector. -/
def Device.Answered (d : Device) : Prop := d = .idle ∨ ∃ c words, d = .dataIn c words ∧ words.length = 256

/-- The command of `a` runs, or it has ended and its interrupt is yet to be waited for. -/
inductive Waiting (m : Machine n (idealSema (Fin n))) (a : Active) : Prop
  | reading {c : Command} (hkind : a.req.kind ≠ .write) (hdevice : m.device = .busy c) (hid : c.id = a.cmd)
      (hcmd : c.kind ≠ .write) (hquiet : Quiet m)
  | answered (hkind : a.req.kind ≠ .write) (hdevice : m.device.Answered) (hsignal : Signalled m a.cmd)
  | writing {c : Command} {sector : Sector} (hkind : a.req.kind = .write) (hdevice : m.device = .writing c sector)
      (hid : c.id = a.cmd) (hquiet : Quiet m)
  | written (hkind : a.req.kind = .write) (hdevice : m.device = .idle) (hsignal : Signalled m a.cmd)

/-- When there is a signal to wait for, it is that of the request's own command. -/
theorem Waiting.count {m : Machine n (idealSema (Fin n))} {a : Active} (h : Waiting m a) : m.semaWait = (0 : Int) ∨
    (m.semaWait = (1 : Int) ∧ m.interrupts = [] ∧ m.handled = m.released ++ [a.cmd] ∧
      if a.req.kind = .write then m.device = .idle else m.device.Answered) := by
  cases h with
  | reading _ _ _ _ hquiet => exact Or.inl hquiet.count
  | writing _ _ _ hquiet => exact Or.inl hquiet.count
  | answered hkind hdevice hsignal =>
      rw [if_neg hkind]
      cases hsignal with
      | raised _ hcount _ => exact Or.inl hcount
      | handled hint hcount hhandled => exact Or.inr ⟨hcount, hint, hhandled, hdevice⟩
  | written hkind hdevice hsignal =>
      rw [if_pos hkind]
      cases hsignal with
      | raised _ hcount _ => exact Or.inl hcount
      | handled hint hcount hhandled => exact Or.inr ⟨hcount, hint, hhandled, hdevice⟩

/-- What `Waiting` says of the machine and of the request. -/
theorem Waiting.congr {m m' : Machine n (idealSema (Fin n))} {a a' : Active} (h : Waiting m a)
    (hint : m'.interrupts = m.interrupts) (hwait : m'.semaWait = m.semaWait) (hhandled : m'.handled = m.handled)
    (hreleased : m'.released = m.released) (hdevice : m'.device = m.device) (hreq : a'.req = a.req)
    (hcmd : a'.cmd = a.cmd) : Waiting m' a' := by
  have hquiet : Quiet m → Quiet m' := fun hq => hq.congr hint hwait hhandled hreleased
  have hsignal : Signalled m a.cmd → Signalled m' a'.cmd := fun hs => hs.congr hint hwait hhandled hreleased hcmd
  cases h with
  | reading hkind hd hid hc hq => exact .reading (hreq ▸ hkind) (hdevice.trans hd) (hid.trans hcmd.symm) hc (hquiet hq)
  | answered hkind hd hs => exact .answered (hreq ▸ hkind) (hdevice ▸ hd) (hsignal hs)
  | writing hkind hd hid hq => exact .writing (hreq ▸ hkind) (hdevice.trans hd) (hid.trans hcmd.symm) (hquiet hq)
  | written hkind hd hs => exact .written (hreq ▸ hkind) (hdevice.trans hd) (hsignal hs)

/-- The write `a` polls for the device to request its data. -/
inductive Asking (m : Machine n (idealSema (Fin n))) (a : Active) : Prop
  | busy {c : Command} (hdevice : m.device = .busy c) (hid : c.id = a.cmd) (hcmd : c.kind = .write) (hquiet : Quiet m)
  | asked {c : Command} (hdevice : m.device = .dataOut c []) (hid : c.id = a.cmd) (hquiet : Quiet m)
  | failed (hdevice : m.device = .idle) (hsignal : Signalled m a.cmd)

theorem Asking.congr {m m' : Machine n (idealSema (Fin n))} {a a' : Active} (h : Asking m a)
    (hint : m'.interrupts = m.interrupts) (hwait : m'.semaWait = m.semaWait) (hhandled : m'.handled = m.handled)
    (hreleased : m'.released = m.released) (hdevice : m'.device = m.device) (hcmd : a'.cmd = a.cmd) : Asking m' a' := by
  cases h with
  | busy hd hid hc hq => exact .busy (hdevice.trans hd) (hid.trans hcmd.symm) hc (hq.congr hint hwait hhandled hreleased)
  | asked hd hid hq => exact .asked (hdevice.trans hd) (hid.trans hcmd.symm) (hq.congr hint hwait hhandled hreleased)
  | failed hd hs => exact .failed (hdevice.trans hd) (hs.congr hint hwait hhandled hreleased hcmd)

/-- The device and the signals while `a` has the channel. -/
def Phase (m : Machine n (idealSema (Fin n))) (a : Active) : Prop :=
  match a.pc with
  | .rwDown | .rwWait => False
  | .waitDown | .waitWait => Waiting m a
  | .poll i => (i < 3000) ∧ if a.req.kind = .write then Asking m a else Quiet m ∧ m.device.Answered
  | .pollDrq => if a.req.kind = .write then Asking m a else Quiet m ∧ m.device.Answered
  | .transfer k =>
      if a.req.kind = .write then
        (k < 256 ∧ Quiet m ∧ ∃ c words, m.device = .dataOut c words ∧ c.id = a.cmd ∧ words.length = k) ∨
          (k = 256 ∧ Waiting m a)
      else Quiet m ∧ ((k < 256 ∧ ∃ c words, m.device = .dataIn c words ∧ words.length + k = 256) ∨
        (k = 256 ∧ m.device = .idle))
  | _ => Quiet m ∧ m.device = .idle

theorem phase_poll (m : Machine n (idealSema (Fin n))) {a : Active} {i : Nat} (hpc : a.pc = .poll i) :
    Phase m a = (i < 3000 ∧ if a.req.kind = .write then Asking m a else Quiet m ∧ m.device.Answered) := by
  rw [Phase, hpc]

theorem phase_pollDrq (m : Machine n (idealSema (Fin n))) {a : Active} (hpc : a.pc = .pollDrq) :
    Phase m a = if a.req.kind = .write then Asking m a else Quiet m ∧ m.device.Answered := by
  rw [Phase, hpc]

theorem phase_transfer (m : Machine n (idealSema (Fin n))) {a : Active} {k : Nat} (hpc : a.pc = .transfer k) :
    Phase m a = if a.req.kind = .write then
        (k < 256 ∧ Quiet m ∧ ∃ c words, m.device = .dataOut c words ∧ c.id = a.cmd ∧ words.length = k) ∨
          (k = 256 ∧ Waiting m a)
      else Quiet m ∧ ((k < 256 ∧ ∃ c words, m.device = .dataIn c words ∧ words.length + k = 256) ∨
        (k = 256 ∧ m.device = .idle)) := by
  rw [Phase, hpc]

/-! ## The device and its interrupts -/

theorem Device.Answered.bsy {d : Device} (h : d.Answered) : d.bsy = false := by
  obtain hidle | ⟨c, words, hdata, -⟩ := h
  · rw [hidle]
    rfl
  · rw [hdata]
    rfl

/-- The interrupt of a command is raised. -/
theorem Quiet.raise {m m' : Machine n (idealSema (Fin n))} {c : Command} {id : Nat} (h : Quiet m) (hid : c.id = id)
    (hint : m'.interrupts = m.interrupts ++ [c.id]) (hwait : m'.semaWait = m.semaWait) (hhandled : m'.handled = m.handled)
    (hreleased : m'.released = m.released) : Signalled m' id := by
  refine .raised ?_ (hwait.trans h.count) ?_
  · rw [hint, h.interrupts, hid]
    rfl
  · rw [hhandled, hreleased, h.handled]

theorem Waiting.device {m m' : Machine n (idealSema (Fin n))} {a : Active} {ok : Bool} (h : Waiting m a)
    (hstep : m.deviceStep ok = some m') : Waiting m' a := by
  cases h with
  | reading hkind hdevice hid hcmd hquiet =>
      obtain rfl | ⟨-, words, -, rfl⟩ | ⟨hwrite, -⟩ := m.deviceStep_busy hdevice hstep
      · exact .answered hkind (Or.inl rfl) (hquiet.raise hid rfl rfl rfl rfl)
      · exact .answered hkind (Or.inr ⟨_, words.1, rfl, words.2⟩) (hquiet.raise hid rfl rfl rfl rfl)
      · exact absurd hwrite hcmd
  | answered _ hdevice _ =>
      rw [m.deviceStep_eq_none hdevice.bsy] at hstep
      cases hstep
  | writing hkind hdevice hid hquiet =>
      rw [Machine.deviceStep, hdevice] at hstep
      cases hstep
      exact .written hkind rfl (hquiet.raise hid rfl rfl rfl rfl)
  | written _ hdevice _ =>
      rw [m.deviceStep_eq_none (by rw [hdevice]; rfl)] at hstep
      cases hstep

theorem Asking.device {m m' : Machine n (idealSema (Fin n))} {a : Active} {ok : Bool} (h : Asking m a)
    (hstep : m.deviceStep ok = some m') : Asking m' a := by
  cases h with
  | busy hdevice hid hcmd hquiet =>
      obtain rfl | ⟨hread, -⟩ | ⟨-, rfl⟩ := m.deviceStep_busy hdevice hstep
      · exact .failed rfl (hquiet.raise hid rfl rfl rfl rfl)
      · exact absurd hcmd hread
      · exact .asked rfl hid (hquiet.congr rfl rfl rfl rfl)
  | asked hdevice _ _ | failed hdevice _ =>
      rw [m.deviceStep_eq_none (by rw [hdevice]; rfl)] at hstep
      cases hstep

/-- Only a raised interrupt can be taken, and taking it counts the semaphore up. -/
theorem Signalled.interrupt {m m' : Machine n (idealSema (Fin n))} {id : Nat} (h : Signalled m id)
    (hstep : m.interrupt = some m') : m'.device = m.device ∧ Signalled m' id := by
  cases h with
  | raised hint hcount hhandled =>
      rw [Machine.interrupt, hint] at hstep
      cases hstep
      refine ⟨rfl, .handled rfl ?_ ?_⟩
      · show (m.semaWait + 1 : Int) = 1
        rw [hcount]
        rfl
      · show m.handled ++ [id] = _
        rw [hhandled]
  | handled hint _ _ =>
      rw [Machine.interrupt, hint] at hstep
      cases hstep

theorem Quiet.no_interrupt {m : Machine n (idealSema (Fin n))} (h : Quiet m) : m.interrupt = none := by
  rw [Machine.interrupt, h.interrupts]

theorem Waiting.interrupt {m m' : Machine n (idealSema (Fin n))} {a : Active} (h : Waiting m a)
    (hstep : m.interrupt = some m') : Waiting m' a := by
  cases h with
  | reading _ _ _ _ hquiet | writing _ _ _ hquiet =>
      rw [hquiet.no_interrupt] at hstep
      cases hstep
  | answered hkind hdevice hsignal =>
      obtain ⟨heq, hsignal'⟩ := hsignal.interrupt hstep
      exact .answered hkind (heq ▸ hdevice) hsignal'
  | written hkind hdevice hsignal =>
      obtain ⟨heq, hsignal'⟩ := hsignal.interrupt hstep
      exact .written hkind (heq.trans hdevice) hsignal'

theorem Asking.interrupt {m m' : Machine n (idealSema (Fin n))} {a : Active} (h : Asking m a)
    (hstep : m.interrupt = some m') : Asking m' a := by
  cases h with
  | busy _ _ _ hquiet | asked _ _ hquiet =>
      rw [hquiet.no_interrupt] at hstep
      cases hstep
  | failed hdevice hsignal =>
      obtain ⟨heq, hsignal'⟩ := hsignal.interrupt hstep
      exact .failed (heq.trans hdevice) hsignal'

/-- A step elsewhere keeps the phase, if it keeps what the request waits for or asks for, and a still channel as it is. -/
theorem Phase.change {m m' : Machine n (idealSema (Fin n))} {a : Active} (h : Phase m a)
    (hstill : Quiet m → m.device.bsy = false → Quiet m' ∧ m'.device = m.device) (hwaiting : Waiting m a → Waiting m' a)
    (hasking : Asking m a → Asking m' a) : Phase m' a := by
  have hidle : Quiet m ∧ m.device = .idle → Quiet m' ∧ m'.device = .idle := by
    intro hc
    obtain ⟨hquiet, hdevice⟩ := hstill hc.1 (by rw [hc.2]; rfl)
    exact ⟨hquiet, hdevice.trans hc.2⟩
  have hanswered : Quiet m ∧ m.device.Answered → Quiet m' ∧ m'.device.Answered := by
    intro hc
    obtain ⟨hquiet, hdevice⟩ := hstill hc.1 hc.2.bsy
    exact ⟨hquiet, hdevice ▸ hc.2⟩
  cases hpc : a.pc with
  | waitDown | waitWait =>
      rw [Phase, hpc] at h ⊢
      exact hwaiting h
  | poll i =>
      rw [phase_poll _ hpc] at h ⊢
      refine ⟨h.1, ?_⟩
      by_cases hkind : a.req.kind = .write
      · rw [if_pos hkind] at h ⊢
        exact hasking h.2
      · rw [if_neg hkind] at h ⊢
        exact hanswered h.2
  | pollDrq =>
      rw [phase_pollDrq _ hpc] at h ⊢
      by_cases hkind : a.req.kind = .write
      · rw [if_pos hkind] at h ⊢
        exact hasking h
      · rw [if_neg hkind] at h ⊢
        exact hanswered h
  | transfer k =>
      rw [phase_transfer _ hpc] at h ⊢
      by_cases hkind : a.req.kind = .write
      · rw [if_pos hkind] at h ⊢
        obtain ⟨hk, hquiet, c, words, hout, hid, hlength⟩ | ⟨hk, h⟩ := h
        · obtain ⟨hquiet', hdevice⟩ := hstill hquiet (by rw [hout]; rfl)
          exact Or.inl ⟨hk, hquiet', c, words, hdevice.trans hout, hid, hlength⟩
        · exact Or.inr ⟨hk, hwaiting h⟩
      · rw [if_neg hkind] at h ⊢
        obtain ⟨hquiet, ⟨hk, c, words, hin, hlength⟩ | ⟨hk, hin⟩⟩ := h
        · obtain ⟨hquiet', hdevice⟩ := hstill hquiet (by rw [hin]; rfl)
          exact ⟨hquiet', Or.inl ⟨hk, c, words, hdevice.trans hin, hlength⟩⟩
        · obtain ⟨hquiet', hdevice⟩ := hidle ⟨hquiet, hin⟩
          exact ⟨hquiet', Or.inr ⟨hk, hdevice⟩⟩
  | rwDown | rwWait =>
      rw [Phase, hpc] at h
      exact h.elim
  | idle₁ i | selectDisk | idle₂ i | outNsect | outLbal | outLbam | outLbah | outDevice | command | finish ok =>
      rw [Phase, hpc] at h ⊢
      exact hidle h

theorem Phase.congr {m m' : Machine n (idealSema (Fin n))} {a : Active} (h : Phase m a)
    (hint : m'.interrupts = m.interrupts) (hwait : m'.semaWait = m.semaWait) (hhandled : m'.handled = m.handled)
    (hreleased : m'.released = m.released) (hdevice : m'.device = m.device) : Phase m' a :=
  h.change (fun hq _ => ⟨hq.congr hint hwait hhandled hreleased, hdevice⟩)
    (fun hw => hw.congr hint hwait hhandled hreleased hdevice rfl rfl)
    fun ha => ha.congr hint hwait hhandled hreleased hdevice rfl

theorem Phase.device {m m' : Machine n (idealSema (Fin n))} {a : Active} {ok : Bool} (h : Phase m a)
    (hstep : m.deviceStep ok = some m') : Phase m' a := by
  refine h.change (fun _ hbsy => ?_) (fun hw => hw.device hstep) fun ha => ha.device hstep
  rw [m.deviceStep_eq_none hbsy] at hstep
  cases hstep

theorem Phase.interrupt {m m' : Machine n (idealSema (Fin n))} {a : Active} (h : Phase m a)
    (hstep : m.interrupt = some m') : Phase m' a := by
  refine h.change (fun hquiet _ => ?_) (fun hw => hw.interrupt hstep) fun ha => ha.interrupt hstep
  rw [hquiet.no_interrupt] at hstep
  cases hstep

end I386Kernel.Ide
