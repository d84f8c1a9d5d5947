import I386Kernel.Block.Handover
import I386Kernel.Block.SectorAddress

/-!
# The serial order of block requests

With the semaphores of the kernel: as long as `sema_rw` is not given out twice, none of its waiters goes on before it is woken, no `wait_until_idle` gives up on a busy device and the sector numbers fit the registers, the reads and writes of any number of tasks have the results and leave the contents of the same calls made one after the other. A `sema_down` that finds the unit a woken task has been promised lets two requests onto the registers at once.
-/

namespace I386Kernel.Ide.SerialOrder

variable {n : Nat}

abbrev Disk := Bool → Word → Sector

def Disk.write (disk : Disk) (dev : Bool) (sector : Word) (data : Sector) : Disk :=
  Function.update disk dev (Function.update (disk dev) sector data)

/-! ## Calls one after the other -/

/-- A read that has returned `BLOCK_SECTOR_SIZE` has read the sector it named. -/
def Correct (disk : Disk) (d : Done) : Prop :=
  match d.req with
  | .read dev sector => d.ok = true → d.buf = (disk dev sector).1
  | _ => True

/-- The contents after a call: a write that has returned `BLOCK_SECTOR_SIZE` has written the sector it named. -/
def after (d : Done) (disk : Disk) : Disk :=
  match d.req with
  | .write dev sector data => if d.ok then disk.write dev sector data else disk
  | _ => disk

/-- Made in this order from the first contents, the calls have these results and lead to the second contents. -/
inductive Replays : Disk → List Done → Disk → Prop
  | nil (disk : Disk) : Replays disk [] disk
  | cons {disk disk' : Disk} {d : Done} {ds : List Done} :
      Correct disk d → Replays (after d disk) ds disk' → Replays disk (d :: ds) disk'

theorem Replays.concat {disk disk' : Disk} {ds : List Done} {d : Done} (h : Replays disk ds disk')
    (hd : Correct disk' d) : Replays disk (ds ++ [d]) (after d disk') := by
  induction h with
  | nil disk => exact .cons hd (.nil _)
  | cons hfirst _ ih => exact .cons hfirst (ih hd)

/-- Calls none of which has written all find the first contents. -/
theorem Replays.correct {disk disk' : Disk} {ds : List Done} (h : Replays disk ds disk')
    (hread : ∀ d ∈ ds, d.ok = true → d.req.kind ≠ .write) : ∀ d ∈ ds, Correct disk d := by
  induction h with
  | nil disk =>
      intro d hd
      cases hd
  | cons hfirst _ ih =>
      rename_i disk _ e es _
      obtain ⟨he, hes⟩ := List.forall_mem_cons.mp hread
      have hsame : after e disk = disk := by
        rw [after]
        split
        · next hreq =>
            refine if_neg fun hok => he hok ?_
            rw [hreq]
            rfl
        · rfl
      rw [hsame] at ih
      exact List.forall_mem_cons.mpr ⟨hfirst, ih hes⟩

/-- The contents once the device has finished the write it is carrying out. -/
def settle (d : Device) (disk : Disk) : Disk :=
  match d with
  | .writing c sector => disk.write c.dev c.lba sector
  | _ => disk

/-- The calls that have returned have the results, and with no request in progress the disks have the contents, of the same calls made one after the other. -/
def Serial (disk₀ : Disk) (m : Machine n (codeSema (Fin n))) : Prop :=
  ∃ order disk, order.Perm m.completed ∧ Replays disk₀ order disk ∧ ((∀ t, m.active t = none) → settle m.device m.disk = disk)

/-- The requests are calls of `block_read` and `block_write`. -/
def BlockCall : Label n → Prop
  | .start _ req => req.kind ≠ .identify
  | _ => True

/-- A `sema_down(&sema_rw)` that goes on does not take a unit that is promised to a woken task, one that has had to wait goes on only when a `sema_up` has taken its task off the list, the last turn of `wait_until_idle` before the registers are written does not find the device busy, and the sector number has 28 bits. `identify_ata_device` is not called. -/
def Guarded (m : Machine n (codeSema (Fin n))) : Label n → Prop
  | .step t => ∀ a ∈ m.active t, (a.pc = .rwDown → m.semaRw.count ≤ 0 ∨ (m.semaRw.popped : Int) < m.semaRw.count) ∧
      (a.pc = .rwWait → t ∈ m.semaRw.woken) ∧ (a.pc = .idle₂ 999 → m.device.bsy = false ∧ m.device.drq = false)
  | .start _ req => req.kind ≠ .identify ∧ (m.accepts req = true → req.sector.toNat < 2 ^ 28)
  | _ => True

/-! ## What the device does for the owner -/

def returned (a : Active) (ok : Bool) : Done := ⟨a.req, a.buf, ok⟩

/-- The command is that of the request. -/
def Serves (c : Command) (req : Request) : Prop := c.kind = req.kind ∧ c.dev = req.dev ∧ c.lba = req.sector

/-- After the command and before the transfer. -/
inductive Executing (d : Device) (disk : Disk) (req : Request) : Prop
  | busy {c : Command} (hdevice : d = .busy c) (hserves : Serves c req)
  | failed (hdevice : d = .idle)
  | answered {c : Command} (hkind : req.kind = .read) (hdevice : d = .dataIn c (disk req.dev req.sector).1)
  | asked {c : Command} (hkind : req.kind = .write) (hdevice : d = .dataOut c []) (hserves : Serves c req)

/-- The first `k` writes of `select_sector` to the registers have been executed on an idle channel. -/
structure Ready (d : Device) (contents : Disk) (r : Regs) (disk : Disk) (a : Active) (k : Nat) : Prop where
  idle : d = .idle
  contents : contents = disk
  buf : a.buf = []
  written : ∃ r₀, r = ((selectSector a.req.dev a.req.sector).tail.take k).foldl Regs.outb r₀

structure Issued (d : Device) (contents : Disk) (disk : Disk) (req : Request) (buf : List (BitVec 16)) : Prop where
  contents : contents = disk
  buf : buf = []
  executing : Executing d disk req

/-- The words of the sector that are read, and those the device still holds. -/
def Fetching (d : Device) (contents : Disk) (disk : Disk) (a : Active) (k : Nat) : Prop :=
  contents = disk ∧ a.buf.length = k ∧ ∃ rest, a.buf ++ rest = (disk a.req.dev a.req.sector).1 ∧
    (rest = [] ∧ d = .idle ∨ ∃ c, d = .dataIn c rest)

/-- The words of the sector the device has been given. -/
def Storing (d : Device) (contents : Disk) (disk : Disk) (a : Active) (data : Sector) (k : Nat) : Prop :=
  (k < 256 ∧ contents = disk ∧ ∃ c, d = .dataOut c (data.1.take k) ∧ Serves c a.req) ∨
    (k = 256 ∧ settle d contents = after (returned a true) disk)

/-- The device, the contents of the disks and the registers while `a` has the channel, after calls that have left `disk`. -/
def Phase (d : Device) (contents : Disk) (r : Regs) (disk : Disk) (a : Active) : Prop :=
  match a.pc with
  | .rwDown => False
  | .rwWait | .idle₁ _ | .selectDisk | .idle₂ _ => settle d contents = disk ∧ a.buf = []
  | .outNsect => Ready d contents r disk a 0
  | .outLbal => Ready d contents r disk a 1
  | .outLbam => Ready d contents r disk a 2
  | .outLbah => Ready d contents r disk a 3
  | .outDevice => Ready d contents r disk a 4
  | .command => Ready d contents r disk a 5
  | .waitDown | .waitWait =>
      if a.req.kind = .write then settle d contents = after (returned a true) disk else Issued d contents disk a.req a.buf
  | .poll _ | .pollDrq => Issued d contents disk a.req a.buf
  | .transfer k =>
      match a.req with
      | .write _ _ data => Storing d contents disk a data k
      | _ => Fetching d contents disk a k
  | .finish ok => Correct disk (returned a ok) ∧ settle d contents = after (returned a ok) disk

theorem Executing.settle {d : Device} {contents disk : Disk} {req : Request} (h : Executing d disk req) :
    settle d contents = contents := by
  cases h with
  | busy hdevice _ | failed hdevice | answered _ hdevice | asked _ hdevice _ =>
      rw [hdevice]
      rfl

/-- A call that fails has read and written nothing. -/
theorem after_failed (a : Active) (disk : Disk) : after (returned a false) disk = disk := by
  rw [after]
  split
  · rfl
  · rfl

theorem correct_failed (a : Active) (disk : Disk) : Correct disk (returned a false) := by
  rw [Correct]
  split
  · exact fun hok => absurd hok Bool.false_ne_true
  · trivial

theorem correct_write {d : Done} (h : d.req.kind = .write) (disk : Disk) : Correct disk d := by
  rw [Correct]
  split
  · next hreq =>
      rw [hreq] at h
      cases h
  · trivial

/-- The registers address the sector of the request when the command is written. -/
theorem Ready.address {d : Device} {contents disk : Disk} {r : Regs} {a : Active} (h : Ready d contents r disk a 5)
    (hsector : a.req.sector.toNat < 2 ^ 28) : r.dev = a.req.dev ∧ r.lba = a.req.sector := by
  obtain ⟨r₀, hr⟩ := h.written
  have hfaithful := (faithful_iff r₀ a.req.dev a.req.sector).mpr hsector
  have hselected : r = selected r₀ a.req.dev a.req.sector := hr
  rw [Faithful, ← hselected] at hfaithful
  injection hfaithful with _ hfaithful
  injection hfaithful with hdev hlba
  exact ⟨hdev, hlba⟩

/-! ## A step of the device -/

variable {m m' : Machine n (codeSema (Fin n))} {disk : Disk}

theorem settle_of_bsy {d : Device} (h : d.bsy = false) (contents : Disk) : settle d contents = contents := by
  cases d with
  | busy c | writing c sector => cases h
  | idle | dataIn c words | dataOut c words => rfl

/-- A step of the device touches only the channel, and leaves the contents it has settled for. -/
theorem deviceStep_frame {ok : Bool} (hstep : m.deviceStep ok = some m') :
    m'.active = m.active ∧ m'.semaRw = m.semaRw ∧ m'.completed = m.completed ∧ m'.regs = m.regs ∧
      m'.nrSectors = m.nrSectors ∧ settle m'.device m'.disk = settle m.device m.disk := by
  cases hdevice : m.device with
  | busy c =>
      obtain rfl | ⟨-, words, -, rfl⟩ | ⟨-, rfl⟩ := m.deviceStep_busy hdevice hstep
      all_goals exact ⟨rfl, rfl, rfl, rfl, rfl, rfl⟩
  | writing c sector =>
      rw [Machine.deviceStep, hdevice] at hstep
      cases hstep
      exact ⟨rfl, rfl, rfl, rfl, rfl, rfl⟩
  | idle | dataIn c words | dataOut c words =>
      rw [m.deviceStep_eq_none (by rw [hdevice]; rfl)] at hstep
      cases hstep

theorem Issued.device {req : Request} {buf : List (BitVec 16)} {ok : Bool} (h : Issued m.device m.disk disk req buf) (hrw : req.kind ≠ .identify)
    (hstep : m.deviceStep ok = some m') : Issued m'.device m'.disk disk req buf := by
  obtain ⟨hcontents, hbuf, hexecuting⟩ := h
  cases hexecuting with
  | busy hdevice hserves =>
      rename_i c
      obtain ⟨hkind, hdev, hlba⟩ := hserves
      obtain rfl | ⟨hwrite, words, hwords, rfl⟩ | ⟨hwrite, rfl⟩ := m.deviceStep_busy hdevice hstep
      · exact ⟨hcontents, hbuf, .failed rfl⟩
      · have hread : c.kind = .read := by
          cases hc : c.kind with
          | read => rfl
          | identify => exact absurd (hkind.symm.trans hc) hrw
          | write => exact absurd hc hwrite
        have hsector : words = disk req.dev req.sector := by
          rw [hwords hread, hdev, hlba, hcontents]
        rw [hsector]
        exact ⟨hcontents, hbuf, .answered (hkind.symm.trans hread) rfl⟩
      · exact ⟨hcontents, hbuf, .asked (hkind.symm.trans hwrite) rfl ⟨hkind, hdev, hlba⟩⟩
  | failed hdevice | answered _ hdevice | asked _ hdevice _ =>
      rw [m.deviceStep_eq_none (by rw [hdevice]; rfl)] at hstep
      cases hstep

theorem Phase.device {a : Active} {ok : Bool} (h : Phase m.device m.disk m.regs disk a) (hrw : a.req.kind ≠ .identify)
    (hstep : m.deviceStep ok = some m') : Phase m'.device m'.disk m'.regs disk a := by
  obtain ⟨-, -, -, -, -, hsettle⟩ := deviceStep_frame hstep
  have still : ∀ {P : Prop}, m.device.bsy = false → P := by
    intro P hbsy
    rw [m.deviceStep_eq_none hbsy] at hstep
    cases hstep
  have ready : ∀ {P : Prop} {k : Nat}, Ready m.device m.disk m.regs disk a k → P := fun hready =>
    still (by rw [hready.idle]; rfl)
  cases hpc : a.pc with
  | rwDown =>
      rw [Phase, hpc] at h
      exact h.elim
  | rwWait | idle₁ i | selectDisk | idle₂ i | finish ok =>
      rw [Phase, hpc] at h ⊢
      rw [hsettle]
      exact h
  | outNsect | outLbal | outLbam | outLbah | outDevice | command =>
      rw [Phase, hpc] at h
      exact ready h
  | waitDown | waitWait =>
      rw [Phase, hpc] at h ⊢
      by_cases hkind : a.req.kind = .write
      · rw [if_pos hkind] at h ⊢
        exact hsettle.trans h
      · rw [if_neg hkind] at h ⊢
        exact h.device hrw hstep
  | poll i | pollDrq =>
      rw [Phase, hpc] at h ⊢
      exact h.device hrw hstep
  | transfer k =>
      rw [Phase, hpc] at h ⊢
      cases hreq : a.req with
      | write dev sector data =>
          rw [hreq] at h
          obtain ⟨-, -, c, hout, -⟩ | ⟨hk, hstored⟩ := h
          · exact still (by rw [hout]; rfl)
          · exact Or.inr ⟨hk, hsettle.trans hstored⟩
      | identify dev | read dev sector =>
          rw [hreq] at h
          obtain ⟨-, -, rest, -, ⟨-, hidle⟩ | ⟨c, hin⟩⟩ := h
          · exact still (by rw [hidle]; rfl)
          · exact still (by rw [hin]; rfl)

/-! ## The invariant -/

/-- The calls that have returned lead from the first contents to `disk`, and the request that has the channel goes on from there. -/
structure Inv (disk₀ : Disk) (m : Machine n (codeSema (Fin n))) (owner : Option (Fin n)) (disk : Disk) : Prop where
  requests : ∀ t a, m.active t = some a → a.req.kind ≠ .identify ∧ a.req.sector.toNat < 2 ^ 28
  queued : ∀ t a, m.active t = some a → (a.pc = .rwDown ∨ a.pc = .rwWait) → a.buf = []
  owns : Owns m owner
  replays : Replays disk₀ m.completed disk
  free : owner = none → settle m.device m.disk = disk
  phase : ∀ t, owner = some t → ∃ a, m.active t = some a ∧ Phase m.device m.disk m.regs disk a

namespace Inv

variable {disk₀ : Disk} {owner : Option (Fin n)} {t : Fin n} {a a' : Active}

theorem serial (h : Inv disk₀ m owner disk) : Serial disk₀ m := by
  refine ⟨m.completed, disk, .refl _, h.replays, fun hnone => h.free ?_⟩
  by_contra hne
  obtain ⟨t, ht⟩ := Option.ne_none_iff_exists'.mp hne
  obtain ⟨a, hactive, -⟩ := h.phase t ht
  rw [hnone t] at hactive
  cases hactive

theorem owner_ne (h : Inv disk₀ m owner disk) (hactive : m.active t = none) : owner ≠ some t := by
  intro heq
  obtain ⟨a, ha, -⟩ := h.phase t heq
  rw [hactive] at ha
  cases ha

/-- The requests and their buffers, when one of them goes on. -/
theorem requests_update (h : Inv disk₀ m owner disk) (hupdate : m'.active = Function.update m.active t (some a'))
    (hreq : a'.req.kind ≠ .identify ∧ a'.req.sector.toNat < 2 ^ 28)
    (hbuf : (a'.pc = .rwDown ∨ a'.pc = .rwWait) → a'.buf = []) :
    (∀ u b, m'.active u = some b → b.req.kind ≠ .identify ∧ b.req.sector.toNat < 2 ^ 28) ∧
      ∀ u b, m'.active u = some b → (b.pc = .rwDown ∨ b.pc = .rwWait) → b.buf = [] := by
  refine ⟨fun u b hb => ?_, fun u b hb hpc => ?_⟩
  · by_cases hut : u = t
    · rw [hut, hupdate, Function.update_self] at hb
      cases hb
      exact hreq
    · rw [hupdate, Function.update_of_ne hut] at hb
      exact h.requests u b hb
  · by_cases hut : u = t
    · rw [hut, hupdate, Function.update_self] at hb
      cases hb
      exact hbuf hpc
    · rw [hupdate, Function.update_of_ne hut] at hb
      exact h.queued u b hb hpc

theorem not_queued {a : Active} (h : inSection a = true) : ¬ (a.pc = .rwDown ∨ a.pc = .rwWait) := by
  rw [inSection] at h
  rintro (hpc | hpc)
  · rw [hpc] at h
    cases h
  · rw [hpc] at h
    cases h

/-- The request that has the channel goes on. -/
theorem advance (h : Inv disk₀ m (some t) disk) (a' : Active) (hactive : m.active t = some a)
    (hsection : inSection a = true) (hupdate : m'.active = Function.update m.active t (some a')) (hreq : a'.req = a.req)
    (hsection' : inSection a' = true) (hrw : m'.semaRw = m.semaRw) (hcompleted : m'.completed = m.completed)
    (hphase : Phase m'.device m'.disk m'.regs disk a') : Inv disk₀ m' (some t) disk := by
  have hne : a.pc ≠ .rwWait := fun hpc => not_queued hsection (Or.inr hpc)
  have hrequest := h.requests t a hactive
  obtain ⟨hrequests, hqueued⟩ := h.requests_update hupdate (hreq ▸ hrequest) fun hpc => absurd hpc (not_queued hsection')
  refine ⟨hrequests, hqueued, ?_, ?_, fun hnone => absurd hnone (Option.some_ne_none t), fun u hu => ?_⟩
  · exact h.owns.goto hupdate hrw (iff_of_true rfl hsection') (h.owns.not_woken hactive hne) (h.owns.not_wait hactive hne)
  · rw [hcompleted]
    exact h.replays
  · rw [← Option.some.inj hu, hupdate, Function.update_self]
    exact ⟨a', rfl, hphase⟩

/-- A write of `select_sector`. -/
theorem outb (h : Inv disk₀ m (some t) disk) (hactive : m.active t = some a) (hsection : inSection a = true) {k : Nat}
    {pc : Pc} {r : Regs} (hready : Ready m.device m.disk m.regs disk a k) (hpc : inSection { a with pc := pc } = true)
    (hwritten : ∀ r₀, m.regs = ((selectSector a.req.dev a.req.sector).tail.take k).foldl Regs.outb r₀ →
      r = ((selectSector a.req.dev a.req.sector).tail.take (k + 1)).foldl Regs.outb r₀)
    (hphase : Ready m.device m.disk r disk { a with pc := pc } (k + 1) →
      Phase m.device m.disk r disk { a with pc := pc }) :
    Inv disk₀ ({ m with regs := r }.setActive t (some { a with pc := pc })) (some t) disk := by
  obtain ⟨hidle, hcontents, hbuf, r₀, hr₀⟩ := hready
  exact h.advance { a with pc := pc } hactive hsection rfl rfl hpc rfl rfl
    (hphase ⟨hidle, hcontents, hbuf, r₀, hwritten r₀ hr₀⟩)

/-- Past `sema_down(&sema_wait)`, whatever it has waited for. -/
theorem pastWait (h : Inv disk₀ m (some t) disk) (hactive : m.active t = some a) (hsection : inSection a = true)
    (hphase : if a.req.kind = .write then settle m.device m.disk = after (returned a true) disk
      else Issued m.device m.disk disk a.req a.buf) (s : (codeSema (Fin n)).State) :
    Inv disk₀ (m.pastWait t a s) (some t) disk := by
  by_cases hkind : a.req.kind = .write
  · rw [if_pos hkind] at hphase
    rw [Machine.pastWait, if_pos hkind]
    exact h.advance { a with pc := .finish true } hactive hsection rfl rfl rfl rfl rfl
      ⟨correct_write (d := ⟨a.req, a.buf, true⟩) hkind disk, hphase⟩
  · rw [if_neg hkind] at hphase
    rw [Machine.pastWait, if_neg hkind]
    exact h.advance { a with pc := .poll 0 } hactive hsection rfl rfl rfl rfl rfl
      ⟨hphase.contents, hphase.buf, hphase.executing⟩

/-- A turn of `wait_while_busy`. -/
theorem poll (h : Inv disk₀ m (some t) disk) (hactive : m.active t = some a) (hsection : inSection a = true)
    (hissued : Issued m.device m.disk disk a.req a.buf) {i : Nat} (hpc : a.pc = .poll i) (hrun : m.run t a = some m') :
    Inv disk₀ m' (some t) disk := by
  obtain ⟨hcontents, hbuf, hexecuting⟩ := hissued
  rw [Machine.run, hpc] at hrun
  cases hrun
  by_cases hbsy : (!m.device.bsy) = true
  · rw [if_pos hbsy]
    exact h.advance { a with pc := .pollDrq } hactive hsection rfl rfl rfl rfl rfl ⟨hcontents, hbuf, hexecuting⟩
  · rw [if_neg hbsy]
    by_cases hlast : i + 1 = 3000
    · rw [if_pos hlast]
      refine h.advance { a with pc := .finish false } hactive hsection rfl rfl rfl rfl rfl
        ⟨correct_failed { a with pc := .finish false } disk, ?_⟩
      rw [after_failed]
      exact hexecuting.settle.trans hcontents
    · rw [if_neg hlast]
      exact h.advance { a with pc := .poll (i + 1) } hactive hsection rfl rfl rfl rfl rfl ⟨hcontents, hbuf, hexecuting⟩

/-- The end of `wait_while_busy`: with a request for data the transfer begins. -/
theorem pollDrq (h : Inv disk₀ m (some t) disk) (hactive : m.active t = some a) (hsection : inSection a = true)
    (hissued : Issued m.device m.disk disk a.req a.buf) (hpc : a.pc = .pollDrq) (hrun : m.run t a = some m') :
    Inv disk₀ m' (some t) disk := by
  obtain ⟨hcontents, hbuf, hexecuting⟩ := hissued
  rw [Machine.run, hpc] at hrun
  cases hrun
  by_cases hdrq : m.device.drq = true
  · rw [if_pos hdrq]
    refine h.advance { a with pc := .transfer 0 } hactive hsection rfl rfl rfl rfl rfl ?_
    show match a.req with | .write _ _ data => _ | _ => _
    cases hexecuting with
    | busy hdevice _ | failed hdevice =>
        rw [hdevice] at hdrq
        cases hdrq
    | answered hkind hdevice =>
        cases hreq : a.req with
        | write dev sector data | identify dev =>
            rw [hreq] at hkind
            cases hkind
        | read dev sector =>
            refine ⟨hcontents, congrArg List.length hbuf, _, ?_, Or.inr ⟨_, hdevice⟩⟩
            rw [hreq]
            show a.buf ++ _ = _
            rw [hbuf]
            rfl
    | asked hkind hdevice hserves =>
        cases hreq : a.req with
        | read dev sector | identify dev =>
            rw [hreq] at hkind
            cases hkind
        | write dev sector data =>
            rw [hreq] at hserves
            exact Or.inl ⟨by decide, hcontents, _, hdevice, hserves⟩
  · rw [if_neg hdrq]
    refine h.advance { a with pc := .finish false } hactive hsection rfl rfl rfl rfl rfl
      ⟨correct_failed { a with pc := .finish false } disk, ?_⟩
    rw [after_failed]
    exact hexecuting.settle.trans hcontents

/-- A word is read, or the whole sector has been. -/
theorem inputSector (h : Inv disk₀ m (some t) disk) (hactive : m.active t = some a) (hsection : inSection a = true)
    {k : Nat} {dev : Bool} {sector : Word} (hreq : a.req = .read dev sector)
    (hfetching : Fetching m.device m.disk disk a k) : Inv disk₀ (m.inputSector t a k) (some t) disk := by
  obtain ⟨hcontents, hlength, rest, hwords, hrest⟩ := hfetching
  have htotal : a.buf.length + rest.length = 256 := by
    rw [← List.length_append, hwords]
    exact (disk a.req.dev a.req.sector).2
  by_cases hk : k < 256
  · rw [Machine.inputSector, if_pos hk]
    refine h.advance { a with pc := .transfer (k + 1), buf := a.buf ++ [m.device.inw.1] } hactive hsection
      rfl rfl rfl rfl rfl ?_
    show match a.req with | .write _ _ data => _ | _ => _
    rw [hreq]
    obtain ⟨rfl, -⟩ | ⟨c, hin⟩ := hrest
    · rw [List.length_nil] at htotal
      omega
    · rw [hin]
      cases rest with
      | nil =>
          rw [List.length_nil] at htotal
          omega
      | cons w words =>
          refine ⟨hcontents, ?_, words, ?_, ?_⟩
          · show (a.buf ++ [w]).length = k + 1
            rw [List.length_append, hlength]
            rfl
          · show a.buf ++ [w] ++ words = (disk dev sector).1
            rw [hreq] at hwords
            rw [List.append_assoc]
            exact hwords
          · by_cases hnil : words = []
            · exact Or.inl ⟨hnil, if_pos hnil⟩
            · exact Or.inr ⟨c, if_neg hnil⟩
  · rw [Machine.inputSector, if_neg hk]
    have hnil : rest = [] := List.eq_nil_of_length_eq_zero (by omega)
    have hsettle : settle m.device m.disk = disk := by
      obtain ⟨-, hidle⟩ | ⟨c, hin⟩ := hrest
      · rw [hidle]
        exact hcontents
      · rw [hin]
        exact hcontents
    refine h.advance { a with pc := .finish true } hactive hsection rfl rfl rfl rfl rfl ⟨?_, ?_⟩
    · show match a.req with | .read dev sector => true = true → a.buf = (disk dev sector).1 | _ => True
      rw [hreq] at hwords ⊢
      rw [hnil, List.append_nil] at hwords
      exact fun _ => hwords
    · show settle m.device m.disk = match a.req with | .write dev sector data => _ | _ => disk
      rw [hreq]
      exact hsettle

/-- A word is written, or the whole sector has been. -/
theorem outputSector (h : Inv disk₀ m (some t) disk) (hactive : m.active t = some a) (hsection : inSection a = true)
    {k : Nat} {dev : Bool} {sector : Word} {data : Sector} (hreq : a.req = .write dev sector data)
    (hstoring : Storing m.device m.disk disk a data k) : Inv disk₀ (m.outputSector t a data k) (some t) disk := by
  obtain ⟨hk, hcontents, c, hout, hserves⟩ | ⟨rfl, hstored⟩ := hstoring
  · rw [Machine.outputSector, dif_pos hk]
    refine h.advance { a with pc := .transfer (k + 1) } hactive hsection rfl rfl rfl rfl rfl ?_
    show match a.req with | .write _ _ data => _ | _ => _
    rw [hreq]
    have hlength : k < data.1.length := by
      rw [data.2]
      exact hk
    have htake : data.1.take k ++ [data.1.get ⟨k, hlength⟩] = data.1.take (k + 1) := List.take_append_getElem hlength
    have htotal : (data.1.take (k + 1)).length = k + 1 := by
      rw [List.length_take, data.2]
      omega
    have houtw : m.device.outw (data.1.get ⟨k, hlength⟩) =
        if h : (data.1.take (k + 1)).length = 256 then .writing c ⟨data.1.take (k + 1), h⟩
        else .dataOut c (data.1.take (k + 1)) := by
      rw [hout, ← htake]
      rfl
    by_cases hlast : k + 1 = 256
    · refine Or.inr ⟨hlast, ?_⟩
      show settle (m.device.outw (data.1.get ⟨k, hlength⟩)) m.disk = disk.write dev sector data
      have hall : data.1.take (k + 1) = data.1 := List.take_of_length_le (by rw [data.2, hlast])
      have hdata : (⟨data.1.take (k + 1), htotal.trans hlast⟩ : Sector) = data := Subtype.ext hall
      obtain ⟨-, hdev, hlba⟩ := hserves
      rw [houtw, dif_pos (htotal.trans hlast), hdata]
      show Disk.write m.disk c.dev c.lba data = _
      rw [hdev, hlba, hcontents, hreq]
      rfl
    · refine Or.inl ⟨by omega, hcontents, c, ?_, hreq ▸ hserves⟩
      show m.device.outw (data.1.get ⟨k, hlength⟩) = _
      rw [houtw, dif_neg (by rw [htotal]; exact hlast)]
  · rw [Machine.outputSector, dif_neg (by decide)]
    refine h.advance { a with pc := .waitDown } hactive hsection rfl rfl rfl rfl rfl ?_
    show if a.req.kind = .write then _ else _
    rw [if_pos (by rw [hreq]; rfl)]
    exact hstored

/-- The request that has the channel returns. -/
theorem finish (h : Inv disk₀ m (some t) disk) (hactive : m.active t = some a) (hsection : inSection a = true) {ok : Bool}
    (hcorrect : Correct disk (returned a ok)) (hsettle : settle m.device m.disk = after (returned a ok) disk)
    (hdevice : m'.device = m.device) (hcontents : m'.disk = m.disk)
    (hupdate : m'.active = Function.update m.active t none) (hrw : m'.semaRw = (codeSema (Fin n)).up m.semaRw)
    (hcompleted : m'.completed = m.completed ++ [returned a ok]) :
    ∃ owner' disk', Inv disk₀ m' owner' disk' := by
  have hother : ∀ u b, m'.active u = some b → m.active u = some b := by
    intro u b hb
    by_cases hut : u = t
    · rw [hupdate, hut, Function.update_self] at hb
      cases hb
    · rw [hupdate, Function.update_of_ne hut] at hb
      exact hb
  have hrequests : ∀ u b, m'.active u = some b → b.req.kind ≠ .identify ∧ b.req.sector.toNat < 2 ^ 28 :=
    fun u b hb => h.requests u b (hother u b hb)
  have hqueued : ∀ u b, m'.active u = some b → (b.pc = .rwDown ∨ b.pc = .rwWait) → b.buf = [] :=
    fun u b hb => h.queued u b (hother u b hb)
  have hreplays : Replays disk₀ m'.completed (after (returned a ok) disk) := by
    rw [hcompleted]
    exact h.replays.concat hcorrect
  have hsettle' : settle m'.device m'.disk = after (returned a ok) disk := by
    rw [hdevice, hcontents]
    exact hsettle
  obtain howns | ⟨u, b, howns, hb, hpc⟩ := h.owns.leave hactive hsection hupdate hrw
  · exact ⟨none, _, hrequests, hqueued, howns, hreplays, fun _ => hsettle', fun u hu => absurd hu (Option.some_ne_none u).symm⟩
  · refine ⟨some u, _, hrequests, hqueued, howns, hreplays, fun hnone => absurd hnone (Option.some_ne_none u), fun v hv => ?_⟩
    rw [← Option.some.inj hv]
    refine ⟨b, hb, ?_⟩
    rw [Phase, hpc]
    exact ⟨hsettle', hqueued u b hb (Or.inr hpc)⟩

/-- A step of the request that has the channel. -/
theorem run (h : Inv disk₀ m (some t) disk) (hactive : m.active t = some a) (hsection : inSection a = true)
    (hok : a.pc = .idle₂ 999 → m.device.bsy = false ∧ m.device.drq = false) (hrun : m.run t a = some m') :
    ∃ owner' disk', Inv disk₀ m' owner' disk' := by
  obtain ⟨b, hb, hphase⟩ := h.phase t rfl
  rw [hactive] at hb
  cases hb
  have hrequest := h.requests t a hactive
  cases hpc : a.pc with
  | rwDown => exact absurd (Or.inl hpc) (not_queued hsection)
  | rwWait => exact absurd (Or.inr hpc) (not_queued hsection)
  | idle₁ i =>
      rw [Phase, hpc] at hphase
      rw [Machine.run, hpc] at hrun
      cases hrun
      by_cases hdone : m.idleDone i = true
      · rw [if_pos hdone]
        exact ⟨_, _, h.advance { a with pc := .selectDisk } hactive hsection rfl rfl rfl rfl rfl hphase⟩
      · rw [if_neg hdone]
        exact ⟨_, _, h.advance { a with pc := .idle₁ (i + 1) } hactive hsection rfl rfl rfl rfl rfl hphase⟩
  | selectDisk =>
      rw [Phase, hpc] at hphase
      rw [Machine.run, hpc] at hrun
      cases hrun
      exact ⟨_, _, h.advance { a with pc := .idle₂ 0 } hactive hsection rfl rfl rfl rfl rfl hphase⟩
  | idle₂ i =>
      rw [Phase, hpc] at hphase
      rw [hpc] at hok
      rw [Machine.run, hpc] at hrun
      cases hrun
      by_cases hdone : m.idleDone i = true
      · rw [if_pos hdone, if_neg hrequest.1]
        have hfree : m.device.bsy = false ∧ m.device.drq = false := by
          obtain hfree | hlast := Bool.or_eq_true_iff.mp hdone
          · simpa using hfree
          · refine hok (congrArg Pc.idle₂ ?_)
            have hturns := eq_of_beq hlast
            omega
        have hidle : m.device = .idle := by
          obtain ⟨hbsy, hdrq⟩ := hfree
          cases hdevice : m.device with
          | idle => rfl
          | busy c | writing c sector =>
              rw [hdevice] at hbsy
              cases hbsy
          | dataIn c words | dataOut c words =>
              rw [hdevice] at hdrq
              cases hdrq
        have hcontents : m.disk = disk := by
          rw [← hphase.1, settle_of_bsy hfree.1]
        exact ⟨_, _, h.advance { a with pc := .outNsect } hactive hsection rfl rfl rfl rfl rfl
          ⟨hidle, hcontents, hphase.2, m.regs, rfl⟩⟩
      · rw [if_neg hdone]
        exact ⟨_, _, h.advance { a with pc := .idle₂ (i + 1) } hactive hsection rfl rfl rfl rfl rfl hphase⟩
  | outNsect | outLbal | outLbam | outLbah | outDevice =>
      rw [Phase, hpc] at hphase
      rw [Machine.run, hpc] at hrun
      cases hrun
      refine ⟨_, _, h.outb hactive hsection hphase rfl (fun r₀ hr₀ => ?_) id⟩
      rw [hr₀]
      rfl
  | command =>
      rw [Phase, hpc] at hphase
      rw [Machine.run, hpc] at hrun
      cases hrun
      obtain ⟨hdev, hlba⟩ := hphase.address hrequest.2
      by_cases hkind : a.req.kind = .write
      · rw [if_pos hkind]
        exact ⟨_, _, h.advance { a with pc := .poll 0, cmd := m.commands } hactive hsection rfl rfl rfl rfl rfl
          ⟨hphase.contents, hphase.buf, .busy rfl ⟨rfl, hdev, hlba⟩⟩⟩
      · rw [if_neg hkind]
        refine ⟨_, _, h.advance { a with pc := .waitDown, cmd := m.commands } hactive hsection rfl rfl rfl rfl rfl ?_⟩
        show if a.req.kind = .write then _ else _
        rw [if_neg hkind]
        exact ⟨hphase.contents, hphase.buf, .busy rfl ⟨rfl, hdev, hlba⟩⟩
  | waitDown =>
      rw [Phase, hpc] at hphase
      rw [m.run_waitDown hpc] at hrun
      by_cases hpassed : ((codeSema (Fin n)).down t m.semaWait).2 = true
      · rw [if_pos hpassed] at hrun
        cases hrun
        exact ⟨_, _, h.pastWait hactive hsection hphase _⟩
      · rw [if_neg hpassed] at hrun
        cases hrun
        exact ⟨_, _, h.advance { a with pc := .waitWait } hactive hsection rfl rfl rfl rfl rfl hphase⟩
  | waitWait =>
      rw [Phase, hpc] at hphase
      rw [Machine.run, hpc] at hrun
      obtain ⟨s, -, rfl⟩ := Option.map_eq_some_iff.mp hrun
      exact ⟨_, _, h.pastWait hactive hsection hphase s⟩
  | poll i =>
      rw [Phase, hpc] at hphase
      exact ⟨_, _, h.poll hactive hsection hphase hpc hrun⟩
  | pollDrq =>
      rw [Phase, hpc] at hphase
      exact ⟨_, _, h.pollDrq hactive hsection hphase hpc hrun⟩
  | transfer k =>
      rw [Phase, hpc] at hphase
      obtain ⟨dev, sector, data, hreq, rfl⟩ | ⟨hkind, rfl⟩ := m.run_transfer hpc hrun
      · rw [hreq] at hphase
        exact ⟨_, _, h.outputSector hactive hsection hreq hphase⟩
      · cases hreq : a.req with
        | read dev sector =>
            rw [hreq] at hphase
            exact ⟨_, _, h.inputSector hactive hsection hreq hphase⟩
        | identify dev => exact absurd (congrArg Request.kind hreq) hrequest.1
        | write dev sector data => exact absurd (congrArg Request.kind hreq) hkind
  | finish ok =>
      rw [Phase, hpc] at hphase
      rw [Machine.run, hpc] at hrun
      cases hrun
      rw [if_neg hrequest.1]
      exact h.finish hactive hsection hphase.1 hphase.2 rfl rfl rfl rfl rfl

/-- A request that does not have the channel goes on or is made, and does not get it. -/
theorem outside (h : Inv disk₀ m owner disk) (hupdate : m'.active = Function.update m.active t (some a'))
    (hne : owner ≠ some t) (howns : Owns m' owner) (hreq : a'.req.kind ≠ .identify ∧ a'.req.sector.toNat < 2 ^ 28)
    (hbuf : a'.buf = []) (hcompleted : m'.completed = m.completed) (hdevice : m'.device = m.device)
    (hcontents : m'.disk = m.disk) (hregs : m'.regs = m.regs) : Inv disk₀ m' owner disk := by
  obtain ⟨hrequests, hqueued⟩ := h.requests_update hupdate hreq fun _ => hbuf
  refine ⟨hrequests, hqueued, howns, ?_, ?_, fun u hu => ?_⟩
  · rw [hcompleted]
    exact h.replays
  · rw [hdevice, hcontents]
    exact h.free
  · obtain ⟨b, hb, hphase⟩ := h.phase u hu
    rw [hdevice, hcontents, hregs, hupdate, Function.update_of_ne fun heq => hne (hu.trans (congrArg some heq))]
    exact ⟨b, hb, hphase⟩

/-- A request gets the channel. -/
theorem enter (h : Inv disk₀ m owner disk) (hactive : m.active t = some a)
    (hpc : a.pc = .rwDown ∨ a.pc = .rwWait) (hsettle : settle m.device m.disk = disk)
    (hupdate : m'.active = Function.update m.active t (some { a with pc := .idle₁ 0 })) (howns : Owns m' (some t))
    (hcompleted : m'.completed = m.completed) (hdevice : m'.device = m.device) (hcontents : m'.disk = m.disk) :
    Inv disk₀ m' (some t) disk := by
  have hbuf : a.buf = [] := h.queued t a hactive hpc
  obtain ⟨hrequests, hqueued⟩ := h.requests_update hupdate (h.requests t a hactive) fun _ => hbuf
  refine ⟨hrequests, hqueued, howns, ?_, fun hnone => absurd hnone (Option.some_ne_none t), fun u hu => ?_⟩
  · rw [hcompleted]
    exact h.replays
  · rw [← Option.some.inj hu, hupdate, Function.update_self, hdevice, hcontents]
    exact ⟨_, rfl, hsettle, hbuf⟩

/-- A step of a request that queues for the channel. -/
theorem queue (h : Inv disk₀ m owner disk) (hactive : m.active t = some a) (hsection : inSection a ≠ true)
    (hok : a.pc = .rwDown → m.semaRw.count ≤ 0 ∨ (m.semaRw.popped : Int) < m.semaRw.count)
    (hwoken : a.pc = .rwWait → t ∈ m.semaRw.woken) (hrun : m.run t a = some m') :
    ∃ owner' disk', Inv disk₀ m' owner' disk' := by
  have hrequest := h.requests t a hactive
  cases hpc : a.pc with
  | rwDown =>
      have hne : owner ≠ some t := by
        rw [Ne, h.owns.place t a hactive]
        exact not_or.mpr ⟨hsection, h.owns.not_woken hactive (by rw [hpc]; decide)⟩
      rw [m.run_rwDown hpc] at hrun
      cases hrun
      by_cases hzero : m.semaRw.count ≤ 0
      · have hdown : (codeSema (Fin n)).down t m.semaRw = ({ m.semaRw with wait := t :: m.semaRw.wait }, false) := if_pos hzero
        rw [hdown]
        exact ⟨_, _, h.outside rfl hne (h.owns.block hactive hpc rfl rfl rfl) hrequest (h.queued t a hactive (Or.inl hpc))
          rfl rfl rfl rfl⟩
      · have hdown : (codeSema (Fin n)).down t m.semaRw = ({ m.semaRw with count := m.semaRw.count - 1 }, true) := if_neg hzero
        rw [hdown]
        have hpass : owner = none ∧ Owns ({ m with semaRw := { m.semaRw with count := m.semaRw.count - 1 } }.setActive t
            (some { a with pc := .idle₁ 0 })) (some t) :=
          h.owns.pass hactive hpc ((hok hpc).resolve_left hzero) rfl rfl rfl
        obtain ⟨hnone, howns⟩ := hpass
        exact ⟨_, _, h.enter hactive (Or.inl hpc) (h.free hnone) rfl howns rfl rfl rfl⟩
  | rwWait =>
      rw [Machine.run, hpc] at hrun
      cases hrun
      have hresume : owner = some t ∧ Owns ({ m with semaRw := { m.semaRw with
          woken := m.semaRw.woken.erase t } }.setActive t (some { a with pc := .idle₁ 0 })) (some t) :=
        h.owns.resume hactive (hwoken hpc) rfl rfl rfl
      obtain ⟨howner, howns⟩ := hresume
      obtain ⟨b, hb, hphase⟩ := h.phase t howner
      rw [hactive] at hb
      cases hb
      rw [Phase, hpc] at hphase
      exact ⟨_, _, h.enter hactive (Or.inr hpc) hphase.1 rfl howns rfl rfl rfl⟩
  | idle₁ i | selectDisk | idle₂ i | outNsect | outLbal | outLbam | outLbah | outDevice | command | waitDown | waitWait
    | poll i | pollDrq | transfer k | finish ok =>
      rw [inSection, hpc] at hsection
      exact absurd rfl hsection

/-- The requests do not go on. -/
theorem change (h : Inv disk₀ m owner disk) (hactive : m'.active = m.active) (howns : Owns m' owner)
    (hcompleted : m'.completed = m.completed) (hsettle : settle m'.device m'.disk = settle m.device m.disk)
    (hphase : ∀ a, a.req.kind ≠ .identify → Phase m.device m.disk m.regs disk a → Phase m'.device m'.disk m'.regs disk a) :
    Inv disk₀ m' owner disk := by
  constructor
  · rw [hactive]
    exact h.requests
  · rw [hactive]
    exact h.queued
  · exact howns
  · rw [hcompleted]
    exact h.replays
  · rw [hsettle]
    exact h.free
  · rw [hactive]
    intro t ht
    obtain ⟨a, ha, hp⟩ := h.phase t ht
    exact ⟨a, ha, hphase a (h.requests t a ha).1 hp⟩

/-- Every guarded step keeps the invariant. -/
theorem next (h : Inv disk₀ m owner disk) {l : Label n} (hok : Guarded m l) (hnext : m.next l = some m') :
    ∃ owner' disk', Inv disk₀ m' owner' disk' := by
  cases l with
  | start t req =>
      cases hactive : m.active t with
      | some a =>
          rw [Machine.next, hactive] at hnext
          cases hnext
      | none =>
          rw [Machine.next, hactive] at hnext
          cases hnext
          by_cases haccepts : m.accepts req = true
          · rw [if_pos haccepts]
            have hne := h.owner_ne hactive
            have hentry : req.entry = .rwDown := by
              cases req with
              | identify dev => exact absurd rfl hok.1
              | read dev sector | write dev sector data => rfl
            have hplace : owner = some t ↔ inSection ⟨req, req.entry, 0, []⟩ = true := by
              rw [inSection, hentry]
              exact iff_of_false hne Bool.false_ne_true
            have hnot : ∀ {P : Prop}, (P ∧ ∃ a, m.active t = some a ∧ a.pc = .rwWait) → False := by
              rintro P ⟨-, a, ha, -⟩
              rw [hactive] at ha
              cases ha
            have howns : Owns (m.setActive t (some ⟨req, req.entry, 0, []⟩)) owner :=
              h.owns.goto rfl rfl hplace (fun hw => hnot (h.owns.woken t hw)) fun hw => hnot (h.owns.wait t hw)
            exact ⟨_, _, h.outside rfl hne howns ⟨hok.1, hok.2 haccepts⟩ rfl rfl rfl rfl rfl⟩
          · rw [if_neg haccepts]
            exact ⟨_, _, h⟩
  | step t =>
      obtain ⟨a, hactive, hrun⟩ := Option.bind_eq_some_iff.mp hnext
      obtain ⟨hdown, hwoken, hidle⟩ := hok a hactive
      by_cases hsection : inSection a = true
      · have howner := (h.owns.place t a hactive).mpr (Or.inl hsection)
        rw [howner] at h
        exact h.run hactive hsection hidle hrun
      · exact h.queue hactive hsection hdown hwoken hrun
  | device ok =>
      obtain ⟨hactive, hrw, hcompleted, -, -, hsettle⟩ := deviceStep_frame hnext
      exact ⟨_, _, h.change hactive (h.owns.congr hactive hrw) hcompleted hsettle fun a hkind hphase =>
        hphase.device hkind hnext⟩
  | interrupt =>
      cases hint : m.interrupts with
      | nil =>
          rw [Machine.next, Machine.interrupt, hint] at hnext
          cases hnext
      | cons id rest =>
          rw [Machine.next, Machine.interrupt, hint] at hnext
          cases hnext
          exact ⟨_, _, h.change rfl (h.owns.congr rfl rfl) rfl rfl fun _ _ hphase => hphase⟩
  | unlink t =>
      cases hnext
      exact ⟨_, _, h.change rfl (h.owns.unlink t rfl rfl) rfl rfl fun _ _ hphase => hphase⟩

end Inv

theorem Start.inv (h : Start m) : Inv m.disk m none m.disk := by
  obtain ⟨hrw, -, hdevice, -, hactive, -, -, hcompleted⟩ := h
  have hnone : ∀ t a, m.active t ≠ some a := by
    intro t a ha
    rw [hactive t] at ha
    cases ha
  refine ⟨fun t a ha => absurd ha (hnone t a), fun t a ha => absurd ha (hnone t a), ?_, ?_, fun _ => ?_,
    fun t ht => absurd ht (Option.some_ne_none t).symm⟩
  · constructor
    all_goals rw [hrw]
    · show (-2 ^ 31 : Int) ≤ 1
      decide
    · show (1 : Int) ≤ (0 : Nat) + 1
      decide
    · exact fun t a ha => absurd ha (hnone t a)
    · exact fun t ht => absurd ht List.not_mem_nil
    · exact fun t ht => absurd ht List.not_mem_nil
    · exact List.nodup_nil
  · rw [hcompleted]
    exact .nil _
  · rw [hdevice]
    rfl

theorem inv_run {disk₀ : Disk} {owner : Option (Fin n)} {ls : List (Label n)} (h : Inv disk₀ m owner disk)
    (hrun : ((system n (codeSema (Fin n))).restrict Guarded).Run m ls m') : ∃ owner' disk', Inv disk₀ m' owner' disk' := by
  induction hrun generalizing owner disk with
  | nil m => exact ⟨owner, disk, h⟩
  | cons hstep _ ih =>
      obtain ⟨owner₁, disk₁, hinv⟩ := h.next hstep.1 hstep.2
      exact ih hinv

/-- In every guarded run the calls that have returned are those of some sequential order. -/
theorem serial_of_guarded {ls : List (Label n)} (hstart : Start m)
    (hrun : ((system n (codeSema (Fin n))).restrict Guarded).Run m ls m') : Serial m.disk m' := by
  obtain ⟨owner, disk, hinv⟩ := inv_run (Start.inv hstart) hrun
  exact hinv.serial

/-! ## Three tasks -/

instance (m : Machine n (codeSema (Fin n))) (l : Label n) : Decidable (Guarded m l) :=
  match l with
  | .start _ req => inferInstanceAs (Decidable (req.kind ≠ .identify ∧ (m.accepts req = true → req.sector.toNat < 2 ^ 28)))
  | .step t => inferInstanceAs (Decidable (∀ a ∈ m.active t,
      (a.pc = .rwDown → m.semaRw.count ≤ 0 ∨ (m.semaRw.popped : Int) < m.semaRw.count) ∧
        (a.pc = .rwWait → t ∈ m.semaRw.woken) ∧ (a.pc = .idle₂ 999 → m.device.bsy = false ∧ m.device.drq = false)))
  | .device _ | .interrupt | .unlink _ => inferInstanceAs (Decidable True)

instance (l : Label n) : Decidable (BlockCall l) :=
  match l with
  | .start _ req => inferInstanceAs (Decidable (req.kind ≠ .identify))
  | .step _ | .device _ | .interrupt | .unlink _ => inferInstanceAs (Decidable True)

def filled (w : BitVec 16) : Sector := ⟨List.replicate 256 w, List.length_replicate ..⟩

/-- Three tasks on a channel whose first disk has two sectors with different contents. -/
def threeTasks : Machine 3 (codeSema (Fin 3)) where
  semaRw := ⟨1, [], [], 0⟩
  semaWait := ⟨0, [], [], 0⟩
  regs := ⟨0, 0, 0, 0, 0⟩
  device := .idle
  disk _ sector := if sector = 1 then filled 1 else filled 0
  info _ := filled 0
  nrSectors _ := 2
  interrupts := []
  active _ := none
  commands := 0
  handled := []
  released := []
  completed := []

theorem start_threeTasks : Start threeTasks := ⟨rfl, rfl, rfl, rfl, fun _ => rfl, rfl, rfl, rfl⟩

def steps (t : Fin 3) (k : Nat) : List (Label 3) := List.replicate k (.step t)

/-- A read of sector 1 by the first task. -/
def oneRead : List (Label 3) := .start 0 (.read false 1) :: steps 0 10 ++ [.device true, .interrupt] ++ steps 0 261

theorem serial_of_guarded_oneRead : ∃ m, ((system 3 (codeSema (Fin 3))).restrict Guarded).Run threeTasks oneRead m ∧
    (m.completed.map Done.ok = [true] ∧ m.completed.map Done.buf = [(filled 1).1]) ∧ Serial threeTasks.disk m := by
  have hview : ((TransitionSystem.exec (fun m l => if Guarded m l then Machine.next m l else none) threeTasks oneRead).map
      fun m => decide (m.completed.map Done.ok = [true] ∧ m.completed.map Done.buf = [(filled 1).1])) = some true := by
    decide +kernel
  obtain ⟨m, hexec, hview⟩ := Option.map_eq_some_iff.mp hview
  have hrun : ((system 3 (codeSema (Fin 3))).restrict Guarded).Run threeTasks oneRead m :=
    TransitionSystem.run_restrict_exec Guarded oneRead hexec
  exact ⟨m, hrun, of_decide_eq_true hview, serial_of_guarded start_threeTasks hrun⟩

/-- The first task's write fails and hands the channel to the second task, which waits to read sector 1; the third takes the unit that has been counted as well, and writes the registers for sector 0 before the second writes its command. -/
def overlap : List (Label 3) :=
  .start 0 (.write false 0 (filled 0)) :: steps 0 10 ++ .start 1 (.read false 1) :: steps 1 1 ++
    .device false :: .interrupt :: steps 0 3 ++ .start 2 (.read false 0) :: steps 2 1 ++ steps 1 9 ++ steps 2 8 ++
    steps 1 1 ++ .device true :: steps 1 261

/-- The call has read sector 1 of the first disk and returned other words. -/
def readsOther (d : Done) : Bool :=
  match d.req with
  | .read false 1 => d.ok && d.buf != (filled 1).1
  | _ => false

/-- Two requests at once mix their sectors. -/
theorem not_serial : ¬ ∀ n (m m' : Machine n (codeSema (Fin n))) ls, Start m →
    ((system n (codeSema (Fin n))).restrict fun _ => BlockCall).Run m ls m' → Serial m.disk m' := by
  intro h
  have hview : ((TransitionSystem.exec (fun m l => if BlockCall l then Machine.next m l else none) threeTasks overlap).map
      fun m => m.completed.all (fun d => !(d.ok && d.req.kind == .write)) && m.completed.any readsOther) = some true := by
    decide +kernel
  obtain ⟨m, hexec, hview⟩ := Option.map_eq_some_iff.mp hview
  obtain ⟨hall, hany⟩ := Bool.and_eq_true_iff.mp hview
  have hrun : ((system 3 (codeSema (Fin 3))).restrict fun _ => BlockCall).Run threeTasks overlap m :=
    TransitionSystem.run_restrict_exec (fun _ => BlockCall) overlap hexec
  obtain ⟨order, disk, hperm, hreplays, -⟩ := h 3 threeTasks m overlap start_threeTasks hrun
  obtain ⟨d, hd, hother⟩ := List.any_eq_true.mp hany
  have hread : ∀ e ∈ order, e.ok = true → e.req.kind ≠ .write := by
    intro e he hok hwrite
    have hno := List.all_eq_true.mp hall e (hperm.mem_iff.mp he)
    rw [hok, hwrite] at hno
    cases hno
  have hcorrect := hreplays.correct hread d (hperm.mem_iff.mpr hd)
  rw [readsOther] at hother
  split at hother
  · next hreq =>
      obtain ⟨hok, hbuf⟩ := Bool.and_eq_true_iff.mp hother
      rw [Correct, hreq] at hcorrect
      exact (bne_iff_ne.mp hbuf) (hcorrect hok)
  · cases hother

end I386Kernel.Ide.SerialOrder
