import I386Kernel.Block.Signals

/-!
# Commands and their interrupts

With ideal semaphores, every `sema_down(&sema_wait)` is released by the interrupt of its own command, and the count is 0 whenever no request is in progress, as long as every write is asked for its data and `identify_ata_device` has the channel to itself. A write that the device ends at once with an error leaves the signal of its interrupt behind.
-/

namespace I386Kernel.Ide

variable {n : Nat}

/-- The `k`-th `sema_down(&sema_wait)` to go on is that of the command whose interrupt was the `k`-th, and none is left over when no request is in progress. -/
def Paired (m : Machine n (idealSema (Fin n))) : Prop :=
  m.released <+: m.handled ∧ ((∀ t, m.active t = none) → m.semaWait = (0 : Int))

/-- `wait_while_busy` of a write comes to its end before its last turn finds the device busy, and the device requests data. `identify_ata_device` is called when no request is in progress, and no request is made before it has returned. -/
def Orderly (m : Machine n (idealSema (Fin n))) : Label n → Prop
  | .step t => ∀ a ∈ m.active t, a.req.kind = .write →
      (a.pc = .poll 2999 → m.device.bsy = false) ∧ (a.pc = .pollDrq → m.device.drq = true)
  | .start _ req => ∀ t, ∀ a ∈ m.active t, a.req.kind ≠ .identify ∧ req.kind ≠ .identify
  | _ => True

/-! ## The request that has the channel -/

def Active.inSection (a : Active) : Bool :=
  match a.pc with
  | .rwDown | .rwWait => false
  | _ => true

/-- The places up to the command. -/
def Pc.prepares : Pc → Bool
  | .idle₁ _ | .selectDisk | .idle₂ _ | .outNsect | .outLbal | .outLbam | .outLbah | .outDevice | .command => true
  | _ => false

theorem phase_of_prepares {m : Machine n (idealSema (Fin n))} (a : Active) (hpc : a.pc.prepares = true) (hquiet : Quiet m)
    (hidle : m.device = .idle) : Phase m a ∧ a.inSection = true := by
  rw [Phase, Active.inSection]
  generalize a.pc = pc at hpc
  cases pc <;> first | exact ⟨⟨hquiet, hidle⟩, rfl⟩ | cases hpc

/-- At most one request has the channel, and the device and the signals are where it has brought them. -/
structure Inv (m : Machine n (idealSema (Fin n))) (owner : Option (Fin n)) : Prop where
  owns : ∀ t a, m.active t = some a → (a.inSection = true ↔ owner = some t)
  free : owner = none → Quiet m ∧ m.device = .idle ∧ m.semaRw = (1 : Int)
  phase : ∀ t, owner = some t → ∃ a, m.active t = some a ∧ Phase m a ∧
    m.semaRw = (if a.req.kind = .identify then 1 else 0 : Int)
  alone : ∀ t a, m.active t = some a → a.req.kind = .identify → ∀ u, m.active u ≠ none → u = t
  queued : ∀ t a, m.active t = some a → a.inSection = false → a.req.kind ≠ .identify

namespace Inv

variable {m m' : Machine n (idealSema (Fin n))} {owner : Option (Fin n)} {t : Fin n} {a a' : Active}

theorem paired (h : Inv m owner) : Paired m := by
  have hsignal : ∀ {id}, Signalled m id → m.released <+: m.handled := by
    intro id hs
    cases hs with
    | raised _ _ hhandled => exact hhandled ▸ List.prefix_rfl
    | handled _ _ hhandled => exact hhandled ▸ List.prefix_append ..
  have hquiet : Quiet m → m.released <+: m.handled := fun hq => hq.handled ▸ List.prefix_rfl
  have hwaiting : ∀ {a}, Waiting m a → m.released <+: m.handled := by
    intro a hw
    cases hw with
    | reading _ _ _ _ hq => exact hquiet hq
    | answered _ _ hs => exact hsignal hs
    | writing _ _ _ hq => exact hquiet hq
    | written _ _ hs => exact hsignal hs
  have hasking : ∀ {a}, Asking m a → m.released <+: m.handled := by
    intro a hw
    cases hw with
    | busy _ _ _ hq => exact hquiet hq
    | asked _ _ hq => exact hquiet hq
    | failed _ hs => exact hsignal hs
  cases howner : owner with
  | none =>
      obtain ⟨hq, -, -⟩ := h.free howner
      exact ⟨hquiet hq, fun _ => hq.count⟩
  | some t =>
      obtain ⟨a, hactive, hphase, -⟩ := h.phase t howner
      refine ⟨?_, fun hnone => absurd (hactive.symm.trans (hnone t)) (Option.some_ne_none a)⟩
      unfold Phase at hphase
      split at hphase
      · exact hphase.elim
      · exact hphase.elim
      · exact hwaiting hphase
      · exact hwaiting hphase
      · obtain ⟨-, hphase⟩ := hphase
        split at hphase
        · exact hasking hphase
        · exact hquiet hphase.1
      · split at hphase
        · exact hasking hphase
        · exact hquiet hphase.1
      · split at hphase
        · obtain ⟨-, hq, -⟩ | ⟨-, hw⟩ := hphase
          · exact hquiet hq
          · exact hwaiting hw
        · exact hquiet hphase.1
      · exact hquiet hphase.1

/-- The request that has the channel goes on. -/
theorem advance (h : Inv m (some t)) (a' : Active) (hactive : m.active t = some a)
    (hupdate : m'.active = Function.update m.active t (some a')) (hreq : a'.req = a.req)
    (hsection : a'.inSection = true) (hrw : m'.semaRw = m.semaRw) (hphase : Phase m' a') : Inv m' (some t) := by
  have hself : m'.active t = some a' := by rw [hupdate, Function.update_self]
  have hother : ∀ u, u ≠ t → m'.active u = m.active u := fun u hu => by rw [hupdate, Function.update_of_ne hu]
  have hsome : ∀ u, m'.active u ≠ none → m.active u ≠ none := by
    intro u hu
    by_cases hut : u = t
    · rw [hut, hactive]
      exact Option.some_ne_none a
    · rwa [hother u hut] at hu
  refine ⟨fun u b hb => ?_, fun hnone => absurd hnone (Option.some_ne_none t), fun u hu => ?_, fun u b hb hkind v hv => ?_, fun u b hb hqueued => ?_⟩
  · by_cases hut : u = t
    · subst hut
      rw [hself] at hb
      cases hb
      exact iff_of_true hsection rfl
    · exact h.owns u b (hother u hut ▸ hb)
  · obtain rfl := Option.some.inj hu
    obtain ⟨b, hb, -, hsema⟩ := h.phase t rfl
    rw [hactive] at hb
    cases hb
    refine ⟨a', hself, hphase, ?_⟩
    rw [hrw, hreq]
    exact hsema
  · by_cases hut : u = t
    · subst hut
      rw [hself] at hb
      cases hb
      exact h.alone u a hactive (hreq ▸ hkind) v (hsome v hv)
    · exact h.alone u b (hother u hut ▸ hb) hkind v (hsome v hv)
  · by_cases hut : u = t
    · subst hut
      rw [hself] at hb
      cases hb
      rw [hsection] at hqueued
      cases hqueued
    · exact h.queued u b (hother u hut ▸ hb) hqueued

/-- A request that waits for the channel goes on waiting, or a new one is made. -/
theorem outside (h : Inv m owner) (ht : owner ≠ some t) (hupdate : m'.active = Function.update m.active t (some a'))
    (hsection : a'.inSection = false) (halone : ∀ u b, m.active u = some b → b.req.kind ≠ .identify)
    (hkind : a'.req.kind ≠ .identify)
    (hframe : Quiet m → Quiet m') (hphase : ∀ b, Phase m b → Phase m' b) (hdevice : m'.device = m.device)
    (hrw : m'.semaRw = m.semaRw) : Inv m' owner := by
  have hself : m'.active t = some a' := by rw [hupdate, Function.update_self]
  have hother : ∀ u, u ≠ t → m'.active u = m.active u := fun u hu => by rw [hupdate, Function.update_of_ne hu]
  refine ⟨fun u b hb => ?_, fun hnone => ?_, fun u hu => ?_, fun u b hb hkind' => ?_, fun u b hb hqueued => ?_⟩
  · by_cases hut : u = t
    · subst hut
      rw [hself] at hb
      cases hb
      exact iff_of_false (by rw [hsection]; exact Bool.false_ne_true) ht
    · exact h.owns u b (hother u hut ▸ hb)
  · obtain ⟨hq, hidle, hsema⟩ := h.free hnone
    exact ⟨hframe hq, hdevice.trans hidle, hrw.trans hsema⟩
  · obtain ⟨b, hb, hp, hsema⟩ := h.phase u hu
    refine ⟨b, (hother u fun hut => ht (hut ▸ hu)).trans hb, hphase b hp, hrw.trans hsema⟩
  · by_cases hut : u = t
    · subst hut
      rw [hself] at hb
      cases hb
      exact absurd hkind' hkind
    · exact absurd hkind' (halone u b (hother u hut ▸ hb))
  · by_cases hut : u = t
    · subst hut
      rw [hself] at hb
      cases hb
      exact hkind
    · exact h.queued u b (hother u hut ▸ hb) hqueued

/-- A request comes into the section. -/
theorem enter (h : Inv m none) (hupdate : m'.active = Function.update m.active t (some a'))
    (hpc : a'.pc = .idle₁ 0) (hquiet : Quiet m → Quiet m') (hdevice : m'.device = m.device)
    (hrw : m'.semaRw = (if a'.req.kind = .identify then 1 else 0 : Int))
    (halone : ∀ u b, m'.active u = some b → b.req.kind = .identify → ∀ v, m'.active v ≠ none → v = u) :
    Inv m' (some t) := by
  have hself : m'.active t = some a' := by rw [hupdate, Function.update_self]
  obtain ⟨hq, hidle, -⟩ := h.free rfl
  refine ⟨fun u b hb => ?_, fun hnone => absurd hnone (Option.some_ne_none t), fun u hu => ?_, halone, fun u b hb hqueued => ?_⟩
  · by_cases hut : u = t
    · subst hut
      rw [hself] at hb
      cases hb
      refine iff_of_true ?_ rfl
      rw [Active.inSection, hpc]
    · rw [hupdate, Function.update_of_ne hut] at hb
      rw [h.owns u b hb]
      exact iff_of_false (Option.some_ne_none u).symm fun heq => hut (Option.some.inj heq).symm
  · obtain rfl := Option.some.inj hu
    refine ⟨a', hself, ?_, hrw⟩
    rw [Phase, hpc]
    exact ⟨hquiet hq, hdevice.trans hidle⟩
  · by_cases hut : u = t
    · subst hut
      rw [hself] at hb
      cases hb
      rw [Active.inSection, hpc] at hqueued
      cases hqueued
    · rw [hupdate, Function.update_of_ne hut] at hb
      exact h.queued u b hb hqueued

/-- The request that has the channel returns. -/
theorem leave (h : Inv m (some t)) (hupdate : m'.active = Function.update m.active t none)
    (hquiet : Quiet m') (hdevice : m'.device = .idle) (hrw : m'.semaRw = (1 : Int)) : Inv m' none := by
  have hother : ∀ u b, m'.active u = some b → u ≠ t ∧ m.active u = some b := by
    intro u b hb
    by_cases hut : u = t
    · rw [hupdate, hut, Function.update_self] at hb
      cases hb
    · rw [hupdate, Function.update_of_ne hut] at hb
      exact ⟨hut, hb⟩
  refine ⟨fun u b hb => ?_, fun _ => ⟨hquiet, hdevice, hrw⟩, fun u hu => absurd hu (Option.some_ne_none u).symm, fun u b hb hkind v hv => ?_,
    fun u b hb => h.queued u b (hother u b hb).2⟩
  · obtain ⟨hut, hb⟩ := hother u b hb
    rw [h.owns u b hb]
    exact iff_of_false (fun heq => hut (Option.some.inj heq).symm) (Option.some_ne_none u).symm
  · obtain ⟨c, hc⟩ := Option.ne_none_iff_exists'.mp hv
    exact h.alone u b (hother u b hb).2 hkind v (by rw [(hother v c hc).2]; exact Option.some_ne_none c)

/-- A step up to the command. -/
theorem prepare (h : Inv m (some t)) (hactive : m.active t = some a) (hphase : Phase m a) {pc : Pc}
    (hpc : a.pc.prepares = true) (hpc' : pc.prepares = true)
    (hupdate : m'.active = Function.update m.active t (some { a with pc := pc })) (hint : m'.interrupts = m.interrupts)
    (hwait : m'.semaWait = m.semaWait) (hhandled : m'.handled = m.handled) (hreleased : m'.released = m.released)
    (hdevice : m'.device = m.device) (hrw : m'.semaRw = m.semaRw) : Inv m' (some t) := by
  obtain ⟨hquiet, hidle⟩ : Quiet m ∧ m.device = .idle := by
    rw [Phase] at hphase
    generalize a.pc = pc at hphase hpc
    cases pc <;> first | exact hphase | cases hpc
  have hquiet' : Quiet m' := hquiet.congr hint hwait hhandled hreleased
  obtain ⟨hphase', hsection⟩ := phase_of_prepares { a with pc := pc } hpc' hquiet' (hdevice.trans hidle)
  exact h.advance _ hactive hupdate rfl hsection hrw hphase'

/-- `sema_down(&sema_wait)` goes on only after the interrupt of the request's own command. -/
theorem pass (h : Inv m (some t)) (hactive : m.active t = some a) (hwaiting : Waiting m a)
    (hne : m.semaWait ≠ (0 : Int)) :
    m.semaWait = (1 : Int) ∧ Inv (m.pastWait t a (m.semaWait - 1 : Int)) (some t) := by
  obtain hzero | ⟨hone, hint, hhandled, hdevice⟩ := hwaiting.count
  · exact absurd hzero hne
  have hquiet : Quiet (m.pastWait t a (m.semaWait - 1 : Int)) := by
    refine ⟨hint, ?_, hhandled⟩
    show (m.semaWait - 1 : Int) = 0
    rw [hone]
    rfl
  refine ⟨hone, ?_⟩
  by_cases hkind : a.req.kind = Kind.write
  · rw [if_pos hkind] at hdevice
    refine h.advance { a with pc := .finish true } hactive ?_ rfl rfl rfl ⟨hquiet, hdevice⟩
    rw [Machine.pastWait, if_pos hkind]
    rfl
  · rw [if_neg hkind] at hdevice
    refine h.advance { a with pc := .poll 0 } hactive ?_ rfl rfl rfl ⟨by decide, ?_⟩
    · rw [Machine.pastWait, if_neg hkind]
      rfl
    · rw [if_neg hkind]
      exact ⟨hquiet, hdevice⟩

/-- A turn of `wait_while_busy`. -/
theorem poll (h : Inv m (some t)) (hactive : m.active t = some a) (hphase : Phase m a) {i : Nat} (hpc : a.pc = .poll i)
    (hok : a.req.kind = .write →
      (a.pc = .poll 2999 → m.device.bsy = false) ∧ (a.pc = .pollDrq → m.device.drq = true))
    (hrun : m.run t a = some m') : ∃ owner', Inv m' owner' := by
  rw [phase_poll m hpc] at hphase
  rw [hpc] at hok
  rw [Machine.run, hpc] at hrun
  obtain ⟨hi, hphase⟩ := hphase
  cases hrun
  cases hbsy : m.device.bsy with
  | false =>
      refine ⟨_, h.advance { a with pc := .pollDrq } hactive rfl rfl rfl rfl ?_⟩
      by_cases hkind : a.req.kind = Kind.write
      · rw [if_pos hkind] at hphase
        rw [phase_pollDrq _ rfl, if_pos hkind]
        exact hphase.congr rfl rfl rfl rfl rfl rfl
      · rw [if_neg hkind] at hphase
        rw [phase_pollDrq _ rfl, if_neg hkind]
        exact ⟨hphase.1.congr rfl rfl rfl rfl, hphase.2⟩
  | true =>
      by_cases hkind : a.req.kind = Kind.write
      · rw [if_pos hkind] at hphase
        have hlast : i + 1 ≠ 3000 := by
          intro hlast
          have hfree := (hok hkind).1 (congrArg Pc.poll (by omega))
          rw [hbsy] at hfree
          cases hfree
        rw [if_neg hlast]
        refine ⟨_, h.advance { a with pc := .poll (i + 1) } hactive rfl rfl rfl rfl ⟨by omega, ?_⟩⟩
        rw [if_pos hkind]
        exact hphase.congr rfl rfl rfl rfl rfl rfl
      · rw [if_neg hkind] at hphase
        obtain ⟨-, hidle | ⟨c, words, hdata, -⟩⟩ := hphase
        · rw [hidle] at hbsy
          cases hbsy
        · rw [hdata] at hbsy
          cases hbsy

/-- The end of `wait_while_busy`. -/
theorem pollDrq (h : Inv m (some t)) (hactive : m.active t = some a) (hphase : Phase m a) (hpc : a.pc = .pollDrq)
    (hok : a.req.kind = .write →
      (a.pc = .poll 2999 → m.device.bsy = false) ∧ (a.pc = .pollDrq → m.device.drq = true))
    (hrun : m.run t a = some m') : ∃ owner', Inv m' owner' := by
  rw [phase_pollDrq m hpc] at hphase
  rw [hpc] at hok
  rw [Machine.run, hpc] at hrun
  cases hrun
  by_cases hkind : a.req.kind = Kind.write
  · rw [if_pos hkind] at hphase
    have hdrq := (hok hkind).2 rfl
    rw [if_pos hdrq]
    refine ⟨_, h.advance { a with pc := .transfer 0 } hactive rfl rfl rfl rfl ?_⟩
    rw [phase_transfer _ rfl, if_pos hkind]
    cases hphase with
    | busy hd => rw [hd] at hdrq; cases hdrq
    | failed hd => rw [hd] at hdrq; cases hdrq
    | asked hd hid hq => exact Or.inl ⟨by decide, hq.congr rfl rfl rfl rfl, _, [], hd, hid, rfl⟩
  · rw [if_neg hkind] at hphase
    obtain ⟨hquiet, hidle | ⟨c, words, hdata, hlength⟩⟩ := hphase
    · rw [if_neg (by rw [hidle]; exact Bool.false_ne_true)]
      exact ⟨_, h.advance { a with pc := .finish false } hactive rfl rfl rfl rfl
        ⟨hquiet.congr rfl rfl rfl rfl, hidle⟩⟩
    · rw [if_pos (by rw [hdata]; rfl)]
      refine ⟨_, h.advance { a with pc := .transfer 0 } hactive rfl rfl rfl rfl ?_⟩
      rw [phase_transfer _ rfl, if_neg hkind]
      exact ⟨hquiet.congr rfl rfl rfl rfl, Or.inl ⟨by decide, c, words, hdata, hlength⟩⟩

theorem outputSector (h : Inv m (some t)) (hactive : m.active t = some a) (hphase : Phase m a) {k : Nat}
    (hpc : a.pc = .transfer k) (hkind : a.req.kind = .write) (data : Sector) :
    ∃ owner', Inv (m.outputSector t a data k) owner' := by
  rw [phase_transfer m hpc] at hphase
  rw [if_pos hkind] at hphase
  obtain ⟨hk, hquiet, c, words, hdevice, hid, hlength⟩ | ⟨rfl, hwaiting⟩ := hphase
  · rw [Machine.outputSector, dif_pos hk]
    refine ⟨_, h.advance { a with pc := .transfer (k + 1) } hactive rfl rfl rfl rfl ?_⟩
    rw [phase_transfer _ rfl, if_pos hkind]
    generalize data.1.get _ = w
    have hquiet' : Quiet ({ m with device := m.device.outw w }.setActive t
        (some { a with pc := .transfer (k + 1) })) := hquiet.congr rfl rfl rfl rfl
    have hlength' : (words ++ [w]).length = k + 1 := by
      rw [List.length_append, hlength]
      rfl
    by_cases hlast : k + 1 = 256
    · have hout : m.device.outw w = .writing c ⟨words ++ [w], hlength'.trans hlast⟩ := by
        rw [hdevice]
        exact dif_pos (hlength'.trans hlast)
      exact Or.inr ⟨hlast, .writing hkind hout hid hquiet'⟩
    · refine Or.inl ⟨by omega, hquiet', c, words ++ [w], ?_, hid, hlength'⟩
      show m.device.outw w = _
      rw [hdevice]
      exact dif_neg (hlength' ▸ hlast)
  · rw [Machine.outputSector, dif_neg (by decide)]
    exact ⟨_, h.advance { a with pc := .waitDown } hactive rfl rfl rfl rfl
      (hwaiting.congr rfl rfl rfl rfl rfl rfl rfl)⟩

theorem inputSector (h : Inv m (some t)) (hactive : m.active t = some a) (hphase : Phase m a) {k : Nat}
    (hpc : a.pc = .transfer k) (hkind : a.req.kind ≠ .write) : ∃ owner', Inv (m.inputSector t a k) owner' := by
  rw [phase_transfer m hpc] at hphase
  rw [if_neg hkind] at hphase
  obtain ⟨hquiet, ⟨hk, c, words, hdevice, hlength⟩ | ⟨rfl, hidle⟩⟩ := hphase
  · rw [Machine.inputSector, if_pos hk]
    refine ⟨_, h.advance { a with pc := .transfer (k + 1), buf := a.buf ++ [m.device.inw.1] } hactive
      rfl rfl rfl rfl ?_⟩
    rw [phase_transfer _ rfl, if_neg hkind]
    refine ⟨hquiet.congr rfl rfl rfl rfl, ?_⟩
    show (k + 1 < 256 ∧ ∃ c words, m.device.inw.2 = .dataIn c words ∧ words.length + (k + 1) = 256) ∨
      (k + 1 = 256 ∧ m.device.inw.2 = .idle)
    rw [hdevice]
    cases words with
    | nil => exact absurd hlength (by rw [List.length_nil]; omega)
    | cons w words =>
        rw [List.length_cons] at hlength
        by_cases hnil : words = []
        · refine Or.inr ⟨?_, if_pos hnil⟩
          rw [hnil, List.length_nil] at hlength
          omega
        · have hpos := List.length_pos_iff.mpr hnil
          exact Or.inl ⟨by omega, c, words, if_neg hnil, by omega⟩
  · rw [Machine.inputSector, if_neg (by decide)]
    exact ⟨_, h.advance { a with pc := .finish true } hactive rfl rfl rfl rfl
      ⟨hquiet.congr rfl rfl rfl rfl, hidle⟩⟩

/-- A step of the request that has the channel. -/
theorem run (h : Inv m (some t)) (hactive : m.active t = some a) (hphase : Phase m a)
    (hok : a.req.kind = .write →
      (a.pc = .poll 2999 → m.device.bsy = false) ∧ (a.pc = .pollDrq → m.device.drq = true))
    (hrun : m.run t a = some m') : ∃ owner', Inv m' owner' := by
  cases hpc : a.pc with
  | rwDown =>
      rw [Phase, hpc] at hphase
      exact hphase.elim
  | rwWait =>
      rw [Phase, hpc] at hphase
      exact hphase.elim
  | idle₁ i =>
      rw [Machine.run, hpc] at hrun
      cases hrun
      refine ⟨_, h.prepare hactive hphase (by rw [hpc]; rfl) ?_ rfl rfl rfl rfl rfl rfl rfl⟩
      split <;> rfl
  | selectDisk | outNsect | outLbal | outLbam | outLbah | outDevice =>
      rw [Machine.run, hpc] at hrun
      cases hrun
      exact ⟨_, h.prepare hactive hphase (by rw [hpc]; rfl) rfl rfl rfl rfl rfl rfl rfl rfl⟩
  | idle₂ i =>
      rw [Machine.run, hpc] at hrun
      cases hrun
      refine ⟨_, h.prepare hactive hphase (by rw [hpc]; rfl) ?_ rfl rfl rfl rfl rfl rfl rfl⟩
      split
      · split <;> rfl
      · rfl
  | command =>
      rw [Phase, hpc] at hphase
      obtain ⟨hquiet, -⟩ := hphase
      rw [Machine.run, hpc] at hrun
      cases hrun
      by_cases hkind : a.req.kind = Kind.write
      · rw [if_pos hkind]
        refine ⟨_, h.advance _ hactive rfl rfl rfl rfl ⟨by decide, ?_⟩⟩
        rw [if_pos hkind]
        exact .busy rfl rfl hkind ⟨hquiet.1, hquiet.2, hquiet.3⟩
      · rw [if_neg hkind]
        exact ⟨_, h.advance _ hactive rfl rfl rfl rfl (.reading hkind rfl rfl hkind ⟨hquiet.1, hquiet.2, hquiet.3⟩)⟩
  | waitDown =>
      rw [Phase, hpc] at hphase
      rw [m.run_waitDown hpc] at hrun
      by_cases hzero : m.semaWait = (0 : Int)
      · have hdown : (idealSema (Fin n)).down t m.semaWait = (m.semaWait, false) := by
          rw [hzero]
          rfl
        rw [hdown] at hrun
        cases hrun
        exact ⟨_, h.advance _ hactive rfl rfl rfl rfl (hphase.congr rfl rfl rfl rfl rfl rfl rfl)⟩
      · obtain ⟨hone, hinv⟩ := h.pass hactive hphase hzero
        have hdown : (idealSema (Fin n)).down t m.semaWait = ((m.semaWait - 1 : Int), true) := by
          rw [hone]
          rfl
        rw [hdown] at hrun
        cases hrun
        exact ⟨_, hinv⟩
  | waitWait =>
      rw [Phase, hpc] at hphase
      rw [Machine.run, hpc] at hrun
      obtain ⟨s, hresume, rfl⟩ := Option.map_eq_some_iff.mp hrun
      obtain ⟨hpos, heq⟩ := Option.ite_none_right_eq_some.mp hresume
      cases heq
      exact ⟨_, (h.pass hactive hphase (Int.ne_of_gt hpos)).2⟩
  | poll i => exact h.poll hactive hphase hpc hok hrun
  | pollDrq => exact h.pollDrq hactive hphase hpc hok hrun
  | transfer k =>
      obtain ⟨dev, sector, data, hreq, rfl⟩ | ⟨hkind, rfl⟩ := m.run_transfer hpc hrun
      · exact h.outputSector hactive hphase hpc (by rw [hreq]; rfl) data
      · exact h.inputSector hactive hphase hpc hkind
  | finish ok =>
      rw [Phase, hpc] at hphase
      obtain ⟨hquiet, hidle⟩ := hphase
      rw [Machine.run, hpc] at hrun
      obtain ⟨b, hb, -, hrw⟩ := h.phase t rfl
      rw [hactive] at hb
      cases hb
      cases hrun
      by_cases hkind : a.req.kind = Kind.identify
      · rw [if_pos hkind] at hrw ⊢
        exact ⟨_, h.leave rfl ⟨hquiet.1, hquiet.2, hquiet.3⟩ hidle hrw⟩
      · rw [if_neg hkind] at hrw ⊢
        refine ⟨_, h.leave rfl ⟨hquiet.1, hquiet.2, hquiet.3⟩ hidle ?_⟩
        show (m.semaRw + 1 : Int) = 1
        rw [hrw]
        rfl

/-- The device and its interrupts leave the requests where they are. -/
theorem change (h : Inv m owner) (hactive : m'.active = m.active) (hrw : m'.semaRw = m.semaRw)
    (hmoves : ¬ (Quiet m ∧ m.device = .idle)) (hphase : ∀ b, Phase m b → Phase m' b) : Inv m' owner := by
  constructor
  · rw [hactive]
    exact h.owns
  · intro hnone
    obtain ⟨hquiet, hidle, -⟩ := h.free hnone
    exact absurd ⟨hquiet, hidle⟩ hmoves
  · rw [hactive, hrw]
    intro u hu
    obtain ⟨b, hb, hp, hsema⟩ := h.phase u hu
    exact ⟨b, hb, hphase b hp, hsema⟩
  · rw [hactive]
    exact h.alone
  · rw [hactive]
    exact h.queued

theorem device (h : Inv m owner) {ok : Bool} (hstep : m.deviceStep ok = some m') : Inv m' owner := by
  have hframe : m'.active = m.active ∧ m'.semaRw = m.semaRw := by
    cases hdevice : m.device with
    | busy c =>
        obtain rfl | ⟨-, words, -, rfl⟩ | ⟨-, rfl⟩ := m.deviceStep_busy hdevice hstep
        all_goals exact ⟨rfl, rfl⟩
    | writing c sector =>
        rw [Machine.deviceStep, hdevice] at hstep
        cases hstep
        exact ⟨rfl, rfl⟩
    | idle | dataIn c words | dataOut c words =>
        rw [m.deviceStep_eq_none (by rw [hdevice]; rfl)] at hstep
        cases hstep
  refine h.change hframe.1 hframe.2 (fun hc => ?_) fun b hp => hp.device hstep
  rw [m.deviceStep_eq_none (by rw [hc.2]; rfl)] at hstep
  cases hstep

theorem interrupt (h : Inv m owner) (hstep : m.interrupt = some m') : Inv m' owner := by
  have hframe : m'.active = m.active ∧ m'.semaRw = m.semaRw := by
    rw [Machine.interrupt] at hstep
    split at hstep
    · cases hstep
    · cases hstep
      exact ⟨rfl, rfl⟩
  refine h.change hframe.1 hframe.2 (fun hc => ?_) fun b hp => hp.interrupt hstep
  rw [hc.1.no_interrupt] at hstep
  cases hstep

/-- A request that is made: `identify_ata_device` has the channel at once, the others queue for it. -/
theorem start (h : Inv m owner) {req : Request} (hidle : m.active t = none)
    (hok : ∀ u, ∀ b ∈ m.active u, b.req.kind ≠ .identify ∧ req.kind ≠ .identify) :
    ∃ owner', Inv (m.setActive t (some ⟨req, req.entry, 0, []⟩)) owner' := by
  by_cases hkind : req.kind = .identify
  · have hnone : ∀ u, m.active u = none := by
      intro u
      by_contra hne
      obtain ⟨b, hb⟩ := Option.ne_none_iff_exists'.mp hne
      exact (hok u b hb).2 hkind
    have howner : owner = none := by
      by_contra hne
      obtain ⟨u, hu⟩ := Option.ne_none_iff_exists'.mp hne
      obtain ⟨b, hb, -⟩ := h.phase u hu
      rw [hnone u] at hb
      cases hb
    rw [howner] at h
    have hpc : req.entry = .idle₁ 0 := by
      cases req with
      | identify dev => rfl
      | read dev sector | write dev sector data => cases hkind
    refine ⟨_, h.enter rfl hpc (fun hq => hq.congr rfl rfl rfl rfl) rfl ?_ fun u b hb _ v hv => ?_⟩
    · rw [if_pos hkind]
      exact (h.free rfl).2.2
    · have hself : ∀ w, Function.update m.active t (some ⟨req, req.entry, 0, []⟩) w ≠ none → w = t := by
        intro w hw
        by_contra hne
        rw [Function.update_of_ne hne] at hw
        exact hw (hnone w)
      have hb' : Function.update m.active t (some ⟨req, req.entry, 0, []⟩) u = some b := hb
      rw [hself u (by rw [hb']; exact Option.some_ne_none b), hself v hv]
  · have hsection : Active.inSection ⟨req, req.entry, 0, []⟩ = false := by
      cases req with
      | identify dev => exact absurd rfl hkind
      | read dev sector | write dev sector data => rfl
    have howner : owner ≠ some t := by
      intro heq
      obtain ⟨b, hb, -⟩ := h.phase t heq
      rw [hidle] at hb
      cases hb
    exact ⟨owner, h.outside howner rfl hsection (fun u b hb => (hok u b hb).1) hkind
      (fun hq => hq.congr rfl rfl rfl rfl) (fun b hp => hp.congr rfl rfl rfl rfl rfl) rfl rfl⟩

/-- A step of a request that queues for the channel. -/
theorem queue (h : Inv m owner) (ht : owner ≠ some t) (hactive : m.active t = some a) (hrun : m.run t a = some m') :
    ∃ owner', Inv m' owner' := by
  have hsection : a.inSection = false := by
    rw [← Bool.not_eq_true, h.owns t a hactive]
    exact ht
  have hkind := h.queued t a hactive hsection
  have halone : ∀ u b, m.active u = some b → b.req.kind ≠ .identify := by
    intro u b hb hid
    have heq := h.alone u b hb hid t (by rw [hactive]; exact Option.some_ne_none a)
    rw [← heq, hactive] at hb
    cases hb
    exact hkind hid
  have hcount : owner = none ∨ m.semaRw = (0 : Int) := by
    refine Or.imp_right ?_ (Option.eq_none_or_eq_some owner)
    rintro ⟨u, hu⟩
    obtain ⟨b, hb, -, hrw⟩ := h.phase u hu
    rw [hrw, if_neg (halone u b hb)]
  have pass : owner = none → m' = { m with semaRw := (0 : Int) }.setActive t (some { a with pc := .idle₁ 0 }) →
      Inv m' (some t) := by
    rintro rfl rfl
    refine h.enter rfl rfl (fun hq => hq.congr rfl rfl rfl rfl) rfl (if_neg hkind).symm fun u b hb hid => ?_
    by_cases hut : u = t
    · rw [hut] at hb
      have hb' : Function.update m.active t (some { a with pc := .idle₁ 0 }) t = some b := hb
      rw [Function.update_self] at hb'
      cases hb'
      exact absurd hid hkind
    · have hb' : Function.update m.active t (some { a with pc := .idle₁ 0 }) u = some b := hb
      rw [Function.update_of_ne hut] at hb'
      exact absurd hid (halone u b hb')
  cases hpc : a.pc with
  | rwDown =>
      rw [m.run_rwDown hpc] at hrun
      cases hrun
      obtain hnone | hzero := hcount
      · have hdown : (idealSema (Fin n)).down t m.semaRw = ((0 : Int), true) := by
          rw [(h.free hnone).2.2]
          rfl
        rw [hdown] at pass ⊢
        exact ⟨_, pass hnone rfl⟩
      · have hdown : (idealSema (Fin n)).down t m.semaRw = (m.semaRw, false) := by
          rw [hzero]
          rfl
        rw [hdown]
        exact ⟨_, h.outside ht rfl rfl halone hkind (fun hq => hq.congr rfl rfl rfl rfl)
          (fun b hp => hp.congr rfl rfl rfl rfl rfl) rfl rfl⟩
  | rwWait =>
      rw [Machine.run, hpc] at hrun
      obtain ⟨s, hresume, heq⟩ := Option.bind_eq_some_iff.mp hrun
      obtain ⟨hpos, hs⟩ := Option.ite_none_right_eq_some.mp hresume
      cases heq
      obtain hnone | hzero := hcount
      · refine ⟨_, pass hnone ?_⟩
        have hone : m.semaRw = (1 : Int) := (h.free hnone).2.2
        rw [← Option.some.inj hs, hone]
        rfl
      · rw [hzero] at hpos
        exact absurd hpos (by decide)
  | idle₁ i | selectDisk | idle₂ i | outNsect | outLbal | outLbam | outLbah | outDevice | command | waitDown | waitWait
    | poll i | pollDrq | transfer k | finish ok =>
      rw [Active.inSection, hpc] at hsection
      cases hsection

/-- Every orderly step keeps the invariant. -/
theorem next (h : Inv m owner) {l : Label n} (hok : Orderly m l) (hnext : m.next l = some m') :
    ∃ owner', Inv m' owner' := by
  cases l with
  | start t req =>
      cases hactive : m.active t with
      | some a =>
          rw [Machine.next, hactive] at hnext
          cases hnext
      | none =>
          rw [Machine.next, hactive] at hnext
          cases hnext
          by_cases haccepts : m.accepts req = true
          · rw [if_pos haccepts]
            exact h.start hactive hok
          · rw [if_neg haccepts]
            exact ⟨owner, h⟩
  | step t =>
      obtain ⟨a, hactive, hrun⟩ := Option.bind_eq_some_iff.mp hnext
      by_cases ht : owner = some t
      · rw [ht] at h
        obtain ⟨b, hb, hphase, -⟩ := h.phase t rfl
        rw [hactive] at hb
        cases hb
        exact h.run hactive hphase (hok a hactive) hrun
      · exact h.queue ht hactive hrun
  | device ok => exact ⟨owner, h.device hnext⟩
  | interrupt => exact ⟨owner, h.interrupt hnext⟩
  | unlink t =>
      cases hnext
      exact ⟨owner, h⟩

end Inv

theorem Start.inv {m : Machine n (idealSema (Fin n))} (h : Start m) : Inv m none := by
  obtain ⟨hrw, hwait, hdevice, hint, hactive, hhandled, hreleased, -⟩ := h
  have hnone : ∀ t a, m.active t ≠ some a := by
    intro t a ha
    rw [hactive t] at ha
    cases ha
  refine ⟨fun t a ha => absurd ha (hnone t a), fun _ => ⟨⟨hint, hwait, hhandled.trans hreleased.symm⟩, hdevice, hrw⟩,
    fun t ht => ?_, fun t a ha => absurd ha (hnone t a), fun t a ha => absurd ha (hnone t a)⟩
  cases ht

/-- In every orderly run the signals are those of the commands that are waited for. -/
theorem inv_reachable {m : Machine n (idealSema (Fin n))}
    (h : ((system n (idealSema (Fin n))).restrict Orderly).Reachable m) : ∃ owner, Inv m owner := by
  induction h with
  | init hstart => exact ⟨none, Start.inv hstart⟩
  | step _ hstep ih =>
      obtain ⟨owner, hinv⟩ := ih
      exact hinv.next hstep.1 hstep.2

/-! ## The pairing -/

/-- In every run in which no write is refused its data and no poll of a write runs out, each wait is ended by the interrupt of its own command, and no signal is left when no request is in progress. -/
theorem paired_of_orderly {m : Machine n (idealSema (Fin n))}
    (h : ((system n (idealSema (Fin n))).restrict Orderly).Reachable m) : Paired m := by
  obtain ⟨owner, hinv⟩ := inv_reachable h
  exact hinv.paired

/-- One task on a channel with a disk of one sector. -/
def oneTask : Machine 1 (idealSema (Fin 1)) where
  semaRw := (1 : Int)
  semaWait := (0 : Int)
  regs := ⟨0, 0, 0, 0, 0⟩
  device := .idle
  disk _ _ := ⟨List.replicate 256 0, List.length_replicate ..⟩
  info _ := ⟨List.replicate 256 0, List.length_replicate ..⟩
  nrSectors _ := 1
  interrupts := []
  active _ := none
  commands := 0
  handled := []
  released := []
  completed := []

theorem start_oneTask : Start oneTask := ⟨rfl, rfl, rfl, rfl, fun _ => rfl, rfl, rfl, rfl⟩

instance (m : Machine n (idealSema (Fin n))) (l : Label n) : Decidable (Orderly m l) :=
  match l with
  | .start _ req => inferInstanceAs (Decidable (∀ t, ∀ a ∈ m.active t, a.req.kind ≠ .identify ∧ req.kind ≠ .identify))
  | .step t => inferInstanceAs (Decidable (∀ a ∈ m.active t, a.req.kind = .write →
      (a.pc = .poll 2999 → m.device.bsy = false) ∧ (a.pc = .pollDrq → m.device.drq = true)))
  | .device _ | .interrupt | .unlink _ => inferInstanceAs (Decidable True)

/-- A read, up to the return of `sema_down(&sema_wait)`. -/
def firstRead : List (Label 1) :=
  .start 0 (.read false 0) :: List.replicate 10 (.step 0) ++ [.device true, .interrupt, .step 0]

theorem paired_of_orderly_firstRead : ∃ m, ((system 1 (idealSema (Fin 1))).restrict Orderly).Reachable m ∧
    m.released = [0] ∧ m.handled = [0] ∧ Paired m := by
  have hview : ((TransitionSystem.exec (fun m l => if Orderly m l then Machine.next m l else none) oneTask firstRead).map
      fun m => decide (m.released = [0] ∧ m.handled = [0])) = some true := by decide +kernel
  obtain ⟨m, hexec, hview⟩ := Option.map_eq_some_iff.mp hview
  obtain ⟨hreleased, hhandled⟩ := of_decide_eq_true hview
  have hstart : ((system 1 (idealSema (Fin 1))).restrict Orderly).Reachable oneTask := .init start_oneTask
  have hreach := TransitionSystem.reachable_restrict_exec Orderly firstRead hstart hexec
  exact ⟨m, hreach, hreleased, hhandled, paired_of_orderly hreach⟩

/-- A write that the device ends at once with an error. -/
def failedWrite : List (Label 1) :=
  .start 0 (.write false 0 ⟨List.replicate 256 0, List.length_replicate ..⟩) :: List.replicate 10 (.step 0) ++
    [.device false, .interrupt, .step 0, .step 0, .step 0]

/-- The signal of a failed write is left for the next request. -/
theorem not_paired : ¬ ∀ n m, (system n (idealSema (Fin n))).Reachable m → Paired m := by
  intro h
  have hview : ((TransitionSystem.exec Machine.next oneTask failedWrite).map fun m =>
      (m.active 0).isNone && ((m.semaWait : Int) == 1)) = some true := by decide +kernel
  obtain ⟨m, hexec, hview⟩ := Option.map_eq_some_iff.mp hview
  obtain ⟨hactive, hwait⟩ := Bool.and_eq_true_iff.mp hview
  have hnone : ∀ t, m.active t = none := by
    intro t
    rw [Subsingleton.elim t 0]
    exact Option.isNone_iff_eq_none.mp hactive
  have hzero := (h 1 m (TransitionSystem.reachable_exec failedWrite (.init start_oneTask) hexec)).2 hnone
  rw [hzero] at hwait
  cases hwait

end I386Kernel.Ide
