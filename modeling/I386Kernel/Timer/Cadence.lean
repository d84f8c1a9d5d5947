import I386Kernel.Timer.TimeSlice

/-!
# The cadence of preemption

What each statement of an interrupt and of `schedule` does to the slices, to `sched_on_return` and to the stacks, and from it when a task is preempted.
-/

namespace I386Kernel.TimeSlice

/-! ## The invariant -/

/-- The slices and `sched_on_return` while the active interrupt is at this frame. -/
def Phase (m : Machine) : Option Frame → Prop
  | none | some (.sched _ _) => Slices m
  | some (.isr pc vec _ nth) =>
      match pc with
      | .entry | .iret => Slices m
      | .isr | .tick => Slices m ∧ m.schedOnReturn = false
      | .setFlag => Expired m ∧ nth = some (quantum (m.task m.current).priority)
      | .reload => Expired m ∧ nth = some (quantum (m.task m.current).priority) ∧ m.schedOnReturn = true
      | .endOfInterrupt | .clearFlag | .check => Slices m ∧
          (m.schedOnReturn = true ↔ vec = timerIntrNo ∧ nth = some (quantum (m.task m.current).priority))

structure Inv (m : Machine) : Prop where
  current : m.current ∈ m.created
  wf : ∀ t, ∀ f ∈ m.frames t, f.Wf m.created
  others : ∀ t, t ≠ m.current → Calm (m.frames t)
  sound : Sound m.intr (m.frames m.current)
  phase : Phase m ((m.frames m.current).find? Frame.active)

namespace Inv

variable {m : Machine} (h : Inv m)
include h

/-- Only the stack of the current task changes. -/
theorem replace {n : Machine} {frames : List Frame} (hcreated : n.created = m.created) (hcurrent : n.current = m.current)
    (hframes : n.frames = Function.update m.frames m.current frames) (hwf : ∀ f ∈ frames, f.Wf m.created)
    (hsound : Sound n.intr frames) (hphase : Phase n (frames.find? Frame.active)) : Inv n := by
  have hself : n.frames n.current = frames := by
    rw [hframes, hcurrent, Function.update_self]
  constructor
  · rw [hcurrent, hcreated]
    exact h.current
  · rw [hframes, hcreated]
    intro t f hf
    by_cases ht : t = m.current
    · rw [ht, Function.update_self] at hf
      exact hwf f hf
    · rw [Function.update_of_ne ht] at hf
      exact h.wf t f hf
  · intro t ht
    rw [hcurrent] at ht
    rw [hframes, Function.update_of_ne ht]
    exact h.others t ht
  · rw [hself]
    exact hsound
  · rw [hself]
    exact hphase

theorem wf_rest {f : Frame} {rest : List Frame} (htop : m.frames m.current = f :: rest) : ∀ g ∈ rest, g.Wf m.created :=
  fun g hg => h.wf m.current g (by rw [htop]; exact List.mem_cons_of_mem _ hg)

theorem wf_top {f : Frame} {rest : List Frame} (htop : m.frames m.current = f :: rest) : f.Wf m.created :=
  h.wf m.current f (by rw [htop]; exact List.mem_cons_self)

/-- On a calm stack every slice is settled. -/
theorem slices_of_calm (hcalm : Calm (m.frames m.current)) : Slices m := by
  have hphase := h.phase
  rw [hcalm.find] at hphase
  exact hphase

/-- The next statement of an active interrupt that does not return. -/
theorem goto {n : Machine} {pc pc' : IsrPc} {vec : BitVec 8} {saved : Bool} {nth nth' : Option Nat} {rest : List Frame}
    (htop : m.frames m.current = .isr pc vec saved nth :: rest) (hvec : external vec = true) (hpc : pc ≠ .iret)
    (hpc' : pc' ≠ .iret) (hcreated : n.created = m.created) (hcurrent : n.current = m.current) (hintr : n.intr = m.intr)
    (hframes : n.frames = Function.update m.frames m.current (.isr pc' vec saved nth' :: rest))
    (hwf : (Frame.isr pc' vec saved nth').Wf m.created) (hphase : Phase n (some (.isr pc' vec saved nth'))) : Inv n := by
  have hsound := h.sound
  rw [htop, Sound.external hvec] at hsound
  refine h.replace hcreated hcurrent hframes (List.forall_mem_cons.mpr ⟨hwf, h.wf_rest htop⟩) ?_ ?_
  · rw [Sound.external hvec, hintr]
    exact ⟨fun _ => hsound.1 hpc, hsound.2⟩
  · rw [List.find?_cons_of_pos (active_isr hvec hpc' saved nth')]
    exact hphase

theorem phase_top {pc : IsrPc} {vec : BitVec 8} {saved : Bool} {nth : Option Nat} {rest : List Frame}
    (htop : m.frames m.current = .isr pc vec saved nth :: rest) (hvec : external vec = true) (hpc : pc ≠ .iret) :
    Phase m (some (.isr pc vec saved nth)) := by
  have hphase := h.phase
  rw [htop, List.find?_cons_of_pos (active_isr hvec hpc saved nth)] at hphase
  exact hphase

omit h in
/-- A change of the current task's slice. -/
theorem slices_update {tsk : TaskStruct} {n : Nat} {intr inInterrupt flag : Bool} {frames : Word → List Frame}
    (hself : Slice tsk n ∧ n < quantum tsk.priority)
    (hothers : ∀ t ∈ m.created, t ≠ m.current → Slice (m.task t) (m.charged t) ∧ m.charged t < quantum (m.task t).priority) :
    Slices ⟨Function.update m.task m.current tsk, m.created, m.current, intr, inInterrupt, flag, frames,
      Function.update m.charged m.current n⟩ := by
  intro t ht
  show Slice (Function.update m.task m.current tsk t) (Function.update m.charged m.current n t) ∧
    Function.update m.charged m.current n t < quantum (Function.update m.task m.current tsk t).priority
  by_cases heq : t = m.current
  · rw [heq, Function.update_self, Function.update_self]
    exact hself
  · rw [Function.update_of_ne heq, Function.update_of_ne heq]
    exact hothers t ht heq

theorem tick {vec : BitVec 8} {saved : Bool} {nth : Option Nat} {rest : List Frame}
    (htop : m.frames m.current = .isr .tick vec saved nth :: rest) : Inv (m.execIsr vec saved nth rest .tick) := by
  have hvec : vec = timerIntrNo := h.wf_top htop
  have hext : external vec = true := by
    rw [hvec]
    rfl
  obtain ⟨hslices, hflag⟩ := h.phase_top htop hext (by decide)
  obtain ⟨hslice, hlt⟩ := hslices m.current h.current
  obtain ⟨hslice', hlast⟩ := hslice.tick hlt
  have hothers : ∀ t ∈ m.created, t ≠ m.current →
      Slice (m.task t) (m.charged t) ∧ m.charged t < quantum (m.task t).priority := fun t ht _ => hslices t ht
  by_cases hres : int32 ((m.task m.current).timeSliceRes - 1) ≤ 0
  · have hexec : m.execIsr vec saved nth rest .tick =
        ((m.setTask m.current { m.task m.current with
            timeSliceRes := int32 ((m.task m.current).timeSliceRes - 1) }).setCharged m.current
          (m.charged m.current + 1)).setFrames (.isr .setFlag vec saved (some (m.charged m.current + 1)) :: rest) := by
      rw [Machine.execIsr]
      simp only [hres, if_true]
    rw [hexec]
    refine h.goto htop hext (by decide) (show IsrPc.setFlag ≠ .iret by decide) rfl rfl rfl rfl hvec ⟨⟨?_, ?_⟩, ?_⟩
    · show Slice (Function.update m.task m.current _ m.current) (Function.update m.charged m.current _ m.current) ∧
        Function.update m.charged m.current _ m.current = quantum (Function.update m.task m.current _ m.current).priority
      rw [Function.update_self, Function.update_self]
      exact ⟨hslice', hlast.mp hres⟩
    · intro t ht hne
      show Slice (Function.update m.task m.current _ t) (Function.update m.charged m.current _ t) ∧
        Function.update m.charged m.current _ t < quantum (Function.update m.task m.current _ t).priority
      have hother : t ≠ m.current := hne
      rw [Function.update_of_ne hother, Function.update_of_ne hother]
      exact hslices t ht
    · show some (m.charged m.current + 1) = some (quantum (Function.update m.task m.current _ m.current).priority)
      rw [Function.update_self]
      exact congrArg some (hlast.mp hres)
  · have hne : m.charged m.current + 1 ≠ quantum (m.task m.current).priority := fun heq => hres (hlast.mpr heq)
    have hexec : m.execIsr vec saved nth rest .tick =
        ((m.setTask m.current { m.task m.current with
            timeSliceRes := int32 ((m.task m.current).timeSliceRes - 1) }).setCharged m.current
          (m.charged m.current + 1)).setFrames
            (.isr .endOfInterrupt vec saved (some (m.charged m.current + 1)) :: rest) := by
      rw [Machine.execIsr]
      simp only [hres, if_false]
    rw [hexec]
    refine h.goto htop hext (by decide) (show IsrPc.endOfInterrupt ≠ .iret by decide) rfl rfl rfl rfl hext ⟨?_, ?_⟩
    · refine slices_update ⟨hslice', ?_⟩ hothers
      show m.charged m.current + 1 < quantum (m.task m.current).priority
      omega
    · show m.schedOnReturn = true ↔ _ ∧ some (m.charged m.current + 1) =
        some (quantum (Function.update m.task m.current _ m.current).priority)
      rw [Function.update_self, hflag]
      exact iff_of_false Bool.false_ne_true fun hc => hne (Option.some.inj hc.2)

theorem reload {vec : BitVec 8} {saved : Bool} {nth : Option Nat} {rest : List Frame}
    (htop : m.frames m.current = .isr .reload vec saved nth :: rest) : Inv (m.execIsr vec saved nth rest .reload) := by
  have hvec : vec = timerIntrNo := h.wf_top htop
  have hext : external vec = true := by
    rw [hvec]
    rfl
  obtain ⟨⟨⟨hslice, -⟩, hothers⟩, hnth, hflag⟩ := h.phase_top htop hext (by decide)
  refine h.goto htop hext (by decide) (show IsrPc.endOfInterrupt ≠ .iret by decide) rfl rfl rfl rfl hext ⟨?_, ?_⟩
  · exact slices_update ⟨hslice.reload, quantum_pos _⟩ hothers
  · show m.schedOnReturn = true ↔ _ ∧ nth = some (quantum (Function.update m.task m.current _ m.current).priority)
    rw [Function.update_self]
    exact iff_of_true hflag ⟨hvec, hnth⟩

/-- A step that leaves the stack of the current task calm may also switch tasks. -/
theorem settle {n : Machine} {frames : List Frame} (hcreated : n.created = m.created) (hcurrent : n.current ∈ m.created)
    (hframes : n.frames = Function.update m.frames m.current frames)
    (hwf : ∀ f ∈ frames, f.Wf m.created) (hcalm : Calm frames) (hslices : Slices n) : Inv n := by
  have hall : ∀ t, Calm (n.frames t) := by
    intro t
    rw [hframes]
    by_cases ht : t = m.current
    · rw [ht, Function.update_self]
      exact hcalm
    · rw [Function.update_of_ne ht]
      exact h.others t ht
  constructor
  · rw [hcreated]
    exact hcurrent
  · rw [hframes, hcreated]
    intro t f hf
    by_cases ht : t = m.current
    · rw [ht, Function.update_self] at hf
      exact hwf f hf
    · rw [Function.update_of_ne ht] at hf
      exact h.wf t f hf
  · exact fun t _ => hall t
  · exact .of_calm (hall n.current) n.intr
  · rw [(hall n.current).find]
    exact hslices

/-- A statement of an external interrupt. -/
theorem externalIsr {pc : IsrPc} {vec : BitVec 8} {saved : Bool} {nth : Option Nat} {rest : List Frame}
    (htop : m.frames m.current = .isr pc vec saved nth :: rest) (hvec : external vec = true) :
    Inv (m.execIsr vec saved nth rest pc) := by
  have hrest := h.wf_rest htop
  have hcalm : Calm rest := by
    have hsound := h.sound
    rw [htop, Sound.external hvec] at hsound
    exact hsound.2
  cases pc with
  | entry =>
      have hslices := h.phase_top htop hvec (by decide)
      have hexec : m.execIsr vec saved nth rest .entry =
          { m with inInterrupt := true, schedOnReturn := false }.setFrames (.isr .isr vec saved nth :: rest) := by
        rw [Machine.execIsr, if_pos hvec]
      rw [hexec]
      exact h.goto htop hvec (by decide) (show IsrPc.isr ≠ .iret by decide) rfl rfl rfl rfl trivial ⟨hslices, rfl⟩
  | isr =>
      obtain ⟨hslices, hflag⟩ := h.phase_top htop hvec (by decide)
      by_cases htimer : vec = timerIntrNo
      · have hexec : m.execIsr vec saved nth rest .isr = m.setFrames (.isr .tick vec saved nth :: rest) := by
          rw [Machine.execIsr, if_pos htimer]
        rw [hexec]
        exact h.goto htop hvec (by decide) (show IsrPc.tick ≠ .iret by decide) rfl rfl rfl rfl htimer ⟨hslices, hflag⟩
      · have hexec : m.execIsr vec saved nth rest .isr = m.setFrames (.isr .endOfInterrupt vec saved nth :: rest) := by
          rw [Machine.execIsr, if_neg htimer, if_pos hvec]
        rw [hexec]
        refine h.goto htop hvec (by decide) (show IsrPc.endOfInterrupt ≠ .iret by decide) rfl rfl rfl rfl hvec ⟨hslices, ?_⟩
        show m.schedOnReturn = true ↔ _
        rw [hflag]
        exact iff_of_false Bool.false_ne_true fun hc => htimer hc.1
  | tick => exact h.tick htop
  | setFlag =>
      obtain ⟨hexpired, hnth⟩ := h.phase_top htop hvec (by decide)
      exact h.goto htop hvec (by decide) (show IsrPc.reload ≠ .iret by decide) rfl rfl rfl rfl
        (show vec = timerIntrNo from h.wf_top htop) ⟨hexpired, hnth, rfl⟩
  | reload => exact h.reload htop
  | endOfInterrupt =>
      exact h.goto htop hvec (by decide) (show IsrPc.clearFlag ≠ .iret by decide) rfl rfl rfl rfl hvec
        (h.phase_top htop hvec (by decide))
  | clearFlag =>
      exact h.goto htop hvec (by decide) (show IsrPc.check ≠ .iret by decide) rfl rfl rfl rfl hvec
        (h.phase_top htop hvec (by decide))
  | check =>
      have hslices := (h.phase_top htop hvec (by decide)).1
      have hcalm' : Calm (.isr .iret vec saved nth :: rest) := .cons (not_active_iret ..) hcalm
      have hwf : ∀ f ∈ Frame.isr .iret vec saved nth :: rest, f.Wf m.created :=
        List.forall_mem_cons.mpr ⟨trivial, hrest⟩
      cases hflag : m.schedOnReturn with
      | true =>
          have hexec : m.execIsr vec saved nth rest .check =
              m.setFrames (.sched .choose m.current :: .isr .iret vec saved nth :: rest) := by
            rw [Machine.execIsr, if_pos hflag]
          rw [hexec]
          exact h.settle rfl h.current rfl (List.forall_mem_cons.mpr ⟨h.current, hwf⟩) (.cons rfl hcalm') hslices
      | false =>
          have hexec : m.execIsr vec saved nth rest .check = m.setFrames (.isr .iret vec saved nth :: rest) := by
            rw [Machine.execIsr, if_neg (by rw [hflag]; decide)]
          rw [hexec]
          exact h.settle rfl h.current rfl hwf hcalm' hslices
  | iret =>
      have hslices := h.slices_of_calm (by rw [htop]; exact .cons (not_active_iret ..) hcalm)
      exact h.settle rfl h.current rfl hrest hcalm hslices

/-- A statement of an exception leaves the slices and an interrupt below it alone. -/
theorem exceptionIsr {pc : IsrPc} {vec : BitVec 8} {saved : Bool} {nth : Option Nat} {rest : List Frame}
    (htop : m.frames m.current = .isr pc vec saved nth :: rest) (hvec : TimeSlice.external vec = false) :
    Inv (m.execIsr vec saved nth rest pc) := by
  have hrest := h.wf_rest htop
  have hsound := h.sound
  have hphase := h.phase
  rw [htop, Sound.exception hvec] at hsound
  have hskip : ∀ pc', (Frame.isr pc' vec saved nth :: rest).find? Frame.active = rest.find? Frame.active := fun pc' =>
    List.find?_cons_of_neg (by rw [not_active_exception hvec]; decide)
  rw [htop, hskip] at hphase
  have hgoto : ∀ pc', (Frame.isr pc' vec saved nth).Wf m.created →
      Inv (m.setFrames (.isr pc' vec saved nth :: rest)) := by
    intro pc' hwf
    refine h.replace rfl rfl rfl (List.forall_mem_cons.mpr ⟨hwf, hrest⟩) ((Sound.exception hvec).mpr hsound) ?_
    rw [hskip]
    exact hphase
  have htimer : vec ≠ timerIntrNo := by
    intro heq
    rw [heq] at hvec
    cases hvec
  have hnot : TimeSlice.external vec ≠ true := by
    rw [hvec]
    exact Bool.false_ne_true
  cases pc with
  | entry =>
      rw [Machine.execIsr, if_neg hnot]
      exact hgoto .isr trivial
  | isr =>
      rw [Machine.execIsr, if_neg htimer, if_neg hnot]
      exact hgoto .iret trivial
  | iret => exact h.replace rfl rfl rfl hrest hsound.1 hphase
  | tick | setFlag | reload => exact absurd (h.wf_top htop) htimer
  | endOfInterrupt | clearFlag | check => exact absurd (h.wf_top htop) hnot

omit h in
theorem slices_setRunning (hslices : Slices m) (t : Word) :
    Slices (m.setTask t { m.task t with status := .running }) := by
  intro t' ht'
  show Slice (Function.update m.task t _ t') (m.charged t') ∧
    m.charged t' < quantum (Function.update m.task t { m.task t with status := .running } t').priority
  by_cases heq : t' = t
  · obtain ⟨hslice, hlt⟩ := hslices t' ht'
    rw [heq] at hslice hlt ⊢
    rw [Function.update_self]
    exact ⟨⟨hslice.init, hslice.res⟩, hlt⟩
  · rw [Function.update_of_ne heq]
    exact hslices t' ht'

/-- A statement of `schedule`. -/
theorem sched {n : Machine} {pc : SchedPc} {choice next : Word} {rest : List Frame}
    (htop : m.frames m.current = .sched pc next :: rest) (hexec : m.execSched choice next rest pc = some n) : Inv n := by
  have hcalm : Calm rest := by
    have hsound := h.sound
    rw [htop] at hsound
    exact hsound
  have hslices := h.slices_of_calm (by rw [htop]; exact .cons rfl hcalm)
  have hnext : next ∈ m.created := h.wf_top htop
  have hgoto : ∀ {k : Machine} {pc' : SchedPc} {next' : Word}, k.created = m.created → k.current ∈ m.created →
      k.frames = Function.update m.frames m.current (.sched pc' next' :: rest) → next' ∈ m.created → Slices k → Inv k :=
    fun hcreated hcurrent hframes hnext' hk =>
      h.settle hcreated hcurrent hframes (List.forall_mem_cons.mpr ⟨hnext', h.wf_rest htop⟩) (.cons rfl hcalm) hk
  cases pc with
  | choose =>
      obtain ⟨hchoice, heq⟩ := Option.ite_none_right_eq_some.mp hexec
      cases heq
      exact hgoto rfl h.current rfl hchoice hslices
  | setRunning =>
      cases hexec
      exact hgoto rfl h.current rfl hnext (slices_setRunning hslices next)
  | switchTo =>
      cases hexec
      exact hgoto rfl hnext rfl hnext hslices
  | cli | postProc | sti =>
      cases hexec
      exact hgoto rfl h.current rfl hnext hslices
  | ret =>
      cases hexec
      exact h.settle rfl h.current rfl (h.wf_rest htop) hcalm hslices

/-- A new task has its whole slice. -/
theorem enter {tsk : Word} (hfresh : tsk ∉ m.created) (hcalm : Calm (m.frames m.current)) (pid : Int) (name : List UInt8)
    {priority : Int} (hpriority : validPriority priority) (status : TaskStatus) :
    Inv (m.enter tsk pid name priority hpriority status) := by
  have hne : m.current ≠ tsk := by
    intro heq
    exact hfresh (heq ▸ h.current)
  have hsub : ∀ f : Frame, f.Wf m.created → f.Wf (tsk :: m.created) := by
    intro f hf
    cases f with
    | sched pc next => exact List.mem_cons_of_mem _ hf
    | isr pc vec saved nth => cases pc <;> exact hf
  have hnew : (m.enter tsk pid name priority hpriority status).frames tsk = [.sched .postProc tsk] :=
    Function.update_self ..
  have hold : ∀ t, t ≠ tsk → (m.enter tsk pid name priority hpriority status).frames t = m.frames t :=
    fun t ht => Function.update_of_ne ht _ _
  constructor
  · exact List.mem_cons_of_mem _ h.current
  · intro t f hf
    by_cases ht : t = tsk
    · rw [ht, hnew] at hf
      rw [List.mem_singleton.mp hf]
      exact List.mem_cons_self
    · rw [hold t ht] at hf
      exact hsub f (h.wf t f hf)
  · intro t hcurrent
    by_cases ht : t = tsk
    · rw [ht, hnew]
      exact .cons rfl (List.forall_mem_nil _)
    · rw [hold t ht]
      exact h.others t hcurrent
  · show Sound m.intr ((m.enter tsk pid name priority hpriority status).frames m.current)
    rw [hold m.current hne]
    exact h.sound
  · show Phase _ (((m.enter tsk pid name priority hpriority status).frames m.current).find? Frame.active)
    rw [hold m.current hne, hcalm.find]
    intro t ht
    show Slice (Function.update m.task tsk _ t) (Function.update m.charged tsk 0 t) ∧
      Function.update m.charged tsk 0 t < quantum (Function.update m.task tsk _ t).priority
    by_cases heq : t = tsk
    · rw [heq, Function.update_self, Function.update_self]
      exact ⟨slice_newTask .., quantum_pos _⟩
    · rw [Function.update_of_ne heq, Function.update_of_ne heq]
      exact h.slices_of_calm hcalm t ((List.mem_cons.mp ht).resolve_left heq)

/-- Every step keeps the invariant. -/
theorem next {l : Label} {n : Machine} (hstep : m.next l = some n) : Inv n := by
  cases l with
  | run choice =>
      rw [Machine.next] at hstep
      cases htop : m.frames m.current with
      | nil =>
          rw [htop] at hstep
          cases hstep
      | cons f rest =>
          rw [htop] at hstep
          cases f with
          | isr pc vec saved nth =>
              cases hstep
              cases hvec : TimeSlice.external vec with
              | true => exact h.externalIsr htop hvec
              | false => exact h.exceptionIsr htop hvec
          | sched pc next => exact h.sched htop hstep
  | external vec =>
      obtain ⟨⟨hvec, hintr⟩, heq⟩ := Option.ite_none_right_eq_some.mp hstep
      cases heq
      have hcalm : Calm (m.frames m.current) := by
        have hsound := h.sound
        rw [hintr] at hsound
        exact hsound.calm
      refine h.replace rfl rfl rfl (List.forall_mem_cons.mpr ⟨trivial, h.wf m.current⟩) ?_ ?_
      · exact (Sound.external hvec).mpr ⟨fun _ => rfl, hcalm⟩
      · rw [List.find?_cons_of_pos (active_isr hvec (show IsrPc.entry ≠ .iret by decide) m.intr none)]
        exact h.slices_of_calm hcalm
  | exception vec =>
      obtain ⟨hvec, heq⟩ := Option.ite_none_left_eq_some.mp hstep
      have hvec' : TimeSlice.external vec = false := by
        rw [← Bool.not_eq_true]
        exact hvec
      cases heq
      refine h.replace rfl rfl rfl (List.forall_mem_cons.mpr ⟨trivial, h.wf m.current⟩) ?_ ?_
      · refine (Sound.exception hvec').mpr ⟨h.sound, ?_⟩
        cases hintr : m.intr with
        | true =>
            have hsound := h.sound
            rw [hintr] at hsound
            exact Or.inl hsound.calm
        | false => exact Or.inr (ite_self ..)
      · rw [List.find?_cons_of_neg (by rw [not_active_exception hvec']; decide)]
        exact h.phase
  | schedule =>
      obtain ⟨hidle, heq⟩ := Option.ite_none_right_eq_some.mp hstep
      cases heq
      have hcalm : Calm (m.frames m.current) := by
        rw [hidle]
        exact List.forall_mem_nil _
      exact h.settle rfl h.current rfl (List.forall_mem_cons.mpr ⟨h.current, List.forall_mem_nil _⟩)
        (.cons rfl (List.forall_mem_nil _)) (h.slices_of_calm hcalm)
  | setIntr intr =>
      obtain ⟨hidle, heq⟩ := Option.ite_none_right_eq_some.mp hstep
      cases heq
      have hcalm : Calm (m.frames m.current) := by
        rw [hidle]
        exact List.forall_mem_nil _
      exact h.settle rfl h.current (Function.update_eq_self ..).symm (h.wf m.current) hcalm (h.slices_of_calm hcalm)
  | taskCreate tsk pid name priority status =>
      rw [Machine.next] at hstep
      by_cases hpriority : validPriority priority
      · rw [dif_pos hpriority] at hstep
        obtain ⟨⟨hidle, hfresh⟩, heq⟩ := Option.ite_none_right_eq_some.mp hstep
        cases heq
        exact h.enter hfresh (by rw [hidle]; exact List.forall_mem_nil _) ..
      · rw [dif_neg hpriority] at hstep
        cases hstep

end Inv

theorem Start.inv {m : Machine} (h : Start m) : Inv m := by
  have hframes : ∀ t, m.frames t = [] := by
    rw [h.frames]
    exact fun _ => rfl
  obtain ⟨pid, name, sp, htask⟩ := h.task
  constructor
  · rw [h.created]
    exact List.mem_cons_self
  · intro t f hf
    rw [hframes t] at hf
    cases hf
  · intro t _
    rw [hframes t]
    exact List.forall_mem_nil _
  · rw [hframes]
    trivial
  · rw [hframes]
    intro t ht
    rw [h.created] at ht
    rw [List.mem_singleton.mp ht, h.charged, htask]
    exact ⟨slice_newTask .., quantum_pos _⟩

theorem inv_reachable {m : Machine} (h : sliceSystem.Reachable m) : Inv m :=
  sliceSystem.invariant (fun _ hstart => hstart.inv) (fun _ _ _ _ hinv hstep => hinv.next hstep) h

/-! ## What a step does to slices and stacks -/

/-- Only `check` and `iret` take the stack of the current task to something other than the same interrupt. -/
theorem frames_execIsr (m : Machine) {pc : IsrPc} (vec : BitVec 8) (saved : Bool) (nth : Option Nat) (rest : List Frame)
    (hcheck : pc ≠ .check) (hiret : pc ≠ .iret) :
    ∃ pc' nth', (m.execIsr vec saved nth rest pc).frames m.current = .isr pc' vec saved nth' :: rest := by
  cases pc with
  | entry =>
      refine ⟨.isr, nth, ?_⟩
      rw [Machine.execIsr]
      split
      · exact Function.update_self ..
      · exact Function.update_self ..
  | isr | tick | setFlag | reload | endOfInterrupt | clearFlag => exact ⟨_, _, Function.update_self ..⟩
  | check => exact absurd rfl hcheck
  | iret => exact absurd rfl hiret

/-- An interrupt calls `schedule` on its return exactly if it has charged the last tick of a slice. -/
theorem Inv.calls_schedule_iff {m : Machine} (h : Inv m) {pc : IsrPc} {vec : BitVec 8} {saved : Bool} {nth : Option Nat}
    {rest : List Frame} (htop : m.frames m.current = .isr pc vec saved nth :: rest) :
    (m.execIsr vec saved nth rest pc).frames m.current = .sched .choose m.current :: .isr .iret vec saved nth :: rest ↔
      pc = .check ∧ vec = timerIntrNo ∧ nth = some (quantum (m.task m.current).priority) := by
  by_cases hiret : pc = .iret
  · refine iff_of_false (fun heq => ?_) fun hc => ?_
    · have hrest : rest = .sched .choose m.current :: .isr .iret vec saved nth :: rest := by
        rw [hiret, Machine.execIsr] at heq
        have hself : Function.update m.frames m.current rest m.current = _ := heq
        rw [Function.update_self] at hself
        exact hself
      have hlength := congrArg List.length hrest
      simp only [List.length_cons] at hlength
      omega
    · rw [hiret] at hc
      exact absurd hc.1 (by decide)
  · by_cases hcheck : pc = .check
    · have hext : external vec = true := by
        have hwf := h.wf_top htop
        rw [hcheck] at hwf
        exact hwf
      have hphase := (h.phase_top htop hext hiret)
      rw [hcheck] at hphase
      have hframes : (m.execIsr vec saved nth rest .check).frames m.current =
          if m.schedOnReturn then .sched .choose m.current :: .isr .iret vec saved nth :: rest
          else .isr .iret vec saved nth :: rest := Function.update_self ..
      rw [hcheck, hframes, ← hphase.2]
      refine ⟨fun heq => ⟨rfl, ?_⟩, fun hflag => if_pos hflag.2⟩
      by_contra hflag
      rw [if_neg hflag] at heq
      cases heq
    · refine iff_of_false (fun heq => ?_) fun hc => hcheck hc.1
      obtain ⟨pc', nth', hframes⟩ := frames_execIsr m vec saved nth rest hcheck hiret
      rw [hframes] at heq
      cases heq

/-- The residual slice of a task and the ticks charged to it are as before. -/
def Untouched (m n : Machine) (t : Word) : Prop :=
  (n.task t).timeSliceRes = (m.task t).timeSliceRes ∧ n.charged t = m.charged t

/-- A statement of an interrupt changes no slice but that of the current task, in `task_tick`. -/
theorem untouched_execIsr (m : Machine) {pc : IsrPc} (vec : BitVec 8) (saved : Bool) (nth : Option Nat) (rest : List Frame)
    (t : Word) (h : t = m.current → pc ≠ .tick ∧ pc ≠ .reload) : Untouched m (m.execIsr vec saved nth rest pc) t := by
  have hother : ∀ {n : Machine} {tsk : TaskStruct} {c : Nat}, n.task = Function.update m.task m.current tsk →
      n.charged = Function.update m.charged m.current c → t ≠ m.current → Untouched m n t := by
    intro n tsk c htask hcharged hne
    rw [Untouched, htask, hcharged, Function.update_of_ne hne, Function.update_of_ne hne]
    exact ⟨rfl, rfl⟩
  cases pc with
  | entry =>
      rw [Machine.execIsr]
      split
      · exact ⟨rfl, rfl⟩
      · exact ⟨rfl, rfl⟩
  | tick => exact hother rfl rfl fun heq => (h heq).1 rfl
  | reload => exact hother rfl rfl fun heq => (h heq).2 rfl
  | isr | setFlag | endOfInterrupt | clearFlag | check | iret => exact ⟨rfl, rfl⟩

theorem untouched_execSched (m : Machine) {n : Machine} {pc : SchedPc} {choice next : Word} {rest : List Frame}
    (h : m.execSched choice next rest pc = some n) (t : Word) : Untouched m n t := by
  cases pc with
  | choose =>
      obtain ⟨-, heq⟩ := Option.ite_none_right_eq_some.mp h
      cases heq
      exact ⟨rfl, rfl⟩
  | setRunning =>
      cases h
      refine ⟨?_, rfl⟩
      show (Function.update m.task next { m.task next with status := .running } t).timeSliceRes = (m.task t).timeSliceRes
      by_cases heq : t = next
      · rw [heq, Function.update_self]
      · rw [Function.update_of_ne heq]
  | cli | switchTo | postProc | sti | ret =>
      cases h
      exact ⟨rfl, rfl⟩

/-- No step but a tick of the timer changes the slice of a task, and that only for the interrupted one. -/
theorem Inv.untouched {m n : Machine} (h : Inv m) {l : Label} (hstep : m.next l = some n) {t : Word} (ht : t ∈ m.created) :
    Untouched m n t ∨ t = m.current ∧ ∃ pc saved nth rest,
      (pc = .tick ∨ pc = .reload) ∧ m.frames m.current = .isr pc timerIntrNo saved nth :: rest := by
  cases l with
  | run choice =>
      rw [Machine.next] at hstep
      cases htop : m.frames m.current with
      | nil =>
          rw [htop] at hstep
          cases hstep
      | cons f rest =>
          rw [htop] at hstep
          cases f with
          | isr pc vec saved nth =>
              cases hstep
              by_cases hcharge : t = m.current ∧ (pc = .tick ∨ pc = .reload)
              · obtain ⟨hself, hpc⟩ := hcharge
                have hvec : vec = timerIntrNo := by
                  have hwf := h.wf_top htop
                  rcases hpc with hpc | hpc
                  · rw [hpc] at hwf
                    exact hwf
                  · rw [hpc] at hwf
                    exact hwf
                rw [hvec]
                exact Or.inr ⟨hself, pc, saved, nth, rest, hpc, rfl⟩
              · refine Or.inl (untouched_execIsr m vec saved nth rest t fun hself => ?_)
                exact not_or.mp fun hpc => hcharge ⟨hself, hpc⟩
          | sched pc next => exact Or.inl (untouched_execSched m hstep t)
  | external vec | exception vec | schedule | setIntr intr =>
      rw [Machine.next] at hstep
      split at hstep
      all_goals cases hstep
      exact Or.inl ⟨rfl, rfl⟩
  | taskCreate tsk pid name priority status =>
      rw [Machine.next] at hstep
      by_cases hpriority : validPriority priority
      · rw [dif_pos hpriority] at hstep
        obtain ⟨⟨-, hfresh⟩, heq⟩ := Option.ite_none_right_eq_some.mp hstep
        cases heq
        have hne : t ≠ tsk := by
          intro heq
          exact hfresh (heq ▸ ht)
        exact Or.inl ⟨congrArg TaskStruct.timeSliceRes (Function.update_of_ne hne _ m.task),
          Function.update_of_ne hne 0 m.charged⟩
      · rw [dif_neg hpriority] at hstep
        cases hstep

/-- Unless an expired slice waits for its reload, every slice is settled. -/
theorem Inv.slices {m : Machine} (h : Inv m)
    (hreload : ∀ pc vec saved nth, .isr pc vec saved nth ∈ m.frames m.current → pc ≠ .setFlag ∧ pc ≠ .reload) : Slices m := by
  have hphase := h.phase
  cases hfind : (m.frames m.current).find? Frame.active with
  | none =>
      rw [hfind] at hphase
      exact hphase
  | some f =>
      rw [hfind] at hphase
      have hmem := List.mem_of_find?_eq_some hfind
      cases f with
      | sched pc next => exact hphase
      | isr pc vec saved nth =>
          obtain ⟨hset, hrel⟩ := hreload pc vec saved nth hmem
          cases pc with
          | entry | iret => exact hphase
          | isr | tick | endOfInterrupt | clearFlag | check => exact hphase.1
          | setFlag => exact absurd rfl hset
          | reload => exact absurd rfl hrel

/-! ## The cadence -/

/-- In every reachable state an interrupt calls `schedule` on its return exactly if it is the tick of the timer that uses up the slice of the interrupted task, nothing else changes a slice, and outside the two statements that follow the expiry every slice is within its bounds. -/
theorem preemption_cadence {m : Machine} (h : sliceSystem.Reachable m) :
    (∀ pc vec saved nth rest choice n, m.frames m.current = .isr pc vec saved nth :: rest →
      sliceSystem.step m (.run choice) n →
        (n.frames m.current = .sched .choose m.current :: .isr .iret vec saved nth :: rest ↔
          pc = .check ∧ vec = timerIntrNo ∧ nth = some (quantum (m.task m.current).priority))) ∧
      (∀ l n, sliceSystem.step m l n → ∀ t ∈ m.created, Untouched m n t ∨ t = m.current ∧ ∃ pc saved nth rest,
        (pc = .tick ∨ pc = .reload) ∧ m.frames m.current = .isr pc timerIntrNo saved nth :: rest) ∧
      ((∀ pc vec saved nth, .isr pc vec saved nth ∈ m.frames m.current → pc ≠ .setFlag ∧ pc ≠ .reload) →
        ∀ t ∈ m.created, 0 ≤ (m.task t).timeSliceRes ∧ (m.task t).timeSliceRes ≤ (m.task t).timeSliceInit) := by
  have hinv := inv_reachable h
  refine ⟨fun pc vec saved nth rest choice n htop hstep => ?_, fun l n hstep t ht => hinv.untouched hstep ht,
    fun hreload t ht => ?_⟩
  · have hexec : n = m.execIsr vec saved nth rest pc := by
      have hnext : m.next (.run choice) = some (m.execIsr vec saved nth rest pc) := by
        rw [Machine.next, htop]
      exact Option.some.inj (hstep.symm.trans hnext)
    rw [hexec]
    exact hinv.calls_schedule_iff htop
  · obtain ⟨hslice, hlt⟩ := hinv.slices hreload t ht
    exact hslice.bounds hlt

/-- The machine at its start, with interrupts enabled. -/
def firstTask : Machine where
  task _ := newTask 0 [] ((prioDefault : Fin 64) : Nat) (by decide) 0 .running
  created := [0x1000]
  current := 0x1000
  intr := true
  inInterrupt := false
  schedOnReturn := false
  frames _ := []
  charged _ := 0

def firstTick : List Label := .external timerIntrNo :: List.replicate 7 (.run 0)

theorem start_firstTask : Start firstTask := ⟨rfl, rfl, ⟨0, [], 0, rfl⟩, rfl⟩

theorem preemption_cadence_firstTick :
    ∃ m n, sliceSystem.Reachable m ∧ sliceSystem.step m (.run 0) n ∧
      m.frames m.current = [.isr .check timerIntrNo true (some 1)] ∧
      n.frames m.current = [.sched .choose m.current, .isr .iret timerIntrNo true (some 1)] := by
  have hview : ((TransitionSystem.exec Machine.next firstTask firstTick).map fun m =>
      decide (m.frames m.current = [.isr .check timerIntrNo true (some 1)] ∧
        quantum (m.task m.current).priority = 1)) = some true := by decide +kernel
  obtain ⟨m, hexec, hview⟩ := Option.map_eq_some_iff.mp hview
  obtain ⟨htop, hquantum⟩ := of_decide_eq_true hview
  have hreach : sliceSystem.Reachable m := TransitionSystem.reachable_exec firstTick (.init start_firstTask) hexec
  have hstep : sliceSystem.step m (.run 0) (m.execIsr timerIntrNo true (some 1) [] .check) := by
    show m.next (.run 0) = _
    rw [Machine.next, htop]
  refine ⟨m, _, hreach, hstep, htop, ?_⟩
  exact ((preemption_cadence hreach).1 _ _ _ _ _ _ _ htop hstep).mpr ⟨rfl, rfl, by rw [hquantum]⟩

end I386Kernel.TimeSlice
