import I386Kernel.Preempt.Discipline

/-!
# Handlers that do not wait

The handler of a device runs on the stack of the task it interrupts. When one of its `sema_down` has to wait, it blocks that task and calls `schedule` in the middle of the interrupt. Where this does not happen a handler runs to its end with interrupts off, and what a task does at a time is what the function at the bottom of its stack does.
-/

namespace I386Kernel.Preempt

/-! ## Places and arguments -/

namespace Pc

/-- The places of a `sema_down` that does not have to wait, and of `sema_up`. -/
def passing : Pc → Bool
  | downLock _ | downTest _ | downDec _ | downUnlock _ | ret => true
  | pc => decide (pc.part = .up)

/-- `task_suspend` and `task_exit` store the status of the task they are called by. -/
def parks : Pc → Bool
  | suspBlock _ | exitDying => true
  | _ => false

/-- The `sema_down` at this place has to wait. -/
def waits (k : Kernel) : Pc → Bool
  | downTest s => decide (k.semaCount s ≤ 0)
  | _ => false

/-- The arguments of the `task_create` the place belongs to, up to its last use of them. -/
def args : Pc → Option CreateArgs
  | mkLock a | mkTake a | mkUnlock a _ | mkZero a _ | mkInit a _ | allLock a _ | allAdd a _ | allUnlock a _ | pidLock a _
  | pidInc a _ | pidUnlock a _ | pidRead a _ | mkSlice a _ | mkStack a _ | linkLock a _ | linkAdd a _ | linkUnlock a _
  | mkStatus a _ => some a
  | _ => none

end Pc

/-- The operation that a handler begins in this step. -/
def Machine.opBegun (m : Machine) : Label → Option SemaOp
  | .device op _ => some op
  | .step =>
      match m.frames m.current with
      | ⟨.ret, .device _ (op :: _) _⟩ :: _ => some op
      | _ => none
  | .call _ | .timer => none

/-- The new task gets a status with which `schedule` may choose it. -/
def CreateArgs.runnable (a : CreateArgs) : Bool := decide (a.status = .ready ∨ a.status = .running)

/-- A handler of a device has not been through `schedule`, and is not on its way to it. -/
def Frame.prompt (f : Frame) : Bool :=
  match f.origin with
  | .device _ _ late => !late && f.pc.passing
  | _ => true

structure Prompt (m : Machine) : Prop where
  handlers : ∀ t, ∀ f ∈ m.frames t, f.prompt = true
  runnable : ∀ t, ∀ f ∈ m.frames t, ∀ a, f.pc.args = some a → a.runnable = true

/-- No `sema_down` of a handler has to wait, and `task_create` is called with a status that lets the new task run. -/
def HandlersPass (m : Machine) : Label → Prop
  | .step => ∀ f ∈ (m.frames m.current).head?, f.origin.isr = true → f.pc.waits m.kernel = false
  | .call (.taskCreate a) => a.runnable = true
  | _ => True

instance (m : Machine) : (l : Label) → Decidable (HandlersPass m l)
  | .step => inferInstanceAs (Decidable (∀ f ∈ (m.frames m.current).head?, f.origin.isr = true → f.pc.waits m.kernel = false))
  | .call (.taskCreate a) => inferInstanceAs (Decidable (a.runnable = true))
  | .call (.semaDown _) | .call (.semaUp _) | .call .taskExit | .call .schedule | .timer | .device _ _ => .isTrue trivial

/-! ## Tables -/

section
variable {k : Kernel} {c : Word} {pc pc' : Pc} {e : Effect}

theorem stmt_passing (h : stmt k c pc = some (e, pc')) (hpass : pc.passing = true) (hwaits : pc.waits k = false) :
    pc'.passing = true := by
  cases pc with
  | downTest s =>
      cases h
      rw [if_neg (of_decide_eq_false hwaits)]
      rfl
  | upPop s =>
      obtain ⟨w, -, heq⟩ := Option.map_eq_some_iff.mp h
      cases heq
      rfl
  | upInc _ | upEmpty _ | resValid _ _ | resTest _ _ =>
      cases h
      split <;> rfl
  | downLock _ | downDec _ | downUnlock _ | upLock _ | resLock _ _ | resMark _ _ | resLink _ _ | resUnlock _ _
  | upUnlock _ _ =>
      cases h
      rfl
  | ret => cases h
  | _ => cases hpass

theorem stmt_args {a : CreateArgs} (h : stmt k c pc = some (e, pc')) (ha : pc'.args = some a) : pc.args = some a := by
  cases pc with
  | upPop s | schRead =>
      obtain ⟨w, -, heq⟩ := Option.map_eq_some_iff.mp h
      cases heq
      cases ha
  | downTest _ | upInc _ | upEmpty _ | resValid _ _ | resTest _ _ | schTest _ =>
      cases h
      split at ha <;> cases ha
  | mkUnlock a' n =>
      cases h
      split at ha
      · cases ha
      · exact ha
  | _ => cases h <;> first | exact ha | cases ha

end

theorem SemaOp.passing_entry (op : SemaOp) : op.entry.passing = true ∧ op.entry.args = none := by
  cases op <;> exact ⟨rfl, rfl⟩

theorem Call.args_entry {c : Call} {a : CreateArgs} (h : c.entry.args = some a) : c = .taskCreate a := by
  cases c with
  | taskCreate a' =>
      rw [Call.entry] at h
      split at h
      · cases h
      · cases h
        rfl
  | _ => cases h

theorem Machine.opBegun_proceed {m : Machine} {f g : Frame} {rest : List Frame}
    (hframes : m.frames m.current = f :: rest) (hpc : f.pc = .ret) (hnext : f.origin.proceed = some g) :
    ∃ op, m.opBegun .step = some op ∧ g.pc = op.entry := by
  obtain ⟨pc, o⟩ := f
  obtain rfl : pc = .ret := hpc
  cases o with
  | device op ops late =>
      cases ops with
      | nil => cases hnext
      | cons op' ops =>
          cases hnext
          exact ⟨op', by rw [Machine.opBegun, hframes], rfl⟩
  | _ => cases hnext

/-! ## Handlers -/

/-- A handler is the timer's, or a device's that has not been through `schedule`. -/
theorem Frame.handler_cases {f : Frame} (h : f.prompt = true) (hisr : f.origin.isr = true) :
    f.origin = .timer ∨ (f.origin.isQuick = true ∧ f.pc.passing = true) := by
  obtain ⟨pc, o⟩ := f
  cases o with
  | timer => exact Or.inl rfl
  | device op ops late => exact Or.inr (Bool.and_eq_true_iff.mp h)
  | _ => cases hisr

theorem Frame.passing_of_quick {f : Frame} (h : f.prompt = true) (hquick : f.origin.isQuick = true) :
    f.pc.passing = true := by
  obtain htimer | ⟨-, hpass⟩ := f.handler_cases h (Origin.isr_of_quick hquick)
  · rw [htimer] at hquick
    cases hquick
  · exact hpass

theorem Frame.not_quick {f : Frame} (h : f.prompt = true) (hpass : f.pc.passing = false) : f.origin.isQuick = false := by
  by_contra hquick
  exact absurd (hpass.symm.trans (f.passing_of_quick h (by simpa using hquick))) Bool.false_ne_true

/-- An entry or a dispatch of `schedule` that is not a handler's is of the same kind afterwards. -/
theorem Frame.waited_of_prompt {f : Frame} (h : f.prompt = true) (hpass : f.pc.passing = false) :
    f.origin.waited = f.origin := by
  obtain ⟨pc, o⟩ := f
  cases o with
  | device op ops late => exact absurd (hpass.symm.trans (Bool.and_eq_true_iff.mp h).2) Bool.false_ne_true
  | _ => rfl

namespace Prompt

variable {m m' : Machine} {builder : Word → Option Word} {f : Frame} {rest : List Frame} {e : Effect} {pc : Pc}

/-- The handler of the timer only runs `schedule`. -/
theorem quick_of_isr (h : Prompt m) (hd : Discipline m builder) {t : Word} (hf : f ∈ m.frames t)
    (hisr : f.origin.isr = true) (hpart : f.pc.part ≠ .ret ∧ f.pc.part ≠ .sched ∧ f.pc.part ≠ .post) :
    f.origin.isQuick = true := by
  obtain htimer | ⟨hquick, -⟩ := f.handler_cases (h.handlers t f hf) hisr
  · have hhas := hd.parts t f hf
    rw [htimer] at hhas
    obtain hret | hsched | hpost := Origin.timer_of_has hhas
    · exact absurd hret hpart.1
    · exact absurd hsched hpart.2.1
    · exact absurd hpost hpart.2.2
  · exact hquick

/-- The functions that only a task calls, and those places of `sema_down` that no handler comes to. -/
theorem isr_eq_false (h : Prompt m) (hd : Discipline m builder) {t : Word} (hf : f ∈ m.frames t)
    (hpass : f.pc.passing = false) (hpart : f.pc.part ≠ .sched ∧ f.pc.part ≠ .post) : f.origin.isr = false := by
  have hret : f.pc.part ≠ .ret := by
    generalize f.pc = pc at hpass
    cases pc <;> first | exact Part.noConfusion | cases hpass
  by_contra hisr
  have hquick := h.quick_of_isr hd hf (by simpa using hisr) ⟨hret, hpart⟩
  exact absurd (hpass.symm.trans (f.passing_of_quick (h.handlers t f hf) hquick)) Bool.false_ne_true

/-- Only a task's own function blocks or ends it, and that function is alone on its stack. -/
theorem alone (h : Prompt m) (hd : Discipline m builder) (hframes : m.frames m.current = f :: rest)
    (hparks : f.pc.parks = true) : rest = [] ∧ f.origin.isr = false := by
  have htables : f.pc.passing = false ∧ f.pc.part ≠ .sched ∧ f.pc.part ≠ .post := by
    generalize f.pc = pc at hparks
    cases pc <;> first | exact ⟨rfl, Part.noConfusion, Part.noConfusion⟩ | cases hparks
  have hisr := h.isr_eq_false hd (hframes ▸ List.mem_cons_self ..) htables.1 htables.2
  exact ⟨hd.rest_nil hframes hisr, hisr⟩

/-- The current task's stack becomes another one. -/
theorem update (h : Prompt m) {stack : List Frame} {c : Word} {b : Bool}
    (hstack : ∀ g ∈ stack, g ∈ m.frames m.current ∨
      (g.prompt = true ∧ ∀ a, g.pc.args = some a → a.runnable = true)) :
    Prompt { (m.setFrames m.current stack).switchTo c with intr := b } := by
  have hmem : ∀ t, ∀ g ∈ Function.update m.frames m.current stack t,
      g.prompt = true ∧ ∀ a, g.pc.args = some a → a.runnable = true := by
    intro t g hg
    by_cases ht : t = m.current
    · subst ht
      rw [Function.update_self] at hg
      obtain hold | hnew := hstack g hg
      · exact ⟨h.handlers _ g hold, h.runnable _ g hold⟩
      · exact hnew
    · rw [Function.update_of_ne ht] at hg
      exact ⟨h.handlers t g hg, h.runnable t g hg⟩
  exact ⟨fun t g hg => (hmem t g hg).1, fun t g hg => (hmem t g hg).2⟩

theorem move (h : Prompt m) (hd : Discipline m builder) {l : Label} (hok : HandlersPass m l) (hmove : Move m l m') :
    Prompt m' := by
  have hbelow : ∀ {f g : Frame} {rest : List Frame}, m.frames m.current = f :: rest →
      (g.prompt = true ∧ ∀ a, g.pc.args = some a → a.runnable = true) → ∀ g' ∈ g :: rest, g' ∈ m.frames m.current ∨
        (g'.prompt = true ∧ ∀ a, g'.pc.args = some a → a.runnable = true) := by
    intro f g rest hframes hnew g' hg'
    obtain rfl | hg' := List.mem_cons.mp hg'
    · exact Or.inr hnew
    · exact Or.inl (hframes ▸ List.mem_cons_of_mem _ hg')
  have hpush : ∀ {g : Frame}, g.prompt = true → g.pc.args = none → ∀ g' ∈ g :: m.frames m.current,
      g' ∈ m.frames m.current ∨ (g'.prompt = true ∧ ∀ a, g'.pc.args = some a → a.runnable = true) := by
    intro g hprompt hargs g' hg'
    obtain rfl | hg' := List.mem_cons.mp hg'
    · exact Or.inr ⟨hprompt, fun a ha => nomatch hargs.symm.trans ha⟩
    · exact Or.inl hg'
  have hleave : ∀ {f : Frame} {rest : List Frame} {next : Word} {pc : Pc}, m.frames m.current = f :: rest →
      f.pc = .schSwitch next → (pc = .schPost ∨ pc = .schSti) →
      (⟨pc, f.origin.waited⟩ : Frame).prompt = true ∧ ∀ a, pc.args = some a → a.runnable = true := by
    intro f rest next pc hframes hpc hpost
    have hprompt := h.handlers _ f (hframes ▸ List.mem_cons_self ..)
    have hpass : f.pc.passing = false := by rw [hpc]; rfl
    rw [Frame.waited_of_prompt hprompt hpass]
    obtain ⟨_, o⟩ := f
    refine ⟨?_, fun a ha => by obtain rfl | rfl := hpost <;> cases ha⟩
    cases o with
    | device op ops late => exact absurd (hpass.symm.trans (Bool.and_eq_true_iff.mp hprompt).2) Bool.false_ne_true
    | _ => rfl
  cases hmove with
  | @stmt f rest e pc hframes hstmt henabled =>
      have hmem : f ∈ m.frames m.current := hframes ▸ List.mem_cons_self ..
      have hprompt : (⟨pc, f.origin⟩ : Frame).prompt = true := by
        have hold := h.handlers _ f hmem
        have hwaits := hok f (by rw [hframes]; rfl)
        obtain ⟨pc₀, o⟩ := f
        cases o with
        | device op ops late =>
            obtain ⟨hlate, hpass⟩ := Bool.and_eq_true_iff.mp hold
            exact Bool.and_eq_true_iff.mpr ⟨hlate, stmt_passing hstmt hpass (hwaits rfl)⟩
        | _ => rfl
      have hcases : ∀ t, ∀ g ∈ ((m.setFrames m.current (⟨pc, f.origin⟩ :: rest)).apply e).frames t,
          g.prompt = true ∧ ∀ a, g.pc.args = some a → a.runnable = true := by
        intro t g hg
        obtain ⟨-, rfl⟩ | ⟨-, hrest⟩ | ⟨-, hold⟩ | ⟨-, -, rfl⟩ := hd.mem_frames_stmt hframes hstmt hg
        · exact ⟨hprompt, fun a ha => h.runnable _ f hmem a (stmt_args hstmt ha)⟩
        · have hold : g ∈ m.frames m.current := hframes ▸ List.mem_cons_of_mem _ hrest
          exact ⟨h.handlers _ g hold, h.runnable _ g hold⟩
        · exact ⟨h.handlers t g hold, h.runnable t g hold⟩
        · exact ⟨rfl, fun a ha => by cases ha⟩
      exact ⟨fun t g hg => (hcases t g hg).1, fun t g hg => (hcases t g hg).2⟩
  | @proceed f g rest hframes hpc hnext =>
      refine h.update (b := m.intr) (c := m.current) (hbelow hframes ?_)
      have hold := h.handlers _ f (hframes ▸ List.mem_cons_self ..)
      obtain ⟨_, o⟩ := f
      cases o with
      | device op ops late =>
          cases ops with
          | nil => cases hnext
          | cons op' ops =>
              cases hnext
              obtain ⟨hpass, hargs⟩ := op'.passing_entry
              refine ⟨Bool.and_eq_true_iff.mpr ⟨(Bool.and_eq_true_iff.mp hold).1, hpass⟩, fun a ha => ?_⟩
              exact nomatch hargs.symm.trans ha
      | _ => cases hnext
  | ret hframes hpc hlast =>
      exact h.update (c := m.current) fun g hg => Or.inl (hframes ▸ List.mem_cons_of_mem _ hg)
  | stay hframes hpc =>
      exact h.update (b := m.intr) (c := m.current) (hbelow hframes (hleave hframes hpc (Or.inr rfl)))
  | switch hframes hpc hne hsaved =>
      exact h.update (b := m.intr) (hbelow hframes (hleave hframes hpc (Or.inl rfl)))
  | @call c hframes hallowed =>
      refine h.update (b := m.intr) (c := m.current) fun g hg => Or.inr ?_
      obtain rfl := List.mem_singleton.mp hg
      refine ⟨rfl, fun a ha => ?_⟩
      obtain rfl := Call.args_entry ha
      exact hok
  | timer hintr => exact h.update (c := m.current) (hpush rfl rfl)
  | @device op ops hintr =>
      obtain ⟨hpass, hargs⟩ := op.passing_entry
      exact h.update (c := m.current) (hpush hpass hargs)

theorem start (k : Kernel) : Prompt (Machine.start k) := by
  constructor
  · intro t f hf
    rw [Machine.mem_frames_start hf]
    rfl
  · intro t f hf a ha
    rw [Machine.mem_frames_start hf] at ha
    cases ha

end Prompt

/-! ## Statuses -/

theorem stmt_setStatus {k : Kernel} {c t : Word} {pc pc' : Pc} {st : TaskStatus}
    (h : stmt k c pc = some (.setStatus t st, pc')) :
    (t = c ∧ pc.parks = true ∧ pc'.leaving = true) ∨ st = .running ∨ ∃ a, pc.args = some a ∧ st = a.status := by
  cases pc with
  | upPop s | schRead =>
      obtain ⟨w, -, heq⟩ := Option.map_eq_some_iff.mp h
      cases heq
  | suspBlock s =>
      cases h
      exact Or.inl ⟨rfl, rfl, rfl⟩
  | exitDying =>
      cases h
      exact Or.inl ⟨rfl, rfl, rfl⟩
  | resMark _ _ | schMark _ =>
      cases h
      exact Or.inr (Or.inl rfl)
  | mkStatus a _ =>
      cases h
      exact Or.inr (Or.inr ⟨a, rfl, rfl⟩)
  | _ => cases h

theorem stmt_page_beforeStack {k : Kernel} {c n : Word} {pc pc' : Pc} {e : Effect} (h : stmt k c pc = some (e, pc'))
    (hn : e.page = some n) : e = .returnPid n ∨ pc.beforeStack = true := by
  cases pc with
  | upPop s | schRead =>
      obtain ⟨w, -, heq⟩ := Option.map_eq_some_iff.mp h
      cases heq
      cases hn
  | mkReturn n =>
      cases h
      cases hn
      exact Or.inl rfl
  | _ =>
      cases h <;> first | exact Or.inr rfl | cases hn

namespace Prompt

variable {m : Machine} {builder : Word → Option Word} {f : Frame} {rest : List Frame} {e : Effect} {pc : Pc}

/-- Only `sema_down` and `task_exit` give a task a status that keeps it from being chosen, and that to the task itself; a task being built gets one before it has a stack. -/
theorem status_cases (h : Prompt m) (hframes : m.frames m.current = f :: rest)
    (hstmt : stmt m.kernel m.current f.pc = some (e, pc)) {t : Word}
    (hstatus : (e.kernel m.kernel).status t = .blocked ∨ (e.kernel m.kernel).status t = .dying) :
    (m.kernel.status t = .blocked ∨ m.kernel.status t = .dying) ∨
      (t = m.current ∧ f.pc.parks = true ∧ pc.leaving = true) ∨ (f.pc.builds = some t ∧ f.pc.beforeStack = true) := by
  by_cases hset : ∃ st, e = .setStatus t st
  · obtain ⟨st, rfl⟩ := hset
    have hst : (m.kernel.setStatus t st).status t = st := congrArg TaskStruct.status (m.kernel.task_setStatus_self t st)
    have hstatus : st = .blocked ∨ st = .dying := hst ▸ hstatus
    obtain hself | rfl | ⟨a, ha, rfl⟩ := stmt_setStatus hstmt
    · exact Or.inr (Or.inl hself)
    · exact absurd hstatus (by decide)
    · have hrun := of_decide_eq_true (h.runnable _ f (hframes ▸ List.mem_cons_self ..) a ha)
      obtain heq | heq := hrun <;> rw [heq] at hstatus <;> exact absurd hstatus (by decide)
  have hset : ∀ st, e ≠ .setStatus t st := fun st heq => hset ⟨st, heq⟩
  by_cases hpage : e.page = some t
  · obtain rfl | hbefore := stmt_page_beforeStack hstmt hpage
    · exact Or.inl hstatus
    · exact Or.inr (Or.inr ⟨stmt_page hstmt hpage, hbefore⟩)
  · rw [Kernel.status, Effect.task_kernel hset hpage] at hstatus
    exact Or.inl hstatus

/-- No statement blocks or ends a task that has a frame other than the one the statement belongs to. -/
theorem status_stmt (h : Prompt m) (hd : Discipline m builder) (hframes : m.frames m.current = f :: rest)
    (hstmt : Preempt.stmt m.kernel m.current f.pc = some (e, pc)) {t : Word} {g : Frame}
    (hg : (t ≠ m.current ∧ g ∈ m.frames t) ∨ (t = m.current ∧ g ∈ rest))
    (hstatus : (e.kernel m.kernel).status t = .blocked ∨ (e.kernel m.kernel).status t = .dying) :
    m.kernel.status t = .blocked ∨ m.kernel.status t = .dying := by
  have hmem : f ∈ m.frames m.current := hframes ▸ List.mem_cons_self ..
  obtain hold | ⟨rfl, hparks, -⟩ | ⟨hbuilds, hbefore⟩ := h.status_cases hframes hstmt hstatus
  · exact hold
  · obtain ⟨hne, -⟩ | ⟨-, hrest⟩ := hg
    · exact absurd rfl hne
    · rw [(h.alone hd hframes hparks).1] at hrest
      cases hrest
  · obtain ⟨hempty, hne⟩ := hd.unstacked _ f hmem t hbuilds hbefore
    obtain ⟨-, hold⟩ | ⟨heq, -⟩ := hg
    · rw [hempty] at hold
      cases hold
    · exact absurd heq hne

end Prompt

end I386Kernel.Preempt
