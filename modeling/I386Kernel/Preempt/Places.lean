import I386Kernel.Preempt.Machine

/-!
# Steps and places

The cases of a step of the machine, and tables of what the place of a frame tells: the locks held there, the page a task is being built in, the function the place belongs to, whether interrupts are off. A table lemma says how one statement moves along each table.
-/

namespace I386Kernel.Preempt

/-! ## Steps -/

/-- What `Machine.next` does, case by case. -/
inductive Move (m : Machine) : Label → Machine → Prop
  | stmt {f : Frame} {rest : List Frame} {e : Effect} {pc : Pc} (hframes : m.frames m.current = f :: rest)
      (hstmt : stmt m.kernel m.current f.pc = some (e, pc)) (henabled : e.enabled m.holder = true) :
      Move m .step ((m.setFrames m.current (⟨pc, f.origin⟩ :: rest)).apply e)
  | proceed {f g : Frame} {rest : List Frame} (hframes : m.frames m.current = f :: rest) (hpc : f.pc = .ret)
      (hnext : f.origin.proceed = some g) : Move m .step (m.setFrames m.current (g :: rest))
  | ret {f : Frame} {rest : List Frame} (hframes : m.frames m.current = f :: rest) (hpc : f.pc = .ret)
      (hlast : f.origin.proceed = none) :
      Move m .step { m.setFrames m.current rest with intr := m.intr || f.origin.isr }
  | stay {f : Frame} {rest : List Frame} (hframes : m.frames m.current = f :: rest)
      (hpc : f.pc = .schSwitch m.current) :
      Move m .step (m.setFrames m.current (⟨.schSti, f.origin.waited⟩ :: rest))
  | switch {f : Frame} {rest : List Frame} {next : Word} (hframes : m.frames m.current = f :: rest)
      (hpc : f.pc = .schSwitch next) (hne : next ≠ m.current) (hsaved : m.frames next ≠ []) :
      Move m .step ((m.setFrames m.current (⟨.schPost, f.origin.waited⟩ :: rest)).switchTo next)
  | call {c : Call} (hframes : m.frames m.current = []) (hallowed : c.allowed m.kernel) :
      Move m (.call c) (m.setFrames m.current [⟨c.entry, .call c⟩])
  | timer (hintr : m.intr = true) : Move m .timer (m.interrupt ⟨.schRead, .timer⟩)
  | device {op : SemaOp} {ops : List SemaOp} (hintr : m.intr = true) :
      Move m (.device op ops) (m.interrupt ⟨op.entry, .device op ops false⟩)

theorem Machine.run_move {m m' : Machine} (h : m.run = some m') : Move m .step m' := by
  rw [Machine.run] at h
  cases hframes : m.frames m.current with
  | nil =>
      rw [hframes] at h
      cases h
  | cons f rest =>
      obtain ⟨pc, origin⟩ := f
      rw [hframes] at h
      by_cases hret : pc = .ret
      · subst hret
        cases hnext : origin.proceed with
        | some g =>
            simp only [hnext] at h
            cases h
            exact .proceed hframes rfl hnext
        | none =>
            simp only [hnext] at h
            cases h
            exact .ret hframes rfl hnext
      by_cases hswitch : ∃ next, pc = .schSwitch next
      · obtain ⟨next, rfl⟩ := hswitch
        have hrun : (if next = m.current then some (m.setFrames m.current (⟨.schSti, origin.waited⟩ :: rest))
          else if m.frames next = [] then none
          else some ((m.setFrames m.current (⟨.schPost, origin.waited⟩ :: rest)).switchTo next)) = some m' := h
        by_cases hnext : next = m.current
        · rw [if_pos hnext] at hrun
          cases hrun
          exact .stay hframes (hnext ▸ rfl)
        · rw [if_neg hnext] at hrun
          obtain ⟨hsaved, heq⟩ := Option.ite_none_left_eq_some.mp hrun
          cases heq
          exact .switch hframes rfl hnext hsaved
      have hrun : ((Preempt.stmt m.kernel m.current pc).bind fun p =>
          if p.1.enabled m.holder then
            some ((m.setFrames m.current (⟨p.2, origin⟩ :: rest)).apply p.1) else none) = some m' := by
        cases pc with
        | ret => exact absurd rfl hret
        | schSwitch next => exact absurd ⟨next, rfl⟩ hswitch
        | _ => exact h
      obtain ⟨⟨e, pc'⟩, hstmt, hite⟩ := Option.bind_eq_some_iff.mp hrun
      obtain ⟨henabled, heq⟩ := Option.ite_none_right_eq_some.mp hite
      cases heq
      exact .stmt hframes hstmt henabled

theorem Machine.next_move {m m' : Machine} {l : Label} (h : m.next l = some m') : Move m l m' := by
  cases l with
  | step => exact m.run_move h
  | call c =>
      obtain ⟨⟨hframes, hallowed⟩, heq⟩ := Option.ite_none_right_eq_some.mp h
      cases heq
      exact .call hframes hallowed
  | timer =>
      obtain ⟨hintr, heq⟩ := Option.ite_none_right_eq_some.mp h
      cases heq
      exact .timer hintr
  | device op ops =>
      obtain ⟨hintr, heq⟩ := Option.ite_none_right_eq_some.mp h
      cases heq
      exact .device hintr

/-! ## What a place tells -/

namespace Pc

/-- The locks held at a place, the last one taken first. -/
def locks : Pc → List Lock
  | downTest s | downDec s | downUnlock s | suspLock s | waitUnlock s => [.slock s]
  | suspBlock s | suspDel s | suspAdd s | suspUnlock s => [.list, .slock s]
  | upInc s | upEmpty s | upPop s | resValid s _ | resLock s _ | upUnlock s _ => [.slock s]
  | resTest s _ | resMark s _ | resLink s _ | resUnlock s _ => [.list, .slock s]
  | rotDel _ | rotAdd _ | rotUnlock _ | exitDying | exitDel | exitUnlock => [.list]
  | mkTake _ | mkUnlock _ _ => [.pool]
  | allAdd _ _ | allUnlock _ _ | linkAdd _ _ | linkUnlock _ _ => [.list]
  | pidInc _ _ | pidUnlock _ _ => [.pid]
  | _ => []

/-- The page `task_create` builds a task in. -/
def builds : Pc → Option Word
  | mkUnlock _ n => if n = 0 then none else some n
  | mkZero _ n | mkInit _ n | allLock _ n | allAdd _ n | allUnlock _ n | pidLock _ n | pidInc _ n | pidUnlock _ n
  | pidRead _ n | mkSlice _ n | mkStack _ n | linkLock _ n | linkAdd _ n | linkUnlock _ n | mkStatus _ n
  | mkReturn n => some n
  | _ => none

/-- The task being built has no stack yet. -/
def beforeStack : Pc → Bool
  | mkUnlock .. | mkZero .. | mkInit .. | allLock .. | allAdd .. | allUnlock .. | pidLock .. | pidInc ..
  | pidUnlock .. | pidRead .. | mkSlice .. | mkStack .. => true
  | _ => false

/-- The task being built has been initialised, but has no stack yet. -/
def initialised : Pc → Bool
  | allLock .. | allAdd .. | allUnlock .. | pidLock .. | pidInc .. | pidUnlock .. | pidRead .. | mkSlice ..
  | mkStack .. => true
  | _ => false

/-- Interrupts are off at this place of a task. -/
def masked : Pc → Bool
  | schMark _ | schSwitch _ | schPost | schSti | initPost | initSti => true
  | _ => false

/-- On the way from a status store of `task_suspend` or `task_exit` to the switch of `schedule`. -/
def leaving : Pc → Bool
  | suspDel _ | suspAdd _ | suspUnlock _ | waitUnlock _ | exitDel | exitUnlock | schRead | schTest _ | rotLock _
  | rotDel _ | rotAdd _ | rotUnlock _ | schCli _ | schMark _ | schSwitch _ => true
  | _ => false

/-- Where a task that does not run goes on. -/
def suspended : Pc → Bool
  | schPost | initPost => true
  | _ => false

end Pc

/-- The function a place belongs to; `task_suspend` belongs to `sema_down` and `task_resume` to `sema_up`, and `post` is what `schedule` does past `switch_to`. -/
inductive Part where
  | down
  | up
  | sched
  | post
  | exit
  | create
  | initial
  | ret
deriving DecidableEq

def Pc.part : Pc → Part
  | downLock _ | downTest _ | downDec _ | downUnlock _ | suspLock _ | suspBlock _ | suspDel _ | suspAdd _
  | suspUnlock _ | waitUnlock _ => .down
  | upLock _ | upInc _ | upEmpty _ | upPop _ | resValid _ _ | resLock _ _ | resTest _ _ | resMark _ _ | resLink _ _
  | resUnlock _ _ | upUnlock _ _ => .up
  | schRead | schTest _ | rotLock _ | rotDel _ | rotAdd _ | rotUnlock _ | schCli _ | schMark _ | schSwitch _ => .sched
  | schPost | schSti => .post
  | exitLock | exitDying | exitDel | exitUnlock => .exit
  | initPost | initSti => .initial
  | Pc.ret => .ret
  | _ => .create

/-- The functions a frame that came in by `o` goes through. -/
def Origin.has : Origin → Part → Bool
  | _, .ret => true
  | .call (.semaDown _), .down | .call (.semaDown _), .sched | .call (.semaDown _), .post => true
  | .call (.semaUp _), .up => true
  | .call (.taskCreate _), .create => true
  | .call .taskExit, .exit | .call .taskExit, .sched | .call .taskExit, .post => true
  | .call .schedule, .sched | .call .schedule, .post => true
  | .timer, .sched | .timer, .post => true
  | .device _ _ _, .down | .device _ _ _, .up | .device _ _ _, .sched => true
  | .device _ _ late, .post => late
  | .fresh, .initial => true
  | _, _ => false

/-- The handler of a device that has not been through `schedule`. -/
def Origin.isQuick : Origin → Bool
  | .device _ _ late => !late
  | _ => false

theorem Origin.isr_of_quick {o : Origin} (h : o.isQuick = true) : o.isr = true := by
  cases o <;> first | rfl | cases h

theorem Origin.isQuick_of_isr {o : Origin} (h : o.isr = false) : o.isQuick = false := by
  cases o <;> first | rfl | cases h

/-- Interrupts are off while this is the top frame: a handler enables them only at the end of a `schedule`. -/
def Frame.masked (f : Frame) : Bool :=
  f.pc.masked || f.origin.isQuick || (decide (f.origin = .timer) && !decide (f.pc = .ret))

@[simp] theorem Origin.isr_waited (o : Origin) : o.waited.isr = o.isr := by
  cases o <;> rfl

theorem Origin.has_waited {o : Origin} (h : o.has .sched = true) : o.waited.has .post = true := by
  cases o with
  | call c => cases c <;> first | rfl | cases h
  | fresh => cases h
  | _ => rfl

theorem Origin.has_ret (o : Origin) : o.has .ret = true := by
  cases o with
  | call c => cases c <;> rfl
  | _ => rfl

/-- Only `sema_down` and `task_exit` go on to `schedule`. -/
theorem Origin.has_sched {o : Origin} {p : Part} (h : o.has p = true) (hp : p = .down ∨ p = .exit) :
    o.has .sched = true := by
  obtain rfl | rfl := hp
  all_goals
    cases o with
    | call c => cases c <;> first | rfl | cases h
    | device op ops late => rfl
    | _ => cases h

/-- No handler runs `task_exit`, `task_create` or `switch_initial`. -/
theorem Origin.has_isr {o : Origin} {p : Part} (h : o.has p = true) (hp : p = .exit ∨ p = .create ∨ p = .initial) :
    o.isr = false := by
  cases o with
  | timer | device op ops late => obtain rfl | rfl | rfl := hp <;> cases h
  | _ => rfl

theorem Origin.timer_of_has {p : Part} (h : Origin.timer.has p = true) : p = .ret ∨ p = .sched ∨ p = .post := by
  cases p <;> first | exact Or.inl rfl | exact Or.inr (Or.inl rfl) | exact Or.inr (Or.inr rfl) | cases h

/-- A handler that has not been through `schedule` is not past its `switch_to`. -/
theorem Origin.has_quick {o : Origin} {p : Part} (h : o.has p = true) (hquick : o.isQuick = true) :
    p ≠ .post ∧ p ≠ .initial := by
  cases o with
  | device op ops late =>
      have hlate : late = false := by simpa [Origin.isQuick] using hquick
      subst hlate
      constructor <;> rintro rfl <;> cases h
  | _ => cases hquick

/-- The next operation of a handler begins as the last one ended. -/
theorem Origin.proceed_eq {o : Origin} {g : Frame} (h : o.proceed = some g) :
    g.pc.masked = false ∧ g.origin.has g.pc.part = true ∧ g.origin.isr = o.isr ∧ g.origin.isQuick = o.isQuick ∧
      g.origin ≠ .timer ∧ o ≠ .timer := by
  cases o with
  | device op ops late =>
      cases ops with
      | nil => cases h
      | cons op' ops =>
          cases h
          cases op' <;> exact ⟨rfl, rfl, rfl, rfl, nofun, nofun⟩
  | _ => cases h

theorem Pc.nodup_locks (pc : Pc) : pc.locks.Nodup := by
  have hpair : ∀ s, [Lock.list, .slock s].Nodup := fun s =>
    List.nodup_cons.mpr ⟨by simp, List.nodup_singleton _⟩
  cases pc <;> first
    | exact List.nodup_nil
    | exact List.nodup_singleton _
    | exact hpair _

/-- What an effect does to the locks held. -/
def Effect.Shifts (locks locks' : List Lock) : Effect → Prop
  | .acquire l => locks' = l :: locks
  | .release l => locks = l :: locks'
  | _ => locks' = locks

theorem stmt_locks {k : Kernel} {c : Word} {pc pc' : Pc} {e : Effect} (h : stmt k c pc = some (e, pc')) :
    e.Shifts pc.locks pc'.locks := by
  cases pc with
  | upPop s =>
      obtain ⟨w, -, heq⟩ := Option.map_eq_some_iff.mp h
      cases heq
      rfl
  | schRead =>
      obtain ⟨next, -, heq⟩ := Option.map_eq_some_iff.mp h
      cases heq
      rfl
  | downTest _ | upInc _ | upEmpty _ | resValid _ _ | resTest _ _ | schTest _ | mkUnlock _ _ =>
      cases h
      split <;> rfl
  | _ =>
      cases h <;> rfl

/-- What an effect does to the page being built. -/
def Effect.Passes (page page' : Option Word) : Effect → Prop
  | .takePage n _ _ => page = none ∧ page' = if n = 0 then none else some n
  | .returnPid n => page = some n ∧ page' = none
  | _ => page' = page

theorem stmt_builds {k : Kernel} {c : Word} {pc pc' : Pc} {e : Effect} (h : stmt k c pc = some (e, pc')) :
    e.Passes pc.builds pc'.builds := by
  cases pc with
  | upPop s =>
      obtain ⟨w, -, heq⟩ := Option.map_eq_some_iff.mp h
      cases heq
      rfl
  | schRead =>
      obtain ⟨next, -, heq⟩ := Option.map_eq_some_iff.mp h
      cases heq
      rfl
  | downTest _ | upInc _ | upEmpty _ | resValid _ _ | resTest _ _ | schTest _ =>
      cases h
      split <;> rfl
  | mkUnlock a n =>
      cases h
      show (if n = 0 then Pc.ret else .mkZero a n).builds = if n = 0 then none else some n
      split <;> rfl
  | mkTake _ | mkReturn _ =>
      cases h
      exact ⟨rfl, rfl⟩
  | _ =>
      cases h <;> rfl

/-- A statement only leaves the frames of other tasks changed when it builds the stack of a new one. -/
theorem stmt_buildStack {k : Kernel} {c : Word} {pc pc' : Pc} {n proc params : Word}
    (h : stmt k c pc = some (.buildStack n proc params, pc')) :
    (pc.builds = some n ∧ pc.beforeStack = true ∧ pc.initialised = true) ∧ ∃ a, pc' = .linkLock a n := by
  cases pc with
  | upPop s =>
      obtain ⟨w, -, heq⟩ := Option.map_eq_some_iff.mp h
      cases heq
  | schRead =>
      obtain ⟨next, -, heq⟩ := Option.map_eq_some_iff.mp h
      cases heq
  | mkStack a n =>
      cases h
      exact ⟨⟨rfl, rfl, rfl⟩, a, rfl⟩
  | _ => cases h

theorem stmt_masked {k : Kernel} {c : Word} {pc pc' : Pc} {e : Effect} (h : stmt k c pc = some (e, pc')) :
    pc'.masked = true → e = .setIntr false ∨ (pc.masked = true ∧ ∀ b, e.intr b = b) := by
  cases pc with
  | upPop s =>
      obtain ⟨w, -, heq⟩ := Option.map_eq_some_iff.mp h
      cases heq
      nofun
  | schRead =>
      obtain ⟨next, -, heq⟩ := Option.map_eq_some_iff.mp h
      cases heq
      nofun
  | downTest _ | upInc _ | upEmpty _ | resValid _ _ | resTest _ _ | schTest _ | mkUnlock _ _ =>
      cases h
      split <;> nofun
  | schCli _ =>
      cases h
      exact fun _ => Or.inl rfl
  | schMark _ | schPost | initPost =>
      cases h
      exact fun _ => Or.inr ⟨rfl, fun _ => rfl⟩
  | _ =>
      cases h <;> nofun

/-- The page an effect works on as the builder of a task in it. -/
def Effect.page : Effect → Option Word
  | .zeroPage n | .initTask n _ | .storePid n | .storeSlices n _ | .buildStack n _ _ | .returnPid n => some n
  | _ => none

theorem stmt_page {k : Kernel} {c n : Word} {pc pc' : Pc} {e : Effect} (h : stmt k c pc = some (e, pc'))
    (hn : e.page = some n) : pc.builds = some n := by
  cases pc with
  | upPop s =>
      obtain ⟨w, -, heq⟩ := Option.map_eq_some_iff.mp h
      cases heq
      cases hn
  | schRead =>
      obtain ⟨next, -, heq⟩ := Option.map_eq_some_iff.mp h
      cases heq
      cases hn
  | _ =>
      cases h <;> first | exact hn | cases hn

theorem stmt_beforeStack {k : Kernel} {c n : Word} {pc pc' : Pc} {e : Effect} (h : stmt k c pc = some (e, pc'))
    (hn : pc'.builds = some n) (hbefore : pc'.beforeStack = true) :
    (∃ m proc, e = .takePage n m proc) ∨ (pc.builds = some n ∧ pc.beforeStack = true) := by
  cases pc with
  | upPop s =>
      obtain ⟨w, -, heq⟩ := Option.map_eq_some_iff.mp h
      cases heq
      cases hn
  | schRead =>
      obtain ⟨next, -, heq⟩ := Option.map_eq_some_iff.mp h
      cases heq
      cases hn
  | mkTake a =>
      cases h
      obtain ⟨-, heq⟩ := Option.ite_none_left_eq_some.mp hn
      cases heq
      exact Or.inl ⟨_, _, rfl⟩
  | mkUnlock a n' =>
      cases h
      refine Or.inr ⟨?_, rfl⟩
      show (if n' = 0 then none else some n') = some n
      split at hn
      · cases hn
      · rename_i hne
        rw [if_neg hne]
        exact hn
  | downTest _ | upInc _ | upEmpty _ | resValid _ _ | resTest _ _ | schTest _ =>
      cases h
      split at hn <;> cases hn
  | _ =>
      cases h <;> first | exact Or.inr ⟨hn, rfl⟩ | cases hbefore

theorem stmt_initialised {k : Kernel} {c n : Word} {pc pc' : Pc} {e : Effect} (h : stmt k c pc = some (e, pc'))
    (hn : pc'.builds = some n) (hinit : pc'.initialised = true) :
    (∃ a, e = .initTask n a) ∨
      (pc.builds = some n ∧ pc.initialised = true ∧ (e.page = none ∨ e = .storePid n ∨ ∃ p, e = .storeSlices n p)) := by
  cases pc with
  | upPop s =>
      obtain ⟨w, -, heq⟩ := Option.map_eq_some_iff.mp h
      cases heq
      cases hn
  | schRead =>
      obtain ⟨next, -, heq⟩ := Option.map_eq_some_iff.mp h
      cases heq
      cases hn
  | downTest _ | upInc _ | upEmpty _ | resValid _ _ | resTest _ _ | schTest _ =>
      cases h
      split at hn <;> cases hn
  | mkUnlock _ _ =>
      cases h
      split at hinit <;> cases hinit
  | mkInit a n =>
      cases h
      cases hn
      exact Or.inl ⟨_, rfl⟩
  | pidRead a n =>
      cases h
      cases hn
      exact Or.inr ⟨rfl, rfl, Or.inr (Or.inl rfl)⟩
  | mkSlice a n =>
      cases h
      cases hn
      exact Or.inr ⟨rfl, rfl, Or.inr (Or.inr ⟨_, rfl⟩)⟩
  | _ =>
      cases h <;> first | exact Or.inr ⟨hn, rfl, Or.inl rfl⟩ | cases hinit

theorem stmt_setIntr {k : Kernel} {c : Word} {pc pc' : Pc} (h : stmt k c pc = some (.setIntr true, pc')) :
    pc' = .ret := by
  cases pc with
  | upPop s =>
      obtain ⟨w, -, heq⟩ := Option.map_eq_some_iff.mp h
      cases heq
  | schRead =>
      obtain ⟨next, -, heq⟩ := Option.map_eq_some_iff.mp h
      cases heq
  | _ => cases h <;> rfl

theorem stmt_part {k : Kernel} {c : Word} {pc pc' : Pc} {e : Effect} (h : stmt k c pc = some (e, pc')) :
    pc'.part = pc.part ∨ pc'.part = .ret ∨ (pc'.part = .sched ∧ (pc.part = .down ∨ pc.part = .exit)) := by
  cases pc with
  | upPop s =>
      obtain ⟨w, -, heq⟩ := Option.map_eq_some_iff.mp h
      cases heq
      exact Or.inl rfl
  | schRead =>
      obtain ⟨next, -, heq⟩ := Option.map_eq_some_iff.mp h
      cases heq
      exact Or.inl rfl
  | downTest _ | upInc _ | upEmpty _ | resValid _ _ | resTest _ _ | schTest _ =>
      cases h
      left
      split <;> rfl
  | mkUnlock _ _ =>
      cases h
      split
      · exact Or.inr (Or.inl rfl)
      · exact Or.inl rfl
  | waitUnlock _ =>
      cases h
      exact Or.inr (Or.inr ⟨rfl, Or.inl rfl⟩)
  | exitUnlock =>
      cases h
      exact Or.inr (Or.inr ⟨rfl, Or.inr rfl⟩)
  | _ =>
      cases h <;> first | exact Or.inl rfl | exact Or.inr (Or.inl rfl)

theorem Origin.has_stmt {k : Kernel} {c : Word} {pc pc' : Pc} {e : Effect} {o : Origin}
    (h : stmt k c pc = some (e, pc')) (ho : o.has pc.part = true) : o.has pc'.part = true := by
  obtain hsame | hret | ⟨hsched, hor⟩ := stmt_part h
  · rwa [hsame]
  · rw [hret]
    exact o.has_ret
  · rw [hsched]
    exact Origin.has_sched ho hor

theorem stmt_sti_part {k : Kernel} {c : Word} {pc pc' : Pc} (h : stmt k c pc = some (.setIntr true, pc')) :
    pc.part = .post ∨ pc.part = .initial := by
  cases pc with
  | upPop s | schRead =>
      obtain ⟨w, -, heq⟩ := Option.map_eq_some_iff.mp h
      cases heq
  | schSti => exact Or.inl rfl
  | initSti => exact Or.inr rfl
  | _ => cases h

theorem stmt_part_ne_ret {k : Kernel} {c : Word} {pc pc' : Pc} {e : Effect} (h : stmt k c pc = some (e, pc')) :
    pc.part ≠ .ret := by
  intro hpart
  cases pc with
  | ret => cases h
  | _ => cases hpart

theorem Call.has_entry (c : Call) : (Origin.call c).has c.entry.part = true := by
  cases c with
  | taskCreate a =>
      rw [Call.entry]
      split <;> rfl
  | _ => rfl

/-! ## Steps that are no statement -/

/-- The places a frame is put at by a call, an interrupt or a dispatch. -/
def Pc.bare : Pc → Bool
  | downLock _ | upLock _ | mkLock _ | exitLock | schRead | schSti | schPost | ret => true
  | _ => false

theorem Pc.builds_of_bare {pc : Pc} (h : pc.bare = true) : pc.builds = none := by
  cases pc <;> first | rfl | cases h

theorem Call.bare_entry (c : Call) : c.entry.bare = true := by
  cases c with
  | taskCreate a =>
      rw [Call.entry]
      split <;> rfl
  | _ => rfl

theorem SemaOp.bare_entry (op : SemaOp) : op.entry.bare = true := by
  cases op <;> rfl

theorem SemaOp.has_entry (op : SemaOp) {ops : List SemaOp} {late : Bool} :
    (Origin.device op ops late).has op.entry.part = true := by
  cases op <;> rfl

theorem Origin.bare_proceed {o : Origin} {g : Frame} (h : o.proceed = some g) : g.pc.bare = true := by
  cases o with
  | device op ops late =>
      cases ops with
      | nil => cases h
      | cons op' ops =>
          cases h
          exact op'.bare_entry
  | _ => cases h

theorem Pc.locks_of_bare {pc : Pc} (h : pc.bare = true) : pc.locks = [] := by
  cases pc <;> first | rfl | cases h

/-- A call, an interrupt, a return or a dispatch: the data and the locks stay, and the only new frames are bare. -/
structure Quiet (m m' : Machine) : Prop where
  kernel : m'.kernel = { m.kernel with current := m'.current }
  holder : m'.holder = m.holder
  numbered : m'.numbered = m.numbered
  returned : m'.returned = m.returned
  allocations : m'.allocations = m.allocations
  frames : ∀ t, ∀ g ∈ m'.frames t, g ∈ m.frames t ∨ (t = m.current ∧ g.pc.bare = true)

theorem Quiet.update {m : Machine} {stack : List Frame} {b : Bool} {c : Word}
    (h : ∀ g ∈ stack, g ∈ m.frames m.current ∨ g.pc.bare = true) :
    Quiet m { (m.setFrames m.current stack).switchTo c with intr := b } := by
  refine ⟨rfl, rfl, rfl, rfl, rfl, fun t g hg => ?_⟩
  have hg : g ∈ Function.update m.frames m.current stack t := hg
  by_cases ht : t = m.current
  · subst ht
    rw [Function.update_self] at hg
    exact (h g hg).imp_right fun hbare => ⟨rfl, hbare⟩
  · rw [Function.update_of_ne ht] at hg
    exact Or.inl hg

theorem Move.stmt_or_quiet {m m' : Machine} {l : Label} (h : Move m l m') :
    (∃ f rest e pc, l = .step ∧ m.frames m.current = f :: rest ∧
      Preempt.stmt m.kernel m.current f.pc = some (e, pc) ∧ e.enabled m.holder = true ∧
      m' = (m.setFrames m.current (⟨pc, f.origin⟩ :: rest)).apply e) ∨ Quiet m m' := by
  have htop : ∀ {f g : Frame} {rest : List Frame}, m.frames m.current = f :: rest → g.pc.bare = true →
      ∀ g' ∈ g :: rest, g' ∈ m.frames m.current ∨ g'.pc.bare = true := by
    intro f g rest hframes hbare g' hg'
    obtain rfl | hg' := List.mem_cons.mp hg'
    · exact Or.inr hbare
    · exact Or.inl (hframes ▸ List.mem_cons_of_mem _ hg')
  have hpush : ∀ {f : Frame}, f.pc.bare = true →
      ∀ g ∈ f :: m.frames m.current, g ∈ m.frames m.current ∨ g.pc.bare = true := by
    intro f hbare g hg
    obtain rfl | hg := List.mem_cons.mp hg
    · exact Or.inr hbare
    · exact Or.inl hg
  cases h with
  | stmt hframes hstmt henabled => exact Or.inl ⟨_, _, _, _, rfl, hframes, hstmt, henabled, rfl⟩
  | @proceed f g rest hframes hpc hnext =>
      exact Or.inr (Quiet.update (b := m.intr) (c := m.current) (htop hframes (Origin.bare_proceed hnext)))
  | ret hframes hpc =>
      exact Or.inr (Quiet.update (c := m.current) fun g hg => Or.inl (hframes ▸ List.mem_cons_of_mem _ hg))
  | stay hframes hpc => exact Or.inr (Quiet.update (b := m.intr) (c := m.current) (htop hframes rfl))
  | switch hframes hpc hne hsaved => exact Or.inr (Quiet.update (b := m.intr) (htop hframes rfl))
  | @call c hframes hallowed =>
      refine Or.inr (Quiet.update (b := m.intr) (c := m.current) fun g hg => Or.inr ?_)
      rw [List.mem_singleton.mp hg]
      exact c.bare_entry
  | timer hintr => exact Or.inr (Quiet.update (c := m.current) (hpush rfl))
  | @device op ops hintr => exact Or.inr (Quiet.update (c := m.current) (hpush op.bare_entry))

end I386Kernel.Preempt
