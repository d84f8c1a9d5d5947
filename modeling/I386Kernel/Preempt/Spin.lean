import I386Kernel.Preempt.Runs
import I386Kernel.Preempt.Section

/-!
# Spinning on a lock

None of the lock sections disables interrupts. A handler that takes a lock the interrupted task holds spins for ever, and so does everybody on a lock whose holder has been switched away from and is never chosen again.
-/

namespace I386Kernel.Preempt

/-- A task that spins can be interrupted and waits for another one; and what is held by a task that does not run is not `list_slock`, and the task will be chosen again. -/
structure NoSelfDeadlock (m : Machine) : Prop where
  spins : ∀ f rest l pc t, m.frames m.current = f :: rest → stmt m.kernel m.current f.pc = some (.acquire l, pc) →
    m.holder l = some t → m.intr = true ∧ t ≠ m.current ∧ l ≠ .list
  away : ∀ t, t ≠ m.current → ∀ f ∈ m.frames t, f.pc.locks ≠ [] →
    .list ∉ f.pc.locks ∧ m.kernel.status t ≠ .blocked ∧ m.kernel.status t ≠ .dying

/-- A task with this frame must keep the CPU: it holds `list_slock`, or it holds a lock and is blocked or dying. -/
def Pinned (k : Kernel) (t : Word) (f : Frame) : Prop :=
  .list ∈ f.pc.locks ∨ (f.pc.locks ≠ [] ∧ (k.status t = .blocked ∨ k.status t = .dying))

/-- `sema_up` would take a task off the wait list. -/
def Wakes (k : Kernel) (s : Word) : Prop :=
  int32 (k.semaCount s + 1) > 0 ∧ listEmpty k.links (.head (.wait s)) = false

/-- The locks are free that an operation of a handler takes: `slock`, and `list_slock` when it has a task to wake. -/
def FindsFree (m : Machine) : SemaOp → Prop
  | .down s => m.holder (.slock s) = none
  | .up s => m.holder (.slock s) = none ∧ (m.holder .list = none ∨ ¬ Wakes m.kernel s)

/-- The timer does not come upon a task that must keep the CPU; and the operations of handlers find the locks free that they take, and do not wait. -/
def FindsLocksFree (m : Machine) (l : Label) : Prop :=
  (l = .timer → ∀ f ∈ m.frames m.current, ¬ Pinned m.kernel m.current f) ∧ (∀ op ∈ m.opBegun l, FindsFree m op) ∧
    HandlersPass m l

instance (k : Kernel) (t : Word) (f : Frame) : Decidable (Pinned k t f) := inferInstanceAs (Decidable (_ ∨ _))

instance (k : Kernel) (s : Word) : Decidable (Wakes k s) := inferInstanceAs (Decidable (_ ∧ _))

instance (m : Machine) : (op : SemaOp) → Decidable (FindsFree m op)
  | .down s => inferInstanceAs (Decidable (m.holder (.slock s) = none))
  | .up s => inferInstanceAs (Decidable (m.holder (.slock s) = none ∧ (m.holder .list = none ∨ ¬ Wakes m.kernel s)))

instance (m : Machine) (l : Label) : Decidable (FindsLocksFree m l) := inferInstanceAs (Decidable (_ ∧ _ ∧ _))

/-! ## Tables -/

theorem Pc.passing_of_sched {pc : Pc} (h : pc.part = .sched) : pc.passing = false := by
  cases pc <;> first | rfl | cases h

theorem Frame.masked_of_task {f : Frame} (hpc : f.pc.masked = false) (hisr : f.origin.isr = false) :
    f.masked = false := by
  rw [Frame.masked, hpc, Origin.isQuick_of_isr hisr, decide_eq_false fun htimer => ?_]
  · rfl
  · rw [htimer] at hisr
    cases hisr

theorem isSection_pinned : IsSection Pinned where
  bare := fun k t f h hpin => by
    rw [Pinned, Pc.locks_of_bare h] at hpin
    exact hpin.elim List.not_mem_nil fun h => h.1 rfl
  first := fun k t hpin => hpin.elim List.not_mem_nil fun h => h.1 rfl
  switch := fun k t f next h hpin => by
    rw [Pinned, h] at hpin
    exact hpin.elim List.not_mem_nil fun h => h.1 rfl
  current := fun _ _ _ _ h => h

theorem stmt_acquire_not_mem {k : Kernel} {c : Word} {pc pc' : Pc} {l : Lock}
    (h : stmt k c pc = some (.acquire l, pc')) : l ∉ pc.locks := by
  have hlocks : pc'.locks = l :: pc.locks := stmt_locks h
  exact (List.nodup_cons.mp (hlocks ▸ pc'.nodup_locks)).1

/-- Where locks are acquired: by `schedule`, where a handler begins an operation, in `task_resume`, and at places that only tasks come to. -/
theorem stmt_acquire {k : Kernel} {c : Word} {pc pc' : Pc} {l : Lock} (h : stmt k c pc = some (.acquire l, pc')) :
    pc.masked = false ∧ ((pc.part = .sched ∧ l = .list) ∨
      (∃ s, (pc = .upLock s ∨ pc = .downLock s) ∧ l = .slock s) ∨ (∃ s w, pc = .resLock s w ∧ l = .list) ∨
      (pc.passing = false ∧ pc.part ≠ .sched ∧ pc.part ≠ .post)) := by
  cases pc with
  | upPop s | schRead =>
      obtain ⟨w, -, heq⟩ := Option.map_eq_some_iff.mp h
      cases heq
  | rotLock _ =>
      cases h
      exact ⟨rfl, Or.inl ⟨rfl, rfl⟩⟩
  | upLock s =>
      cases h
      exact ⟨rfl, Or.inr (Or.inl ⟨s, Or.inl rfl, rfl⟩)⟩
  | downLock s =>
      cases h
      exact ⟨rfl, Or.inr (Or.inl ⟨s, Or.inr rfl, rfl⟩)⟩
  | resLock s w =>
      cases h
      exact ⟨rfl, Or.inr (Or.inr (Or.inl ⟨s, w, rfl, rfl⟩))⟩
  | suspLock _ | exitLock | mkLock _ | allLock _ _ | pidLock _ _ | linkLock _ _ =>
      cases h
      exact ⟨rfl, Or.inr (Or.inr (Or.inr ⟨rfl, Part.noConfusion, Part.noConfusion⟩))⟩
  | _ => cases h

theorem stmt_unmasked {k : Kernel} {c : Word} {pc pc' : Pc} {e : Effect} (h : stmt k c pc = some (e, pc'))
    (hmask : pc'.masked = false) : e = .setIntr true ∨ (pc.masked = false ∧ ∀ b, e.intr b = b) := by
  cases pc with
  | upPop s =>
      obtain ⟨w, -, heq⟩ := Option.map_eq_some_iff.mp h
      cases heq
      exact Or.inr ⟨rfl, fun _ => rfl⟩
  | schRead =>
      obtain ⟨next, -, heq⟩ := Option.map_eq_some_iff.mp h
      cases heq
      exact Or.inr ⟨rfl, fun _ => rfl⟩
  | schSti | initSti =>
      cases h
      exact Or.inl rfl
  | schMark _ | schPost | initPost | schCli _ =>
      cases h
      cases hmask
  | _ =>
      cases h <;> exact Or.inr ⟨rfl, fun _ => rfl⟩

/-- `schedule` enables interrupts before it returns. -/
theorem stmt_sched_ret {k : Kernel} {c : Word} {pc pc' : Pc} {e : Effect} (h : stmt k c pc = some (e, pc'))
    (hpart : pc.part = .sched ∨ pc.part = .post) (hret : pc' = .ret) : e = .setIntr true := by
  cases pc with
  | schRead =>
      obtain ⟨next, -, heq⟩ := Option.map_eq_some_iff.mp h
      cases heq
      cases hret
  | schTest _ =>
      cases h
      split at hret <;> cases hret
  | schSti =>
      cases h
      rfl
  | rotLock _ | rotDel _ | rotAdd _ | rotUnlock _ | schCli _ | schMark _ | schPost =>
      cases h
      cases hret
  | schSwitch _ => cases h
  | _ => obtain hpart | hpart := hpart <;> cases hpart

/-! ## Handlers of devices -/

/-- What the handler of a device still needs is free. -/
def Clear (m : Machine) : Pc → Prop
  | .downLock s => m.holder (.slock s) = none
  | .upLock s => m.holder (.slock s) = none ∧ (m.holder .list = none ∨ ¬ Wakes m.kernel s)
  | .upInc s => m.holder .list = none ∨ ¬ Wakes m.kernel s
  | .upEmpty s => m.holder .list = none ∨ listEmpty m.kernel.links (.head (.wait s)) = true
  | .upPop _ | .resValid _ _ | .resLock _ _ => m.holder .list = none
  | _ => True

theorem FindsFree.clear {m : Machine} {op : SemaOp} (h : FindsFree m op) : Clear m op.entry := by
  cases op <;> exact h

theorem clear_stmt {m : Machine} {f : Frame} {rest : List Frame} {e : Effect} {pc : Pc} (hclear : Clear m f.pc)
    (hstmt : stmt m.kernel m.current f.pc = some (e, pc)) (hpass : f.pc.passing = true) :
    Clear ((m.setFrames m.current (⟨pc, f.origin⟩ :: rest)).apply e) pc := by
  generalize f.pc = pc₀ at *
  cases pc₀ with
  | upLock s =>
      cases hstmt
      refine hclear.2.imp_left fun hlist => ?_
      have hne : Lock.list ≠ .slock s := Lock.noConfusion
      exact (Function.update_of_ne hne (some m.current) m.holder).trans hlist
  | upInc s =>
      cases hstmt
      by_cases hpos : int32 (m.kernel.semaCount s + 1) > 0
      · rw [if_pos hpos]
        refine hclear.imp_right fun hwakes => ?_
        show listEmpty m.kernel.links (.head (.wait s)) = true
        by_contra hempty
        exact hwakes ⟨hpos, by simpa using hempty⟩
      · rw [if_neg hpos]
        trivial
  | upEmpty s =>
      cases hstmt
      by_cases hempty : listEmpty m.kernel.links (.head (.wait s)) = true
      · rw [if_pos hempty]
        trivial
      · rw [if_neg hempty]
        exact hclear.resolve_right hempty
  | upPop s =>
      obtain ⟨w, -, heq⟩ := Option.map_eq_some_iff.mp hstmt
      cases heq
      exact hclear
  | resValid s w =>
      cases hstmt
      split
      · exact hclear
      · trivial
  | resTest s w =>
      cases hstmt
      split <;> trivial
  | downTest s =>
      cases hstmt
      split <;> trivial
  | downLock _ | downDec _ | downUnlock _ | resLock _ _ | resMark _ _ | resLink _ _ | resUnlock _ _ | upUnlock _ _ =>
      cases hstmt
      trivial
  | ret => cases hstmt
  | _ => cases hpass

/-! ## The invariant -/

structure SpinInv (m : Machine) : Prop where
  kept : Kept Pinned m
  prompt : Prompt m
  intr : (∀ f ∈ (m.frames m.current).head?, f.masked = false) → m.intr = true
  handler : ∀ f rest, m.frames m.current = f :: rest → f.origin.isQuick = true → Clear m f.pc

namespace SpinInv

variable {m m' : Machine} {builder : Word → Option Word} {f : Frame} {rest : List Frame} {e : Effect} {pc : Pc}

theorem noSelfDeadlock (h : SpinInv m) (hd : Discipline m builder) : NoSelfDeadlock m := by
  constructor
  · intro f rest l pc t hframes hstmt hholder
    have hmem : f ∈ m.frames m.current := hframes ▸ List.mem_cons_self ..
    have hprompt := h.prompt.handlers _ f hmem
    obtain ⟨g, hg, hgl⟩ := hd.locks.exists_of_holder hholder
    have hgl : l ∈ g.pc.locks := of_decide_eq_true hgl
    have hgf : g ≠ f := fun heq => stmt_acquire_not_mem hstmt (heq ▸ hgl)
    have hlist : l = .list → t = m.current ∧ g ∈ rest := by
      rintro rfl
      have ht := h.kept.current t g hg (Or.inl hgl)
      subst ht
      rw [hframes] at hg
      exact ⟨rfl, (List.mem_cons.mp hg).resolve_left hgf⟩
    have habove : l = .list → f.origin.isQuick = true := fun hl => by
      obtain ⟨rfl, hrest⟩ := hlist hl
      exact h.kept.above_top hframes hrest (Or.inl (hl ▸ hgl))
    -- what a handler takes is free
    have hclear : f.origin.isQuick = true → ∀ {l}, m.holder l = some t → (Clear m f.pc → m.holder l = none) → False :=
      fun hquick _ hheld hfree =>
        absurd (hheld.symm.trans (hfree (h.handler f rest hframes hquick))) (Option.some_ne_none t)
    obtain ⟨hmasked, hplace⟩ := stmt_acquire hstmt
    -- a task's own function is alone on its stack
    have htask : f.origin.isr = false → m.intr = true ∧ t ≠ m.current ∧ l ≠ .list := by
      intro hisr
      have hnil := hd.rest_nil hframes hisr
      refine ⟨h.intr fun f' hf' => ?_, fun ht => ?_, fun hl => ?_⟩
      · rw [hframes] at hf'
        cases hf'
        exact Frame.masked_of_task hmasked hisr
      · rw [ht, hframes, hnil] at hg
        exact hgf (List.mem_singleton.mp hg)
      · obtain ⟨-, hrest⟩ := hlist hl
        rw [hnil] at hrest
        cases hrest
    obtain ⟨hsched, rfl⟩ | ⟨s, hpc, rfl⟩ | ⟨s, w, hpc, rfl⟩ | ⟨hpass, hpart⟩ := hplace
    · have hquick := Frame.not_quick hprompt (Pc.passing_of_sched hsched)
      exact absurd (hquick.symm.trans (habove rfl)) Bool.false_ne_true
    · cases hisr : f.origin.isr with
      | false => exact htask hisr
      | true =>
          have hpart : f.pc.part ≠ .ret ∧ f.pc.part ≠ .sched ∧ f.pc.part ≠ .post := by
            obtain hpc | hpc := hpc <;> rw [hpc] <;> exact ⟨Part.noConfusion, Part.noConfusion, Part.noConfusion⟩
          refine (hclear (h.prompt.quick_of_isr hd hmem hisr hpart) hholder fun hfree => ?_).elim
          obtain hpc | hpc := hpc <;> rw [hpc] at hfree
          · exact hfree.1
          · exact hfree
    · refine (hclear (habove rfl) hholder fun hfree => ?_).elim
      rw [hpc] at hfree
      exact hfree
    · exact htask (h.prompt.isr_eq_false hd hmem hpass hpart)
  · intro t ht f hf hlocks
    have hpin : ¬ Pinned m.kernel t f := fun hpin => ht (h.kept.current t f hf hpin)
    rw [Pinned, not_or, not_and, not_or] at hpin
    exact ⟨hpin.1, hpin.2 hlocks⟩

/-- A task that does not run has been left by `schedule` or has not been dispatched. -/
theorem suspended_top (hd : Discipline m builder) {t : Word} (ht : t ≠ m.current) (hframes : m.frames t = f :: rest) :
    f.masked = true ∧ f.origin.isQuick = false := by
  have hpc := hd.switched t ht f rest hframes
  have hparts := hd.parts t f (hframes ▸ List.mem_cons_self ..)
  have hplace : f.pc.masked = true ∧ (f.pc.part = .post ∨ f.pc.part = .initial) := by
    generalize f.pc = pc at hpc
    cases pc <;> first | exact ⟨rfl, Or.inl rfl⟩ | exact ⟨rfl, Or.inr rfl⟩ | cases hpc
  refine ⟨Frame.masked_of_pc hplace.1, ?_⟩
  by_contra hquick
  obtain ⟨hpost, hinitial⟩ := Origin.has_quick hparts (by simpa using hquick)
  exact hplace.2.elim hpost hinitial

theorem stay_stmt (h : SpinInv m) (hd : Discipline m builder) (hframes : m.frames m.current = f :: rest)
    (hstmt : stmt m.kernel m.current f.pc = some (e, pc)) {t : Word} {g : Frame}
    (hg : (t ≠ m.current ∧ g ∈ m.frames t) ∨ (t = m.current ∧ g ∈ rest)) (hpin : Pinned (e.kernel m.kernel) t g) :
    Pinned m.kernel t g :=
  hpin.imp_right fun hlocks => hlocks.imp_right (h.prompt.status_stmt hd hframes hstmt hg)

theorem intr_stmt (h : SpinInv m) (hd : Discipline m builder) (hframes : m.frames m.current = f :: rest)
    (hstmt : stmt m.kernel m.current f.pc = some (e, pc)) (hmask : (⟨pc, f.origin⟩ : Frame).masked = false) :
    e.intr m.intr = true := by
  have hmem : f ∈ m.frames m.current := hframes ▸ List.mem_cons_self ..
  obtain ⟨hpc, hnot, htimer⟩ := Frame.masked_eq_false hmask
  obtain rfl | ⟨hf, hintr⟩ := stmt_unmasked hstmt hpc
  · rfl
  cases hisr : f.origin.isr with
  | false =>
      rw [hintr]
      refine h.intr fun f' hf' => ?_
      rw [hframes] at hf'
      cases hf'
      exact Frame.masked_of_task hf hisr
  | true =>
      obtain horigin | ⟨hquick, -⟩ := f.handler_cases (h.prompt.handlers _ f hmem) hisr
      · have hhas := hd.parts _ f hmem
        rw [horigin] at hhas
        obtain hpart := (Origin.timer_of_has hhas).resolve_left (stmt_part_ne_ret hstmt)
        rw [stmt_sched_ret hstmt hpart (htimer horigin)]
        rfl
      · exact absurd (hnot.symm.trans hquick) Bool.false_ne_true

/-- The invariant after a step, read off the top frame. -/
theorem of_top (hkept : Kept Pinned m') (hprompt : Prompt m') (htop : m'.frames m'.current = f :: rest)
    (hintr : f.masked = false → m'.intr = true) (hclear : f.origin.isQuick = true → Clear m' f.pc) : SpinInv m' := by
  refine ⟨hkept, hprompt, fun hmask => hintr (hmask f (by rw [htop]; rfl)), fun g rest' hg hquick => ?_⟩
  obtain ⟨rfl, -⟩ := List.cons.inj (htop.symm.trans hg)
  exact hclear hquick

theorem move (h : SpinInv m) (hd : Discipline m builder) {l : Label} (hok : FindsLocksFree m l) (hmove : Move m l m') :
    SpinInv m' := by
  have hprompt := h.prompt.move hd hok.2.2 hmove
  have hkept : Kept Pinned m' := h.kept.move isSection_pinned hd h.prompt hmove
    (fun f rest e pc hframes hstmt t g => h.stay_stmt hd hframes hstmt) hok.1
  have hself : ∀ stack : List Frame, Function.update m.frames m.current stack m.current = stack := fun stack =>
    Function.update_self ..
  have hnever : ∀ {b : Bool} {p : Prop}, b = false → b = true → p := fun hfalse htrue =>
    absurd (hfalse.symm.trans htrue) Bool.false_ne_true
  -- the function that is about to end leaves interrupts as they are, unless it is a handler
  have hended : ∀ {f : Frame} {rest : List Frame}, m.frames m.current = f :: rest → f.masked = false → m.intr = true := by
    intro f rest hframes hmask
    refine h.intr fun f' hf' => ?_
    rw [hframes] at hf'
    cases hf'
    exact hmask
  cases hmove with
  | @stmt f rest e pc hframes hstmt henabled =>
      have hmem : f ∈ m.frames m.current := hframes ▸ List.mem_cons_self ..
      have hcurrent : ((m.setFrames m.current (⟨pc, f.origin⟩ :: rest)).apply e).current = m.current :=
        Effect.current_kernel m.kernel e
      have htop := (congrArg _ hcurrent).trans (hd.frames_stmt_self hframes hstmt)
      refine of_top hkept hprompt htop (h.intr_stmt hd hframes hstmt) fun hquick => ?_
      exact clear_stmt (h.handler f rest hframes hquick) hstmt (Frame.passing_of_quick (h.prompt.handlers _ f hmem) hquick)
  | @proceed f g rest hframes hpc hnext =>
      obtain ⟨hg, -, -, hquick, -, htimer⟩ := Origin.proceed_eq hnext
      refine of_top hkept hprompt (hself _) (fun hmask => hended hframes ?_) fun _ => ?_
      · obtain ⟨-, hg, -⟩ := Frame.masked_eq_false hmask
        rw [Frame.masked, hpc, ← hquick, hg, decide_eq_false htimer]
        rfl
      · obtain ⟨op, hbegun, hentry⟩ := Machine.opBegun_proceed hframes hpc hnext
        rw [hentry]
        exact (hok.2.1 op hbegun).clear
  | @ret f rest hframes hpc hlast =>
      refine ⟨hkept, hprompt, fun _ => ?_, fun g rest' hg hquick => ?_⟩
      · show (m.intr || f.origin.isr) = true
        cases hisr : f.origin.isr with
        | true => exact Bool.or_true _
        | false => rw [Bool.or_false, hended hframes (Frame.masked_of_task (by rw [hpc]; rfl) hisr)]
      · have hg : Function.update m.frames m.current rest m.current = g :: rest' := hg
        rw [hself] at hg
        exact hnever (Frame.isQuick_of_masked (hd.interrupted _ f rest hframes g (hg ▸ List.mem_cons_self ..))) hquick
  | @stay f rest hframes hpc =>
      have hhandler := h.prompt.handlers _ f (hframes ▸ List.mem_cons_self ..)
      have hpass : f.pc.passing = false := by rw [hpc]; rfl
      have hquick := Frame.not_quick hhandler hpass
      refine of_top hkept hprompt (hself _) (fun hmask => hnever hmask (Frame.masked_of_pc rfl)) (hnever ?_)
      rw [Frame.waited_of_prompt hhandler hpass]
      exact hquick
  | @switch f rest next hframes hpc hne hsaved =>
      obtain ⟨g, rest', hg⟩ := List.exists_cons_of_ne_nil hsaved
      obtain ⟨hmasked, hquick⟩ := suspended_top hd hne hg
      exact of_top hkept hprompt ((Function.update_of_ne hne _ _).trans hg) (fun hmask => hnever hmask hmasked)
        (hnever hquick)
  | call hframes hallowed =>
      refine of_top hkept hprompt (hself _) (fun _ => h.intr fun f hf => ?_) (hnever rfl)
      rw [hframes] at hf
      cases hf
  | timer hintr => exact of_top hkept hprompt (hself _) (fun hmask => hnever hmask rfl) (hnever rfl)
  | @device op ops hintr =>
      have hmasked : (⟨op.entry, .device op ops false⟩ : Frame).masked = true := (Frame.masked_iff _).mpr (Or.inr (Or.inl rfl))
      exact of_top hkept hprompt (hself _) (fun hmask => hnever hmask hmasked) fun _ => (hok.2.1 op rfl).clear

end SpinInv

theorem SpinInv.start (k : Kernel) : SpinInv (Machine.start k) := by
  refine ⟨Kept.start isSection_pinned k, Prompt.start k, fun _ => rfl, fun f rest hframes => ?_⟩
  have hmem : f ∈ (Machine.start k).frames k.current := by
    rw [show (Machine.start k).frames k.current = f :: rest from hframes]
    exact List.mem_cons_self ..
  rw [Machine.mem_frames_start hmem]
  intro hquick
  cases hquick

theorem spinInv_reachable {m : Machine} (h : (system.restrict FindsLocksFree).Reachable m) : SpinInv m := by
  refine (system.restrict FindsLocksFree).invariant (fun m hstart => ?_) (fun m l m' hr hm hstep => ?_) h
  · obtain ⟨k, sem, -, -, rfl⟩ := hstart
    exact SpinInv.start _
  · obtain ⟨builder, hd⟩ := discipline_reachable (system.reachable_of_restrict hr)
    exact hm.move hd hstep.1 (Machine.next_move hstep.2)

/-- When interrupts find the locks free that they need, nobody spins on a lock whose holder waits for it. -/
theorem noSelfDeadlock_reachable {m : Machine} (h : (system.restrict FindsLocksFree).Reachable m) :
    NoSelfDeadlock m := by
  obtain ⟨builder, hd⟩ := discipline_reachable (system.reachable_of_restrict h)
  exact (spinInv_reachable h).noSelfDeadlock hd

/-- The timer interrupts a task that holds `list_slock` in `schedule`: the handler's `schedule` spins on it. -/
theorem not_noSelfDeadlock : ¬ ∀ m, system.Reachable m → NoSelfDeadlock m := by
  intro h
  obtain ⟨m, hreach, hframes, hcurrent, hholder⟩ := exists_run ([.call .schedule] ++ steps 3 ++ [.timer] ++ steps 2)
    (fun m => m.frames 0xc0110000 = [⟨.rotLock 0xc0110000, .timer⟩, ⟨.rotDel 0xc0110000, .call .schedule⟩] ∧
      m.current = 0xc0110000 ∧ m.holder .list = some 0xc0110000) (by decide +kernel)
  exact ((h m hreach).spins _ _ .list _ _ (hcurrent ▸ hframes) rfl hholder).2.1 hcurrent.symm

/-- A disk, a serial port that gets its semaphore and gives it back, and then the timer interrupt the first task while it holds no lock. -/
theorem noSelfDeadlock_reachable_smallStart : ∃ m, (system.restrict FindsLocksFree).Reachable m ∧
    m.holder .list = some 0xc0110000 ∧ NoSelfDeadlock m := by
  obtain ⟨m, hreach, hholder⟩ := exists_restrict_run FindsLocksFree
    ([.device (.up 0xc0110f00) []] ++ steps 5 ++ [.device (.down 0xc0110f00) [.up 0xc0110f00]] ++ steps 10 ++ [.timer] ++
      steps 3)
    (fun m => m.holder .list = some 0xc0110000) (by decide +kernel)
  exact ⟨m, hreach, hholder, noSelfDeadlock_reachable hreach⟩

end I386Kernel.Preempt
