import I386Kernel.Task.SchedRuns

/-!
# Exit and reclamation

The page of a task that exits is to be given back by `task_sched_post_proc`, which the task that runs next calls on either way out of the switch. The condition there starts with `!prev`, so the branch is never taken: the page stays marked and the task stays on `all_tasks_list`.
-/

namespace I386Kernel

open CircularList (Ring)

/-- `t` has called `task_exit`. -/
def Kernel.Exited (k : Kernel) (t : Word) : Prop := k.IsTask t ∧ k.status t = .dying

/-- Exited tasks are off `all_tasks_list`, and the pages held by tasks are those of the tasks that have not exited. -/
structure ExitReclaims (k : Kernel) : Prop where
  unlinked : ∀ xs : List Word, Ring k.links (.head .all) (xs.map .all) → ∀ t, k.Exited t → t ≠ k.initTask → t ∉ xs
  freed : ∀ i, i < k.pool.pageCount k.mem → k.Exited (k.pool.pageAddr i) → k.pool.used k.mem i = false
  held : ∀ i, i < k.pool.pageCount k.mem → k.IsTask (k.pool.pageAddr i) →
    ¬ k.Exited (k.pool.pageAddr i) → k.pool.used k.mem i = true

/-- No task other than the first calls `task_exit`. -/
def OnlyInitExits (k : Kernel) (call : SchedCall) : Prop := call = .taskExit → k.current = k.initTask

/-- What one call can do to the set of exited tasks. -/
def ExitStep (k k' : Kernel) (call : SchedCall) : Prop :=
  k'.initTask = k.initTask ∧ ∀ t, k'.Exited t → k.Exited t ∨ (call = .taskExit ∧ t = k.current)

/-- A status other than dying is no exit. -/
private theorem exited_update {k k' : Kernel} {t u : Word} {st : TaskStatus}
    (hstatus : k'.status = Function.update k.status t st) (hst : st ≠ .dying) (htask : k'.IsTask u → k.IsTask u)
    (h : k'.Exited u) : k.Exited u := by
  obtain ⟨hu, hdying⟩ := h
  rw [hstatus, Function.update_apply] at hdying
  split at hdying
  · exact absurd hdying hst
  · exact ⟨htask hu, hdying⟩

namespace SchedInv

variable {k : Kernel} {seq : Queues}

theorem schedule_exited (h : SchedInv k seq) {k' : Kernel} (hk' : schedule k = some k') :
    k'.initTask = k.initTask ∧ ∀ t, k'.Exited t → k.Exited t := by
  obtain ⟨next, hnext⟩ := h.exists_next
  rw [h.schedule_eq hnext] at hk'
  cases hk'
  obtain ⟨hcreated, hinit, -⟩ := dispatched_frame k next
  refine ⟨hinit, fun t ht => exited_update (status_dispatched k next) nofun (fun htask => ?_) ht⟩
  rw [Kernel.IsTask, hcreated] at htask
  exact htask

theorem semaUp_exited (h : SchedInv k seq) {sema : Word} {k' : Kernel} (hk' : semaUp k sema = some k') :
    k'.initTask = k.initTask ∧ ∀ t, k'.Exited t → k.Exited t := by
  by_cases hnone : int32 (k.semaCount sema + 1) ≤ 0 ∨ seq (.wait sema) = []
  · rw [h.semaUp_eq_setCount hnone] at hk'
    cases hk'
    exact ⟨rfl, fun t ht => ht⟩
  · obtain ⟨hpos, hne⟩ := not_or.mp hnone
    obtain ⟨t, rest, hseq⟩ := List.exists_cons_of_ne_nil hne
    rw [h.semaUp_eq_handOff (Int.not_le.mp hpos) hseq] at hk'
    cases hk'
    refine ⟨rfl, fun u hu => ?_⟩
    exact exited_update (k.status_setStatus t .running) nofun (fun htask => htask) hu

theorem semaDown_exited (h : SchedInv k seq) (hrun : k.status k.current = .running)
    (hidle : ¬ k.IsIdle k.current) {sema : Word} {k' : Kernel} (hk' : semaDown k sema = some k') :
    k'.initTask = k.initTask ∧ ∀ t, k'.Exited t → k.Exited t := by
  rw [semaDown, semaDownSection] at hk'
  by_cases hcount : k.semaCount sema ≤ 0
  · rw [if_pos hcount] at hk'
    obtain ⟨hinit, hsub⟩ := (h.taskSuspend sema (by rw [hrun]; decide) hidle).schedule_exited hk'
    refine ⟨hinit, fun u hu => ?_⟩
    exact exited_update (k.status_setStatus k.current .blocked) (by decide) (fun htask => htask) (hsub u hu)
  · rw [if_neg hcount] at hk'
    cases hk'
    exact ⟨rfl, fun t ht => ht⟩

end SchedInv

/-- Only `task_exit` adds to the exited tasks, and only the caller. -/
theorem callStep_exited {k k' : Kernel} {call : SchedCall} (h : RunInv k) (hstep : callStep k call = some k') :
    ExitStep k k' call := by
  obtain ⟨hcall, hk'⟩ := Option.ite_none_right_eq_some.mp hstep
  obtain ⟨seq, hinv, hrun⟩ := h
  have hstay : (k'.initTask = k.initTask ∧ ∀ t, k'.Exited t → k.Exited t) → ExitStep k k' call :=
    fun hsub => ⟨hsub.1, fun t ht => Or.inl (hsub.2 t ht)⟩
  cases call with
  | taskCreate proc params name priority =>
      have hsome := Option.some.inj hk'
      subst hsome
      have hready : TaskStatus.ready = .running ∨ TaskStatus.ready = .ready := Or.inr rfl
      obtain ⟨-, -, m, hk⟩ | ⟨tsk, m, -, -, hk, -⟩ := hinv.taskCreate proc params name hcall.2 hready
      · apply hstay
        rw [hk]
        exact ⟨rfl, fun t ht => ht⟩
      · apply hstay
        rw [hk]
        refine ⟨rfl, fun t ht => ?_⟩
        have hstatus := TaskInv.status_withTask k m tsk proc params name hcall.2 .ready
        refine exited_update hstatus nofun (fun htask => ?_) ht
        refine ((TaskInv.isTask_withTask t).mp htask).resolve_left fun heq => ?_
        have hdying := ht.2
        rw [hstatus, heq, Function.update_self] at hdying
        exact absurd hdying nofun
  | semaDown sema => exact hstay (hinv.semaDown_exited hrun hcall hk')
  | semaUp sema => exact hstay (hinv.semaUp_exited hk')
  | schedule => exact hstay (hinv.schedule_exited hk')
  | taskExit =>
      obtain ⟨hinit, hsub⟩ := (hinv.taskExitSection (by rw [hrun]; nofun) hcall).schedule_exited hk'
      refine ⟨hinit, fun t ht => ?_⟩
      obtain ⟨htask, hdying⟩ := hsub t ht
      have hstatus : (taskExitSection k).status = Function.update k.status k.current .dying :=
        k.status_setStatus k.current .dying
      rw [hstatus, Function.update_apply] at hdying
      split at hdying
      · rename_i heq
        exact Or.inr ⟨rfl, heq⟩
      · exact Or.inl ⟨htask, hdying⟩

/-- Nothing is ever given back: reclamation holds exactly as long as there is nothing to reclaim. -/
theorem RunInv.exitReclaims_iff {k : Kernel} (h : RunInv k) :
    ExitReclaims k ↔ ∀ t, k.Exited t → t = k.initTask := by
  obtain ⟨seq, hinv, -⟩ := h
  constructor
  · intro hreclaim t ht
    obtain heq | ⟨i, hi, rfl, hused⟩ := hinv.pages.page t ht.1
    · exact heq
    · rw [hreclaim.freed i hi ht] at hused
      exact absurd hused nofun
  · intro honly
    refine ⟨fun xs _ t ht hne => absurd (honly t ht) hne, fun i hi ht => ?_, fun i hi htask _ => ?_⟩
    · exact absurd (honly _ ht) (hinv.pages.init i hi)
    · obtain heq | ⟨j, hj, haddr, hused⟩ := hinv.pages.page _ htask
      · exact absurd heq (hinv.pages.init i hi)
      · rw [hinv.pages.wf.pageAddr_inj (Nat.le_of_lt hi) (Nat.le_of_lt hj) haddr]
        exact hused

theorem schedInit_exited {k k' : Kernel} {sem : Word} (h : Boot k sem) (hk' : schedInit k sem = some k')
    (t : Word) : ¬ k'.Exited t := by
  obtain ⟨seq, hinv, hrun, hidle, hnone⟩ := schedInitTasks_inv h
  intro ht
  have hexited := (hinv.semaDown_exited hrun hidle hk').2 t ht
  obtain hst | hst := hnone t hexited.1
  · exact absurd (hst.symm.trans hexited.2) nofun
  · exact absurd (hst.symm.trans hexited.2) nofun

/-- In every state of every run, and so throughout the runs in which only the first task exits. -/
theorem exit_reclaims_iff (k : Kernel) :
    (schedSystem.Reachable k → (ExitReclaims k ↔ ∀ t, k.Exited t → t = k.initTask)) ∧
      ((schedSystem.restrict OnlyInitExits).Reachable k → ExitReclaims k) := by
  refine ⟨fun hk => (runInv_reachable hk).exitReclaims_iff, fun hk => ?_⟩
  have hreach := schedSystem.reachable_of_restrict hk
  refine (runInv_reachable hreach).exitReclaims_iff.mpr ?_
  refine (schedSystem.restrict OnlyInitExits).invariant (P := fun k => ∀ t, k.Exited t → t = k.initTask)
    (fun k hinit t ht => ?_) (fun k call k' hr hP hstep t ht => ?_) hk
  · obtain ⟨k₀, sem, hboot, hk₀⟩ := hinit
    exact absurd ht (schedInit_exited hboot hk₀ t)
  · obtain ⟨hok, hstep⟩ := hstep
    have hrun := runInv_reachable (schedSystem.reachable_of_restrict hr)
    obtain ⟨hinit, hexited⟩ := callStep_exited hrun hstep
    rw [hinit]
    obtain hold | ⟨hcall, heq⟩ := hexited t ht
    · exact hP t hold
    · exact heq.trans (hok hcall)

/-! ## A task that exits on the small machine

The boot task is woken, creates a task in the third page, and that task exits. -/

private def exitCalls : List SchedCall :=
  [.semaUp 0xc0110f00, .schedule, .schedule, .schedule, .schedule, .taskCreate 0xc0105000 7 [0x61] 31,
    .schedule, .schedule, .schedule, .schedule, .schedule, .schedule, .schedule, .taskExit]

private theorem exited_smallMachine : ∃ k, schedSystem.Reachable k ∧ k.Exited 0xc0203000 ∧
    k.initTask = 0xc0110000 := by
  have hboot : Boot smallMachine 0xc0110f00 := boot_smallMachine _ (by unfold IdleTasksCreated; decide +kernel)
  have hview : ((schedInit smallMachine 0xc0110f00).bind fun k => TransitionSystem.exec callStep k exitCalls).map
      (fun k => (decide ((0xc0203000, 0xc0105000) ∈ k.created), k.status 0xc0203000, k.initTask)) =
        some (true, .dying, 0xc0110000) := by decide +kernel
  obtain ⟨k, hk, hview⟩ := Option.map_eq_some_iff.mp hview
  obtain ⟨k₁, hk₁, hexec⟩ := Option.bind_eq_some_iff.mp hk
  rw [Prod.mk.injEq, Prod.mk.injEq, decide_eq_true_iff] at hview
  obtain ⟨hcreated, hdying, hinit⟩ := hview
  exact ⟨k, TransitionSystem.reachable_exec exitCalls (.init ⟨_, _, hboot, hk₁⟩) hexec,
    ⟨⟨_, hcreated⟩, hdying⟩, hinit⟩

theorem not_exit_reclaims : ¬ ∀ k, schedSystem.Reachable k → ExitReclaims k := by
  intro h
  obtain ⟨k, hk, hexited, hinit⟩ := exited_smallMachine
  have heq := (runInv_reachable hk).exitReclaims_iff.mp (h k hk) _ hexited
  rw [hinit] at heq
  exact absurd heq (by decide)

theorem exit_reclaims_iff_smallMachine : ∃ k, schedSystem.Reachable k ∧ ¬ ExitReclaims k := by
  obtain ⟨k, hk, hexited, hinit⟩ := exited_smallMachine
  refine ⟨k, hk, fun hreclaim => ?_⟩
  have heq := ((exit_reclaims_iff k).1 hk).mp hreclaim _ hexited
  rw [hinit] at heq
  exact absurd heq (by decide)

end I386Kernel
