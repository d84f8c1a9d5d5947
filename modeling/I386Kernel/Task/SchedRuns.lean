import I386Kernel.Lib.Transition
import I386Kernel.Task.Boot

/-!
# Runs of the scheduler

From `sched_init` on the current task makes one call after another, each taken as one step, and the timer may call `schedule` at any point between them. A task whose procedure is `idle_proc` only calls `sema_up`. Every call keeps the invariant, so in every state the lists are well formed, each task stands where its status says, and `schedule` always finds a task to run.
-/

namespace I386Kernel

open CircularList (Links Rings Ring)

/-- The invariant between calls, when the current task is running. -/
def RunInv (k : Kernel) : Prop := ∃ seq, SchedInv k seq ∧ k.status k.current = .running

namespace SchedInv

variable {k : Kernel} {seq : Queues}

theorem schedule_run (h : SchedInv k seq) : ∃ k', schedule k = some k' ∧ RunInv k' := by
  obtain ⟨next, hnext⟩ := h.exists_next
  refine ⟨dispatched k next, h.schedule_eq hnext, rotated k seq, h.dispatched_inv hnext, ?_⟩
  rw [status_dispatched]
  exact Function.update_self ..

theorem semaUp_run (h : SchedInv k seq) (hrun : k.status k.current = .running) (sema : Word) :
    ∃ k', semaUp k sema = some k' ∧ RunInv k' := by
  have hset := h.setCount sema (int32 (k.semaCount sema + 1))
  by_cases hnone : int32 (k.semaCount sema + 1) ≤ 0 ∨ seq (.wait sema) = []
  · exact ⟨_, h.semaUp_eq_setCount hnone, seq, hset, hrun⟩
  · obtain ⟨hpos, hne⟩ := not_or.mp hnone
    obtain ⟨t, rest, hseq⟩ := List.exists_cons_of_ne_nil hne
    have hmem : t ∈ seq (.wait sema) := hseq ▸ List.mem_cons_self ..
    refine ⟨_, h.semaUp_eq_handOff (Int.not_le.mp hpos) hseq, _, hset.handOff_inv hmem, ?_⟩
    have hstatus := (k.setCount sema (int32 (k.semaCount sema + 1))).status_setStatus t .running
    change Kernel.status (Kernel.setStatus _ t .running) k.current = .running
    rw [hstatus, Function.update_apply]
    split
    · rfl
    · exact hrun

theorem semaDown_run (h : SchedInv k seq) (hrun : k.status k.current = .running) (hidle : ¬ k.IsIdle k.current)
    (sema : Word) : ∃ k', semaDown k sema = some k' ∧ RunInv k' := by
  rw [semaDown, semaDownSection]
  by_cases hcount : k.semaCount sema ≤ 0
  · rw [if_pos hcount]
    exact (h.taskSuspend sema (by rw [hrun]; nofun) hidle).schedule_run
  · rw [if_neg hcount]
    exact ⟨_, rfl, seq, h.setCount sema _, hrun⟩

theorem taskExit_run (h : SchedInv k seq) (hrun : k.status k.current = .running)
    (hidle : ¬ k.IsIdle k.current) : ∃ k', taskExit k = some k' ∧ RunInv k' :=
  (h.taskExitSection (by rw [hrun]; nofun) hidle).schedule_run

theorem taskCreate_run (h : SchedInv k seq) (hrun : k.status k.current = .running) (proc params : Word)
    (name : List UInt8) {priority : Int} (hp : validPriority priority) :
    RunInv (I386Kernel.taskCreate k proc params (some name) priority .ready).2 := by
  obtain ⟨-, hinv, m, hk⟩ | ⟨tsk, m, -, hfresh, hk, hinv⟩ := h.taskCreate proc params name hp (Or.inr rfl)
  · refine ⟨seq, hinv, ?_⟩
    rw [hk]
    exact hrun
  · refine ⟨_, hinv, ?_⟩
    have hne : k.current ≠ tsk := fun heq => hfresh (heq ▸ h.current)
    rw [hk, TaskInv.status_withTask]
    exact (Function.update_of_ne hne _ _).trans hrun

end SchedInv

/-! ## The system -/

inductive SchedCall where
  | taskCreate (proc params : Word) (name : List UInt8) (priority : Int)
  | semaDown (sema : Word)
  | semaUp (sema : Word)
  | taskExit
  | schedule
deriving DecidableEq

/-- What the current task may call: an idle task only calls `sema_up`. The timer's `schedule` is always possible. -/
def SchedCall.allowed (k : Kernel) : SchedCall → Prop
  | .taskCreate _ _ _ priority => ¬ k.IsIdle k.current ∧ validPriority priority
  | .semaDown _ => ¬ k.IsIdle k.current
  | .semaUp _ => True
  | .taskExit => ¬ k.IsIdle k.current
  | .schedule => True

instance (k : Kernel) (call : SchedCall) : Decidable (call.allowed k) := by
  cases call <;> unfold SchedCall.allowed <;> infer_instance

def callResult (k : Kernel) : SchedCall → Option Kernel
  | .taskCreate proc params name priority => some (taskCreate k proc params (some name) priority .ready).2
  | .semaDown sema => semaDown k sema
  | .semaUp sema => semaUp k sema
  | .taskExit => taskExit k
  | .schedule => schedule k

def callStep (k : Kernel) (call : SchedCall) : Option Kernel :=
  if call.allowed k then callResult k call else none

/-- The scheduler from `sched_init` on, when both idle tasks are created. -/
def schedSystem : TransitionSystem Kernel SchedCall :=
  .ofFn (fun k => ∃ k₀ sem, Boot k₀ sem ∧ schedInit k₀ sem = some k) callStep

/-- Every call has a result, which keeps the invariant. -/
theorem callResult_run {k : Kernel} {call : SchedCall} (h : RunInv k) (hcall : call.allowed k) :
    ∃ k', callResult k call = some k' ∧ RunInv k' := by
  obtain ⟨seq, hinv, hrun⟩ := h
  cases call with
  | taskCreate proc params name priority =>
      exact ⟨_, rfl, hinv.taskCreate_run hrun proc params name hcall.2⟩
  | semaDown sema => exact hinv.semaDown_run hrun hcall sema
  | semaUp sema => exact hinv.semaUp_run hrun sema
  | taskExit => exact hinv.taskExit_run hrun hcall
  | schedule => exact hinv.schedule_run

theorem callStep_run {k k' : Kernel} {call : SchedCall} (h : RunInv k) (hstep : callStep k call = some k') :
    RunInv k' := by
  obtain ⟨hcall, heq⟩ := Option.ite_none_right_eq_some.mp hstep
  obtain ⟨k'', hk'', hrun⟩ := callResult_run h hcall
  rw [heq] at hk''
  exact Option.some.inj hk'' ▸ hrun

/-! ## `sched_init` establishes the invariant -/

private theorem createIdle_inv {k : Kernel} {seq : Queues} (h : TaskInv k seq) (params : Word)
    (hret : (createIdle k params).1 ≠ -1) :
    ∃ tsk m, k.sym.idleProc ≠ 0 ∧ ¬ k.IsTask tsk ∧
      (createIdle k params).2 = withTask k m tsk k.sym.idleProc params [0x69, 0x64, 0x6c, 0x65]
        ((prioDefault : Fin 64) : Nat) validPriority_default .ready ∧
      TaskInv (createIdle k params).2 (entered seq tsk prioDefault) := by
  obtain ⟨hnone, -⟩ | ⟨tsk, m, hproc, hfresh, hk, hinv⟩ :=
    h.taskCreate k.sym.idleProc params [0x69, 0x64, 0x6c, 0x65] validPriority_default (Or.inr rfl)
  · exact absurd hnone hret
  · exact ⟨tsk, m, hproc, hfresh, hk, hinv⟩

/-- Before the boot task waits: three tasks that are all ready to run, and the boot task is running. -/
theorem schedInitTasks_inv {k : Kernel} {sem : Word} (h : Boot k sem) :
    ∃ seq, SchedInv (schedInitTasks k sem) seq ∧
      (schedInitTasks k sem).status (schedInitTasks k sem).current = .running ∧
      ¬ (schedInitTasks k sem).IsIdle (schedInitTasks k sem).current ∧
      ∀ t, (schedInitTasks k sem).IsTask t →
        (schedInitTasks k sem).status t = .running ∨ (schedInitTasks k sem).status t = .ready := by
  obtain ⟨hinv, hrun, hcurr, hcreated, -⟩ := schedInitLists_inv h
  obtain ⟨hret₁, hret₂⟩ := h.idle
  obtain ⟨t₁, m₁, hproc, hfresh₁, hk₁, hinv₁⟩ := createIdle_inv hinv sem hret₁
  obtain ⟨t₂, m₂, -, hfresh₂, hk₂, hinv₂⟩ := createIdle_inv hinv₁ 0 hret₂
  rw [schedInitTasks]
  rw [hk₂] at hinv₂ ⊢
  rw [hk₁] at hinv₂ hfresh₂ ⊢
  rw [← hcurr] at hrun
  generalize schedInitLists k sem = k₀ at *
  have hne₁ : k₀.current ≠ t₁ := fun heq => hfresh₁ (heq ▸ hinv.current)
  have hne₂ : k₀.current ≠ t₂ := fun heq =>
    hfresh₂ (heq ▸ (TaskInv.isTask_withTask k₀.current).mpr (Or.inr hinv.current))
  -- the first idle task is on the default ready list, and the boot task is no idle task
  have hmem : t₁ ∈ entered (entered (bootQueues k.current) t₁ prioDefault) t₂ prioDefault
      (.ready prioDefault) := TaskInv.mem_entered (Queues.mem_pushBack.mpr (Or.inl ⟨rfl, rfl⟩))
  have hidle : (t₁, k₀.sym.idleProc) ∈ (t₂, k₀.sym.idleProc) :: (t₁, k₀.sym.idleProc) :: k₀.created :=
    List.mem_cons_of_mem _ (List.mem_cons_self ..)
  refine ⟨_, ⟨hinv₂, t₁, hmem, hidle⟩, ?_, fun hidle => ?_, fun t ht => ?_⟩
  · rw [TaskInv.status_withTask]
    refine (Function.update_of_ne hne₂ _ _).trans ?_
    rw [TaskInv.status_withTask]
    exact (Function.update_of_ne hne₁ _ _).trans hrun
  · have hidle : (k₀.current, k₀.sym.idleProc) ∈ (t₂, k₀.sym.idleProc) :: (t₁, k₀.sym.idleProc) :: k₀.created :=
      hidle
    rw [hcreated, hcurr] at hidle
    rw [hcurr] at hne₁ hne₂
    simp only [List.mem_cons, Prod.mk.injEq, hne₁, hne₂, false_and, false_or, hproc, and_false,
      List.not_mem_nil] at hidle
  · rw [TaskInv.status_withTask, TaskInv.status_withTask, Function.update_apply, Function.update_apply]
    rw [TaskInv.isTask_withTask, TaskInv.isTask_withTask] at ht
    split
    · exact Or.inr rfl
    · rename_i htt₂
      split
      · exact Or.inr rfl
      · rename_i htt₁
        obtain ⟨proc, hmem⟩ := (ht.resolve_left htt₂).resolve_left htt₁
        rw [hcreated, List.mem_singleton, Prod.mk.injEq, ← hcurr] at hmem
        rw [hmem.1]
        exact Or.inl hrun

/-- The three tasks and their pids. -/
theorem schedInitTasks_pid {k : Kernel} {sem : Word} (h : Boot k sem) (hpid : k.nextPid = -1) :
    ∃ t₁ t₂ proc, (schedInitTasks k sem).created = [(t₂, proc), (t₁, proc), (k.current, 0)] ∧
      (schedInitTasks k sem).nextPid = 2 ∧ ((schedInitTasks k sem).task t₂).pid = 2 ∧
      ((schedInitTasks k sem).task t₁).pid = 1 ∧ ((schedInitTasks k sem).task k.current).pid = 0 := by
  obtain ⟨hinv, -, hcurr, hcreated, -⟩ := schedInitLists_inv h
  obtain ⟨hnext, hpid₀⟩ := schedInitLists_pid h
  obtain ⟨hret₁, hret₂⟩ := h.idle
  obtain ⟨t₁, m₁, -, hfresh₁, hk₁, hinv₁⟩ := createIdle_inv hinv sem hret₁
  obtain ⟨t₂, m₂, -, hfresh₂, hk₂, -⟩ := createIdle_inv hinv₁ 0 hret₂
  have hzero : int32 (k.nextPid + 1) = 0 := by
    rw [hpid]
    rfl
  rw [hzero] at hnext hpid₀
  rw [schedInitTasks]
  rw [hk₂]
  rw [hk₁] at hfresh₂ ⊢
  rw [← hcurr] at hcreated hpid₀ ⊢
  generalize schedInitLists k sem = k₀ at *
  have hne₁ : k₀.current ≠ t₁ := fun heq => hfresh₁ (heq ▸ hinv.current)
  have hne₂ : k₀.current ≠ t₂ := fun heq =>
    hfresh₂ (heq ▸ (TaskInv.isTask_withTask k₀.current).mpr (Or.inr hinv.current))
  have hne₁₂ : t₁ ≠ t₂ := fun heq => hfresh₂ (heq ▸ (TaskInv.isTask_withTask t₁).mpr (Or.inl rfl))
  have hnext₁ : int32 (k₀.nextPid + 1) = 1 := by
    rw [hnext]
    rfl
  have hnext₂ : int32 (int32 (k₀.nextPid + 1) + 1) = 2 := by
    rw [hnext₁]
    rfl
  refine ⟨t₁, t₂, k₀.sym.idleProc, ?_, hnext₂, ?_, ?_, ?_⟩
  · show (t₂, k₀.sym.idleProc) :: (t₁, k₀.sym.idleProc) :: k₀.created = _
    rw [hcreated]
  · show TaskStruct.pid ((Function.update _ t₂ _ : Word → TaskStruct) t₂) = 2
    rw [Function.update_self, newTask]
    exact hnext₂
  · show TaskStruct.pid ((Function.update (Function.update k₀.task t₁ _) t₂ _ : Word → TaskStruct) t₁) = 1
    rw [Function.update_of_ne hne₁₂, Function.update_self, newTask]
    exact hnext₁
  · show TaskStruct.pid ((Function.update (Function.update k₀.task t₁ _) t₂ _ : Word → TaskStruct) k₀.current) = 0
    rw [Function.update_of_ne hne₂, Function.update_of_ne hne₁]
    exact hpid₀

theorem schedInit_run {k : Kernel} {sem : Word} (h : Boot k sem) :
    ∃ k', schedInit k sem = some k' ∧ RunInv k' := by
  obtain ⟨seq, hinv, hrun, hidle, -⟩ := schedInitTasks_inv h
  exact hinv.semaDown_run hrun hidle sem

theorem runInv_reachable {k : Kernel} (h : schedSystem.Reachable k) : RunInv k := by
  refine schedSystem.invariant (fun k hinit => ?_) (fun k call k' _ hk hstep => callStep_run hk hstep) h
  obtain ⟨k₀, sem, hboot, hk⟩ := hinit
  obtain ⟨k', hk', hrun⟩ := schedInit_run hboot
  rw [hk] at hk'
  exact Option.some.inj hk' ▸ hrun

/-! ## The lists in every state -/

/-- The ready and wait lists are rings of tasks, each task is on the list its status calls for and on no other, and the scheduler's next choice is a task that can run. -/
structure QueueLaw (k : Kernel) (seq : Queues) : Prop where
  ready : ∀ p, Ring k.links (.head (.ready p)) ((seq (.ready p)).map .queued)
  wait : ∀ s, Ring k.links (.head (.wait s)) ((seq (.wait s)).map .queued)
  once : ∀ q, (seq q).Nodup
  runnable : ∀ t, k.IsTask t → k.status t = .running ∨ k.status t = .ready →
    (∃! p, t ∈ seq (.ready p)) ∧ ∀ s, t ∉ seq (.wait s)
  blocked : ∀ t, k.IsTask t → k.status t = .blocked → (∃! s, t ∈ seq (.wait s)) ∧ ∀ p, t ∉ seq (.ready p)
  dying : ∀ t, k.IsTask t → k.status t = .dying → (∀ p, t ∉ seq (.ready p)) ∧ ∀ s, t ∉ seq (.wait s)
  next : ∃ t, (nextTaskToRun k).1 = some t ∧ k.IsTask t ∧ k.status t ≠ .blocked ∧ k.status t ≠ .dying

theorem SchedInv.queueLaw {k : Kernel} {seq : Queues} (h : SchedInv k seq) : QueueLaw k seq := by
  have hready : ∀ t p, t ∈ seq (.ready p) → k.status t = .running ∨ k.status t = .ready :=
    fun t p hmem => h.ledger.admits _ t hmem
  have hwait : ∀ t s, t ∈ seq (.wait s) → k.status t = .blocked := fun t s hmem => h.ledger.admits _ t hmem
  refine ⟨fun p => h.links.ring (.ready p), fun s => h.links.ring (.wait s), h.links.nodup,
    fun t ht hst => ?_, fun t ht hst => ?_, fun t _ hst => ⟨fun p => ?_, fun s => ?_⟩, ?_⟩
  · have hnwait : ∀ s, t ∉ seq (.wait s) := by
      intro s hmem
      rw [hwait t s hmem] at hst
      exact hst.elim nofun nofun
    refine ⟨?_, hnwait⟩
    obtain ⟨q, hq, hmem⟩ := h.queued ht (by obtain hst | hst := hst <;> rw [hst] <;> nofun)
    cases q with
    | all => exact absurd rfl hq
    | wait s => exact absurd hmem (hnwait s)
    | ready p =>
        refine ⟨p, hmem, fun p' hmem' => ?_⟩
        exact QueueId.ready.inj (h.links.queue_unique (ready_ne_all p') hq hmem' hmem)
  · have hnready : ∀ p, t ∉ seq (.ready p) := by
      intro p hmem
      have hrun := hready t p hmem
      rw [hst] at hrun
      exact hrun.elim nofun nofun
    refine ⟨?_, hnready⟩
    obtain ⟨q, hq, hmem⟩ := h.queued ht (by rw [hst]; nofun)
    cases q with
    | all => exact absurd rfl hq
    | ready p => exact absurd hmem (hnready p)
    | wait s =>
        refine ⟨s, hmem, fun s' hmem' => ?_⟩
        exact QueueId.wait.inj (h.links.queue_unique (wait_ne_all s') hq hmem' hmem)
  · exact h.ledger.notMem_of_dying hst (ready_ne_all p)
  · exact h.ledger.notMem_of_dying hst (wait_ne_all s)
  · obtain ⟨next, hnext⟩ := h.exists_next
    have hmem : next ∈ seq (.ready prioDefault) := List.mem_of_head? hnext
    refine ⟨next, h.nextTaskToRun_next.trans hnext, h.ledger.member _ _ hmem, ?_, ?_⟩
    · intro hst
      have hrun := hready next _ hmem
      rw [hst] at hrun
      exact hrun.elim nofun nofun
    · intro hst
      exact h.ledger.notMem_of_dying hst (ready_ne_all _) hmem

/-- A machine with eight pages for tasks, before `sched_init`; one semaphore has been initialised with one. -/
def smallMachine : Kernel where
  sym := ⟨0xc0100100, 0xc0100200, 0xc0100300⟩
  links := ⟨id, id⟩
  task := fun _ => .zero
  semaCount := fun s => if s = 0xc0180010 then 1 else 0
  mem := fun a => if a = 0xc0200000 then 8 else 0
  pool := ⟨0xc0200000, 0xc0201000⟩
  nextPid := -1
  initTask := 0
  current := 0xc0110000
  created := []

theorem boot_smallMachine (sem : Word) (h : IdleTasksCreated smallMachine sem) : Boot smallMachine sem where
  pool := ⟨by decide, by decide, by decide⟩
  nonnull := by decide
  current := by decide
  semas := fun _ _ => ⟨⟨rfl, rfl⟩, List.nodup_singleton _⟩
  idle := h

end I386Kernel
