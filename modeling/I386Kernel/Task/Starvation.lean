import I386Kernel.Task.RoundRobin

/-!
# Which tasks are dispatched

`task_create` and `task_resume` queue a task by its own priority, and `next_task_to_run` looks only at the list of the default priority. A task on that list waits for two calls for each of the others at most; one on any other list waits for ever.
-/

namespace I386Kernel

open CircularList (Ring)
open SchedInv (dispatched rotated handOff woken suspended)

/-- The task gets the CPU by one of the next `n` calls of `schedule`. -/
def DispatchedWithin (n : Nat) (k : Kernel) (t : Word) : Prop := ∃ ts, dispatches n k = some ts ∧ t ∈ ts

theorem DispatchedWithin.succ {n : Nat} {k k' : Kernel} {t : Word} (hk' : schedule k = some k')
    (h : DispatchedWithin n k' t) : DispatchedWithin (n + 1) k t := by
  obtain ⟨ts, hts, ht⟩ := h
  refine ⟨k'.current :: ts, ?_, List.mem_cons_of_mem _ ht⟩
  rw [dispatches, hk', Option.bind_some, hts, Option.map_some]

namespace SchedInv

variable {k k' : Kernel} {seq : Queues} {t : Word}

theorem dispatchedWithin_of_next {seq' : Queues} (hinv' : SchedInv k' seq') (hk' : schedule k = some k')
    (hcurr : k'.current = t) (n : Nat) : DispatchedWithin (n + 1) k t := by
  obtain ⟨ts, hts, -⟩ := hinv'.dispatches_total n
  refine ⟨k'.current :: ts, ?_, hcurr ▸ List.mem_cons_self⟩
  rw [dispatches, hk', Option.bind_some, hts, Option.map_some]

/-! ## On the default list -/

/-- A caller at the head, which is chosen again and then stands behind `t`. -/
theorem schedule_past_head (h : SchedInv k seq) (hrun : k.status k.current = .running) {before after : List Word}
    (hseq : seq (.ready prioDefault) = k.current :: (before ++ t :: after)) :
    ∃ k' seq', schedule k = some k' ∧ SchedInv k' seq' ∧ k'.status k'.current = .running ∧
      seq' (.ready prioDefault) = before ++ t :: (after ++ [k'.current]) ∧
      (before ++ [t]).head? ≠ some k'.current ∧ t ≠ k'.current := by
  have hnodup := h.links.nodup (.ready prioDefault)
  rw [hseq, List.nodup_cons, List.mem_append, List.mem_cons, not_or, not_or] at hnodup
  obtain ⟨⟨hbefore, ht, -⟩, -⟩ := hnodup
  obtain ⟨k', seq', hk', hinv', hcurr, hrun', hseq'⟩ := h.schedule_head hrun hseq
  refine ⟨k', seq', hk', hinv', hrun', ?_, ?_, hcurr ▸ Ne.symm ht⟩
  · rw [hseq', hcurr, List.append_assoc, List.cons_append]
  · intro hhead
    obtain hmem | hmem := List.mem_append.mp (List.mem_of_head? hhead)
    · exact hbefore (hcurr ▸ hmem)
    · exact ht (hcurr ▸ List.mem_singleton.mp hmem)

theorem erase_split {c : Word} (hne : t ≠ c) (before after : List Word) :
    ∃ before' after', (before ++ t :: after).erase c = before' ++ t :: after' ∧ before'.length ≤ before.length := by
  by_cases hc : c ∈ before
  · refine ⟨before.erase c, after, List.erase_append_left _ hc, ?_⟩
    rw [List.length_erase_of_mem hc]
    exact Nat.sub_le _ 1
  · refine ⟨before, after.erase c, ?_, Nat.le_refl _⟩
    rw [List.erase_append_right _ hc, List.erase_cons_tail (by rwa [beq_iff_eq])]

/-- The caller is elsewhere on the list, so that in two calls the head is gone from before `t`. The induction is on the tasks before it. -/
theorem dispatchedWithin_not_head (h : SchedInv k seq) (hrun : k.status k.current = .running) {before after : List Word}
    (hseq : seq (.ready prioDefault) = before ++ t :: after) (hhead : (before ++ [t]).head? ≠ some k.current)
    (hne : t ≠ k.current) {n : Nat} (hn : 2 * before.length + 1 ≤ n) : DispatchedWithin n k t := by
  induction hlen : before.length using Nat.strongRecOn generalizing k seq before after n with
  | _ len ih =>
      subst hlen
      obtain ⟨n, rfl⟩ := Nat.exists_eq_add_of_le' (Nat.le_of_add_left_le hn)
      cases before with
      | nil =>
          obtain ⟨k', seq', hk', hinv', hcurr, -⟩ := h.schedule_step hrun hseq
          exact hinv'.dispatchedWithin_of_next hk' hcurr n
      | cons x before =>
          rw [List.cons_append] at hseq
          have hx : x ≠ k.current := fun heq => hhead (congrArg some heq)
          obtain ⟨k₁, seq₁, hk₁, hinv₁, hcurr₁, hrun₁, hseq₁⟩ := h.schedule_not_head hrun hseq hx
          obtain ⟨before', after', herase, hle⟩ := erase_split hne before after
          rw [herase, List.append_assoc, List.cons_append, ← hcurr₁] at hseq₁
          obtain ⟨k₂, seq₂, hk₂, hinv₂, hrun₂, hseq₂, hhead₂, hne₂⟩ := hinv₁.schedule_past_head hrun₁ hseq₁
          rw [List.length_cons] at hn ih
          obtain ⟨n, rfl⟩ := Nat.exists_eq_add_of_le' (show 1 ≤ n by omega)
          have hrest := ih before'.length (by omega) hinv₂ hrun₂ hseq₂ hhead₂ hne₂ (n := n) (by omega) rfl
          exact (hrest.succ hk₂).succ hk₁

/-- From the default list a task is dispatched within two calls for each task on it. -/
theorem dispatchedWithin_of_mem (h : SchedInv k seq) (hrun : k.status k.current = .running)
    (ht : t ∈ seq (.ready prioDefault)) {n : Nat} (hn : 2 * (seq (.ready prioDefault)).length ≤ n) :
    DispatchedWithin n k t := by
  obtain ⟨before, after, hseq⟩ := List.append_of_mem ht
  rw [hseq, List.length_append, List.length_cons] at hn
  obtain ⟨n, rfl⟩ := Nat.exists_eq_add_of_le' (show 1 ≤ n by omega)
  cases before with
  | nil =>
      obtain ⟨k', seq', hk', hinv', hcurr, -⟩ := h.schedule_step hrun hseq
      exact hinv'.dispatchedWithin_of_next hk' hcurr n
  | cons x before =>
      rw [List.length_cons] at hn
      rw [List.cons_append] at hseq
      by_cases hx : x = k.current
      · -- the caller is at the head
        subst hx
        obtain ⟨k', seq', hk', hinv', hrun', hseq', hhead', hne'⟩ := h.schedule_past_head hrun hseq
        exact (hinv'.dispatchedWithin_not_head hrun' hseq' hhead' hne' (by omega)).succ hk'
      by_cases hne : t = k.current
      · -- `t` itself is the caller and goes to the tail
        subst hne
        obtain ⟨k₁, seq₁, hk₁, hinv₁, hcurr₁, hrun₁, hseq₁⟩ := h.schedule_not_head hrun hseq hx
        rw [← hcurr₁] at hseq₁
        obtain ⟨k₂, seq₂, hk₂, hinv₂, hrun₂, hseq₂, hhead₂, hne₂⟩ := hinv₁.schedule_past_head hrun₁ hseq₁
        obtain ⟨n, rfl⟩ := Nat.exists_eq_add_of_le' (show 1 ≤ n by omega)
        refine ((hinv₂.dispatchedWithin_not_head hrun₂ hseq₂ hhead₂ hne₂ ?_).succ hk₂).succ hk₁
        have hlen : ((before ++ k.current :: after).erase k.current).length = before.length + after.length := by
          rw [List.length_erase_of_mem (List.mem_append_right _ List.mem_cons_self), List.length_append, List.length_cons]
          omega
        rw [hlen]
        omega
      · have hhead : (x :: before ++ [t]).head? ≠ some k.current := fun heq => hx (Option.some.inj heq)
        exact h.dispatchedWithin_not_head hrun hseq hhead hne (by rw [List.length_cons]; omega)

/-! ## On another list -/

/-- No number of calls dispatches a task that is neither current nor on the default list. -/
theorem not_dispatched (h : SchedInv k seq) (hrun : k.status k.current = .running) (ht : t ∉ seq (.ready prioDefault))
    (hne : t ≠ k.current) (n : Nat) : ¬DispatchedWithin n k t := by
  intro ⟨ts, hts, hmem⟩
  induction n generalizing k seq ts with
  | zero =>
      cases hts
      exact absurd hmem List.not_mem_nil
  | succ n ih =>
      obtain ⟨x, hx⟩ := h.exists_next
      obtain ⟨xs, hseq⟩ : ∃ xs, seq (.ready prioDefault) = x :: xs := List.head?_eq_some_iff.mp hx
      obtain ⟨k', seq', hk', hinv', hcurr, hrun', hseq'⟩ := h.schedule_step hrun hseq
      rw [dispatches, hk', Option.bind_some] at hts
      obtain ⟨rest, hrest, rfl⟩ := Option.map_eq_some_iff.mp hts
      have hne' : t ≠ k'.current := by
        rw [hcurr]
        exact fun heq => ht (hseq ▸ heq ▸ List.mem_cons_self)
      have ht' : t ∉ seq' (.ready prioDefault) := by
        rw [hseq', ← hseq, List.mem_append, List.mem_singleton]
        exact fun hmem => hmem.elim (fun hmem => ht (List.mem_of_mem_erase hmem)) hne
      exact ih hinv' hrun' ht' hne' rest hrest ((List.mem_cons.mp hmem).resolve_left hne')

end SchedInv

/-! ## The list of every task -/

/-- Every task on a ready list is on that of its priority. -/
def ByPriority (k : Kernel) (seq : Queues) : Prop := ∀ p, ∀ t ∈ seq (.ready p), (k.task t).priority = p

/-- The current task is on the default list as long as it runs. -/
structure PrioInv (k : Kernel) (seq : Queues) : Prop extends SchedInv k seq where
  prio : ByPriority k seq
  caller : k.status k.current = .running → k.current ∈ seq (.ready prioDefault)

theorem ByPriority.withTask {k : Kernel} {seq : Queues} (h : ByPriority k seq) {tsk : Word} (hfresh : ∀ q, tsk ∉ seq q)
    (m : Mem) (proc params : Word) (name : List UInt8) {priority : Int} (hp : validPriority priority) (st : TaskStatus) :
    ByPriority (withTask k m tsk proc params name priority hp st)
      (entered seq tsk ⟨priority.toNat, toNat_lt_of_validPriority hp⟩) := by
  intro p t ht
  obtain ⟨heq, rfl⟩ | ht := Queues.mem_pushBack.mp ht
  · rw [task_withTask, newTask]
    exact (QueueId.ready.inj heq).symm
  · obtain ⟨heq, -⟩ | ht := Queues.mem_pushFront.mp ht
    · exact absurd heq (ready_ne_all p)
    · have hne : t ≠ tsk := fun heq => hfresh _ (heq ▸ ht)
      rw [task_withTask_of_ne k m proc params name hp st hne]
      exact h p t ht

namespace PrioInv

variable {k k' : Kernel} {seq : Queues} {t : Word}

theorem priority_dispatched (k : Kernel) (next u : Word) :
    ((dispatched k next).task u).priority = (k.task u).priority := by
  have htask : (nextTaskToRun k).2.task = k.task := by
    rw [SchedInv.nextTaskToRun_snd]
    rfl
  rw [← htask]
  exact (nextTaskToRun k).2.priority_setStatus next u .running

theorem schedule (h : PrioInv k seq) (hk' : schedule k = some k') :
    ∃ seq', PrioInv k' seq' ∧ k'.status k'.current = .running := by
  obtain ⟨next, hnext⟩ := h.exists_next
  rw [h.schedule_eq hnext] at hk'
  cases hk'
  refine ⟨rotated k seq, ⟨h.dispatched_inv hnext, fun p t ht => ?_, fun _ => ?_⟩, ?_⟩
  · rw [priority_dispatched]
    by_cases hrun : k.status k.current = .running
    · rw [rotated, if_pos hrun] at ht
      obtain ⟨heq, rfl⟩ | ht := Queues.mem_pushBack.mp ht
      · rw [QueueId.ready.inj heq]
        exact h.prio _ _ (h.caller hrun)
      · exact h.prio p t (Queues.mem_of_mem_dequeue ht)
    · rw [rotated, if_neg hrun] at ht
      exact h.prio p t ht
  · exact SchedInv.mem_rotated (List.mem_of_head? hnext)
  · rw [SchedInv.status_dispatched]
    exact Function.update_self ..

theorem setCount (h : PrioInv k seq) (sema : Word) (n : Int) : PrioInv (k.setCount sema n) seq :=
  ⟨h.toSchedInv.setCount sema n, h.prio, h.caller⟩

theorem semaUp (h : PrioInv k seq) (hrun : k.status k.current = .running) {sema : Word} (hk' : semaUp k sema = some k') :
    ∃ seq', PrioInv k' seq' ∧ k'.status k'.current = .running := by
  have hset := h.setCount sema (int32 (k.semaCount sema + 1))
  by_cases hnone : int32 (k.semaCount sema + 1) ≤ 0 ∨ seq (.wait sema) = []
  · rw [h.semaUp_eq_setCount hnone] at hk'
    cases hk'
    exact ⟨seq, hset, hrun⟩
  obtain ⟨hpos, hne⟩ := not_or.mp hnone
  obtain ⟨t, rest, hseq⟩ := List.exists_cons_of_ne_nil hne
  rw [h.semaUp_eq_handOff (Int.not_le.mp hpos) hseq] at hk'
  cases hk'
  have hmem : t ∈ seq (.wait sema) := hseq ▸ List.mem_cons_self ..
  refine ⟨_, ⟨hset.handOff_inv hmem, fun p u hu => ?_, fun _ => ?_⟩, ?_⟩
  · refine (Kernel.priority_setStatus _ t u .running).trans ?_
    obtain ⟨heq, rfl⟩ | hu := Queues.mem_pushBack.mp hu
    · exact (QueueId.ready.inj heq).symm
    · exact h.prio p u (Queues.mem_of_mem_dequeue hu)
  · have hne : k.current ≠ t := by
      rintro rfl
      have hblocked : k.status k.current = .blocked := h.ledger.admits _ _ hmem
      exact absurd (hrun.symm.trans hblocked) nofun
    exact Queues.mem_pushBack.mpr (Or.inr ((Queues.mem_dequeue_of_ne hne).mpr (h.caller hrun)))
  · show Kernel.status (Kernel.setStatus _ t .running) k.current = .running
    rw [Kernel.status_setStatus, Function.update_apply]
    split
    · rfl
    · exact hrun

theorem semaDown (h : PrioInv k seq) (hrun : k.status k.current = .running) (hidle : ¬k.IsIdle k.current) {sema : Word}
    (hk' : semaDown k sema = some k') : ∃ seq', PrioInv k' seq' ∧ k'.status k'.current = .running := by
  rw [I386Kernel.semaDown, semaDownSection] at hk'
  by_cases hcount : k.semaCount sema ≤ 0
  · rw [if_pos hcount] at hk'
    have hsuspend : PrioInv (taskSuspend k k.current (.wait sema)) (suspended seq k.current sema) := by
      refine ⟨h.taskSuspend sema (by rw [hrun]; decide) hidle, fun p u hu => ?_, fun hrun' => ?_⟩
      · refine (k.priority_setStatus k.current u .blocked).trans ?_
        obtain ⟨heq, -⟩ | hu := Queues.mem_pushFront.mp hu
        · cases heq
        · exact h.prio p u (Queues.mem_of_mem_dequeue hu)
      · have hstatus : (taskSuspend k k.current (.wait sema)).status k.current = .blocked :=
          (congrFun (k.status_setStatus k.current .blocked) k.current).trans (Function.update_self ..)
        exact absurd (hstatus.symm.trans hrun') (by decide)
    exact hsuspend.schedule hk'
  · rw [if_neg hcount] at hk'
    cases hk'
    exact ⟨seq, h.setCount sema _, hrun⟩

theorem taskExit (h : PrioInv k seq) (hrun : k.status k.current = .running) (hidle : ¬k.IsIdle k.current)
    (hk' : taskExit k = some k') : ∃ seq', PrioInv k' seq' ∧ k'.status k'.current = .running := by
  have hexit : PrioInv (taskExitSection k) (seq.dequeue k.current) := by
    refine ⟨h.taskExitSection (by rw [hrun]; nofun) hidle, fun p u hu => ?_, fun hrun' => ?_⟩
    · exact (k.priority_setStatus k.current u .dying).trans (h.prio p u (Queues.mem_of_mem_dequeue hu))
    · have hstatus : (taskExitSection k).status k.current = .dying :=
        (congrFun (k.status_setStatus k.current .dying) k.current).trans (Function.update_self ..)
      exact absurd (hstatus.symm.trans hrun') nofun
  exact hexit.schedule hk'

theorem taskCreate (h : PrioInv k seq) (hrun : k.status k.current = .running) (proc params : Word) (name : List UInt8)
    {priority : Int} (hp : validPriority priority) :
    let k' := (taskCreate k proc params (some name) priority .ready).2
    ∃ seq', PrioInv k' seq' ∧ k'.status k'.current = .running := by
  obtain ⟨-, hinv, m, hk⟩ | ⟨tsk, m, -, hfresh, hk, hinv⟩ := h.toSchedInv.taskCreate proc params name hp (Or.inr rfl)
  · rw [hk] at hinv ⊢
    exact ⟨seq, ⟨hinv, h.prio, h.caller⟩, hrun⟩
  · have hnot : ∀ q, tsk ∉ seq q := fun q hmem => hfresh (h.ledger.member q tsk hmem)
    have hne : k.current ≠ tsk := fun heq => hfresh (heq ▸ h.current)
    rw [hk] at hinv ⊢
    refine ⟨_, ⟨hinv, h.prio.withTask hnot m proc params name hp .ready, fun _ => ?_⟩, ?_⟩
    · exact TaskInv.mem_entered (h.caller hrun)
    · rw [TaskInv.status_withTask]
      exact (Function.update_of_ne hne _ _).trans hrun

end PrioInv

theorem callStep_prio {k k' : Kernel} {call : SchedCall} {seq : Queues} (h : PrioInv k seq)
    (hrun : k.status k.current = .running) (hstep : callStep k call = some k') :
    ∃ seq', PrioInv k' seq' ∧ k'.status k'.current = .running := by
  obtain ⟨hcall, hk'⟩ := Option.ite_none_right_eq_some.mp hstep
  cases call with
  | taskCreate proc params name priority =>
      cases hk'
      exact h.taskCreate hrun proc params name hcall.2
  | semaDown sema => exact h.semaDown hrun hcall hk'
  | semaUp sema => exact h.semaUp hrun hk'
  | schedule => exact h.schedule hk'
  | taskExit => exact h.taskExit hrun hcall hk'

theorem createIdle_prio {k : Kernel} {seq : Queues} (h : TaskInv k seq) (hprio : ByPriority k seq)
    (hcurr : k.current ∈ seq (.ready prioDefault)) (params : Word) :
    let k' := (createIdle k params).2
    ∃ seq', TaskInv k' seq' ∧ ByPriority k' seq' ∧ k'.current ∈ seq' (.ready prioDefault) := by
  obtain ⟨-, hinv, m, hk⟩ | ⟨tsk, m, -, hfresh, hk, hinv⟩ :=
    h.taskCreate k.sym.idleProc params [0x69, 0x64, 0x6c, 0x65] validPriority_default (Or.inr rfl)
  · refine ⟨seq, hinv, ?_⟩
    rw [createIdle, hk]
    exact ⟨hprio, hcurr⟩
  · refine ⟨_, hinv, ?_⟩
    rw [createIdle, hk]
    exact ⟨hprio.withTask (fun q hmem => hfresh (h.ledger.member q tsk hmem)) m _ _ _ _ _, TaskInv.mem_entered hcurr⟩

/-- The boot task and the idle tasks have the default priority. -/
theorem schedInitTasks_prio {k : Kernel} {sem : Word} (h : Boot k sem) : ∃ seq, PrioInv (schedInitTasks k sem) seq := by
  obtain ⟨seq, hsched, -, -, -⟩ := schedInitTasks_inv h
  obtain ⟨hinv, -, hcurr, -, -⟩ := schedInitLists_inv h
  have hboot : ByPriority (schedInitLists k sem) (bootQueues k.current) := by
    intro p t ht
    obtain ⟨heq, rfl⟩ | ht := Queues.mem_pushFront.mp ht
    · rw [QueueId.ready.inj heq]
      exact schedInitLists_priority h
    · obtain ⟨heq, -⟩ | ht := Queues.mem_pushFront.mp ht
      · exact absurd heq (ready_ne_all p)
      · exact absurd ht List.not_mem_nil
  have hmem : (schedInitLists k sem).current ∈ bootQueues k.current (.ready prioDefault) := by
    rw [hcurr]
    exact Queues.mem_pushFront.mpr (Or.inl ⟨rfl, rfl⟩)
  obtain ⟨seq₁, hinv₁, hprio₁, hmem₁⟩ := createIdle_prio hinv hboot hmem sem
  obtain ⟨seq₂, hinv₂, hprio₂, hmem₂⟩ := createIdle_prio hinv₁ hprio₁ hmem₁ 0
  rw [schedInitTasks] at hsched ⊢
  generalize (createIdle (createIdle (schedInitLists k sem) sem).2 0).2 = k₂ at *
  obtain rfl := hsched.links.seq_unique hinv₂.links
  exact ⟨seq, hsched, hprio₂, fun _ => hmem₂⟩

theorem prioInv_reachable {k : Kernel} (h : schedSystem.Reachable k) :
    ∃ seq, PrioInv k seq ∧ k.status k.current = .running := by
  refine schedSystem.invariant (P := fun k => ∃ seq, PrioInv k seq ∧ k.status k.current = .running)
    (fun k hinit => ?_) (fun k call k' _ hk hstep => ?_) h
  · obtain ⟨k₀, sem, hboot, hk⟩ := hinit
    obtain ⟨seq, hprio⟩ := schedInitTasks_prio hboot
    obtain ⟨-, -, hrun, hidle, -⟩ := schedInitTasks_inv hboot
    exact hprio.semaDown hrun hidle hk
  · obtain ⟨seq, hprio, hrun⟩ := hk
    exact callStep_prio hprio hrun hstep

/-! ## Starvation -/

/-- `lists` are the ready lists that the links show. -/
def ReadyLists (k : Kernel) (lists : Fin 64 → List Word) : Prop :=
  ∀ p, Ring k.links (.head (.ready p)) ((lists p).map .queued)

/-- The tasks on all ready lists. -/
def onReady (lists : Fin 64 → List Word) : List Word := ((List.finRange 64).map lists).flatten

/-- A task that can run is on the list of its priority, and if that is not the default one, it is not the current task. -/
theorem PrioInv.runnable {k : Kernel} {seq : Queues} (h : PrioInv k seq) (hcurr : k.status k.current = .running) {t : Word}
    (ht : k.IsTask t) (hrun : k.status t = .running ∨ k.status t = .ready) :
    t ∈ seq (.ready (k.task t).priority) ∧
      ((k.task t).priority ≠ prioDefault → t ∉ seq (.ready prioDefault) ∧ t ≠ k.current) := by
  obtain ⟨p, hp, -⟩ := (h.queueLaw.runnable t ht hrun).1
  have hpt : (k.task t).priority = p := h.prio p t hp
  rw [hpt]
  refine ⟨hp, fun hne => ?_⟩
  have hnot : t ∉ seq (.ready prioDefault) := fun hmem => hne (hpt.symm.trans (h.prio _ t hmem))
  exact ⟨hnot, fun heq => hnot (heq ▸ h.caller hcurr)⟩

/-- In every state, a task that can run is dispatched within two calls for each task on the ready lists if its priority is the default one, and otherwise by no number of calls. -/
theorem dispatched_iff_default {k : Kernel} (h : schedSystem.Reachable k) {lists : Fin 64 → List Word}
    (hlists : ReadyLists k lists) {t : Word} (ht : k.IsTask t) (hrun : k.status t = .running ∨ k.status t = .ready) :
    (DispatchedWithin (2 * (onReady lists).length) k t ↔ (k.task t).priority = prioDefault) ∧
      ((k.task t).priority ≠ prioDefault → ∀ n, ¬DispatchedWithin n k t) := by
  obtain ⟨seq, hprio, hcurr⟩ := prioInv_reachable h
  obtain ⟨hmem, hother⟩ := hprio.runnable hcurr ht hrun
  have hnever : (k.task t).priority ≠ prioDefault → ∀ n, ¬DispatchedWithin n k t := fun hne =>
    hprio.not_dispatched hcurr (hother hne).1 (hother hne).2
  refine ⟨⟨fun hwithin => ?_, fun hdefault => ?_⟩, hnever⟩
  · by_contra hne
    exact hnever hne _ hwithin
  · rw [hdefault] at hmem
    have hseq : seq (.ready prioDefault) = lists prioDefault :=
      List.map_injective_iff.mpr (QueueId.ready prioDefault).node_injective
        ((hprio.links.ring (.ready prioDefault)).unique (hlists prioDefault))
    refine hprio.dispatchedWithin_of_mem hcurr hmem (Nat.mul_le_mul_left 2 ?_)
    rw [hseq]
    exact (List.sublist_flatten_of_mem (List.mem_map_of_mem (List.mem_finRange prioDefault))).length_le

/-! ## A new task of the small machine

The boot task is woken and creates a task in the third page. -/

end I386Kernel
