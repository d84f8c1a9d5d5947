import I386Kernel.Task.Queues

/-!
# The scheduler keeps its queues

`TaskInv` says of a kernel state that its links represent sequences that agree with the status of every task, and that every task other than the first has a page of the pool to itself; `SchedInv` adds that an idle task is on the default ready list. The lemmas below give, for each function of `sched.c` and `sync.c`, the state and the sequences it leads to, and that the invariant holds there.
-/

namespace I386Kernel

open CircularList (Links Rings Ring)

namespace Kernel

variable (k : Kernel)

def IsTask (t : Word) : Prop := ∃ proc, (t, proc) ∈ k.created

/-- A task whose procedure is `idle_proc`. -/
def IsIdle (t : Word) : Prop := (t, k.sym.idleProc) ∈ k.created

instance (k : Kernel) (t : Word) : Decidable (k.IsIdle t) := inferInstanceAs (Decidable (_ ∈ _))

theorem status_setTask (k : Kernel) (t : Word) (f : TaskStruct → TaskStruct) :
    (k.setTask t f).status = Function.update k.status t (f (k.task t)).status := by
  funext u
  by_cases hu : u = t
  · subst hu
    rw [Function.update_self]
    exact congrArg TaskStruct.status (Function.update_self ..)
  · rw [Function.update_of_ne hu]
    exact congrArg TaskStruct.status (Function.update_of_ne hu _ _)

theorem status_setStatus (k : Kernel) (t : Word) (st : TaskStatus) :
    (k.setStatus t st).status = Function.update k.status t st := k.status_setTask t _

theorem task_setStatus_of_ne (k : Kernel) {t u : Word} (st : TaskStatus) (h : u ≠ t) :
    (k.setStatus t st).task u = k.task u := Function.update_of_ne h _ _

theorem task_setStatus_self (k : Kernel) (t : Word) (st : TaskStatus) :
    (k.setStatus t st).task t = { k.task t with status := st } := Function.update_self ..

theorem magic_setStatus (k : Kernel) (t u : Word) (st : TaskStatus) :
    ((k.setStatus t st).task u).magic = (k.task u).magic := by
  by_cases hu : u = t
  · subst hu
    rw [k.task_setStatus_self]
  · rw [k.task_setStatus_of_ne st hu]

theorem priority_setStatus (k : Kernel) (t u : Word) (st : TaskStatus) :
    ((k.setStatus t st).task u).priority = (k.task u).priority := by
  by_cases hu : u = t
  · subst hu
    rw [k.task_setStatus_self]
  · rw [k.task_setStatus_of_ne st hu]

end Kernel

/-- Every task but the first sits in a marked page of the pool. -/
structure TaskPages (mem : Mem) (pool : MemPool) (initTask : Word) (isTask : Word → Prop) : Prop where
  wf : PoolWf mem pool
  page : ∀ t, isTask t → t = initTask ∨
    ∃ i, i < pool.pageCount mem ∧ t = pool.pageAddr i ∧ pool.used mem i = true
  init : ∀ i, i < pool.pageCount mem → pool.pageAddr i ≠ initTask

structure TaskInv (k : Kernel) (seq : Queues) : Prop where
  links : Represents k.links seq
  ledger : Ledger k.status k.IsTask seq
  valid : ∀ t, k.IsTask t → validTask (k.task t)
  nonnull : ∀ t, k.IsTask t → t ≠ 0
  current : k.IsTask k.current
  pages : TaskPages k.mem k.pool k.initTask k.IsTask

structure SchedInv (k : Kernel) (seq : Queues) : Prop extends TaskInv k seq where
  idle : ∃ t ∈ seq (.ready prioDefault), k.IsIdle t

theorem ready_ne_all (prio : Fin 64) : QueueId.ready prio ≠ .all := nofun

theorem wait_ne_all (sema : Word) : QueueId.wait sema ≠ .all := nofun

/-! ## Taking a task off its list and putting it on another -/

namespace SchedInv

variable {k : Kernel} {seq : Queues} {t : Word}

theorem notMem_dequeue (h : SchedInv k seq) (t : Word) {q : QueueId} (hq : q ≠ .all) :
    t ∉ seq.dequeue t q := by
  rw [Queues.dequeue_of_ne hq]
  exact (h.links.nodup q).not_mem_erase

/-- A change of the links and of one task's status, when the sequences still agree. -/
theorem relink (h : SchedInv k seq) {L : Links Node} {seq' : Queues} {st : TaskStatus}
    (hlinks : Represents L seq') (hledger : Ledger (Function.update k.status t st) k.IsTask seq')
    (hidle : ∃ t ∈ seq' (.ready prioDefault), k.IsIdle t) :
    SchedInv ((k.setStatus t st).setLinks L) seq' where
  links := hlinks
  ledger := by
    have hstatus : ((k.setStatus t st).setLinks L).status = Function.update k.status t st :=
      k.status_setStatus t st
    rw [hstatus]
    exact hledger
  valid := fun u hu => (k.magic_setStatus t u st).trans (h.valid u hu)
  nonnull := h.nonnull
  current := h.current
  idle := hidle
  pages := h.pages

theorem taskResume_eq (k : Kernel) {t : Word} (hvalid : validTask (k.task t)) (hst : k.status t = .blocked) :
    taskResume k t = (k.setStatus t .running).setLinks
      (listAddTail k.links (.queued t) (.head (.ready (k.task t).priority))) := by
  rw [taskResume, if_neg (not_not.mpr hvalid), if_pos hst]
  change Kernel.setLinks _ (listAddTail _ _ (.head (.ready ((k.setStatus t .running).task t).priority))) = _
  rw [k.priority_setStatus t t .running]
  rfl

theorem idle_dequeue (h : SchedInv k seq) (ht : ¬ k.IsIdle t) :
    ∃ u ∈ seq.dequeue t (.ready prioDefault), k.IsIdle u := by
  obtain ⟨u, hu, hidle⟩ := h.idle
  have hut : u ≠ t := by
    intro heq
    exact ht (heq ▸ hidle)
  exact ⟨u, (Queues.mem_dequeue_of_ne hut).mpr hu, hidle⟩

/-- Moving a task to the tail of a list. -/
theorem moveBack (h : SchedInv k seq) {p q : QueueId} {st : TaskStatus} (ht : k.IsTask t) (hp : p ≠ .all)
    (htp : t ∈ seq p) (hq : q ≠ .all) (hst : q.admits st)
    (hidle : ∃ u ∈ (seq.dequeue t).pushBack q t (.ready prioDefault), k.IsIdle u) :
    SchedInv ((k.setStatus t st).setLinks (listAddTail (listDel k.links (.queued t)) (.queued t) (.head q)))
      ((seq.dequeue t).pushBack q t) := by
  have hdel := h.links.listDel hp htp
  have hadd := hdel.listAddTail (q := q) (t := t) fun r hr => h.notMem_dequeue t fun hall => hq (hr.mpr hall)
  rw [q.node_of_ne hq] at hadd
  refine h.relink hadd ?_ hidle
  exact (h.ledger.dequeue h.links t).enqueue ht hq hst fun r u => Queues.mem_pushBack

/-- Moving a task to the head of a list. -/
theorem moveFront (h : SchedInv k seq) {p q : QueueId} {st : TaskStatus} (ht : k.IsTask t) (hp : p ≠ .all)
    (htp : t ∈ seq p) (hq : q ≠ .all) (hst : q.admits st)
    (hidle : ∃ u ∈ (seq.dequeue t).pushFront q t (.ready prioDefault), k.IsIdle u) :
    SchedInv ((k.setStatus t st).setLinks (listAdd (listDel k.links (.queued t)) (.queued t) (.head q)))
      ((seq.dequeue t).pushFront q t) := by
  have hdel := h.links.listDel hp htp
  have hadd := hdel.listAdd (q := q) (t := t) fun r hr => h.notMem_dequeue t fun hall => hq (hr.mpr hall)
  rw [q.node_of_ne hq] at hadd
  refine h.relink hadd ?_ hidle
  exact (h.ledger.dequeue h.links t).enqueue ht hq hst fun r u => Queues.mem_pushFront

/-- The count of a semaphore is no concern of the queues. -/
theorem setCount (h : SchedInv k seq) (sema : Word) (n : Int) : SchedInv (k.setCount sema n) seq :=
  ⟨⟨h.links, h.ledger, h.valid, h.nonnull, h.current, h.pages⟩, h.idle⟩

theorem queued (h : SchedInv k seq) (ht : k.IsTask t) (hst : k.status t ≠ .dying) :
    ∃ q, q ≠ .all ∧ t ∈ seq q := h.ledger.queued t ht hst

/-! ## `task_suspend` and `task_exit` -/

/-- What `task_suspend` of the current task does to the sequences. -/
def suspended (seq : Queues) (t sema : Word) : Queues := (seq.dequeue t).pushFront (.wait sema) t

theorem taskSuspend (h : SchedInv k seq) (sema : Word) (hst : k.status k.current ≠ .dying)
    (hidle : ¬ k.IsIdle k.current) :
    SchedInv (taskSuspend k k.current (.wait sema)) (suspended seq k.current sema) := by
  obtain ⟨q, hq, hmem⟩ := h.queued h.current hst
  refine h.moveFront h.current hq hmem nofun rfl ?_
  obtain ⟨u, hu, hu'⟩ := h.idle_dequeue hidle
  exact ⟨u, Queues.mem_pushFront.mpr (Or.inr hu), hu'⟩

theorem taskExitSection (h : SchedInv k seq) (hst : k.status k.current ≠ .dying)
    (hidle : ¬ k.IsIdle k.current) :
    SchedInv (taskExitSection k) (seq.dequeue k.current) := by
  obtain ⟨q, hq, hmem⟩ := h.queued h.current hst
  exact h.relink (h.links.listDel hq hmem) (h.ledger.dequeue h.links k.current) (h.idle_dequeue hidle)

/-! ## `schedule` -/

/-- A running task goes to the tail of the default ready list. -/
def rotated (k : Kernel) (seq : Queues) : Queues :=
  if k.status k.current = .running then (seq.dequeue k.current).pushBack (.ready prioDefault) k.current
  else seq

/-- Choosing the next task only changes links. -/
theorem nextTaskToRun_snd (k : Kernel) : (nextTaskToRun k).2 = k.setLinks (nextTaskToRun k).2.links := by
  rw [nextTaskToRun]
  split <;> rfl

theorem nextTaskToRun_next (h : SchedInv k seq) :
    (nextTaskToRun k).1 = (seq (.ready prioDefault)).head? := by
  rw [← h.links.listEntry_next (q := .ready prioDefault) nofun, nextTaskToRun]
  split <;> rfl

private theorem current_self {k : Kernel} {t : Word} (h : k.current = t) : { k with current := t } = k := by
  rw [← h]

theorem setStatus_self (k : Kernel) (t : Word) : k.setStatus t (k.status t) = k := by
  have hself : Function.update k.task t (k.task t) = k.task := Function.update_eq_self ..
  change { k with task := Function.update k.task t (k.task t) } = k
  rw [hself]

theorem mem_rotated {u : Word} (hu : u ∈ seq (.ready prioDefault)) :
    u ∈ rotated k seq (.ready prioDefault) := by
  by_cases hrun : k.status k.current = .running
  · rw [rotated, if_pos hrun, Queues.mem_pushBack]
    by_cases heq : u = k.current
    · exact Or.inl ⟨rfl, heq⟩
    · exact Or.inr ((Queues.mem_dequeue_of_ne heq).mpr hu)
  · rwa [rotated, if_neg hrun]

theorem nextTaskToRun_inv (h : SchedInv k seq) : SchedInv (nextTaskToRun k).2 (rotated k seq) := by
  by_cases hrun : k.status k.current = .running
  · obtain ⟨q, hq, hmem⟩ := h.queued h.current (by rw [hrun]; nofun)
    obtain ⟨u, hu, hidle⟩ := h.idle
    have hrot := mem_rotated (k := k) hu
    rw [rotated, if_pos hrun] at hrot
    have hadmits : (QueueId.ready prioDefault).admits .running := Or.inl rfl
    have hmove := h.moveBack h.current hq hmem (ready_ne_all prioDefault) hadmits ⟨u, hrot, hidle⟩
    rw [← hrun, setStatus_self] at hmove
    rw [rotated, if_pos hrun, nextTaskToRun, if_pos hrun]
    exact hmove
  · rw [rotated, if_neg hrun, nextTaskToRun, if_neg hrun]
    exact h

/-- The default ready list is never empty. -/
theorem exists_next (h : SchedInv k seq) : ∃ next, (seq (.ready prioDefault)).head? = some next := by
  obtain ⟨t, ht, -⟩ := h.idle
  cases hseq : seq (.ready prioDefault) with
  | nil =>
      rw [hseq] at ht
      exact absurd ht List.not_mem_nil
  | cons next rest => exact ⟨next, rfl⟩

/-- The state after `schedule` has given the CPU to `next`. -/
def dispatched (k : Kernel) (next : Word) : Kernel :=
  { (nextTaskToRun k).2.setStatus next .running with current := next }

theorem schedule_eq (h : SchedInv k seq) {next : Word}
    (hnext : (seq (.ready prioDefault)).head? = some next) : schedule k = some (dispatched k next) := by
  have hne : k.current ≠ 0 := h.nonnull _ h.current
  have hcurrent : (nextTaskToRun k).2.current = k.current := by
    rw [nextTaskToRun_snd]
    rfl
  change (nextTaskToRun k).1.map (fun next =>
    if k.current ≠ next then switchTo ((nextTaskToRun k).2.setStatus next .running) k.current next
    else (nextTaskToRun k).2.setStatus next .running) = _
  rw [h.nextTaskToRun_next, hnext, Option.map_some]
  by_cases heq : k.current = next
  · have hself : dispatched k next = (nextTaskToRun k).2.setStatus next .running :=
      current_self (k := (nextTaskToRun k).2.setStatus next .running) (hcurrent.trans heq)
    rw [if_neg (not_not.mpr heq), hself]
  · rw [if_pos heq, switchTo, taskSchedPostProc, if_neg fun h => hne h.1]
    rfl

theorem dispatched_inv (h : SchedInv k seq) {next : Word}
    (hnext : (seq (.ready prioDefault)).head? = some next) : SchedInv (dispatched k next) (rotated k seq) := by
  have hinv := h.nextTaskToRun_inv
  have hmem := mem_rotated (k := k) (List.mem_of_head? hnext)
  have htask := hinv.ledger.member _ _ hmem
  have hledger : Ledger (Function.update (nextTaskToRun k).2.status next .running) (nextTaskToRun k).2.IsTask
      (rotated k seq) := by
    refine ⟨fun q u hu => ?_, fun u hu hdying => ?_, hinv.ledger.member, hinv.ledger.all⟩
    · by_cases heq : u = next
      · subst heq
        rw [Function.update_self]
        by_cases hq : q = .all
        · rw [hq]
          trivial
        · rw [hinv.links.queue_unique hq (ready_ne_all _) hu hmem]
          exact Or.inl rfl
      · rw [Function.update_of_ne heq]
        exact hinv.ledger.admits q u hu
    · by_cases heq : u = next
      · exact ⟨_, ready_ne_all _, heq ▸ hmem⟩
      · rw [Function.update_of_ne heq] at hdying
        exact hinv.queued hu hdying
  have hrelink := hinv.relink (t := next) hinv.links hledger hinv.idle
  exact ⟨⟨hrelink.links, hrelink.ledger, hrelink.valid, hrelink.nonnull, htask, hrelink.pages⟩, hrelink.idle⟩

theorem status_dispatched (k : Kernel) (next : Word) :
    (dispatched k next).status = Function.update k.status next .running := by
  have hstatus : (nextTaskToRun k).2.status = k.status := by
    rw [nextTaskToRun_snd]
    rfl
  rw [← hstatus]
  exact (nextTaskToRun k).2.status_setStatus next .running

/-- What `schedule` leaves alone. -/
theorem dispatched_frame (k : Kernel) (next : Word) :
    (dispatched k next).created = k.created ∧ (dispatched k next).initTask = k.initTask ∧
      (dispatched k next).semaCount = k.semaCount ∧ (dispatched k next).sym = k.sym := by
  rw [dispatched, nextTaskToRun_snd]
  exact ⟨rfl, rfl, rfl, rfl⟩

/-! ## `sema_up` -/

/-- The first waiter goes to the tail of the ready list of its priority. -/
def woken (k : Kernel) (seq : Queues) (t : Word) : Queues :=
  (seq.dequeue t).pushBack (.ready (k.task t).priority) t

def handOff (k : Kernel) (t : Word) : Kernel :=
  (k.setStatus t .running).setLinks
    (listAddTail (listDel k.links (.queued t)) (.queued t) (.head (.ready (k.task t).priority)))

theorem handOff_inv (h : SchedInv k seq) {sema : Word} (ht : t ∈ seq (.wait sema)) :
    SchedInv (handOff k t) (woken k seq t) := by
  have htask := h.ledger.member _ _ ht
  refine h.moveBack htask (p := .wait sema) nofun ht nofun (Or.inl rfl) ?_
  obtain ⟨u, hu, hidle⟩ := h.idle
  have hut : u ≠ t := by
    rintro rfl
    exact absurd (h.links.queue_unique (ready_ne_all _) (wait_ne_all _) hu ht) nofun
  exact ⟨u, Queues.mem_pushBack.mpr (Or.inr ((Queues.mem_dequeue_of_ne hut).mpr hu)), hidle⟩

theorem semaUp_eq_setCount (h : SchedInv k seq) {sema : Word}
    (hnone : int32 (k.semaCount sema + 1) ≤ 0 ∨ seq (.wait sema) = []) :
    semaUp k sema = some (k.setCount sema (int32 (k.semaCount sema + 1))) := by
  have hcount : (k.setCount sema (int32 (k.semaCount sema + 1))).semaCount sema =
      int32 (k.semaCount sema + 1) := Function.update_self ..
  refine if_neg ?_
  rw [hcount]
  rintro ⟨hpos, hempty⟩
  obtain hle | hnil := hnone
  · exact Int.not_lt.mpr hle hpos
  · have hempty' : listEmpty k.links (.head (.wait sema)) = true := h.links.listEmpty_iff.mpr hnil
    exact absurd (hempty'.symm.trans hempty) nofun

theorem semaUp_eq_handOff (h : SchedInv k seq) {sema : Word} {rest : List Word}
    (hpos : 0 < int32 (k.semaCount sema + 1)) (hseq : seq (.wait sema) = t :: rest) :
    semaUp k sema = some (handOff (k.setCount sema (int32 (k.semaCount sema + 1))) t) := by
  have hcount : (k.setCount sema (int32 (k.semaCount sema + 1))).semaCount sema =
      int32 (k.semaCount sema + 1) := Function.update_self ..
  have hne : listEmpty k.links (.head (.wait sema)) = false := by
    rw [← Bool.not_eq_true, h.links.listEmpty_iff, hseq]
    nofun
  have hring := h.links.ring (.wait sema)
  simp only [hseq, List.map_cons] at hring
  have hnode : k.links.next (.head (.wait sema)) = .queued t := hring.next_head_cons
  have ht : t ∈ seq (.wait sema) := hseq ▸ List.mem_cons_self ..
  have hvalid : validTask (k.task t) := h.valid t (h.ledger.member _ _ ht)
  have hblocked : k.status t = .blocked := h.ledger.admits _ _ ht
  have hpos' : (k.setCount sema (int32 (k.semaCount sema + 1))).semaCount sema > 0 := by
    rw [hcount]
    exact hpos
  refine (if_pos ⟨hpos', hne⟩).trans ?_
  change (listEntry (k.links.next (.head (.wait sema)))).map (fun tskWait =>
    taskResume ((k.setCount sema (int32 (k.semaCount sema + 1))).setLinks
      (listDel k.links (k.links.next (.head (.wait sema))))) tskWait) = _
  rw [hnode]
  exact congrArg some (taskResume_eq _ hvalid hblocked)

end SchedInv

end I386Kernel
