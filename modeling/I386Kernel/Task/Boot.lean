import I386Kernel.Task.Create

/-!
# `sched_init`

The scheduler starts from list heads that point at themselves. The boot code becomes the first task, two idle tasks are created, and the first task waits for one of them. From then on the invariant of the scheduler holds.
-/

namespace I386Kernel

open CircularList (Links Rings Ring)

/-- What holds when `sched_init` runs: the pool is set up, the boot stack is no page of it, and every other semaphore has been through `sema_init`. -/
structure Boot (k : Kernel) (sem : Word) : Prop where
  pool : PoolWf k.mem k.pool
  nonnull : k.current ≠ 0
  current : ∀ i, i < k.pool.pageCount k.mem → k.pool.pageAddr i ≠ k.current
  semas : ∀ s, s ≠ sem → Ring k.links (.head (.wait s)) []
  idle : IdleTasksCreated k sem

private theorem ring_listHeadInit {L : Links Node} {q : QueueId} (h : Ring L (.head q) []) (r : QueueId) :
    Ring (listHeadInit L (.head r)) (.head q) [] := by
  by_cases hqr : q = r
  · subst hqr
    exact Ring.makeHead L (.head q)
  · have hne : ∀ n ∈ [Node.head q], n ≠ .head r := by
      intro n hn heq
      rw [List.mem_singleton.mp hn] at heq
      exact hqr (Node.head.inj heq)
    exact h.frame (fun n hn => Function.update_of_ne (hne n hn) _ _)
      fun n hn => Function.update_of_ne (hne n hn) _ _

/-- The loop over the ready lists only changes the links. -/
private theorem readyLoop (k : Kernel) (ps : List (Fin 64)) :
    ∃ L, ps.foldl (fun k i => k.setLinks (listHeadInit k.links (.head (.ready i)))) k = k.setLinks L ∧
      (∀ q, Ring k.links (.head q) [] → Ring L (.head q) []) ∧ ∀ p ∈ ps, Ring L (.head (.ready p)) [] := by
  induction ps generalizing k with
  | nil => exact ⟨k.links, rfl, fun q h => h, nofun⟩
  | cons p ps ih =>
      obtain ⟨L, hL, hkeep, hnew⟩ := ih (k.setLinks (listHeadInit k.links (.head (.ready p))))
      refine ⟨L, hL, fun q h => hkeep q (ring_listHeadInit h _), fun i hi => ?_⟩
      obtain rfl | hi := List.mem_cons.mp hi
      · exact hkeep _ (Ring.makeHead k.links _)
      · exact hnew i hi

/-- The sequences when only the first task exists. -/
def bootQueues (init : Word) : Queues :=
  Queues.pushFront (Queues.pushFront (fun _ => []) .all init) (.ready prioDefault) init

private theorem represents_heads {L : Links Node} (h : ∀ q, Ring L (.head q) []) :
    Represents L fun _ => [] := by
  refine ⟨h, fun p q hpq n hp hq => ?_⟩
  rw [List.mem_singleton.mp hp] at hq
  exact hpq (Node.head.inj (List.mem_singleton.mp hq))

/-- The lists of `sched_init` before it enters the first task. -/
private theorem heads_init {k : Kernel} {sem : Word} (h : Boot k sem) :
    ∃ L, (List.finRange 64).foldl (fun k i => k.setLinks (listHeadInit k.links (.head (.ready i))))
        (semaInit k sem 0) = (k.setCount sem 0).setLinks L ∧
      Represents (listHeadInit L (.head .all)) fun _ => [] := by
  obtain ⟨L, hL, hkeep, hnew⟩ := readyLoop (semaInit k sem 0) (List.finRange 64)
  refine ⟨L, hL, represents_heads fun q => ?_⟩
  cases q with
  | all => exact Ring.makeHead L _
  | ready p => exact ring_listHeadInit (hnew p (List.mem_finRange p)) .all
  | wait s =>
      refine ring_listHeadInit (hkeep _ ?_) .all
      by_cases hs : s = sem
      · subst hs
        exact Ring.makeHead k.links _
      · exact ring_listHeadInit (h.semas s hs) (.wait sem)

/-- The list heads and the records `sched_init` sets before it enters the first task. -/
private def booting (k : Kernel) (sem : Word) (L : Links Node) : Kernel :=
  { k.setCount sem 0 with
    links := listHeadInit L (.head .all)
    initTask := k.current
    created := [(k.current, 0)] }

theorem validPriority_default : validPriority ((prioDefault : Fin 64) : Nat) := by decide

private theorem schedInitLists_eq {k : Kernel} {sem : Word} {L : Links Node} (hne : k.current ≠ 0)
    (hL : (List.finRange 64).foldl (fun k i => k.setLinks (listHeadInit k.links (.head (.ready i))))
      (semaInit k sem 0) = (k.setCount sem 0).setLinks L) :
    schedInitLists k sem =
      { booting k sem L with
        links := listAdd (listAdd ((booting k sem L).zeroNodes k.current).links (.all k.current) (.head .all))
          (.queued k.current) (.head (.ready prioDefault))
        nextPid := int32 (k.nextPid + 1)
        task := Function.update k.task k.current (newTask (int32 (k.nextPid + 1)) [0x69, 0x6e, 0x69, 0x74]
          ((prioDefault : Fin 64) : Nat) validPriority_default (k.current + pageSize) .running) } := by
  have hinit := taskStructInit_eq (booting k sem L) [0x69, 0x6e, 0x69, 0x74] hne validPriority_default
  have hk : schedInitLists k sem =
      (let k := taskStructInit (booting k sem L) k.current (some [0x69, 0x6e, 0x69, 0x74])
        ((prioDefault : Fin 64) : Nat)
       let k := k.setStatus k.initTask .running
       k.setLinks (listAdd k.links (.queued k.initTask) (.head (.ready (k.task k.initTask).priority)))) := by
    rw [schedInitLists, hL]
    rfl
  have hcurr : (booting k sem L).initTask = k.current := rfl
  rw [hk, hinit]
  simp only [Kernel.setStatus, Kernel.setTask, Kernel.setLinks, hcurr, Function.update_self,
    Function.update_idem]
  rfl

theorem schedInitLists_inv {k : Kernel} {sem : Word} (h : Boot k sem) :
    TaskInv (schedInitLists k sem) (bootQueues k.current) ∧
      (schedInitLists k sem).status k.current = .running ∧ (schedInitLists k sem).current = k.current ∧
      (schedInitLists k sem).created = [(k.current, 0)] ∧ (schedInitLists k sem).initTask = k.current := by
  obtain ⟨L, hL, hrep⟩ := heads_init h
  have hheads : Represents (booting k sem L).links fun _ => [] := hrep
  have hstatus : TaskStruct.status ∘ Function.update k.task k.current
      (newTask (int32 (k.nextPid + 1)) [0x69, 0x6e, 0x69, 0x74] ((prioDefault : Fin 64) : Nat)
        validPriority_default (k.current + pageSize) .running) =
      Function.update k.status k.current .running := Function.comp_update ..
  have htask : ∀ t, (∃ proc, (t, proc) ∈ [(k.current, (0 : Word))]) ↔ t = k.current ∨ False := by
    intro t
    simp only [List.mem_singleton, Prod.mk.injEq, exists_and_left, exists_eq, and_true, or_false]
  rw [schedInitLists_eq h.nonnull hL]
  refine ⟨⟨?_, ?_, fun t ht => ?_, fun t ht => ?_, ⟨0, List.mem_singleton.mpr rfl⟩, ?_⟩, ?_, rfl, rfl, rfl⟩
  · have hall := (hheads.zeroNodes (t := k.current) fun _ => List.not_mem_nil).listAdd (q := .all)
      (t := k.current) fun _ _ => List.not_mem_nil
    refine hall.listAdd (q := .ready prioDefault) (t := k.current) fun r hr hmem => ?_
    obtain ⟨rfl, -⟩ | hmem := Queues.mem_pushFront.mp hmem
    · exact absurd (hr.mpr rfl) (ready_ne_all prioDefault)
    · exact absurd hmem List.not_mem_nil
  · have hempty : Ledger k.status (fun _ => False) fun _ => [] := ⟨nofun, nofun, nofun, nofun⟩
    have hadmits : (QueueId.ready prioDefault).admits .running := Or.inl rfl
    have hledger := (hempty.register (t := k.current) not_false).enqueue (Or.inl rfl)
      (ready_ne_all prioDefault) hadmits fun r u => Queues.mem_pushFront
    have hiff : (fun u => u = k.current ∨ False) = fun t => ∃ proc, (t, proc) ∈ [(k.current, (0 : Word))] :=
      funext fun t => propext (htask t).symm
    rw [hiff, ← hstatus] at hledger
    exact hledger
  · obtain rfl : t = k.current := ((htask t).mp ht).resolve_right not_false
    change validTask (Function.update k.task k.current _ k.current)
    rw [Function.update_self]
    rfl
  · obtain rfl : t = k.current := ((htask t).mp ht).resolve_right not_false
    exact h.nonnull
  · exact ⟨h.pool, fun t ht => ((htask t).mp ht).imp_right False.elim, h.current⟩
  · exact (congrFun hstatus k.current).trans (Function.update_self ..)

theorem schedInitLists_pid {k : Kernel} {sem : Word} (h : Boot k sem) :
    (schedInitLists k sem).nextPid = int32 (k.nextPid + 1) ∧
      ((schedInitLists k sem).task k.current).pid = int32 (k.nextPid + 1) := by
  obtain ⟨L, hL, -⟩ := heads_init h
  rw [schedInitLists_eq h.nonnull hL]
  refine ⟨rfl, ?_⟩
  show (Function.update k.task k.current _ k.current).pid = _
  rw [Function.update_self, newTask]

theorem schedInitLists_priority {k : Kernel} {sem : Word} (h : Boot k sem) :
    ((schedInitLists k sem).task k.current).priority = prioDefault := by
  obtain ⟨L, hL, -⟩ := heads_init h
  rw [schedInitLists_eq h.nonnull hL]
  show (Function.update k.task k.current _ k.current).priority = _
  rw [Function.update_self, newTask]
  rfl

end I386Kernel
