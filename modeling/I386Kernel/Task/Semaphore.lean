import I386Kernel.Task.SchedRuns

/-!
# Counting semaphores

Runs in which the section of `sema_down` under `slock` and the `schedule` that follows are separate steps, so that calls of different tasks interleave; a blocked `sema_down` returns when its task gets the CPU again. The state records beside the kernel what has been called and what has returned.

A hand-off raises `count` and wakes a waiter, and the waiter returns without lowering `count` again. The law that the returned calls number at most the initial count plus the calls of `sema_up` therefore holds as long as no `sema_down` passes on a count that is owed to a woken task.
-/

namespace I386Kernel

structure SemaSys where
  kernel : Kernel
  /-- The count each semaphore was initialised with. -/
  init : Word → Int
  /-- Calls of `sema_up`. -/
  ups : Word → Nat
  /-- Calls of `sema_down` that returned without waiting. -/
  fast : Word → Nat
  /-- Calls of `sema_down` that returned after waiting. -/
  slow : Word → Nat
  /-- Waiters that `sema_up` took off the wait list. -/
  handed : Word → Nat
  /-- The semaphore whose `sema_down` a task is waiting in. -/
  pending : Word → Option Word
  /-- The tasks whose `sema_down` has returned and that have not called `sema_up` since. -/
  between : Word → List Word

namespace SemaSys

variable (st : SemaSys)

def returned (s : Word) : Nat := st.fast s + st.slow s

/-- The current task is in none of the calls modelled here and may make one. -/
def CanCall : Prop :=
  st.kernel.status st.kernel.current = .running ∧ ¬ st.kernel.IsIdle st.kernel.current ∧
    st.pending st.kernel.current = none

instance (st : SemaSys) : Decidable st.CanCall := inferInstanceAs (Decidable (_ ∧ _))

/-- `sema_up` of `s` would take a waiter off the list. -/
def Wakes (s : Word) : Prop :=
  int32 (st.kernel.semaCount s + 1) > 0 ∧ listEmpty st.kernel.links (.head (.wait s)) = false

instance (st : SemaSys) (s : Word) : Decidable (st.Wakes s) := inferInstanceAs (Decidable (_ ∧ _))

def bump (f : Word → Nat) (s : Word) : Word → Nat := Function.update f s (f s + 1)

theorem bump_self (f : Word → Nat) (s : Word) : bump f s s = f s + 1 := Function.update_self ..

theorem bump_of_ne (f : Word → Nat) {s s' : Word} (h : s ≠ s') : bump f s' s = f s := Function.update_of_ne h _ _

/-- The task `t` waits in `sema_down` of `s`. -/
def waits (k : Kernel) (s t : Word) : SemaSys :=
  { st with kernel := k, pending := Function.update st.pending t (some s) }

def passes (k : Kernel) (s t : Word) : SemaSys :=
  { st with
    kernel := k
    fast := bump st.fast s
    between := Function.update st.between s (t :: st.between s) }

/-- The task `t` has the CPU again, which ends the `sema_down` it was waiting in. -/
def resumes (k : Kernel) (t : Word) : SemaSys :=
  match st.pending t with
  | none => { st with kernel := k }
  | some s =>
      { st with
        kernel := k
        slow := bump st.slow s
        pending := Function.update st.pending t none
        between := Function.update st.between s (t :: st.between s) }

def down (s : Word) : SemaSys :=
  let t := st.kernel.current
  let (wait, k) := semaDownSection st.kernel s
  if wait then st.waits k s t else st.passes k s t

def up (s : Word) : Option SemaSys :=
  (semaUp st.kernel s).map fun k =>
    { st with
      kernel := k
      ups := bump st.ups s
      handed := if st.Wakes s then bump st.handed s else st.handed
      between := Function.update st.between s ((st.between s).erase st.kernel.current) }

end SemaSys

/-- One step for each call of `SchedCall`, with `sema_down` and `task_exit` ending before their `schedule`. -/
def semaStep (st : SemaSys) : SchedCall → Option SemaSys
  | .taskCreate proc params name priority =>
      if st.CanCall ∧ validPriority priority then
        some { st with kernel := (taskCreate st.kernel proc params (some name) priority .ready).2 }
      else none
  | .semaDown s => if st.CanCall then some (st.down s) else none
  | .semaUp s => st.up s
  | .taskExit => if st.CanCall then some { st with kernel := taskExitSection st.kernel } else none
  | .schedule => (schedule st.kernel).map fun k => st.resumes k k.current

/-- The three tasks of `sched_init`, before the first of them waits; every semaphore has been initialised. -/
def semaStart (k : Kernel) : SemaSys where
  kernel := k
  init := k.semaCount
  ups := fun _ => 0
  fast := fun _ => 0
  slow := fun _ => 0
  handed := fun _ => 0
  pending := fun _ => none
  between := fun _ => []

def semaSystem : TransitionSystem SemaSys SchedCall :=
  .ofFn (fun st => ∃ k sem, Boot k sem ∧ st = semaStart (schedInitTasks k sem)) semaStep

/-! ## The invariant of every run -/

/-- `woken s` are the tasks that were handed `s` and have not run since. -/
structure SemaInv (st : SemaSys) (seq : Queues) (woken : Word → List Word) : Prop where
  sched : SchedInv st.kernel seq
  waiting : ∀ s t, t ∈ seq (.wait s) → st.pending t = some s
  woken_iff : ∀ s t, t ∈ woken s ↔ st.pending t = some s ∧ st.kernel.status t ≠ .blocked
  nodup : ∀ s, (woken s).Nodup
  task : ∀ s t, st.pending t = some s → st.kernel.IsTask t
  handed : ∀ s, st.handed s = st.slow s + (woken s).length
  low : ∀ s, 0 ≤ st.init s → -2 ^ 31 ≤ st.kernel.semaCount s
  count : ∀ s, 0 ≤ st.init s → st.kernel.semaCount s + st.fast s ≤ st.init s + st.ups s

namespace SemaInv

variable {st : SemaSys} {seq : Queues} {woken : Word → List Word}

theorem wakes_iff (h : SemaInv st seq woken) (s : Word) :
    st.Wakes s ↔ 0 < int32 (st.kernel.semaCount s + 1) ∧ seq (.wait s) ≠ [] := by
  refine and_congr Iff.rfl ?_
  rw [← Bool.not_eq_true, h.sched.links.listEmpty_iff]

/-- A task that is on a wait list has not been woken. -/
theorem notMem_woken (h : SemaInv st seq woken) {s s' t : Word} (ht : t ∈ seq (.wait s)) : t ∉ woken s' :=
  fun hmem => ((h.woken_iff s' t).mp hmem).2 (h.sched.ledger.admits _ t ht)

theorem semaStart_inv {k : Kernel} {sem : Word} (h : Boot k sem) :
    ∃ seq, SemaInv (semaStart (schedInitTasks k sem)) seq fun _ => [] := by
  obtain ⟨seq, hinv, -, -, hready⟩ := schedInitTasks_inv h
  generalize schedInitTasks k sem = k₀ at *
  have hempty : ∀ s t, t ∉ seq (.wait s) := by
    intro s t hmem
    have hblocked : k₀.status t = .blocked := hinv.ledger.admits _ t hmem
    obtain hst | hst := hready t (hinv.ledger.member _ t hmem)
    · exact absurd (hst.symm.trans hblocked) nofun
    · exact absurd (hst.symm.trans hblocked) nofun
  exact ⟨seq, hinv, fun s t hmem => absurd hmem (hempty s t), fun s t => ⟨nofun, nofun⟩,
    fun _ => List.nodup_nil, nofun, fun _ => rfl, fun s hs => by exact le_trans (by decide) hs,
    fun s _ => le_refl _⟩

/-- `schedule`: the next task runs, and the `sema_down` it waited in returns. -/
theorem schedule_step (h : SemaInv st seq woken) {next : Word}
    (hnext : (seq (.ready prioDefault)).head? = some next) :
    ∃ seq' woken', SemaInv (st.resumes (SchedInv.dispatched st.kernel next) next) seq' woken' := by
  have hinv := h.sched.dispatched_inv hnext
  have hmem : next ∈ seq (.ready prioDefault) := List.mem_of_head? hnext
  obtain ⟨hcreated, -, hcount, -⟩ := SchedInv.dispatched_frame st.kernel next
  have hstatus := SchedInv.status_dispatched st.kernel next
  have hnotblocked : st.kernel.status next ≠ .blocked := by
    obtain hst | hst := h.sched.ledger.admits _ next hmem <;> rw [hst] <;> decide
  have hblocked : ∀ t, (SchedInv.dispatched st.kernel next).status t ≠ .blocked ↔ st.kernel.status t ≠ .blocked := by
    intro t
    rw [hstatus, Function.update_apply]
    split
    · rename_i heq
      exact iff_of_true (by decide) (heq ▸ hnotblocked)
    · rfl
  have hwait : ∀ s t, t ∈ SchedInv.rotated st.kernel seq (.wait s) → t ∈ seq (.wait s) := by
    intro s t ht
    rw [SchedInv.rotated] at ht
    split at ht
    · obtain ⟨heq, -⟩ | ht := Queues.mem_pushBack.mp ht
      · cases heq
      · exact Queues.mem_of_mem_dequeue ht
    · exact ht
  have htask : ∀ s t, st.pending t = some s → (SchedInv.dispatched st.kernel next).IsTask t := by
    intro s t ht
    rw [Kernel.IsTask, hcreated]
    exact h.task s t ht
  have hlow : ∀ s, 0 ≤ st.init s → -2 ^ 31 ≤ (SchedInv.dispatched st.kernel next).semaCount s := by
    rw [hcount]
    exact h.low
  have hle : ∀ s, 0 ≤ st.init s →
      (SchedInv.dispatched st.kernel next).semaCount s + st.fast s ≤ st.init s + st.ups s := by
    rw [hcount]
    exact h.count
  cases hpend : st.pending next with
  | none =>
      rw [SemaSys.resumes, hpend]
      refine ⟨_, woken, hinv, fun s t ht => h.waiting s t (hwait s t ht), fun s t => ?_, h.nodup, htask, h.handed,
        hlow, hle⟩
      exact (h.woken_iff s t).trans (and_congr Iff.rfl (hblocked t).symm)
  | some s₀ =>
      rw [SemaSys.resumes, hpend]
      have hin : next ∈ woken s₀ := (h.woken_iff s₀ next).mpr ⟨hpend, hnotblocked⟩
      refine ⟨_, Function.update woken s₀ ((woken s₀).erase next), hinv, fun s t ht => ?_, fun s t => ?_,
        fun s => ?_, fun s t ht => ?_, fun s => ?_, hlow, hle⟩
      · have ht := hwait s t ht
        have hne : t ≠ next := by
          rintro rfl
          exact hnotblocked (h.sched.ledger.admits _ t ht)
        exact (Function.update_of_ne hne _ _).trans (h.waiting s t ht)
      · change _ ↔ Function.update st.pending next none t = some s ∧
          (SchedInv.dispatched st.kernel next).status t ≠ .blocked
        rw [hblocked t]
        by_cases hs : s = s₀
        · subst hs
          rw [Function.update_self, (h.nodup s).mem_erase_iff, h.woken_iff]
          by_cases ht : t = next
          · subst ht
            rw [Function.update_self]
            exact iff_of_false (fun hc => hc.1 rfl) fun hc => Option.some_ne_none _ hc.1.symm
          · rw [Function.update_of_ne ht]
            exact and_iff_right ht
        · rw [Function.update_of_ne hs, h.woken_iff]
          by_cases ht : t = next
          · subst ht
            rw [Function.update_self, hpend]
            exact iff_of_false (fun hc => hs (Option.some.inj hc.1).symm) fun hc => Option.some_ne_none _ hc.1.symm
          · rw [Function.update_of_ne ht]
      · rw [Function.update_apply]
        split
        · exact (h.nodup s₀).erase next
        · exact h.nodup s
      · change Function.update st.pending next none t = some s at ht
        rw [Function.update_apply] at ht
        split at ht
        · cases ht
        · exact htask s t ht
      · change st.handed s = SemaSys.bump st.slow s₀ s + _
        rw [SemaSys.bump]
        by_cases hs : s = s₀
        · subst hs
          have hlen := List.length_pos_of_mem hin
          have hhanded := h.handed s
          rw [Function.update_self, Function.update_self, List.length_erase_of_mem hin]
          omega
        · rw [Function.update_of_ne hs, Function.update_of_ne hs]
          exact h.handed s

theorem not_dying (hcall : st.CanCall) : st.kernel.status st.kernel.current ≠ .dying := by
  rw [hcall.1]
  nofun

/-- A task in no call is not among the woken. -/
theorem current_notMem (h : SemaInv st seq woken) (hcall : st.CanCall) (s : Word) :
    st.kernel.current ∉ woken s := by
  intro hmem
  have hpend := ((h.woken_iff s _).mp hmem).1
  rw [hcall.2.2] at hpend
  cases hpend

/-- When one task that is in no call changes status, the woken tasks stay the same. -/
theorem woken_iff_update (h : SemaInv st seq woken) {k : Kernel} {t : Word} {status : TaskStatus}
    (hpend : st.pending t = none) (hstatus : k.status = Function.update st.kernel.status t status) (s u : Word) :
    u ∈ woken s ↔ st.pending u = some s ∧ k.status u ≠ .blocked := by
  rw [h.woken_iff, hstatus]
  by_cases hu : u = t
  · subst hu
    rw [hpend]
    exact iff_of_false (fun hc => nomatch hc.1) fun hc => nomatch hc.1
  · rw [Function.update_of_ne hu]

theorem waits_step (h : SemaInv st seq woken) (hcall : st.CanCall) (s : Word) :
    SemaInv (st.waits (taskSuspend st.kernel st.kernel.current (.wait s)) s st.kernel.current)
      (SchedInv.suspended seq st.kernel.current s) woken := by
  have hinv := h.sched.taskSuspend s (not_dying hcall) hcall.2.1
  have hstatus : (taskSuspend st.kernel st.kernel.current (.wait s)).status =
      Function.update st.kernel.status st.kernel.current .blocked :=
    st.kernel.status_setStatus st.kernel.current .blocked
  refine ⟨hinv, fun s' t ht => ?_, fun s' t => ?_, h.nodup, fun s' t ht => ?_, h.handed, h.low, h.count⟩
  · change Function.update st.pending st.kernel.current (some s) t = some s'
    obtain ⟨hs, rfl⟩ | ht := Queues.mem_pushFront.mp ht
    · rw [Function.update_self, QueueId.wait.inj hs]
    · have hne : t ≠ st.kernel.current := fun heq =>
        h.sched.notMem_dequeue st.kernel.current (wait_ne_all s') (heq ▸ ht)
      rw [Function.update_of_ne hne]
      exact h.waiting s' t (Queues.mem_of_mem_dequeue ht)
  · change _ ↔ Function.update st.pending st.kernel.current (some s) t = some s' ∧
      (taskSuspend st.kernel st.kernel.current (.wait s)).status t ≠ .blocked
    by_cases ht : t = st.kernel.current
    · subst ht
      rw [hstatus, Function.update_self]
      exact iff_of_false (h.current_notMem hcall s') fun hc => hc.2 (Function.update_self ..)
    · rw [Function.update_of_ne ht]
      exact h.woken_iff_update hcall.2.2 hstatus s' t
  · change Function.update st.pending st.kernel.current (some s) t = some s' at ht
    rw [Function.update_apply] at ht
    split at ht
    · rename_i heq
      exact heq ▸ h.sched.current
    · exact h.task s' t ht

theorem passes_step (h : SemaInv st seq woken) {s : Word} (hpos : 0 < st.kernel.semaCount s) (t : Word) :
    SemaInv (st.passes (st.kernel.setCount s (st.kernel.semaCount s - 1)) s t) seq woken := by
  refine ⟨h.sched.setCount s _, h.waiting, h.woken_iff, h.nodup, h.task, h.handed, fun s' hs' => ?_,
    fun s' hs' => ?_⟩
  · change _ ≤ Function.update st.kernel.semaCount s _ s'
    rw [Function.update_apply]
    split
    · omega
    · exact h.low s' hs'
  · change Function.update st.kernel.semaCount s _ s' + (Function.update st.fast s _ s' : Nat) ≤
      st.init s' + st.ups s'
    have hcount := h.count s' hs'
    rw [Function.update_apply, Function.update_apply]
    split
    · rename_i heq
      subst heq
      push_cast
      omega
    · exact hcount

theorem down_step (h : SemaInv st seq woken) (hcall : st.CanCall) (s : Word) :
    ∃ seq', SemaInv (st.down s) seq' woken := by
  rw [SemaSys.down, semaDownSection]
  by_cases hcount : st.kernel.semaCount s ≤ 0
  · rw [if_pos hcount]
    exact ⟨_, h.waits_step hcall s⟩
  · rw [if_neg hcount]
    exact ⟨_, h.passes_step (Int.not_le.mp hcount) _⟩

theorem exit_step (h : SemaInv st seq woken) (hcall : st.CanCall) :
    SemaInv { st with kernel := taskExitSection st.kernel } (seq.dequeue st.kernel.current) woken := by
  refine ⟨h.sched.taskExitSection (not_dying hcall) hcall.2.1,
    fun s t ht => h.waiting s t (Queues.mem_of_mem_dequeue ht), ?_, h.nodup, h.task, h.handed, h.low, h.count⟩
  exact h.woken_iff_update hcall.2.2 (st.kernel.status_setStatus st.kernel.current .dying)

theorem create_step (h : SemaInv st seq woken) (proc params : Word) (name : List UInt8) {priority : Int}
    (hp : validPriority priority) : ∃ seq', SemaInv { st with
      kernel := (taskCreate st.kernel proc params (some name) priority .ready).2 } seq' woken := by
  have hready : TaskStatus.ready = .running ∨ TaskStatus.ready = .ready := Or.inr rfl
  obtain ⟨-, hinv, m, hk⟩ | ⟨tsk, m, -, hfresh, hk, hinv⟩ := h.sched.taskCreate proc params name hp hready
  · rw [hk] at hinv ⊢
    exact ⟨seq, hinv, h.waiting, h.woken_iff, h.nodup, h.task, h.handed, h.low, h.count⟩
  · rw [hk] at hinv ⊢
    have hpend : st.pending tsk = none := by
      cases hpend : st.pending tsk with
      | none => rfl
      | some s => exact absurd (h.task s tsk hpend) hfresh
    refine ⟨_, hinv, fun s t ht => ?_, ?_, h.nodup, fun s t ht => ?_, h.handed, h.low, h.count⟩
    · obtain ⟨heq, -⟩ | ht := Queues.mem_pushBack.mp ht
      · exact absurd heq nofun
      · obtain ⟨heq, -⟩ | ht := Queues.mem_pushFront.mp ht
        · exact absurd heq nofun
        · exact h.waiting s t ht
    · exact h.woken_iff_update hpend (TaskInv.status_withTask st.kernel m tsk proc params name hp .ready)
    · exact (TaskInv.isTask_withTask t).mpr (Or.inr (h.task s t ht))

private theorem up_counts (h : SemaInv st seq woken) (s : Word) :
    (∀ s', 0 ≤ st.init s' → -2 ^ 31 ≤
      Function.update st.kernel.semaCount s (int32 (st.kernel.semaCount s + 1)) s') ∧
    ∀ s', 0 ≤ st.init s' → Function.update st.kernel.semaCount s (int32 (st.kernel.semaCount s + 1)) s' +
      st.fast s' ≤ st.init s' + SemaSys.bump st.ups s s' := by
  refine ⟨fun s' hs' => ?_, fun s' hs' => ?_⟩
  · have hlow := h.low s' hs'
    rw [Function.update_apply]
    split
    · rename_i heq
      subst heq
      exact (int32_le (by omega)).1
    · exact hlow
  · have hcount := h.count s' hs'
    rw [SemaSys.bump, Function.update_apply, Function.update_apply]
    split
    · rename_i heq
      subst heq
      have hle := (int32_le (n := st.kernel.semaCount s' + 1) (by have := h.low s' hs'; omega)).2
      push_cast
      omega
    · exact hcount

theorem up_step (h : SemaInv st seq woken) {s : Word} {st' : SemaSys} (hstep : st.up s = some st') :
    ∃ seq' woken', SemaInv st' seq' woken' := by
  obtain ⟨hlow, hcount⟩ := h.up_counts s
  have hset := h.sched.setCount s (int32 (st.kernel.semaCount s + 1))
  by_cases hwakes : st.Wakes s
  · obtain ⟨hpos, hne⟩ := (h.wakes_iff s).mp hwakes
    obtain ⟨t, rest, hseq⟩ := List.exists_cons_of_ne_nil hne
    have hmem : t ∈ seq (.wait s) := hseq ▸ List.mem_cons_self ..
    have hpend := h.waiting s t hmem
    rw [SemaSys.up, h.sched.semaUp_eq_handOff hpos hseq, if_pos hwakes] at hstep
    cases hstep
    have hstatus := (st.kernel.setCount s (int32 (st.kernel.semaCount s + 1))).status_setStatus t .running
    refine ⟨_, Function.update woken s (t :: woken s), hset.handOff_inv hmem, fun s' u hu => ?_, fun s' u => ?_,
      fun s' => ?_, h.task, fun s' => ?_, hlow, hcount⟩
    · obtain ⟨heq, -⟩ | hu := Queues.mem_pushBack.mp hu
      · exact absurd heq nofun
      · exact h.waiting s' u (Queues.mem_of_mem_dequeue hu)
    · change _ ↔ st.pending u = some s' ∧ Kernel.status (Kernel.setStatus _ t .running) u ≠ .blocked
      rw [hstatus]
      by_cases hu : u = t
      · subst hu
        rw [Function.update_self, Function.update_apply, hpend]
        split
        · rename_i heq
          exact iff_of_true (List.mem_cons_self ..) ⟨congrArg some heq.symm, nofun⟩
        · rename_i hs
          exact iff_of_false (h.notMem_woken hmem) fun hc => hs (Option.some.inj hc.1).symm
      · rw [Function.update_of_ne hu, Function.update_apply]
        split
        · rename_i heq
          rw [List.mem_cons, or_iff_right hu, heq]
          exact h.woken_iff s u
        · exact h.woken_iff s' u
    · rw [Function.update_apply]
      split
      · exact List.nodup_cons.mpr ⟨h.notMem_woken hmem, h.nodup s⟩
      · exact h.nodup s'
    · change SemaSys.bump st.handed s s' = st.slow s' + _
      have hhanded := h.handed s'
      rw [SemaSys.bump, Function.update_apply, Function.update_apply]
      split
      · rename_i heq
        subst heq
        rw [List.length_cons]
        omega
      · exact hhanded
  · have hnone : int32 (st.kernel.semaCount s + 1) ≤ 0 ∨ seq (.wait s) = [] := by
      by_contra hc
      obtain ⟨hpos, hne⟩ := not_or.mp hc
      exact hwakes ((h.wakes_iff s).mpr ⟨Int.not_le.mp hpos, hne⟩)
    rw [SemaSys.up, h.sched.semaUp_eq_setCount hnone, if_neg hwakes] at hstep
    cases hstep
    exact ⟨seq, woken, hset, h.waiting, h.woken_iff, h.nodup, h.task, h.handed, hlow, hcount⟩

theorem step (h : SemaInv st seq woken) {call : SchedCall} {st' : SemaSys} (hstep : semaStep st call = some st') :
    ∃ seq' woken', SemaInv st' seq' woken' := by
  cases call with
  | taskCreate proc params name priority =>
      obtain ⟨⟨-, hp⟩, heq⟩ := Option.ite_none_right_eq_some.mp hstep
      obtain ⟨seq', hinv⟩ := h.create_step proc params name hp
      exact Option.some.inj heq ▸ ⟨seq', woken, hinv⟩
  | semaDown s =>
      obtain ⟨hcall, heq⟩ := Option.ite_none_right_eq_some.mp hstep
      obtain ⟨seq', hinv⟩ := h.down_step hcall s
      exact Option.some.inj heq ▸ ⟨seq', woken, hinv⟩
  | semaUp s => exact h.up_step hstep
  | taskExit =>
      obtain ⟨hcall, heq⟩ := Option.ite_none_right_eq_some.mp hstep
      exact Option.some.inj heq ▸ ⟨_, woken, h.exit_step hcall⟩
  | schedule =>
      obtain ⟨next, hnext⟩ := h.sched.exists_next
      rw [semaStep, h.sched.schedule_eq hnext] at hstep
      exact Option.some.inj hstep ▸ h.schedule_step hnext

end SemaInv

theorem semaInv_reachable {st : SemaSys} (h : semaSystem.Reachable st) : ∃ seq woken, SemaInv st seq woken := by
  refine semaSystem.invariant (P := fun st => ∃ seq woken, SemaInv st seq woken) (fun st hinit => ?_)
    (fun st call st' _ hP hstep => ?_) h
  · obtain ⟨k, sem, hboot, rfl⟩ := hinit
    obtain ⟨seq, hinv⟩ := SemaInv.semaStart_inv hboot
    exact ⟨seq, _, hinv⟩
  · obtain ⟨seq, woken, hinv⟩ := hP
    exact hinv.step hstep

/-! ## The counting law -/

/-- No `sema_down` of `s` passes on a count that is not larger than the number of tasks `s` was handed to. -/
def Covered (s : Word) (st : SemaSys) (call : SchedCall) : Prop :=
  call = .semaDown s → 0 < st.kernel.semaCount s → st.handed s < st.kernel.semaCount s

/-- A task calls `sema_up` of `s` only after its own `sema_down` has returned. -/
def Owned (s : Word) (st : SemaSys) (call : SchedCall) : Prop :=
  call = .semaUp s → st.kernel.current ∈ st.between s

instance (s : Word) (st : SemaSys) (call : SchedCall) : Decidable (Covered s st call) :=
  inferInstanceAs (Decidable (_ → _ → _))

instance (s : Word) (st : SemaSys) (call : SchedCall) : Decidable (Owned s st call) :=
  inferInstanceAs (Decidable (_ → _))

/-- The calls that returned at once and the hand-offs together stay within the budget. -/
def Budget (s : Word) (st : SemaSys) : Prop :=
  0 ≤ st.init s → (st.fast s : Int) + st.handed s ≤ st.init s + st.ups s

theorem budget_down {st : SemaSys} {seq : Queues} {woken : Word → List Word} (h : SemaInv st seq woken)
    {s s' : Word} (hcov : Covered s st (.semaDown s')) (hbudget : Budget s st) : Budget s (st.down s') := by
  rw [SemaSys.down, semaDownSection]
  by_cases hcount : st.kernel.semaCount s' ≤ 0
  · rw [if_pos hcount]
    exact hbudget
  · rw [if_neg hcount]
    intro hinit
    change ((SemaSys.bump st.fast s' s : Nat) : Int) + st.handed s ≤ st.init s + st.ups s
    by_cases hs : s = s'
    · subst hs
      have hlt := hcov rfl (Int.not_le.mp hcount)
      have hle := h.count s hinit
      rw [SemaSys.bump_self]
      push_cast
      omega
    · rw [SemaSys.bump_of_ne _ hs]
      exact hbudget hinit

theorem budget_up {st st' : SemaSys} {s s' : Word} (hstep : st.up s' = some st') (hbudget : Budget s st) :
    Budget s st' := by
  obtain ⟨k, -, rfl⟩ := Option.map_eq_some_iff.mp hstep
  intro hinit
  change (st.fast s : Int) + ((if st.Wakes s' then SemaSys.bump st.handed s' else st.handed) s : Nat) ≤
    st.init s + (SemaSys.bump st.ups s' s : Nat)
  have hle := hbudget hinit
  by_cases hs : s = s'
  · subst hs
    rw [SemaSys.bump_self]
    split
    · rw [SemaSys.bump_self]
      push_cast
      omega
    · push_cast
      omega
  · rw [SemaSys.bump_of_ne _ hs]
    split
    · rw [SemaSys.bump_of_ne _ hs]
      exact hle
    · exact hle

theorem budget_step {st st' : SemaSys} {seq : Queues} {woken : Word → List Word} (h : SemaInv st seq woken)
    {s : Word} {call : SchedCall} (hcov : Covered s st call) (hstep : semaStep st call = some st')
    (hbudget : Budget s st) : Budget s st' := by
  cases call with
  | taskCreate proc params name priority =>
      obtain ⟨-, heq⟩ := Option.ite_none_right_eq_some.mp hstep
      exact Option.some.inj heq ▸ hbudget
  | semaDown s' =>
      obtain ⟨-, heq⟩ := Option.ite_none_right_eq_some.mp hstep
      exact Option.some.inj heq ▸ budget_down h hcov hbudget
  | semaUp s' => exact budget_up hstep hbudget
  | taskExit =>
      obtain ⟨-, heq⟩ := Option.ite_none_right_eq_some.mp hstep
      exact Option.some.inj heq ▸ hbudget
  | schedule =>
      obtain ⟨k, -, rfl⟩ := Option.map_eq_some_iff.mp hstep
      rw [SemaSys.resumes]
      split
      · exact hbudget
      · exact hbudget

/-- The tasks between the two calls, counted. -/
def Balanced (s : Word) (st : SemaSys) : Prop := (st.between s).length + st.ups s = st.returned s

theorem balanced_step {st st' : SemaSys} {s : Word} {call : SchedCall} (hown : Owned s st call)
    (hstep : semaStep st call = some st') (hbal : Balanced s st) : Balanced s st' := by
  have hbal' : (st.between s).length + st.ups s = st.fast s + st.slow s := hbal
  cases call with
  | taskCreate proc params name priority =>
      obtain ⟨-, heq⟩ := Option.ite_none_right_eq_some.mp hstep
      exact Option.some.inj heq ▸ hbal
  | taskExit =>
      obtain ⟨-, heq⟩ := Option.ite_none_right_eq_some.mp hstep
      exact Option.some.inj heq ▸ hbal
  | semaDown s' =>
      obtain ⟨-, heq⟩ := Option.ite_none_right_eq_some.mp hstep
      rw [← Option.some.inj heq, SemaSys.down, semaDownSection]
      by_cases hcount : st.kernel.semaCount s' ≤ 0
      · rw [if_pos hcount]
        exact hbal
      · rw [if_neg hcount]
        change (Function.update st.between s' _ s).length + st.ups s = SemaSys.bump st.fast s' s + st.slow s
        rw [SemaSys.bump, Function.update_apply, Function.update_apply]
        split
        · rename_i hs
          subst hs
          rw [List.length_cons]
          omega
        · exact hbal
  | semaUp s' =>
      obtain ⟨k, -, rfl⟩ := Option.map_eq_some_iff.mp hstep
      change (Function.update st.between s' _ s).length + SemaSys.bump st.ups s' s = st.fast s + st.slow s
      rw [SemaSys.bump, Function.update_apply, Function.update_apply]
      split
      · rename_i hs
        subst hs
        have hmem := hown rfl
        have hpos := List.length_pos_of_mem hmem
        rw [List.length_erase_of_mem hmem]
        omega
      · exact hbal
  | schedule =>
      obtain ⟨k, -, rfl⟩ := Option.map_eq_some_iff.mp hstep
      rw [SemaSys.resumes]
      split
      · exact hbal
      · rename_i s' hpend
        change (Function.update st.between s' _ s).length + st.ups s = st.fast s + SemaSys.bump st.slow s' s
        rw [SemaSys.bump, Function.update_apply, Function.update_apply]
        split
        · rename_i hs
          subst hs
          rw [List.length_cons]
          omega
        · exact hbal

/-- In a run that keeps to `Covered`, no more calls of `sema_down` return than the initial count and the calls of `sema_up` allow. -/
theorem returned_le {s : Word} {ok : SemaSys → SchedCall → Prop} (hok : ∀ st call, ok st call → Covered s st call)
    {st : SemaSys} (h : (semaSystem.restrict ok).Reachable st) (hinit : 0 ≤ st.init s) :
    (st.returned s : Int) ≤ st.init s + st.ups s := by
  have hbudget : Budget s st := by
    refine (semaSystem.restrict ok).invariant (P := Budget s) (fun st hstart => ?_)
      (fun st call st' hr hP hstep => ?_) h
    · obtain ⟨k, sem, -, rfl⟩ := hstart
      intro hle
      exact le_trans (le_refl _) (by simpa [semaStart] using hle)
    · obtain ⟨seq, woken, hinv⟩ := semaInv_reachable (semaSystem.reachable_of_restrict hr)
      exact budget_step hinv (hok st call hstep.1) hstep.2 hP
  obtain ⟨seq, woken, hinv⟩ := semaInv_reachable (semaSystem.reachable_of_restrict h)
  have hle := hbudget hinit
  have hhanded := hinv.handed s
  rw [SemaSys.returned]
  push_cast
  omega

/-- For a semaphore that starts at one and is raised by its holder only, at most one task is between the two calls. -/
theorem between_le_one {s : Word} {st : SemaSys}
    (h : (semaSystem.restrict fun st call => Covered s st call ∧ Owned s st call).Reachable st)
    (hinit : st.init s = 1) : (st.between s).length ≤ 1 := by
  have hbal : Balanced s st := by
    refine (semaSystem.restrict fun st call => Covered s st call ∧ Owned s st call).invariant (P := Balanced s)
      (fun st hstart => ?_) (fun st call st' _ hP hstep => balanced_step hstep.1.2 hstep.2 hP) h
    obtain ⟨k, sem, -, rfl⟩ := hstart
    rfl
  have hle := returned_le (fun _ _ hok => hok.1) h (by rw [hinit]; decide)
  have hbal' : (st.between s).length + st.ups s = st.returned s := hbal
  rw [hinit] at hle
  omega

/-- Both laws, in every run in which `sema_down` passes only on counts larger than the number of hand-offs so far. -/
theorem semaphore_counting (s : Word) :
    (∀ st, (semaSystem.restrict (Covered s)).Reachable st → 0 ≤ st.init s →
      (st.returned s : Int) ≤ st.init s + st.ups s) ∧
    ∀ st, (semaSystem.restrict fun st call => Covered s st call ∧ Owned s st call).Reachable st →
      st.init s = 1 → (st.between s).length ≤ 1 :=
  ⟨fun _ h hinit => returned_le (fun _ _ hok => hok) h hinit, fun _ h hinit => between_le_one h hinit⟩

/-! ## Three tasks and a mutex

On the small machine the boot task takes the mutex, a second task waits for it, and the boot task gives it up. In the good run the second task gets the CPU; in the other a third task calls `sema_down` first. -/

private def contendedCalls : List SchedCall :=
  [.taskCreate 0xc0105000 7 [0x61] 31, .taskCreate 0xc0105000 8 [0x62] 31, .semaDown 0xc0180010] ++
    List.replicate 6 .schedule ++ [.semaDown 0xc0180010] ++ List.replicate 3 .schedule ++
    [.semaUp 0xc0180010] ++ List.replicate 6 .schedule

private theorem start_smallMachine : ∃ st₀, st₀ = semaStart (schedInitTasks smallMachine 0xc0110f00) ∧
    ∀ ok, (semaSystem.restrict ok).Reachable st₀ := by
  have hboot : Boot smallMachine 0xc0110f00 := boot_smallMachine _ (by unfold IdleTasksCreated; decide +kernel)
  exact ⟨_, rfl, fun ok => .init ⟨_, _, hboot, rfl⟩⟩

theorem not_semaphore_counting : ∃ st, (semaSystem.restrict (Owned 0xc0180010)).Reachable st ∧
    st.init 0xc0180010 = 1 ∧ st.init 0xc0180010 + st.ups 0xc0180010 < st.returned 0xc0180010 ∧
    (st.between 0xc0180010).length = 2 := by
  obtain ⟨st₀, hst₀, hreach⟩ := start_smallMachine
  have hview : (TransitionSystem.exec
      (fun st call => if Owned 0xc0180010 st call then semaStep st call else none)
      (semaStart (schedInitTasks smallMachine 0xc0110f00))
      (contendedCalls ++ [.semaDown 0xc0180010, .schedule, .schedule])).map
        (fun st => (st.init 0xc0180010, st.ups 0xc0180010, st.returned 0xc0180010,
          (st.between 0xc0180010).length)) = some (1, 1, 3, 2) := by decide +kernel
  obtain ⟨st, hexec, hview⟩ := Option.map_eq_some_iff.mp hview
  rw [Prod.mk.injEq, Prod.mk.injEq, Prod.mk.injEq] at hview
  obtain ⟨hinit, hups, hret, hlen⟩ := hview
  rw [← hst₀] at hexec
  refine ⟨st, TransitionSystem.reachable_restrict_exec _ _ (hreach _) hexec, hinit, ?_, hlen⟩
  rw [hinit, hups, hret]
  decide

theorem semaphore_counting_smallMachine : ∃ st,
    (semaSystem.restrict fun st call => Covered 0xc0180010 st call ∧ Owned 0xc0180010 st call).Reachable st ∧
    st.returned 0xc0180010 = 2 ∧ (st.returned 0xc0180010 : Int) ≤ st.init 0xc0180010 + st.ups 0xc0180010 ∧
    (st.between 0xc0180010).length ≤ 1 := by
  obtain ⟨st₀, hst₀, hreach⟩ := start_smallMachine
  have hview : (TransitionSystem.exec
      (fun st call => if Covered 0xc0180010 st call ∧ Owned 0xc0180010 st call then semaStep st call else none)
      (semaStart (schedInitTasks smallMachine 0xc0110f00)) (contendedCalls ++ [.schedule, .schedule])).map
        (fun st => (st.init 0xc0180010, st.returned 0xc0180010)) = some (1, 2) := by decide +kernel
  obtain ⟨st, hexec, hview⟩ := Option.map_eq_some_iff.mp hview
  rw [Prod.mk.injEq] at hview
  obtain ⟨hinit, hret⟩ := hview
  rw [← hst₀] at hexec
  have hboth := TransitionSystem.reachable_restrict_exec
    (fun st call => Covered 0xc0180010 st call ∧ Owned 0xc0180010 st call) _ (hreach _) hexec
  have hcovered := semaSystem.restrict_mono (fun _ _ hok => hok.1) hboth
  have hlaw := (semaphore_counting 0xc0180010).1 st hcovered (by rw [hinit]; decide)
  exact ⟨st, hboth, hret, hlaw, (semaphore_counting 0xc0180010).2 st hboth hinit⟩

end I386Kernel
