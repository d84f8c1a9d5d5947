import I386Kernel.Task.Semaphore
import Mathlib.Data.Set.Card

/-!
# The order of the waiters

`task_suspend` puts a waiter at the head of the wait list and `sema_up` takes the first one off it, so the wait list is a stack: the task that blocked last is woken first. The runs are those of `semaSystem`, with a clock that ticks at each step and a record of when each task last called `sema_down`.
-/

namespace I386Kernel

structure WaitSys where
  sema : SemaSys
  now : Nat
  since : Word → Nat

/-- The task `t` is blocked in `sema_down` of `s`. -/
def Waiting (x : WaitSys) (s t : Word) : Prop := x.sema.pending t = some s ∧ x.sema.kernel.status t = .blocked

instance (x : WaitSys) (s t : Word) : Decidable (Waiting x s t) := inferInstanceAs (Decidable (_ ∧ _))

def noteSince (x : WaitSys) : SchedCall → Word → Nat
  | .semaDown _ => Function.update x.since x.sema.kernel.current x.now
  | _ => x.since

def waitStep (x : WaitSys) (call : SchedCall) : Option WaitSys :=
  (semaStep x.sema call).map fun st => ⟨st, x.now + 1, noteSince x call⟩

def waitSystem : TransitionSystem WaitSys SchedCall :=
  .ofFn (fun x => semaSystem.init x.sema ∧ x.now = 0) waitStep

/-- No task stops waiting for `s` while one that blocked before it still waits. -/
def InOrder (s : Word) (x x' : WaitSys) : Prop :=
  ∀ a b, Waiting x s a → Waiting x s b → x.since a < x.since b → Waiting x' s a → Waiting x' s b

/-- The call wakes a waiter of `s` although there are two. -/
def Overtakes (s : Word) (x : WaitSys) (call : SchedCall) : Prop :=
  call = .semaUp s ∧ x.sema.Wakes s ∧ ∃ a b, a ≠ b ∧ Waiting x s a ∧ Waiting x s b

/-- A `sema_up` of `s` finds at most one waiter, and with one a count that is not negative and does not wrap. -/
def Single (s : Word) (x : WaitSys) (call : SchedCall) : Prop :=
  call = .semaUp s → (∀ a b, Waiting x s a → Waiting x s b → a = b) ∧
    ((∃ a, Waiting x s a) → 0 ≤ x.sema.kernel.semaCount s ∧ x.sema.kernel.semaCount s < 2 ^ 31 - 1)

/-! ## What a step does to a wait list -/

/-- The wait list of `s` after a call, when it was `ws` before. -/
inductive WaitMove (st : SemaSys) (s : Word) : SchedCall → List Word → List Word → Prop
  | block {ws : List Word} : WaitMove st s (.semaDown s) ws (st.kernel.current :: ws)
  | wake {t : Word} {ws : List Word} : st.Wakes s → WaitMove st s (.semaUp s) (t :: ws) ws
  | stay {call : SchedCall} {ws : List Word} : (call = .semaUp s → ¬ st.Wakes s) → WaitMove st s call ws ws

namespace SemaInv

variable {st : SemaSys} {seq : Queues} {woken : Word → List Word}

theorem mem_wait_iff (h : SemaInv st seq woken) (s t : Word) :
    t ∈ seq (.wait s) ↔ st.pending t = some s ∧ st.kernel.status t = .blocked := by
  constructor
  · intro ht
    exact ⟨h.waiting s t ht, h.sched.ledger.admits _ t ht⟩
  · rintro ⟨hpend, hblocked⟩
    obtain ⟨q, hq, hmem⟩ := h.sched.queued (h.task s t hpend) (by rw [hblocked]; decide)
    cases q with
    | all => exact absurd rfl hq
    | ready p =>
        have hadmits : st.kernel.status t = .running ∨ st.kernel.status t = .ready := h.sched.ledger.admits _ t hmem
        rw [hblocked] at hadmits
        exact absurd hadmits (by decide)
    | wait s' =>
        have hpend' := h.waiting s' t hmem
        rw [hpend] at hpend'
        rwa [Option.some.inj hpend']

/-- A task that is running is on no wait list. -/
theorem notMem_wait_of_running (h : SemaInv st seq woken) {t : Word} (hrun : st.kernel.status t = .running) (s : Word) :
    t ∉ seq (.wait s) := by
  intro hmem
  have hblocked := ((h.mem_wait_iff s t).mp hmem).2
  rw [hrun] at hblocked
  cases hblocked

theorem dequeue_wait {t : Word} {s : Word} (ht : t ∉ seq (.wait s)) : seq.dequeue t (.wait s) = seq (.wait s) := by
  rw [Queues.dequeue_of_ne (wait_ne_all s)]
  exact List.erase_of_not_mem ht

theorem pushBack_ready (seq : Queues) (p : Fin 64) (t s : Word) : seq.pushBack (.ready p) t (.wait s) = seq (.wait s) :=
  Function.update_of_ne (by intro h; cases h) ..

theorem rotated_wait (h : SemaInv st seq woken) (s : Word) :
    SchedInv.rotated st.kernel seq (.wait s) = seq (.wait s) := by
  rw [SchedInv.rotated]
  by_cases hrun : st.kernel.status st.kernel.current = .running
  · rw [if_pos hrun, pushBack_ready, dequeue_wait (h.notMem_wait_of_running hrun s)]
  · rw [if_neg hrun]

theorem entered_wait (seq : Queues) (t : Word) (p : Fin 64) (s : Word) :
    entered seq t p (.wait s) = seq (.wait s) := by
  rw [entered, pushBack_ready]
  exact Function.update_of_ne (by intro h; cases h) ..

theorem kernel_resumes (st : SemaSys) (k : Kernel) (t : Word) : (st.resumes k t).kernel = k := by
  rw [SemaSys.resumes]
  split <;> rfl

theorem down_move (h : SemaInv st seq woken) (hcall : st.CanCall) (s' s : Word) {seq' : Queues}
    (hseq' : Represents (st.down s').kernel.links seq') :
    WaitMove st s (.semaDown s') (seq (.wait s)) (seq' (.wait s)) := by
  rw [SemaSys.down, semaDownSection] at hseq'
  by_cases hcount : st.kernel.semaCount s' ≤ 0
  · rw [if_pos hcount] at hseq'
    have hinv := h.sched.taskSuspend s' (not_dying hcall) hcall.2.1
    rw [hseq'.seq_unique hinv.links, SchedInv.suspended, Queues.pushFront]
    have hmem := h.notMem_wait_of_running hcall.1
    by_cases hs : s = s'
    · subst hs
      rw [Function.update_self, dequeue_wait (hmem s)]
      exact .block
    · have hne : QueueId.wait s ≠ .wait s' := fun heq => hs (QueueId.wait.inj heq)
      rw [Function.update_of_ne hne, dequeue_wait (hmem s)]
      exact .stay fun heq => by cases heq
  · rw [if_neg hcount] at hseq'
    rw [hseq'.seq_unique (h.sched.setCount s' (st.kernel.semaCount s' - 1)).links]
    exact .stay fun heq => by cases heq

theorem up_move (h : SemaInv st seq woken) {s' : Word} (s : Word) {st' : SemaSys} (hstep : st.up s' = some st')
    {seq' : Queues} (hseq' : Represents st'.kernel.links seq') :
    WaitMove st s (.semaUp s') (seq (.wait s)) (seq' (.wait s)) := by
  have hset := h.sched.setCount s' (int32 (st.kernel.semaCount s' + 1))
  by_cases hwakes : st.Wakes s'
  · obtain ⟨hpos, hne⟩ := (h.wakes_iff s').mp hwakes
    obtain ⟨t, rest, hseq⟩ := List.exists_cons_of_ne_nil hne
    have hmem : t ∈ seq (.wait s') := hseq ▸ List.mem_cons_self ..
    rw [SemaSys.up, h.sched.semaUp_eq_handOff hpos hseq] at hstep
    cases hstep
    rw [hseq'.seq_unique (hset.handOff_inv hmem).links, SchedInv.woken, pushBack_ready]
    by_cases hs : s = s'
    · subst hs
      rw [Queues.dequeue_of_ne (wait_ne_all s), hseq, List.erase_cons_head]
      exact .wake hwakes
    · have hnot : t ∉ seq (.wait s) := by
        intro ht
        exact hs (QueueId.wait.inj (h.sched.links.queue_unique (wait_ne_all s) (wait_ne_all s') ht hmem))
      rw [dequeue_wait hnot]
      exact .stay fun heq => absurd (SchedCall.semaUp.inj heq).symm hs
  · have hnone : int32 (st.kernel.semaCount s' + 1) ≤ 0 ∨ seq (.wait s') = [] := by
      by_contra hc
      obtain ⟨hpos, hne⟩ := not_or.mp hc
      exact hwakes ((h.wakes_iff s').mpr ⟨Int.not_le.mp hpos, hne⟩)
    rw [SemaSys.up, h.sched.semaUp_eq_setCount hnone] at hstep
    cases hstep
    rw [hseq'.seq_unique hset.links]
    exact .stay fun heq => SchedCall.semaUp.inj heq ▸ hwakes

/-- Every call blocks the current task, wakes the first waiter or leaves the wait list alone. -/
theorem waitMove (h : SemaInv st seq woken) {call : SchedCall} {st' : SemaSys} (hstep : semaStep st call = some st')
    {seq' : Queues} (hseq' : Represents st'.kernel.links seq') (s : Word) :
    WaitMove st s call (seq (.wait s)) (seq' (.wait s)) := by
  cases call with
  | taskCreate proc params name priority =>
      obtain ⟨⟨-, hp⟩, heq⟩ := Option.ite_none_right_eq_some.mp hstep
      rw [← Option.some.inj heq] at hseq'
      have hstay : seq' (.wait s) = seq (.wait s) := by
        obtain ⟨-, hinv, -⟩ | ⟨tsk, m, -, -, -, hinv⟩ := h.sched.taskCreate proc params name hp (Or.inr rfl)
        · rw [hseq'.seq_unique hinv.links]
        · rw [hseq'.seq_unique hinv.links, entered_wait]
      rw [hstay]
      exact .stay fun heq => by cases heq
  | semaDown s' =>
      obtain ⟨hcall, heq⟩ := Option.ite_none_right_eq_some.mp hstep
      rw [← Option.some.inj heq] at hseq'
      exact h.down_move hcall s' s hseq'
  | semaUp s' => exact h.up_move s hstep hseq'
  | taskExit =>
      obtain ⟨hcall, heq⟩ := Option.ite_none_right_eq_some.mp hstep
      rw [← Option.some.inj heq] at hseq'
      have hinv := h.sched.taskExitSection (not_dying hcall) hcall.2.1
      rw [hseq'.seq_unique hinv.links, dequeue_wait (h.notMem_wait_of_running hcall.1 s)]
      exact .stay fun heq => by cases heq
  | schedule =>
      obtain ⟨next, hnext⟩ := h.sched.exists_next
      rw [semaStep, h.sched.schedule_eq hnext] at hstep
      rw [← Option.some.inj hstep, kernel_resumes] at hseq'
      rw [hseq'.seq_unique (h.sched.dispatched_inv hnext).links, h.rotated_wait]
      exact .stay fun heq => by cases heq

end SemaInv

/-! ## The wait lists by the time of blocking -/

/-- Every wait list holds the tasks that wait, the latest first. -/
structure WaitInv (x : WaitSys) (seq : Queues) : Prop where
  links : Represents x.sema.kernel.links seq
  mem : ∀ s t, t ∈ seq (.wait s) ↔ Waiting x s t
  order : ∀ s, (seq (.wait s)).Pairwise fun a b => x.since b < x.since a
  past : ∀ s, ∀ t ∈ seq (.wait s), x.since t < x.now

namespace WaitInv

variable {x x' : WaitSys} {seq seq' : Queues}

/-- What a step leaves of the record. -/
theorem since_step {call : SchedCall} (hstep : waitStep x call = some x') (t : Word) :
    x'.now = x.now + 1 ∧ (x'.since t = x.since t ∨ x'.since t = x.now) := by
  obtain ⟨st, -, rfl⟩ := Option.map_eq_some_iff.mp hstep
  refine ⟨rfl, ?_⟩
  show noteSince x call t = _ ∨ noteSince x call t = _
  cases call with
  | semaDown s =>
      rw [noteSince, Function.update_apply]
      split
      · exact Or.inr rfl
      · exact Or.inl rfl
  | _ => exact Or.inl rfl

/-- A blocked task makes no call. -/
theorem since_waiting {s t : Word} (ht : Waiting x s t) {call : SchedCall} (hstep : waitStep x call = some x') :
    x'.since t = x.since t := by
  obtain ⟨st, hsema, rfl⟩ := Option.map_eq_some_iff.mp hstep
  show noteSince x call t = x.since t
  cases call with
  | semaDown s' =>
      obtain ⟨hcall, -⟩ := Option.ite_none_right_eq_some.mp hsema
      have hne : t ≠ x.sema.kernel.current := by
        intro heq
        have hblocked := ht.2
        rw [heq, hcall.1] at hblocked
        cases hblocked
      exact Function.update_of_ne hne ..
  | _ => rfl

theorem step (h : WaitInv x seq) {woken : Word → List Word} (hsema : SemaInv x.sema seq woken) {call : SchedCall}
    (hstep : waitStep x call = some x') {woken' : Word → List Word} (hsema' : SemaInv x'.sema seq' woken') :
    WaitInv x' seq' := by
  obtain ⟨st, hst, hx'⟩ := Option.map_eq_some_iff.mp hstep
  have hlinks : Represents st.kernel.links seq' := by
    rw [← hx'] at hsema'
    exact hsema'.sched.links
  have hsince (s t : Word) (ht : t ∈ seq (.wait s)) : x'.since t = x.since t := since_waiting ((h.mem s t).mp ht) hstep
  have hnow := (since_step hstep x.sema.kernel.current).1
  have hboth (s : Word) : (seq' (.wait s)).Pairwise (fun a b => x'.since b < x'.since a) ∧
      ∀ t ∈ seq' (.wait s), x'.since t < x'.now := by
    have hold : (seq (.wait s)).Pairwise fun a b => x'.since b < x'.since a := by
      refine (h.order s).imp_of_mem fun ha hb hlt => ?_
      rw [hsince s _ ha, hsince s _ hb]
      exact hlt
    have hpast : ∀ t ∈ seq (.wait s), x'.since t < x'.now := by
      intro t ht
      have hlt := h.past s t ht
      rw [hsince s t ht]
      omega
    have hmove := hsema.waitMove hst hlinks s
    cases hmove' : seq' (.wait s) with
    | nil => exact ⟨.nil, List.forall_mem_nil _⟩
    | cons u ws =>
        rw [hmove'] at hmove
        generalize hws : seq (.wait s) = before at hmove
        rw [hws] at hold hpast
        cases hmove with
        | block =>
            have hnew : x'.since x.sema.kernel.current = x.now := by
              rw [← hx']
              exact Function.update_self ..
            refine ⟨List.pairwise_cons.mpr ⟨fun t ht => ?_, hold⟩, List.forall_mem_cons.mpr ⟨?_, hpast⟩⟩
            · have hmem : t ∈ seq (.wait s) := hws ▸ ht
              rw [hnew, hsince s t hmem]
              exact h.past s t hmem
            · rw [hnew, hnow]
              exact Nat.lt_succ_self _
        | wake _ => exact ⟨(List.pairwise_cons.mp hold).2, fun t ht => hpast t (List.mem_cons_of_mem _ ht)⟩
        | stay _ => exact ⟨hold, hpast⟩
  exact ⟨hsema'.sched.links, fun s t => hsema'.mem_wait_iff s t, fun s => (hboth s).1, fun s => (hboth s).2⟩

end WaitInv

theorem semaSystem_reachable {x : WaitSys} (h : waitSystem.Reachable x) : semaSystem.Reachable x.sema := by
  refine waitSystem.invariant (P := fun x => semaSystem.Reachable x.sema) (fun x hinit => .init hinit.1)
    (fun x call x' _ hx hstep => ?_) h
  obtain ⟨st, hst, rfl⟩ := Option.map_eq_some_iff.mp hstep
  exact .step hx hst

theorem waitInv_reachable {x : WaitSys} (h : waitSystem.Reachable x) :
    ∃ seq woken, SemaInv x.sema seq woken ∧ WaitInv x seq := by
  induction h with
  | init hinit =>
      obtain ⟨⟨k, sem, hboot, heq⟩, -⟩ := hinit
      obtain ⟨seq, hsema⟩ := SemaInv.semaStart_inv hboot
      rw [← heq] at hsema
      have hnone : ∀ s t, t ∉ seq (.wait s) := by
        intro s t ht
        have hpend := ((hsema.mem_wait_iff s t).mp ht).1
        rw [heq] at hpend
        cases hpend
      have hnil (s : Word) : seq (.wait s) = [] := List.eq_nil_iff_forall_not_mem.mpr (hnone s)
      refine ⟨seq, _, hsema, hsema.sched.links, hsema.mem_wait_iff, fun s => ?_, fun s t ht => absurd ht (hnone s t)⟩
      rw [hnil s]
      exact .nil
  | @step x x' call hr hstep ih =>
      obtain ⟨seq, woken, hsema, hwait⟩ := ih
      obtain ⟨st, hst, hx'⟩ := Option.map_eq_some_iff.mp hstep
      obtain ⟨seq', woken', hsema'⟩ := hsema.step hst
      have hsema'' : SemaInv x'.sema seq' woken' := by
        rw [← hx']
        exact hsema'
      exact ⟨seq', woken', hsema'', hwait.step hsema hstep hsema''⟩

/-! ## The order of waking -/

/-- What a step does to the wait list of `s`, which names the tasks that wait. -/
theorem exists_waitMove {x x' : WaitSys} (h : waitSystem.Reachable x) {call : SchedCall} (hstep : waitStep x call = some x')
    (s : Word) : ∃ ws ws', WaitMove x.sema s call ws ws' ∧ (∀ t, t ∈ ws ↔ Waiting x s t) ∧
      (∀ t, t ∈ ws' ↔ Waiting x' s t) ∧ ws.Pairwise fun a b => x.since b < x.since a := by
  obtain ⟨seq, woken, hsema, hwait⟩ := waitInv_reachable h
  obtain ⟨seq', woken', hsema', hwait'⟩ := waitInv_reachable (.step h hstep)
  obtain ⟨st, hst, hx'⟩ := Option.map_eq_some_iff.mp hstep
  have hlinks : Represents st.kernel.links seq' := by
    rw [← hx'] at hwait'
    exact hwait'.links
  exact ⟨_, _, hsema.waitMove hst hlinks s, hwait.mem s, hwait'.mem s, hwait.order s⟩

/-- A step keeps the order of `s` unless it wakes one of two waiters. -/
theorem inOrder_iff {x x' : WaitSys} (h : waitSystem.Reachable x) {call : SchedCall} (hstep : waitStep x call = some x')
    (s : Word) : InOrder s x x' ↔ ¬ Overtakes s x call := by
  obtain ⟨ws, ws', hmove, hmem, hmem', horder⟩ := exists_waitMove h hstep s
  cases hmove with
  | block =>
      refine iff_of_true (fun a b _ hb _ _ => ?_) fun hover => ?_
      · exact (hmem' b).mp (List.mem_cons_of_mem _ ((hmem b).mpr hb))
      · cases hover.1
  | stay hnot =>
      refine iff_of_true (fun a b _ hb _ _ => ?_) fun hover => hnot hover.1 hover.2.1
      exact (hmem' b).mp ((hmem b).mpr hb)
  | @wake t _ hwakes =>
      have hwaiting (u : Word) : Waiting x s u ↔ u = t ∨ u ∈ ws' := (hmem u).symm.trans List.mem_cons
      have hlatest := (List.pairwise_cons.mp horder).1
      have hnot : ¬ Waiting x' s t := fun ht => Nat.lt_irrefl _ (hlatest t ((hmem' t).mpr ht))
      cases hws : ws' with
      | nil =>
          have hone (u : Word) (hu : Waiting x s u) : u = t := by
            obtain rfl | hu := (hwaiting u).mp hu
            · rfl
            · rw [hws] at hu
              cases hu
          refine iff_of_true (fun a b ha hb hlt _ => ?_) ?_
          · rw [hone a ha, hone b hb] at hlt
            exact absurd hlt (Nat.lt_irrefl _)
          · rintro ⟨-, -, a, b, hne, ha, hb⟩
            exact hne ((hone a ha).trans (hone b hb).symm)
      | cons u rest =>
          have hu : u ∈ ws' := hws ▸ List.mem_cons_self
          have hlt := hlatest u hu
          have hne : u ≠ t := by
            rintro rfl
            exact Nat.lt_irrefl _ hlt
          have htwo : Waiting x s u ∧ Waiting x s t := ⟨(hwaiting u).mpr (Or.inr hu), (hwaiting t).mpr (Or.inl rfl)⟩
          refine iff_of_false (fun hin => ?_) (not_not_intro ⟨rfl, hwakes, u, t, hne, htwo.1, htwo.2⟩)
          exact hnot (hin u t htwo.1 htwo.2 hlt ((hmem' u).mp hu))

/-! ## The next `sema_up` -/

theorem Single.not_overtakes {s : Word} {x : WaitSys} {call : SchedCall} (h : Single s x call) : ¬ Overtakes s x call := by
  rintro ⟨hcall, -, a, b, hne, ha, hb⟩
  exact hne ((h hcall).1 a b ha hb)

section Run

variable {x x' y : WaitSys} {s t : Word}

/-- A task that begins to wait is recorded with the time of the step. -/
theorem since_of_begins (h : waitSystem.Reachable x) {call : SchedCall} (hstep : waitStep x call = some x')
    (hnot : ¬ Waiting x s t) (ht : Waiting x' s t) : x'.since t = x.now := by
  obtain ⟨ws, ws', hmove, hmem, hmem', -⟩ := exists_waitMove h hstep s
  obtain ⟨st, -, rfl⟩ := Option.map_eq_some_iff.mp hstep
  have hin := (hmem' t).mpr ht
  have hout : t ∉ ws := fun hws => hnot ((hmem t).mp hws)
  cases hmove with
  | block =>
      obtain rfl := (List.mem_cons.mp hin).resolve_right hout
      exact Function.update_self ..
  | wake _ => exact absurd (List.mem_cons_of_mem _ hin) hout
  | stay _ => exact absurd hin hout

theorem since_run {calls : List SchedCall} (hrun : waitSystem.Run x calls y) (t : Word) :
    y.since t = x.since t ∨ x.now ≤ y.since t := by
  induction hrun with
  | nil x => exact Or.inl rfl
  | @cons x x' y call calls hstep _ ih =>
      obtain ⟨hnow, heq | heq⟩ := WaitInv.since_step hstep t
      · obtain ih | ih := ih
        · exact Or.inl (ih.trans heq)
        · exact Or.inr (by omega)
      · exact Or.inr (by omega)

/-- A task that does not wait is recorded anew before it waits. -/
theorem since_of_not_waiting (h : waitSystem.Reachable x) {calls : List SchedCall} (hrun : waitSystem.Run x calls y)
    (hnot : ¬ Waiting x s t) (ht : Waiting y s t) : x.now ≤ y.since t := by
  induction hrun with
  | nil x => exact absurd ht hnot
  | @cons x x' y call calls hstep hrest ih =>
      have hnow := (WaitInv.since_step hstep t).1
      by_cases hwaits : Waiting x' s t
      · have hbegin := since_of_begins h hstep hnot hwaits
        have hsince := since_run hrest t
        omega
      · have hle := ih (.step h hstep) hwaits ht
        omega

/-- The only waiter is woken by a `sema_up`. -/
theorem Single.wakes (h : waitSystem.Reachable x) (hsingle : Single s x (.semaUp s)) (ht : Waiting x s t)
    (hstep : waitStep x (.semaUp s) = some x') : ¬ Waiting x' s t := by
  obtain ⟨hone, hcount⟩ := hsingle rfl
  obtain ⟨hlow, hhigh⟩ := hcount ⟨t, ht⟩
  obtain ⟨seq, woken, hsema, hwait⟩ := waitInv_reachable h
  have hwakes : x.sema.Wakes s := by
    refine (hsema.wakes_iff s).mpr ⟨?_, List.ne_nil_of_mem ((hwait.mem s t).mpr ht)⟩
    rw [int32]
    omega
  obtain ⟨ws, ws', hmove, hmem, hmem', horder⟩ := exists_waitMove h hstep s
  have hin := (hmem t).mpr ht
  cases hmove with
  | stay hnot => exact absurd hwakes (hnot rfl)
  | @wake u _ _ =>
      intro hstill
      have hlt := (List.pairwise_cons.mp horder).1 t ((hmem' t).mpr hstill)
      rw [hone u t ((hmem u).mp List.mem_cons_self) ht] at hlt
      exact Nat.lt_irrefl _ hlt

/-- While a task waits there is no `sema_up`. -/
theorem not_mem_calls {calls : List SchedCall} (h : waitSystem.Reachable x)
    (hrun : (waitSystem.restrict (Single s)).Run x calls y) (ht : Waiting x s t) (ht' : Waiting y s t)
    (hsince : y.since t = x.since t) : SchedCall.semaUp s ∉ calls := by
  induction hrun with
  | nil x => exact List.not_mem_nil
  | @cons x x' y call calls hstep hrest ih =>
      obtain ⟨hsingle, hstep⟩ := hstep
      have hnow := (WaitInv.since_step hstep t).1
      have hpast : x.since t < x.now := by
        obtain ⟨seq, woken, -, hwait⟩ := waitInv_reachable h
        exact hwait.past s t ((hwait.mem s t).mpr ht)
      have hstill : Waiting x' s t := by
        by_contra hnot
        have hle := since_of_not_waiting (.step h hstep) hrest.mono hnot ht'
        omega
      intro hmem
      obtain rfl | hmem := List.mem_cons.mp hmem
      · exact hsingle.wakes h ht hstep hstill
      · have hsame := WaitInv.since_waiting ht hstep
        exact ih (.step h hstep) hstill ht' (hsince.trans hsame.symm) hmem

end Run

/-- A step keeps the order exactly when it does not wake one of two waiters; in a run in which every `sema_up` finds at most one, the order is kept and a waiter with `k` before it is woken by the next `k + 1` at the latest. -/
theorem wait_order (s : Word) :
    (∀ x, waitSystem.Reachable x → ∀ call x', waitStep x call = some x' → (InOrder s x x' ↔ ¬ Overtakes s x call)) ∧
    ∀ x, (waitSystem.restrict (Single s)).Reachable x →
      (∀ call x', (waitSystem.restrict (Single s)).step x call x' → InOrder s x x') ∧
      ∀ calls y t, (waitSystem.restrict (Single s)).Run x calls y → Waiting x s t → Waiting y s t →
        y.since t = x.since t → calls.count (.semaUp s) ≤ Set.ncard {u | Waiting x s u ∧ x.since u < x.since t} := by
  refine ⟨fun x h call x' hstep => inOrder_iff h hstep s, fun x h => ?_⟩
  have hreach := waitSystem.reachable_of_restrict h
  constructor
  · intro call x' hstep
    exact (inOrder_iff hreach hstep.2 s).mpr hstep.1.not_overtakes
  · intro calls y t hrun ht ht' hsince
    rw [List.count_eq_zero.mpr (not_mem_calls hreach hrun ht ht' hsince)]
    exact Nat.zero_le _

/-! ## Two waiters

On the small machine the boot task and then a second task wait for a semaphore that starts at zero, and a third task calls `sema_up`. -/

private def firstWaits : List SchedCall :=
  [.taskCreate 0xc0105000 7 [0x61] 31, .taskCreate 0xc0105000 8 [0x62] 31, .semaDown 0xc0180000] ++
    List.replicate 5 .schedule

private def waitStart : WaitSys := ⟨semaStart (schedInitTasks smallMachine 0xc0110f00), 0, fun _ => 0⟩

private theorem init_waitStart : waitSystem.init waitStart :=
  ⟨⟨_, _, boot_smallMachine _ (by unfold IdleTasksCreated; decide +kernel), rfl⟩, rfl⟩

theorem not_wait_order : ∃ s x call x', waitSystem.Reachable x ∧ waitStep x call = some x' ∧ ¬ InOrder s x x' := by
  have hview : ((TransitionSystem.exec waitStep waitStart
      (firstWaits ++ [.semaDown 0xc0180000, .schedule, .schedule])).bind fun x =>
        (waitStep x (.semaUp 0xc0180000)).map fun x' =>
          decide (Waiting x 0xc0180000 0xc0110000 ∧ Waiting x 0xc0180000 0xc0203000 ∧
            x.since 0xc0110000 < x.since 0xc0203000 ∧ Waiting x' 0xc0180000 0xc0110000 ∧
            ¬ Waiting x' 0xc0180000 0xc0203000)) = some true := by decide +kernel
  obtain ⟨x, hexec, hview⟩ := Option.bind_eq_some_iff.mp hview
  obtain ⟨x', hstep, hview⟩ := Option.map_eq_some_iff.mp hview
  obtain ⟨ha, hb, hlt, ha', hb'⟩ := of_decide_eq_true hview
  refine ⟨0xc0180000, x, _, x', TransitionSystem.reachable_exec _ (.init init_waitStart) hexec, hstep, fun hin => ?_⟩
  exact hb' (hin _ _ ha hb hlt ha')

/-- A wait list of one node at most has one waiter at most. -/
private theorem eq_of_next_next {x : WaitSys} {s : Word} (h : waitSystem.Reachable x)
    (hend : x.sema.kernel.links.next (x.sema.kernel.links.next (.head (.wait s))) = .head (.wait s)) {a b : Word}
    (ha : Waiting x s a) (hb : Waiting x s b) : a = b := by
  obtain ⟨seq, -, -, hwait⟩ := waitInv_reachable h
  have hring := hwait.links.ring (.wait s)
  rw [← hwait.mem s] at ha hb
  cases hseq : seq (.wait s) with
  | nil =>
      rw [hseq] at ha
      cases ha
  | cons t ws =>
      rw [hseq] at hring ha hb
      cases ws with
      | nil => rw [List.mem_singleton.mp ha, List.mem_singleton.mp hb]
      | cons u ws =>
          obtain ⟨hfirst, hsecond, -⟩ := hring.seg
          rw [hfirst.1, hsecond.1] at hend
          exact (QueueId.node_ne_head _ _ _ hend).elim

/-- The boot task waits alone while another task is scheduled, and is woken. -/
theorem wait_order_smallMachine : ∃ x y z, (waitSystem.restrict (Single 0xc0180000)).Reachable x ∧
    Waiting x 0xc0180000 0xc0110000 ∧ waitStep x .schedule = some y ∧
    List.count (SchedCall.semaUp 0xc0180000) [.schedule] ≤
      Set.ncard {u | Waiting x 0xc0180000 u ∧ x.since u < x.since 0xc0110000} ∧
    waitStep y (.semaUp 0xc0180000) = some z ∧ ¬ Waiting z 0xc0180000 0xc0110000 ∧ InOrder 0xc0180000 y z := by
  have hview : ((TransitionSystem.exec (fun x call => if call ≠ .semaUp 0xc0180000 then waitStep x call else none) waitStart
      firstWaits).bind fun x => (waitStep x .schedule).bind fun y => (waitStep y (.semaUp 0xc0180000)).map fun z =>
        decide (Waiting x 0xc0180000 0xc0110000 ∧ Waiting y 0xc0180000 0xc0110000 ∧
          y.since 0xc0110000 = x.since 0xc0110000 ∧
          y.sema.kernel.links.next (y.sema.kernel.links.next (.head (.wait 0xc0180000))) = .head (.wait 0xc0180000) ∧
          (0 ≤ y.sema.kernel.semaCount 0xc0180000 ∧ y.sema.kernel.semaCount 0xc0180000 < 2 ^ 31 - 1) ∧
          ¬ Waiting z 0xc0180000 0xc0110000)) = some true := by decide +kernel
  obtain ⟨x, hexec, hview⟩ := Option.bind_eq_some_iff.mp hview
  obtain ⟨y, hstep, hview⟩ := Option.bind_eq_some_iff.mp hview
  obtain ⟨z, hwake, hview⟩ := Option.map_eq_some_iff.mp hview
  obtain ⟨ht, ht', hsince, hend, hcount, hwoken⟩ := of_decide_eq_true hview
  have hsingle (x : WaitSys) (call : SchedCall) (hne : call ≠ .semaUp 0xc0180000) : Single 0xc0180000 x call :=
    fun heq => absurd heq hne
  have hstart : (waitSystem.restrict fun _ call => call ≠ .semaUp 0xc0180000).Reachable waitStart := .init init_waitStart
  have hreach := waitSystem.restrict_mono hsingle
    (TransitionSystem.reachable_restrict_exec (fun _ call => call ≠ SchedCall.semaUp 0xc0180000) _ hstart hexec)
  have hrestrict := And.intro (hsingle x .schedule (by decide)) hstep
  have hreach' := TransitionSystem.Reachable.step hreach hrestrict
  have hone : Single 0xc0180000 y (.semaUp 0xc0180000) := fun _ =>
    ⟨fun a b => eq_of_next_next (waitSystem.reachable_of_restrict hreach') hend, fun _ => hcount⟩
  have hlimit := ((wait_order 0xc0180000).2 x hreach).2 [.schedule] y 0xc0110000 (.cons hrestrict (.nil y)) ht ht' hsince
  have horder := ((wait_order 0xc0180000).2 y hreach').1 (.semaUp 0xc0180000) z ⟨hone, hwake⟩
  exact ⟨x, y, z, hreach, ht, hstep, hlimit, hwake, hwoken, horder⟩

end I386Kernel
