import I386Kernel.Task.SchedRuns

/-!
# The order of dispatch

`next_task_to_run` takes the head of the default ready list before it moves the current task to the tail. A task at the head is therefore chosen again, and only then moved; one that is not at the head gives way to the head, which is then chosen twice in a row.
-/

namespace I386Kernel

open CircularList (Ring)

/-- The tasks that `n` calls of `schedule` give the CPU to, one after another. -/
def dispatches : Nat → Kernel → Option (List Word)
  | 0, _ => some []
  | n + 1, k => (schedule k).bind fun k' => (dispatches n k').map (k'.current :: ·)

/-- As many calls as there are tasks on the default ready list give the CPU to each of them once. -/
def EachOnce (k : Kernel) (xs : List Word) : Prop :=
  ∃ ts, dispatches xs.length k = some ts ∧ ts.Perm xs

/-- `schedule` gives the CPU to another task. -/
def Switches (k : Kernel) : Prop := ∃ k', schedule k = some k' ∧ k'.current ≠ k.current

/-- The running current task is on the default ready list `xs` with at least one other. -/
structure Shared (k : Kernel) (xs : List Word) : Prop where
  ring : Ring k.links (.head (.ready prioDefault)) (xs.map .queued)
  running : k.status k.current = .running
  current : k.current ∈ xs
  two : 2 ≤ xs.length

namespace SchedInv

variable {k : Kernel} {seq : Queues}

/-- One call: the head gets the CPU and the caller goes to the tail. -/
theorem schedule_step (h : SchedInv k seq) (hrun : k.status k.current = .running) {x : Word} {xs : List Word}
    (hseq : seq (.ready prioDefault) = x :: xs) :
    ∃ k' seq', schedule k = some k' ∧ SchedInv k' seq' ∧ k'.current = x ∧ k'.status k'.current = .running ∧
      seq' (.ready prioDefault) = (x :: xs).erase k.current ++ [k.current] := by
  have hnext : (seq (.ready prioDefault)).head? = some x := by rw [hseq, List.head?_cons]
  refine ⟨dispatched k x, rotated k seq, h.schedule_eq hnext, h.dispatched_inv hnext, rfl, ?_, ?_⟩
  · rw [status_dispatched]
    exact Function.update_self ..
  · rw [rotated, if_pos hrun, Queues.pushBack, Function.update_self, Queues.dequeue_of_ne (ready_ne_all _), hseq]

/-- A task at the head is chosen again and then stands at the tail. -/
theorem schedule_head (h : SchedInv k seq) (hrun : k.status k.current = .running) {xs : List Word}
    (hseq : seq (.ready prioDefault) = k.current :: xs) :
    ∃ k' seq', schedule k = some k' ∧ SchedInv k' seq' ∧ k'.current = k.current ∧
      k'.status k'.current = .running ∧ seq' (.ready prioDefault) = xs ++ [k.current] := by
  obtain ⟨k', seq', hk', hinv, hcurr, hrun', hseq'⟩ := h.schedule_step hrun hseq
  rw [List.erase_cons_head] at hseq'
  exact ⟨k', seq', hk', hinv, hcurr, hrun', hseq'⟩

/-- A task that is not at the head gives way to the head, which stays there. -/
theorem schedule_not_head (h : SchedInv k seq) (hrun : k.status k.current = .running) {x : Word}
    {xs : List Word} (hseq : seq (.ready prioDefault) = x :: xs) (hne : x ≠ k.current) :
    ∃ k' seq', schedule k = some k' ∧ SchedInv k' seq' ∧ k'.current = x ∧ k'.status k'.current = .running ∧
      seq' (.ready prioDefault) = x :: (xs.erase k.current ++ [k.current]) := by
  obtain ⟨k', seq', hk', hinv, hcurr, hrun', hseq'⟩ := h.schedule_step hrun hseq
  rw [List.erase_cons_tail (by rwa [beq_iff_eq]), List.cons_append] at hseq'
  exact ⟨k', seq', hk', hinv, hcurr, hrun', hseq'⟩

/-- Called by a task that is not at the head, `schedule` chooses the head twice in a row. -/
theorem dispatches_not_head (h : SchedInv k seq) (hrun : k.status k.current = .running) {x : Word}
    {xs ts : List Word} {n : Nat} (hseq : seq (.ready prioDefault) = x :: xs) (hne : x ≠ k.current)
    (hts : dispatches (n + 2) k = some ts) : ∃ rest, ts = x :: x :: rest := by
  obtain ⟨k₁, seq₁, hk₁, hinv₁, hcurr₁, hrun₁, hseq₁⟩ := h.schedule_not_head hrun hseq hne
  rw [← hcurr₁] at hseq₁
  obtain ⟨k₂, seq₂, hk₂, -, hcurr₂, -⟩ := hinv₁.schedule_head hrun₁ hseq₁
  rw [dispatches, hk₁, Option.bind_some, dispatches, hk₂, Option.bind_some, Option.map_map] at hts
  obtain ⟨rest, -, rfl⟩ := Option.map_eq_some_iff.mp hts
  exact ⟨rest, by rw [Function.comp_apply, hcurr₂, hcurr₁]⟩

/-- Called by the task at the head, it chooses that task, and then the next one for as long as two calls. -/
theorem dispatches_head (h : SchedInv k seq) (hrun : k.status k.current = .running) {x : Word}
    {xs ts : List Word} {n : Nat} (hseq : seq (.ready prioDefault) = k.current :: x :: xs)
    (hts : dispatches (n + 1) k = some ts) :
    ∃ rest, ts = k.current :: rest ∧ (∀ m, n = m + 1 → ∃ rest', rest = x :: rest') ∧
      ∀ m, n = m + 2 → ∃ rest', rest = x :: x :: rest' := by
  have hne : x ≠ k.current := by
    have hnodup := h.links.nodup (.ready prioDefault)
    rw [hseq, List.nodup_cons] at hnodup
    exact fun heq => hnodup.1 (heq ▸ List.mem_cons_self ..)
  obtain ⟨k₁, seq₁, hk₁, hinv₁, hcurr₁, hrun₁, hseq₁⟩ := h.schedule_head hrun hseq
  rw [dispatches, hk₁, Option.bind_some] at hts
  obtain ⟨rest, hrest, rfl⟩ := Option.map_eq_some_iff.mp hts
  rw [List.cons_append] at hseq₁
  rw [← hcurr₁] at hne
  refine ⟨rest, by rw [hcurr₁], ?_, ?_⟩
  · rintro m rfl
    obtain ⟨k₂, -, hk₂, -, hcurr₂, -⟩ := hinv₁.schedule_step hrun₁ hseq₁
    rw [dispatches, hk₂, Option.bind_some] at hrest
    obtain ⟨rest', -, rfl⟩ := Option.map_eq_some_iff.mp hrest
    exact ⟨rest', by rw [hcurr₂]⟩
  · rintro m rfl
    exact hinv₁.dispatches_not_head hrun₁ hseq₁ hne hrest

/-- The calls always have a result. -/
theorem dispatches_total (h : SchedInv k seq) (n : Nat) : ∃ ts, dispatches n k = some ts ∧ ts.length = n := by
  induction n generalizing k seq with
  | zero => exact ⟨[], rfl, rfl⟩
  | succ n ih =>
      obtain ⟨next, hnext⟩ := h.exists_next
      obtain ⟨ts, hts, hlen⟩ := ih (h.dispatched_inv hnext)
      refine ⟨(dispatched k next).current :: ts, ?_, by rw [List.length_cons, hlen]⟩
      rw [dispatches, h.schedule_eq hnext, Option.bind_some, hts, Option.map_some]

/-- The ready list is the one the links show. -/
theorem seq_eq (h : SchedInv k seq) {xs : List Word} (hs : Shared k xs) : seq (.ready prioDefault) = xs := by
  have hring : Ring k.links (.head (.ready prioDefault)) ((seq (.ready prioDefault)).map .queued) :=
    h.links.ring (.ready prioDefault)
  exact List.map_injective_iff.mpr (QueueId.ready prioDefault).node_injective (hring.unique hs.ring)

theorem switches_iff (h : SchedInv k seq) {xs : List Word} (hs : Shared k xs) :
    Switches k ↔ xs.head? ≠ some k.current := by
  obtain ⟨next, hnext⟩ := h.exists_next
  have hsched := h.schedule_eq hnext
  rw [h.seq_eq hs] at hnext
  rw [hnext, Switches, hsched]
  constructor
  · rintro ⟨k', hk', hne⟩ heq
    cases hk'
    exact hne (Option.some.inj heq)
  · intro hne
    exact ⟨_, rfl, fun heq => hne (congrArg some heq)⟩

theorem eachOnce_iff (h : SchedInv k seq) {xs : List Word} (hs : Shared k xs) :
    EachOnce k xs ↔ xs.length = 2 ∧ xs.head? = some k.current := by
  have hseq := h.seq_eq hs
  have hnodup := h.links.nodup (.ready prioDefault)
  rw [hseq] at hnodup
  obtain ⟨ts, hts, hlen⟩ := h.dispatches_total xs.length
  have hperm : EachOnce k xs ↔ ts.Perm xs := by
    rw [EachOnce, hts]
    exact ⟨fun ⟨ts', hts', hp⟩ => Option.some.inj hts' ▸ hp, fun hp => ⟨ts, rfl, hp⟩⟩
  -- a sequence of dispatches with a repetition is no rearrangement of the list
  have htwice : ∀ x pre rest, ts = pre ++ x :: x :: rest → ¬ ts.Perm xs := by
    rintro x pre rest rfl hp
    have hts := (List.nodup_append.mp (hp.nodup_iff.mpr hnodup)).2.1
    exact (List.nodup_cons.mp hts).1 (List.mem_cons_self ..)
  rw [hperm]
  match xs, hs.two with
  | x :: y :: zs, _ =>
    by_cases hx : x = k.current
    · subst hx
      obtain ⟨rest, hrest, hone, htwo⟩ := h.dispatches_head hs.running hseq hts
      obtain ⟨rest', hrest'⟩ := hone zs.length rfl
      cases zs with
      | nil =>
          rw [hrest, hrest'] at hlen ⊢
          have hnil : rest' = [] := List.eq_nil_of_length_eq_zero (by simpa using hlen)
          rw [hnil]
          exact iff_of_true (List.Perm.refl _) ⟨rfl, rfl⟩
      | cons z zs =>
          obtain ⟨rest'', hrest''⟩ := htwo zs.length rfl
          refine iff_of_false (htwice y [k.current] rest'' ?_) fun hlen' => ?_
          · rw [hrest, hrest'']
            rfl
          · exact absurd hlen'.1 (by simp)
    · obtain ⟨rest, hrest⟩ := h.dispatches_not_head (n := zs.length) hs.running hseq hx hts
      refine iff_of_false (htwice x [] rest hrest) fun hhead => ?_
      exact hx (Option.some.inj hhead.2)

end SchedInv

/-- Where `n` tasks share the default ready list, `n` calls give each of them the CPU once only if there are two and the caller is at the head; and a call switches to another task only if the caller is not at the head. -/
theorem dispatch_order {k : Kernel} {xs : List Word} (h : schedSystem.Reachable k) (hs : Shared k xs) :
    (EachOnce k xs ↔ xs.length = 2 ∧ xs.head? = some k.current) ∧
      (Switches k ↔ xs.head? ≠ some k.current) ∧ ¬ (EachOnce k xs ∧ Switches k) := by
  obtain ⟨seq, hinv, -⟩ := runInv_reachable h
  have honce := hinv.eachOnce_iff hs
  have hswitch := hinv.switches_iff hs
  refine ⟨honce, hswitch, fun hboth => ?_⟩
  exact hswitch.mp hboth.2 (honce.mp hboth.1).2

/-! ## The idle tasks of the small machine

After `sched_init` the first idle task runs, and is at the head of the list of two. -/

private theorem shared_smallMachine : ∃ k, schedSystem.Reachable k ∧ Shared k [0xc0201000, 0xc0202000] ∧
    k.current = 0xc0201000 ∧ (schedule k).map Kernel.current = some 0xc0201000 := by
  have hboot : Boot smallMachine 0xc0110f00 := boot_smallMachine _ (by unfold IdleTasksCreated; decide +kernel)
  obtain ⟨k, hk, -⟩ := schedInit_run hboot
  have hview : (schedInit smallMachine 0xc0110f00).map (fun k => (k.current, k.status k.current,
      (schedule k).map Kernel.current)) = some (0xc0201000, .running, some 0xc0201000) := by decide +kernel
  have hnext : (schedInit smallMachine 0xc0110f00).map (fun k => ([Node.head (.ready 31), .queued 0xc0201000,
      .queued 0xc0202000].map k.links.next, [Node.queued 0xc0201000, .queued 0xc0202000,
      .head (.ready 31)].map k.links.prev)) = some ([.queued 0xc0201000, .queued 0xc0202000,
      .head (.ready 31)], [.head (.ready 31), .queued 0xc0201000, .queued 0xc0202000]) := by decide +kernel
  rw [hk, Option.map_some, Option.some_inj, Prod.mk.injEq, Prod.mk.injEq] at hview
  rw [hk, Option.map_some, Option.some_inj, Prod.mk.injEq] at hnext
  simp only [List.map_cons, List.map_nil, List.cons.injEq, and_true] at hnext
  obtain ⟨hcurr, hrun, hsched⟩ := hview
  obtain ⟨⟨hn₁, hn₂, hn₃⟩, hp₁, hp₂, hp₃⟩ := hnext
  refine ⟨k, .init ⟨_, _, hboot, hk⟩, ⟨⟨⟨⟨hn₁, hp₁⟩, ⟨hn₂, hp₂⟩, hn₃, hp₃⟩, by decide⟩, hrun, ?_, by decide⟩,
    hcurr, hsched⟩
  rw [hcurr]
  decide

theorem dispatch_order_smallMachine : ∃ k, Shared k [0xc0201000, 0xc0202000] ∧
    EachOnce k [0xc0201000, 0xc0202000] ∧ ¬ Switches k := by
  obtain ⟨k, hk, hs, hcurr, -⟩ := shared_smallMachine
  obtain ⟨honce, hswitch, -⟩ := dispatch_order hk hs
  have hhead : [(0xc0201000 : Word), 0xc0202000].head? = some k.current := by
    rw [hcurr]
    rfl
  exact ⟨k, hs, honce.mpr ⟨rfl, hhead⟩, fun h => hswitch.mp h hhead⟩

/-- Dispatch is not round robin: the first idle task calls `schedule` and gets the CPU back. -/
theorem not_round_robin : ¬ ∀ k xs, schedSystem.Reachable k → Shared k xs → EachOnce k xs ∧ Switches k := by
  intro h
  obtain ⟨k, hk, hs, hcurr, hsched⟩ := shared_smallMachine
  obtain ⟨-, k', hk', hne⟩ := h k _ hk hs
  rw [hk', Option.map_some, Option.some_inj] at hsched
  exact hne (hsched.trans hcurr.symm)

end I386Kernel
