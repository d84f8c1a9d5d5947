import I386Kernel.Preempt.Dispatch

/-!
# How long `sema_up` uses its semaphore

A semaphore on the stack of the task that waits for it is gone when its `sema_down` has returned. `sema_up` makes the waiter runnable before its own last access, the `spin_unlock` of `slock`. When no timer interrupt comes between the two, and `schedule` only dispatches tasks that can run, the `sema_down` returns after that access. Otherwise it may return before.
-/

namespace I386Kernel.Preempt

/-! ## Runs of one semaphore -/

/-- The operation on a semaphore that the next statement belongs to. -/
def Pc.op : Pc → Option SemaOp
  | downLock s | downTest s | downDec s | downUnlock s | suspLock s | suspBlock s | suspDel s | suspAdd s | suspUnlock s
  | waitUnlock s => some (.down s)
  | upLock s | upInc s | upEmpty s | upPop s | resValid s _ | resLock s _ | resTest s _ | resMark s _ | resLink s _
  | resUnlock s _ | upUnlock s _ => some (.up s)
  | _ => none

/-- The operation a frame was entered for. -/
def Origin.op : Origin → Option SemaOp
  | .call (.semaDown s) => some (.down s)
  | .call (.semaUp s) => some (.up s)
  | .device op _ _ => some op
  | _ => none

/-- The operation that begins in this step, by a call or in a handler. -/
def Machine.begun (m : Machine) : Label → Option SemaOp
  | .call c => (Origin.call c).op
  | l => m.opBegun l

/-- The operation that returns in this step. -/
def Machine.ended (m : Machine) : Label → Option SemaOp
  | .step =>
      match m.frames m.current with
      | ⟨.ret, o⟩ :: _ => o.op
      | _ => none
  | _ => none

/-- How many `sema_up` on a semaphore have begun and how many `sema_down` have returned. -/
structure Usage where
  ups : Nat
  outs : Nat
deriving DecidableEq

def Usage.after (s : Word) (m : Machine) (l : Label) (u : Usage) : Usage where
  ups := if m.begun l = some (.up s) then u.ups + 1 else u.ups
  outs := if m.ended l = some (.down s) then u.outs + 1 else u.outs

/-- A semaphore without units that nobody is using, as one that has just been initialised with 0. -/
structure Unused (s : Word) (m : Machine) : Prop where
  count : m.kernel.semaCount s ≤ 0
  free : ∀ t, ∀ f ∈ m.frames t, f.origin.op ≠ some (.down s) ∧ f.pc.op ≠ some (.up s)

/-- The runs in which the semaphore is used, from any state in which it is not. -/
def lifetime (T : TransitionSystem Machine Label) (s : Word) : TransitionSystem (Machine × Usage) Label :=
  T.record (Unused s) ⟨0, 0⟩ (Usage.after s)

/-- Once a `sema_down` on the semaphore has returned, no statement of the one `sema_up` on it is left. -/
def DownOutlived (s : Word) (p : Machine × Usage) : Prop :=
  p.2.ups ≤ 1 → 0 < p.2.outs → ∀ t, ∀ f ∈ p.1.frames t, f.pc.op ≠ some (.up s)

/-- The semaphore and the task of a `sema_up` that has taken the task off the wait list and has not released `slock`. -/
def Pc.waking : Pc → Option (Word × Word)
  | resValid s w | resLock s w | resTest s w | resMark s w | resLink s w | resUnlock s w => some (s, w)
  | upUnlock s (some w) => some (s, w)
  | _ => none

/-- The timer does not interrupt a `sema_up` between its `list_pop` and its `spin_unlock`, and only tasks that can run are dispatched. -/
def WakesAtOnce (m : Machine) (l : Label) : Prop :=
  (l = .timer → ∀ f ∈ (m.frames m.current).head?, f.pc.waking = none) ∧ SparesExposed m l

instance (m : Machine) (l : Label) : Decidable (WakesAtOnce m l) := inferInstanceAs (Decidable (_ ∧ _))

/-! ## Tables -/

namespace Pc

/-- A `sema_up` has incremented this semaphore and still holds its `slock`. -/
def raised : Pc → Option Word
  | upEmpty s | upPop s | resValid s _ | resLock s _ | resTest s _ | resMark s _ | resLink s _ | resUnlock s _
  | upUnlock s _ => some s
  | _ => none

/-- A `sema_down` that has no unit and has not linked its task on the wait list. -/
def early : Pc → Bool
  | downLock _ | downTest _ | suspLock _ | suspBlock _ | suspDel _ | suspAdd _ => true
  | _ => false

/-- Where a `sema_down` goes on that has linked its task, until the task is dispatched. -/
def queued : Pc → Bool
  | suspUnlock _ | waitUnlock _ | schPost => true
  | pc => decide (pc.part = .sched)

theorem of_raised {pc : Pc} {s : Word} (h : pc.raised = some s) : pc.op = some (.up s) ∧ .slock s ∈ pc.locks := by
  cases pc <;> first
    | cases h; exact ⟨rfl, List.mem_cons_self ..⟩
    | cases h; exact ⟨rfl, List.mem_cons_of_mem _ (List.mem_cons_self ..)⟩
    | cases h

theorem op_of_waking {pc : Pc} {s w : Word} (h : pc.waking = some (s, w)) : pc.op = some (.up s) := by
  cases pc with
  | upUnlock s' x =>
      cases x <;> cases h
      rfl
  | _ => cases h <;> rfl

theorem waking_of_bare {pc : Pc} (h : pc.bare = true) : pc.waking = none := by
  cases pc <;> first | rfl | cases h

end Pc

theorem isSection_waking : IsSection fun _ _ f => f.pc.waking ≠ none where
  bare := fun _ _ _ h hwaking => hwaking (Pc.waking_of_bare h)
  first := fun _ _ hwaking => hwaking rfl
  switch := fun _ _ _ _ h hwaking => hwaking (by rw [h]; rfl)
  current := fun _ _ _ _ h => h

section
variable {k : Kernel} {c s w : Word} {pc pc' : Pc} {e : Effect}

theorem stmt_op {op : SemaOp} (h : stmt k c pc = some (e, pc')) (hop : pc'.op = some op) : pc.op = some op := by
  cases pc with
  | upPop s =>
      obtain ⟨w, -, heq⟩ := Option.map_eq_some_iff.mp h
      cases heq
      exact hop
  | schRead =>
      obtain ⟨next, -, heq⟩ := Option.map_eq_some_iff.mp h
      cases heq
      cases hop
  | downTest _ | upInc _ | upEmpty _ | resValid _ _ | resTest _ _ =>
      cases h
      split at hop <;> exact hop
  | schTest _ | mkUnlock _ _ =>
      cases h
      split at hop <;> cases hop
  | _ => cases h <;> first | exact hop | cases hop

theorem stmt_raised (h : stmt k c pc = some (e, pc')) (hraised : pc.raised = some s) :
    pc'.raised = some s ∨ pc' = .ret := by
  cases pc with
  | upPop s =>
      obtain ⟨w, -, heq⟩ := Option.map_eq_some_iff.mp h
      cases heq
      exact Or.inl hraised
  | upEmpty _ | resValid _ _ | resTest _ _ =>
      cases h
      left
      split <;> exact hraised
  | resLock _ _ | resMark _ _ | resLink _ _ | resUnlock _ _ =>
      cases h
      exact Or.inl hraised
  | upUnlock _ _ =>
      cases h
      exact Or.inr rfl
  | _ => cases hraised

theorem stmt_waking (h : stmt k c pc = some (e, pc')) (hwaking : pc.waking = some (s, w)) :
    pc'.waking = some (s, w) ∨ pc' = .ret := by
  cases pc with
  | resValid _ _ | resTest _ _ =>
      cases h
      left
      split <;> exact hwaking
  | resLock _ _ | resMark _ _ | resLink _ _ | resUnlock _ _ =>
      cases h
      exact Or.inl hwaking
  | upUnlock _ _ =>
      cases h
      exact Or.inr rfl
  | _ => cases hwaking

theorem stmt_listPop (h : stmt k c pc = some (.listPop s, pc')) :
    ∃ w, listEntry (k.links.next (.head (.wait s))) = some w ∧ pc' = .resValid s w := by
  cases pc with
  | upPop s =>
      obtain ⟨w, hw, heq⟩ := Option.map_eq_some_iff.mp h
      cases heq
      exact ⟨w, hw, rfl⟩
  | schRead =>
      obtain ⟨next, -, heq⟩ := Option.map_eq_some_iff.mp h
      cases heq
  | _ => cases h

/-- Only `sema_up` adds units. -/
theorem stmt_semaCount (h : stmt k c pc = some (e, pc')) (s : Word) :
    (e.kernel k).semaCount s ≤ k.semaCount s ∨ pc'.raised = some s := by
  cases pc with
  | upPop _ | schRead =>
      obtain ⟨w, -, heq⟩ := Option.map_eq_some_iff.mp h
      cases heq
      exact Or.inl (Int.le_refl _)
  | downDec s' =>
      cases h
      left
      show Function.update k.semaCount s' (k.semaCount s' - 1) s ≤ k.semaCount s
      by_cases hs : s = s'
      · rw [hs, Function.update_self]
        omega
      · rw [Function.update_of_ne hs]
  | upInc s' =>
      cases h
      by_cases hs : s = s'
      · right
        rw [hs]
        split <;> rfl
      · left
        show Function.update k.semaCount s' _ s ≤ k.semaCount s
        rw [Function.update_of_ne hs]
  | _ => cases h <;> exact Or.inl (Int.le_refl _)

theorem stmt_early (h : stmt k c pc = some (e, pc')) (hearly : pc.early = true) (hop : pc.op = some (.down s)) :
    (pc'.early = true ∧ pc'.op = some (.down s)) ∨ (pc = .downTest s ∧ 0 < k.semaCount s) ∨
      (pc = .suspAdd s ∧ e = .listAdd (.wait s) c ∧ pc' = .suspUnlock s) := by
  cases pc with
  | downTest _ =>
      cases hop
      cases h
      by_cases hcount : k.semaCount s ≤ 0
      · rw [if_pos hcount]
        exact Or.inl ⟨rfl, rfl⟩
      · exact Or.inr (Or.inl ⟨rfl, Int.not_le.mp hcount⟩)
  | downLock _ | suspLock _ | suspBlock _ | suspDel _ =>
      cases hop
      cases h
      exact Or.inl ⟨rfl, rfl⟩
  | suspAdd _ =>
      cases hop
      cases h
      exact Or.inr (Or.inr ⟨rfl, rfl, rfl⟩)
  | _ => cases hearly

theorem stmt_queued (h : stmt k c pc = some (e, pc')) (hqueued : pc.queued = true) :
    pc = .schPost ∨ (pc'.queued = true ∧ pc' ≠ .schPost) := by
  cases pc with
  | schRead =>
      obtain ⟨next, -, heq⟩ := Option.map_eq_some_iff.mp h
      cases heq
      exact Or.inr ⟨rfl, Pc.noConfusion⟩
  | schTest _ =>
      cases h
      right
      split <;> exact ⟨rfl, Pc.noConfusion⟩
  | suspUnlock _ | waitUnlock _ | rotLock _ | rotDel _ | rotAdd _ | rotUnlock _ | schCli _ | schMark _ =>
      cases h
      exact Or.inr ⟨rfl, Pc.noConfusion⟩
  | schSwitch _ => cases h
  | schPost => exact Or.inl rfl
  | _ => cases hqueued

end

/-! ## Waiting -/

/-- The task is on the wait list, or a `sema_up` that took it off has not released `slock`. -/
def Awaits (s : Word) (m : Machine) (t : Word) : Prop :=
  Linked m.kernel (.wait s) t ∨ ∃ u, ∃ f ∈ m.frames u, f.pc.waking = some (s, t)

/-- No `sema_down` has got a unit: there is none, unless a `sema_up` holds `slock`, and who has been through `task_suspend` waits and has not been dispatched. -/
structure Held (s : Word) (m : Machine) : Prop where
  count : m.kernel.semaCount s ≤ 0 ∨ ∃ t, ∃ f ∈ m.frames t, f.pc.raised = some s
  waits : ∀ t, ∀ f ∈ m.frames t, f.origin.op = some (.down s) →
    (f.pc.early = true ∧ f.pc.op = some (.down s)) ∨ (f.pc.queued = true ∧ Awaits s m t)
  away : ∀ f ∈ m.frames m.current, f.origin.op = some (.down s) → f.pc ≠ .schPost

section
variable {m : Machine} {seq : Queues} {charge builder : Word → Option Word} {f : Frame} {rest : List Frame} {e : Effect}
  {pc : Pc} {s t : Word}

theorem QueueInv.mem_of_linked (h : QueueInv m seq charge) {q : QueueId} (hlinked : Linked m.kernel q t) : t ∈ seq q := by
  obtain ⟨seq', hlinks, hmem⟩ := hlinked
  rwa [hlinks.seq_unique h.links] at hmem

/-- `schedule` dispatches nobody who waits. -/
theorem not_awaits_of_switch (h : QueueInv m seq charge) (hkept : Kept (fun _ _ f => f.pc.waking ≠ none) m)
    (hframes : m.frames m.current = f :: rest) {next : Word} (hpc : f.pc = .schSwitch next) : ¬ Awaits s m next := by
  rintro (hlinked | ⟨u, g, hg, hwaking⟩)
  · obtain ⟨-, -, -, hblocked⟩ := h.uncharged_of_wait (h.mem_of_linked hlinked)
    exact (h.runnable_of_chosen hframes (Or.inr hpc)).2 (Or.inl hblocked)
  · have hsome : g.pc.waking ≠ none := by rw [hwaking]; exact Option.some_ne_none _
    obtain rfl := hkept.current u g hg hsome
    have hquick := Frame.not_quick (h.prompt.handlers _ f (hframes ▸ List.mem_cons_self ..)) (by rw [hpc]; rfl)
    exact hkept.free_of_top hframes hquick (by rw [hpc]; exact not_not.mpr rfl) g hg hsome

/-- A frame that is there before a statement is there afterwards, but for the one that the statement belongs to. -/
theorem Discipline.frames_stmt_old (hd : Discipline m builder) (hframes : m.frames m.current = f :: rest)
    (hstmt : Preempt.stmt m.kernel m.current f.pc = some (e, pc)) {g : Frame} (hg : g ∈ m.frames t) :
    g ∈ ((m.setFrames m.current (⟨pc, f.origin⟩ :: rest)).apply e).frames t ∨ g = f := by
  by_cases ht : t = m.current
  · subst ht
    rw [hd.frames_stmt_self hframes hstmt]
    rw [hframes] at hg
    exact (List.mem_cons.mp hg).symm.imp_left (List.mem_cons_of_mem _)
  · obtain heq | ⟨hempty, -, -⟩ := hd.frames_stmt_of_ne hframes hstmt ht
    · exact Or.inl (heq ▸ hg)
    · rw [hempty] at hg
      cases hg

theorem Awaits.stmt (h : Awaits s m t) (hd : Discipline m builder) (hq : QueueInv m seq charge)
    (hframes : m.frames m.current = f :: rest) (hstmt : Preempt.stmt m.kernel m.current f.pc = some (e, pc))
    (hgo : f.pc.op = some (.up s) → pc.op = some (.up s)) :
    Awaits s ((m.setFrames m.current (⟨pc, f.origin⟩ :: rest)).apply e) t := by
  have htop : (⟨pc, f.origin⟩ : Frame) ∈ ((m.setFrames m.current (⟨pc, f.origin⟩ :: rest)).apply e).frames m.current := by
    rw [hd.frames_stmt_self hframes hstmt]
    exact List.mem_cons_self ..
  obtain hlinked | ⟨u, g, hg, hwaking⟩ := h
  · obtain ⟨seq', ho⟩ := hq.outcome hd hframes hstmt
    obtain hmem | ⟨rfl, hpop⟩ := ho.waits s t (hq.mem_of_linked hlinked)
    · exact Or.inl ⟨seq', ho.links, hmem⟩
    · obtain ⟨w, hw, rfl⟩ := stmt_listPop hstmt
      obtain rfl := Option.some.inj (hw.symm.trans hpop)
      exact Or.inr ⟨_, _, htop, rfl⟩
  · obtain hg | rfl := hd.frames_stmt_old hframes hstmt hg
    · exact Or.inr ⟨u, g, hg, hwaking⟩
    · obtain hwaking' | rfl := stmt_waking hstmt hwaking
      · exact Or.inr ⟨_, _, htop, hwaking'⟩
      · cases hgo (Pc.op_of_waking hwaking)

/-- The top frame after a statement of a `sema_down` on the semaphore. -/
theorem Held.waits_stmt (h : Held s m) (hd : Discipline m builder) (hq : QueueInv m seq charge)
    (hframes : m.frames m.current = f :: rest) (hstmt : stmt m.kernel m.current f.pc = some (e, pc))
    (hgo : f.pc.op = some (.up s) → pc.op = some (.up s)) (hop : f.origin.op = some (.down s)) :
    ((pc.early = true ∧ pc.op = some (.down s)) ∨
      (pc.queued = true ∧ Awaits s ((m.setFrames m.current (⟨pc, f.origin⟩ :: rest)).apply e) m.current)) ∧ pc ≠ .schPost := by
  have hmem : f ∈ m.frames m.current := hframes ▸ List.mem_cons_self ..
  have hearly : ∀ {pc : Pc}, pc.early = true → pc ≠ .schPost := by
    rintro pc hearly rfl
    cases hearly
  obtain ⟨hplace, hdown⟩ | ⟨hplace, hawaits⟩ := h.waits _ f hmem hop
  · obtain hnew | ⟨hpc, hcount⟩ | ⟨hpc, rfl, rfl⟩ := stmt_early hstmt hplace hdown
    · exact ⟨Or.inl hnew, hearly hnew.1⟩
    · -- a unit can only be there while a `sema_up` holds `slock`, which this `sema_down` holds
      obtain hnone | ⟨u, g, hg, hraised⟩ := h.count
      · exact absurd hnone (Int.not_le.mpr hcount)
      · obtain ⟨hup, hslock⟩ := Pc.of_raised hraised
        have hheld : Lock.slock s ∈ f.pc.locks := by
          rw [hpc]
          exact List.mem_cons_self ..
        have hother : (u = m.current ∧ g ∈ rest) ∨ (u ≠ m.current ∧ g ∈ m.frames u) := by
          by_cases hu : u = m.current
          · subst hu
            rw [hframes] at hg
            refine Or.inl ⟨rfl, (List.mem_cons.mp hg).resolve_left ?_⟩
            rintro rfl
            exact absurd (hup.symm.trans hdown) (by simp)
          · exact Or.inr ⟨hu, hg⟩
        exact absurd hslock (of_decide_eq_false (hd.locks.others_free hframes (decide_eq_true hheld) hother))
    · have hlinked : Linked (Effect.kernel m.kernel (.listAdd (.wait s) m.current)) (.wait s) m.current := by
        obtain ⟨pc₀, o⟩ := f
        obtain rfl : pc₀ = .suspAdd s := hpc
        exact ⟨_, (Outcome.suspAdd hq hframes).links, Queues.mem_pushFront.mpr (Or.inl ⟨rfl, rfl⟩)⟩
      exact ⟨Or.inr ⟨rfl, Or.inl hlinked⟩, Pc.noConfusion⟩
  · obtain hpc | ⟨hplace', hne⟩ := stmt_queued hstmt hplace
    · exact absurd hpc (h.away f hmem hop)
    · exact ⟨Or.inr ⟨hplace', hawaits.stmt hd hq hframes hstmt hgo⟩, hne⟩

theorem Held.stmt (h : Held s m) (hd : Discipline m builder) (hq : QueueInv m seq charge)
    (hframes : m.frames m.current = f :: rest) (hstmt : Preempt.stmt m.kernel m.current f.pc = some (e, pc))
    (hgo : f.pc.op = some (.up s) → pc.op = some (.up s)) :
    Held s ((m.setFrames m.current (⟨pc, f.origin⟩ :: rest)).apply e) := by
  have hcurrent : ((m.setFrames m.current (⟨pc, f.origin⟩ :: rest)).apply e).current = m.current :=
    Effect.current_kernel m.kernel e
  have htop : (⟨pc, f.origin⟩ : Frame) ∈ ((m.setFrames m.current (⟨pc, f.origin⟩ :: rest)).apply e).frames m.current := by
    rw [hd.frames_stmt_self hframes hstmt]
    exact List.mem_cons_self ..
  refine ⟨?_, fun t g hg hop => ?_, fun g hg hop => ?_⟩
  · obtain hle | hraised := stmt_semaCount hstmt s
    · obtain hcount | ⟨u, g, hg, hraised⟩ := h.count
      · exact Or.inl (Int.le_trans hle hcount)
      · obtain hg | rfl := hd.frames_stmt_old hframes hstmt hg
        · exact Or.inr ⟨u, g, hg, hraised⟩
        · obtain hraised' | rfl := stmt_raised hstmt hraised
          · exact Or.inr ⟨_, _, htop, hraised'⟩
          · cases hgo (Pc.of_raised hraised).1
    · exact Or.inr ⟨_, _, htop, hraised⟩
  · obtain ⟨rfl, rfl⟩ | ⟨rfl, hrest⟩ | ⟨-, hold⟩ | ⟨-, -, rfl⟩ := hd.mem_frames_stmt hframes hstmt hg
    · exact (h.waits_stmt hd hq hframes hstmt hgo hop).1
    · exact (h.waits _ g (hframes ▸ List.mem_cons_of_mem _ hrest) hop).imp_right fun hplace =>
        ⟨hplace.1, hplace.2.stmt hd hq hframes hstmt hgo⟩
    · exact (h.waits t g hold hop).imp_right fun hplace => ⟨hplace.1, hplace.2.stmt hd hq hframes hstmt hgo⟩
    · cases hop
  · rw [hcurrent] at hg
    obtain ⟨-, rfl⟩ | ⟨-, hrest⟩ | ⟨hne, -⟩ | ⟨hne, -, -⟩ := hd.mem_frames_stmt hframes hstmt hg
    · exact (h.waits_stmt hd hq hframes hstmt hgo hop).2
    · exact h.away g (hframes ▸ List.mem_cons_of_mem _ hrest) hop
    · exact absurd rfl hne
    · exact absurd rfl hne

/-- The current task's stack becomes another one, and the CPU goes to `c`, who does not wait. -/
theorem Held.quiet (h : Held s m) {stack : List Frame} {b : Bool} {c : Word}
    (hold : ∀ f ∈ m.frames m.current, f ∈ stack ∨ f.pc.op = none)
    (hnew : ∀ f ∈ stack, f.origin.op = some (.down s) → f ∈ m.frames m.current ∨
      (f.pc.early = true ∧ f.pc.op = some (.down s)) ∨ (f.pc = .schPost ∧ Awaits s m m.current ∧ m.current ≠ c))
    (hcurrent : c = m.current ∨ ¬ Awaits s m c) : Held s { (m.setFrames m.current stack).switchTo c with intr := b } := by
  have hstay : ∀ {t f}, f ∈ m.frames t → f.pc.op = some (.up s) → f ∈ Function.update m.frames m.current stack t := by
    intro t f hf hop
    by_cases ht : t = m.current
    · subst ht
      rw [Function.update_self]
      exact (hold f hf).resolve_right fun hnone => absurd (hop.symm.trans hnone) (Option.some_ne_none _)
    · rwa [Function.update_of_ne ht]
  have hawaits : ∀ {t}, Awaits s m t → Awaits s { (m.setFrames m.current stack).switchTo c with intr := b } t := by
    rintro t (hlinked | ⟨u, g, hg, hwaking⟩)
    · exact Or.inl hlinked
    · exact Or.inr ⟨u, g, hstay hg (Pc.op_of_waking hwaking), hwaking⟩
  -- a frame afterwards is one that was there, or one that the stack has got
  have hcases : ∀ {t f}, f ∈ Function.update m.frames m.current stack t → f.origin.op = some (.down s) →
      f ∈ m.frames t ∨ (f.pc.early = true ∧ f.pc.op = some (.down s)) ∨ (f.pc = .schPost ∧ Awaits s m t ∧ t ≠ c) := by
    intro t f hf hop
    by_cases ht : t = m.current
    · subst ht
      rw [Function.update_self] at hf
      exact hnew f hf hop
    · rw [Function.update_of_ne ht] at hf
      exact Or.inl hf
  refine ⟨?_, fun t f hf hop => ?_, fun f hf hop hpc => ?_⟩
  · obtain hcount | ⟨t, f, hf, hraised⟩ := h.count
    · exact Or.inl hcount
    · exact Or.inr ⟨t, f, hstay hf (Pc.of_raised hraised).1, hraised⟩
  · obtain hf | hearly | ⟨hpc, hwaits, -⟩ := hcases hf hop
    · exact (h.waits t f hf hop).imp_right fun hplace => ⟨hplace.1, hawaits hplace.2⟩
    · exact Or.inl hearly
    · refine Or.inr ⟨?_, hawaits hwaits⟩
      rw [hpc]
      rfl
  · have hearly : f.pc.early = false := by rw [hpc]; rfl
    obtain hf | ⟨hearly', -⟩ | ⟨-, -, hne⟩ := hcases hf hop
    · obtain rfl | hnot := hcurrent
      · exact h.away f hf hop hpc
      · obtain ⟨hearly', -⟩ | ⟨-, hwaits⟩ := h.waits _ f hf hop
        · exact absurd (hearly.symm.trans hearly') Bool.false_ne_true
        · exact hnot hwaits
    · exact absurd (hearly.symm.trans hearly') Bool.false_ne_true
    · exact hne rfl

end

/-! ## Steps -/

/-- The `sema_up` in progress on the semaphore: there is one, on the stack of this task, or none. -/
def Raisers (s : Word) (frames : Word → List Frame) (who : Option Word) : Prop :=
  Custody (fun _ f (_ : Unit) => decide (f.pc.op = some (.up s))) frames fun _ => who

/-- As long as there is one `sema_up` at most: it is over, or no `sema_down` has returned. -/
def Lived (s : Word) (p : Machine × Usage) : Prop :=
  p.2.ups ≤ 1 → ∃ who, Raisers s p.1.frames who ∧ (who ≠ none → p.2.ups = 1) ∧
    ((who = none ∧ p.2.ups = 1) ∨ (p.2.outs = 0 ∧ Held s p.1))

theorem Call.op_entry (c : Call) : c.entry.op = (Origin.call c).op := by
  cases c with
  | taskCreate a =>
      rw [Call.entry]
      split <;> rfl
  | _ => rfl

theorem SemaOp.op_entry (op : SemaOp) : op.entry.op = some op := by
  cases op <;> rfl

theorem Origin.op_waited (o : Origin) : o.waited.op = o.op := by
  cases o <;> rfl

theorem op_ne_of_none {o : Option SemaOp} (op : SemaOp) (h : o = none) : o ≠ some op := fun heq =>
  Option.some_ne_none op (heq.symm.trans h)

/-- A `sema_down` that has just begun. -/
theorem Pc.early_of_bare {pc : Pc} {s : Word} (hbare : pc.bare = true) (hop : pc.op = some (.down s)) : pc.early = true := by
  cases pc <;> first | rfl | (cases hop; done) | cases hbare

section
variable {m m' : Machine} {seq : Queues} {charge builder : Word → Option Word} {f g : Frame} {rest : List Frame} {e : Effect}
  {pc : Pc} {s : Word} {who : Option Word} {l : Label} {u : Usage}

theorem Raisers.push (h : Raisers s m.frames who) (hfree : g.pc.op = some (.up s) → who = none) :
    Raisers s (Function.update m.frames m.current (g :: m.frames m.current))
      (if g.pc.op = some (.up s) then some m.current else who) := by
  refine Custody.enter h fun _ => ?_
  by_cases hup : g.pc.op = some (.up s)
  · exact Or.inr ⟨decide_eq_true hup, hfree hup, if_pos hup⟩
  · exact Or.inl ⟨decide_eq_false hup, if_neg hup⟩

theorem Raisers.replace (h : Raisers s m.frames who) (hframes : m.frames m.current = f :: rest) (hf : f.pc.op = none)
    (hfree : g.pc.op = some (.up s) → who = none) :
    Raisers s (Function.update m.frames m.current (g :: rest)) (if g.pc.op = some (.up s) then some m.current else who) := by
  have hf : decide (f.pc.op = some (.up s)) = false := decide_eq_false (op_ne_of_none _ hf)
  refine Custody.replace h hframes fun _ => ?_
  by_cases hup : g.pc.op = some (.up s)
  · exact Or.inr (Or.inl ⟨hf, decide_eq_true hup, hfree hup, if_pos hup⟩)
  · exact Or.inl ⟨(decide_eq_false hup).trans hf.symm, if_neg hup⟩

/-- A `sema_up` that is in progress goes on, or ends with its `spin_unlock`. -/
theorem Raisers.stmt (h : Raisers s m.frames who) (hd : Discipline m builder) (hframes : m.frames m.current = f :: rest)
    (hstmt : Preempt.stmt m.kernel m.current f.pc = some (e, pc)) :
    (Raisers s ((m.setFrames m.current (⟨pc, f.origin⟩ :: rest)).apply e).frames who ∧
      (f.pc.op = some (.up s) → pc.op = some (.up s))) ∨
      (who ≠ none ∧ Raisers s ((m.setFrames m.current (⟨pc, f.origin⟩ :: rest)).apply e).frames none) := by
  have hkeep : decide (pc.op = some (.up s)) = decide (f.pc.op = some (.up s)) →
      Raisers s ((m.setFrames m.current (⟨pc, f.origin⟩ :: rest)).apply e).frames who := fun heq =>
    hd.custody_stmt hframes hstmt h (fun _ _ => rfl) fun _ => Or.inl ⟨heq, rfl⟩
  by_cases hup : f.pc.op = some (.up s)
  · by_cases hnew : pc.op = some (.up s)
    · exact Or.inl ⟨hkeep ((decide_eq_true hnew).trans (decide_eq_true hup).symm), fun _ => hnew⟩
    · have hwho : who = some m.current :=
        Custody.holder_of_mem h (r := ()) (hframes ▸ List.mem_cons_self ..) (decide_eq_true hup)
      refine Or.inr ⟨by rw [hwho]; exact Option.some_ne_none _, ?_⟩
      refine hd.custody_stmt hframes hstmt h (fun _ _ => rfl) fun _ => Or.inr (Or.inr ?_)
      exact ⟨decide_eq_true hup, decide_eq_false hnew, rfl⟩
  · have hnew : pc.op ≠ some (.up s) := fun heq => hup (stmt_op hstmt heq)
    exact Or.inl ⟨hkeep ((decide_eq_false hnew).trans (decide_eq_false hup).symm), fun heq => absurd heq hup⟩

/-- No `sema_down` returns that has got no unit. -/
theorem Held.ended_ne (h : Held s m) : m.ended l ≠ some (.down s) := by
  intro hended
  cases l with
  | step =>
      cases hframes : m.frames m.current with
      | nil =>
          rw [Machine.ended, hframes] at hended
          cases hended
      | cons f rest =>
          obtain ⟨pc, o⟩ := f
          have hmem : (⟨pc, o⟩ : Frame) ∈ m.frames m.current := hframes ▸ List.mem_cons_self ..
          rw [Machine.ended, hframes] at hended
          by_cases hpc : pc = .ret
          · subst hpc
            obtain ⟨hearly, -⟩ | ⟨hqueued, -⟩ := h.waits _ _ hmem hended
            · cases hearly
            · cases hqueued
          · split at hended
            · rename_i heq
              cases heq
              exact hpc rfl
            · cases hended
  | _ => cases hended

theorem Usage.after_outs (h : m.ended l ≠ some (.down s)) : (u.after s m l).outs = u.outs := if_neg h

theorem Usage.after_ups (h : m.begun l ≠ some (.up s)) : (u.after s m l).ups = u.ups := if_neg h

theorem Lived.stmt (h : Lived s (m, u)) (hd : Discipline m builder) (hq : QueueInv m seq charge)
    (hframes : m.frames m.current = f :: rest) (hstmt : Preempt.stmt m.kernel m.current f.pc = some (e, pc))
    (hbegun : m.begun l = none) :
    Lived s ((m.setFrames m.current (⟨pc, f.origin⟩ :: rest)).apply e, u.after s m l) := by
  have hups : (u.after s m l).ups = u.ups := Usage.after_ups (op_ne_of_none _ hbegun)
  intro hone
  obtain ⟨who, hraisers, hwho, hstage⟩ := h (hups ▸ hone)
  have hwho' : who ≠ none → (u.after s m l).ups = 1 := fun hne => hups.trans (hwho hne)
  obtain ⟨hkeep, hgo⟩ | ⟨hne, hover⟩ := hraisers.stmt hd hframes hstmt
  · refine ⟨who, hkeep, hwho', ?_⟩
    obtain ⟨hnone, hover⟩ | ⟨houts, hheld⟩ := hstage
    · exact Or.inl ⟨hnone, hups.trans hover⟩
    · exact Or.inr ⟨(Usage.after_outs hheld.ended_ne).trans houts, hheld.stmt hd hq hframes hstmt hgo⟩
  · exact ⟨none, hover, fun hne => absurd rfl hne, Or.inl ⟨rfl, hwho' hne⟩⟩

/-- A step that is no statement, and begins an operation or none. -/
theorem Lived.quiet (h : Lived s (m, u)) (hheld : Held s m → Held s m')
    (hraisers : ∀ who, Raisers s m.frames who → (m.begun l = some (.up s) → who = none) →
      Raisers s m'.frames (if m.begun l = some (.up s) then some m.current else who)) : Lived s (m', u.after s m l) := by
  intro hone
  by_cases hbegun : m.begun l = some (.up s)
  · have hups : (u.after s m l).ups = u.ups + 1 := if_pos hbegun
    have hone : (u.after s m l).ups ≤ 1 := hone
    obtain ⟨who, hwhoever, hwho, hstage⟩ := h (show u.ups ≤ 1 by omega)
    have hwho : who ≠ none → u.ups = 1 := hwho
    have hnone : who = none := by
      by_contra hne
      have := hwho hne
      omega
    have hnew := hraisers who hwhoever fun _ => hnone
    rw [if_pos hbegun] at hnew
    obtain ⟨-, hover⟩ | ⟨houts, hheld'⟩ := hstage
    · have hover : u.ups = 1 := hover
      omega
    · refine ⟨_, hnew, fun _ => ?_, Or.inr ⟨(Usage.after_outs hheld'.ended_ne).trans houts, hheld hheld'⟩⟩
      show (u.after s m l).ups = 1
      omega
  · have hups : (u.after s m l).ups = u.ups := Usage.after_ups hbegun
    obtain ⟨who, hwhoever, hwho, hstage⟩ := h (hups ▸ hone)
    have hnew := hraisers who hwhoever fun heq => absurd heq hbegun
    rw [if_neg hbegun] at hnew
    refine ⟨who, hnew, fun hne => hups.trans (hwho hne), ?_⟩
    obtain ⟨hnone, hover⟩ | ⟨houts, hheld'⟩ := hstage
    · exact Or.inl ⟨hnone, hups.trans hover⟩
    · exact Or.inr ⟨(Usage.after_outs hheld'.ended_ne).trans houts, hheld hheld'⟩

/-- A step of a handler begins an operation where the last one returns. -/
theorem Machine.begun_step (hframes : m.frames m.current = f :: rest) :
    m.begun .step = if f.pc = .ret then f.origin.proceed.bind fun g => g.pc.op else none := by
  obtain ⟨pc, o⟩ := f
  show m.opBegun .step = _
  rw [Machine.opBegun, hframes]
  by_cases hpc : pc = .ret
  · subst hpc
    rw [if_pos rfl]
    cases o with
    | device op ops late =>
        cases ops with
        | nil => rfl
        | cons op' ops => exact op'.op_entry.symm
    | _ => rfl
  · rw [if_neg hpc]
    split
    · rename_i heq
      cases heq
      exact absurd rfl hpc
    · rfl

/-- An entry puts a frame on the stack, or a handler goes on to its next operation. -/
theorem Lived.enter (h : Lived s (m, u)) {b : Bool} (hbare : g.pc.bare = true) (hop : g.pc.op = g.origin.op)
    (hbegun : m.begun l = g.pc.op) {stack : List Frame}
    (hstack : stack = m.frames m.current ∨ ∃ f, m.frames m.current = f :: stack ∧ f.pc = .ret) :
    Lived s ({ m.setFrames m.current (g :: stack) with intr := b }, u.after s m l) := by
  refine h.quiet (fun hheld => hheld.quiet (c := m.current) (fun f hf => ?_) (fun f hf hdown => ?_) (Or.inl rfl))
    fun who hr hfree => ?_
  · obtain rfl | ⟨f', hframes, hpc⟩ := hstack
    · exact Or.inl (List.mem_cons_of_mem _ hf)
    · rw [hframes] at hf
      obtain rfl | hf := List.mem_cons.mp hf
      · exact Or.inr (by rw [hpc]; rfl)
      · exact Or.inl (List.mem_cons_of_mem _ hf)
  · obtain rfl | hf := List.mem_cons.mp hf
    · exact Or.inr (Or.inl ⟨Pc.early_of_bare hbare (hop.trans hdown), hop.trans hdown⟩)
    · obtain rfl | ⟨f', hframes, -⟩ := hstack
      · exact Or.inl hf
      · exact Or.inl (hframes ▸ List.mem_cons_of_mem _ hf)
  · rw [hbegun] at hfree ⊢
    obtain rfl | ⟨f', hframes, hpc⟩ := hstack
    · exact hr.push hfree
    · exact hr.replace hframes (by rw [hpc]; rfl) hfree

/-- `schedule` leaves a place of the current task for one behind `switch_to`. -/
theorem Lived.leave (h : Lived s (m, u)) (hq : QueueInv m seq charge) (hkept : Kept (fun _ _ f => f.pc.waking ≠ none) m)
    (hframes : m.frames m.current = f :: rest) {next : Word} (hpc : f.pc = .schSwitch next) {b : Bool}
    (hpost : pc = .schSti ∧ next = m.current ∨ pc = .schPost ∧ next ≠ m.current) :
    Lived s ({ (m.setFrames m.current (⟨pc, f.origin.waited⟩ :: rest)).switchTo next with intr := b }, u.after s m .step) := by
  have hnone : m.begun .step = none := by
    rw [Machine.begun_step hframes, if_neg (by rw [hpc]; exact Pc.noConfusion)]
  have hop : f.pc.op = none ∧ pc.op = none := by
    obtain ⟨rfl, -⟩ | ⟨rfl, -⟩ := hpost <;> exact ⟨by rw [hpc]; rfl, rfl⟩
  have hnot := not_awaits_of_switch (s := s) hq hkept hframes hpc
  refine h.quiet (fun hheld => hheld.quiet (fun g hg => ?_) (fun g hg hdown => ?_) (Or.inr hnot)) fun who hr hfree => ?_
  · rw [hframes] at hg
    obtain rfl | hg := List.mem_cons.mp hg
    · exact Or.inr hop.1
    · exact Or.inl (List.mem_cons_of_mem _ hg)
  · obtain rfl | hg := List.mem_cons.mp hg
    · rw [Origin.op_waited] at hdown
      have hearly : f.pc.early = false := by rw [hpc]; rfl
      obtain ⟨hearly', -⟩ | ⟨-, hawaits⟩ := hheld.waits _ f (hframes ▸ List.mem_cons_self ..) hdown
      · exact absurd (hearly.symm.trans hearly') Bool.false_ne_true
      · obtain ⟨-, rfl⟩ | ⟨hpost, hne⟩ := hpost
        · exact absurd hawaits hnot
        · exact Or.inr (Or.inr ⟨hpost, hawaits, hne.symm⟩)
    · exact Or.inl (hframes ▸ List.mem_cons_of_mem _ hg)
  · have hnew := hr.replace (g := ⟨pc, f.origin.waited⟩) hframes hop.1 fun heq => absurd heq (op_ne_of_none _ hop.2)
    rw [if_neg (op_ne_of_none _ hop.2)] at hnew
    rw [if_neg (op_ne_of_none _ hnone)]
    exact hnew

theorem Origin.op_proceed {o : Origin} (h : o.proceed = some g) : g.pc.op = g.origin.op := by
  cases o with
  | device op ops late =>
      cases ops with
      | nil => cases h
      | cons op' ops =>
          cases h
          exact op'.op_entry
  | _ => cases h

theorem Lived.move (h : Lived s (m, u)) (hd : Discipline m builder) (hq : QueueInv m seq charge)
    (hkept : Kept (fun _ _ f => f.pc.waking ≠ none) m) (hmove : Move m l m') : Lived s (m', u.after s m l) := by
  cases hmove with
  | @stmt f rest e pc hframes hstmt _ =>
      refine h.stmt hd hq hframes hstmt ?_
      rw [Machine.begun_step hframes, if_neg fun hpc => by rw [hpc] at hstmt; cases hstmt]
  | @proceed f g rest hframes hpc hnext =>
      refine h.enter (b := m.intr) (Origin.bare_proceed hnext) (Origin.op_proceed hnext) ?_ (Or.inr ⟨f, hframes, hpc⟩)
      rw [Machine.begun_step hframes, if_pos hpc, hnext]
      rfl
  | @ret f rest hframes hpc hlast =>
      have hop : f.pc.op = none := by rw [hpc]; rfl
      have hnone : m.begun .step = none := by
        rw [Machine.begun_step hframes, if_pos hpc, hlast]
        rfl
      refine h.quiet (fun hheld => hheld.quiet (c := m.current) (fun g hg => ?_) (fun g hg _ => ?_) (Or.inl rfl))
        fun who hr _ => ?_
      · rw [hframes] at hg
        obtain rfl | hg := List.mem_cons.mp hg
        · exact Or.inr hop
        · exact Or.inl hg
      · exact Or.inl (hframes ▸ List.mem_cons_of_mem _ hg)
      · rw [if_neg (op_ne_of_none _ hnone)]
        exact Custody.pop hr hframes fun _ => decide_eq_false (op_ne_of_none _ hop)
  | @stay f rest hframes hpc => exact h.leave (b := m.intr) hq hkept hframes hpc (Or.inl ⟨rfl, rfl⟩)
  | @switch f rest next hframes hpc hne hsaved => exact h.leave (b := m.intr) hq hkept hframes hpc (Or.inr ⟨rfl, hne⟩)
  | @call c hframes hallowed =>
      exact h.enter (b := m.intr) (g := ⟨c.entry, .call c⟩) (l := .call c) c.bare_entry c.op_entry c.op_entry.symm
        (Or.inl hframes.symm)
  | timer hintr => exact h.enter (g := ⟨.schRead, .timer⟩) rfl rfl rfl (Or.inl rfl)
  | @device op ops hintr =>
      exact h.enter (g := ⟨op.entry, .device op ops false⟩) (l := .device op ops) op.bare_entry op.op_entry
        op.op_entry.symm (Or.inl rfl)

end

/-! ## Runs -/

theorem kept_reachable {m : Machine} (h : (system.restrict WakesAtOnce).Reachable m) :
    Kept (fun _ _ f => f.pc.waking ≠ none) m := by
  refine (system.restrict WakesAtOnce).invariant (fun m hstart => ?_) (fun m l m' hr hm hstep => ?_) h
  · obtain ⟨k, sem, -, -, rfl⟩ := hstart
    exact Kept.start isSection_waking _
  · obtain ⟨builder, hd⟩ := discipline_reachable (system.reachable_of_restrict hr)
    obtain ⟨seq, charge, hq⟩ := queueInv_reachable (system.restrict_mono (fun _ _ hok => hok.2) hr)
    obtain ⟨hok, hnext⟩ := hstep
    have hmove := Machine.next_move hnext
    refine hm.move isSection_waking hd hq.prompt hmove (fun _ _ _ _ _ _ _ _ _ hin => hin) fun hl => ?_
    subst hl
    exact hm.free_of_timer hd hmove fun f hf => not_not.mpr (hok.1 rfl f hf)

theorem lived_reachable {s : Word} {p : Machine × Usage} (h : (lifetime (system.restrict WakesAtOnce) s).Reachable p) :
    Lived s p := by
  refine TransitionSystem.invariant _ (fun p hinit => ?_) (fun p l p' hr hp hstep => ?_) h
  · obtain ⟨-, hunused, hzero⟩ := hinit
    refine fun _ => ⟨none, fun t _ => List.countP_eq_zero.mpr fun f hf hup => ?_, fun hne => absurd rfl hne, Or.inr ⟨?_, ?_⟩⟩
    · exact (hunused.free t f hf).2 (of_decide_eq_true hup)
    · rw [hzero]
    · exact ⟨Or.inl hunused.count, fun t f hf hdown => absurd hdown (hunused.free t f hf).1,
        fun f hf hdown => absurd hdown (hunused.free _ f hf).1⟩
  · have hreach := TransitionSystem.reachable_of_record _ hr
    obtain ⟨builder, hd⟩ := discipline_reachable (system.reachable_of_restrict hreach)
    obtain ⟨seq, charge, hq⟩ := queueInv_reachable (system.restrict_mono (fun _ _ hok => hok.2) hreach)
    obtain ⟨m', u'⟩ := p'
    obtain ⟨⟨-, hnext⟩, rfl⟩ := hstep
    exact hp.move hd hq (kept_reachable hreach) (Machine.next_move hnext)

/-- When the timer leaves `sema_up` alone between `list_pop` and `spin_unlock` and `schedule` only dispatches tasks that can run, a `sema_up` has made its last access when the `sema_down` that it lets go on returns. -/
theorem downOutlived_reachable {s : Word} {p : Machine × Usage}
    (h : (lifetime (system.restrict WakesAtOnce) s).Reachable p) : DownOutlived s p := by
  intro hups houts t f hf hup
  obtain ⟨who, hraisers, -, ⟨rfl, -⟩ | ⟨hnone, -⟩⟩ := lived_reachable h hups
  · exact absurd (decide_eq_true hup) (Bool.eq_false_iff.mp (Custody.free_of_none hraisers (r := ()) rfl hf))
  · omega

theorem unused_smallStart : Unused 0xc0110f00 smallStart := by
  refine ⟨by decide +kernel, fun t f hf => ?_⟩
  rw [Machine.mem_frames_start hf]
  exact ⟨nofun, nofun⟩

/-- The first task waits as at the end of `sched_init`, and an idle task wakes it; the interrupts of the idle task before its `spin_unlock` bring the first task back, whose `sema_down` returns. -/
private def handOver (interrupts : List Label) : List Label :=
  [.call (.semaDown 0xc0110f00)] ++ steps 16 ++ [.call (.semaUp 0xc0110f00)] ++ steps 10 ++ interrupts ++
    [.timer] ++ steps 12 ++ [.timer] ++ steps 11 ++ [.timer] ++ steps 12

/-- A timer interrupt right before the idle task's `spin_unlock`. -/
theorem not_downOutlived : ¬ ∀ s p, (lifetime system s).Reachable p → DownOutlived s p := by
  intro h
  obtain ⟨⟨m, u⟩, hreach, hu, hup⟩ := exists_record_run SparesExposed (⟨0, 0⟩ : Usage) (Usage.after 0xc0110f00)
    unused_smallStart (handOver ([.timer] ++ steps 11)) (fun p => p.2 = ⟨1, 1⟩ ∧
      ⟨.upUnlock 0xc0110f00 (some 0xc0110000), .call (.semaUp 0xc0110f00)⟩ ∈ p.1.frames 0xc0201000) (by decide +kernel)
  have hu : u = ⟨1, 1⟩ := hu
  subst hu
  exact h _ _ (TransitionSystem.record_of_restrict _ hreach) (Nat.le_refl 1) Nat.one_pos _ _ hup rfl

/-- The idle task comes to its `spin_unlock` and on to its end before the timer interrupts it. -/
theorem downOutlived_reachable_smallStart : ∃ p, (lifetime (system.restrict WakesAtOnce) 0xc0110f00).Reachable p ∧
    p.2 = ⟨1, 1⟩ ∧ ∀ t, ∀ f ∈ p.1.frames t, f.pc.op ≠ some (.up 0xc0110f00) := by
  obtain ⟨⟨m, u⟩, hreach, hu⟩ := exists_record_run WakesAtOnce (⟨0, 0⟩ : Usage) (Usage.after 0xc0110f00) unused_smallStart
    (handOver (steps 2 ++ [.timer] ++ steps 11)) (fun p => p.2 = ⟨1, 1⟩) (by decide +kernel)
  have hu : u = ⟨1, 1⟩ := hu
  subst hu
  exact ⟨_, hreach, rfl, downOutlived_reachable hreach (Nat.le_refl 1) Nat.one_pos⟩

end I386Kernel.Preempt
