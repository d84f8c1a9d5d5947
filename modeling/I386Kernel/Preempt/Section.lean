import I386Kernel.Preempt.Handlers

/-!
# Sections that keep the CPU

A section is a property of frames. If the timer never comes upon a task with a frame in the section, such a frame is on the stack of the task that has the CPU, and all that is above it are handlers of devices, which run to their end.
-/

namespace I386Kernel.Preempt

/-- A frame is in no section where an entry or a dispatch puts it or where it gives up the CPU, and who has the CPU makes no difference. -/
structure IsSection (sec : Kernel → Word → Frame → Prop) : Prop where
  bare : ∀ k t f, f.pc.bare = true → ¬ sec k t f
  first : ∀ k t, ¬ sec k t ⟨.initPost, .fresh⟩
  switch : ∀ k t f next, f.pc = .schSwitch next → ¬ sec k t f
  current : ∀ k c t f, sec { k with current := c } t f → sec k t f

structure Kept (sec : Kernel → Word → Frame → Prop) (m : Machine) : Prop where
  current : ∀ t, ∀ f ∈ m.frames t, sec m.kernel t f → t = m.current
  above : ∀ t, (m.frames t).Pairwise fun g f => sec m.kernel t f → g.origin.isQuick = true

/-- An interrupt does not come upon the handler of a device before that has been through `schedule`. -/
theorem Frame.isQuick_of_masked {f : Frame} (h : f.masked = false) : f.origin.isQuick = false :=
  (Frame.masked_eq_false h).2.1

namespace Kept

variable {sec : Kernel → Word → Frame → Prop} {m m' : Machine} {builder : Word → Option Word} {f : Frame}
  {rest : List Frame}

theorem above_top (h : Kept sec m) {t : Word} (hframes : m.frames t = f :: rest) {g : Frame} (hg : g ∈ rest)
    (hsec : sec m.kernel t g) : f.origin.isQuick = true := by
  have habove := h.above t
  rw [hframes] at habove
  exact (List.pairwise_cons.mp habove).1 g hg hsec

/-- A top frame that is no such handler's and that is not in the section has no frame of it below it. -/
theorem free_of_top (h : Kept sec m) {t : Word} (hframes : m.frames t = f :: rest) (hquick : f.origin.isQuick = false)
    (hf : ¬ sec m.kernel t f) : ∀ g ∈ m.frames t, ¬ sec m.kernel t g := by
  intro g hg hsec
  rw [hframes] at hg
  obtain rfl | hg := List.mem_cons.mp hg
  · exact hf hsec
  · have habove := h.above_top hframes hg hsec
    rw [hquick] at habove
    cases habove

/-- The current task's stack becomes another one, and the CPU goes to `c`. -/
theorem quiet (h : Kept sec m) (hsec : IsSection sec) {stack : List Frame} {b : Bool} {c : Word}
    (hstack : stack.Pairwise fun g f => sec m.kernel m.current f → g.origin.isQuick = true)
    (hfree : c = m.current ∨ ∀ f ∈ stack, ¬ sec m.kernel m.current f) :
    Kept sec { (m.setFrames m.current stack).switchTo c with intr := b } := by
  constructor
  · intro t g hg hin
    have hg : g ∈ Function.update m.frames m.current stack t := hg
    have hin : sec m.kernel t g := hsec.current _ _ _ _ hin
    by_cases ht : t = m.current
    · subst ht
      rw [Function.update_self] at hg
      obtain heq | hfree := hfree
      · exact heq.symm
      · exact absurd hin (hfree g hg)
    · rw [Function.update_of_ne ht] at hg
      exact absurd (h.current t g hg hin) ht
  · intro t
    show (Function.update m.frames m.current stack t).Pairwise _
    have hweak : ∀ {stack : List Frame}, stack.Pairwise (fun g f => sec m.kernel t f → g.origin.isQuick = true) →
        stack.Pairwise fun g f => sec { m.kernel with current := c } t f → g.origin.isQuick = true := fun hp =>
      hp.imp fun hrel hin => hrel (hsec.current _ _ _ _ hin)
    by_cases ht : t = m.current
    · subst ht
      rw [Function.update_self]
      exact hweak hstack
    · rw [Function.update_of_ne ht]
      exact hweak (h.above t)

/-- A statement, which brings no frame into the section but the one it belongs to. -/
theorem stmt (h : Kept sec m) (hsec : IsSection sec) (hd : Discipline m builder) {e : Effect} {pc : Pc}
    (hframes : m.frames m.current = f :: rest) (hstmt : Preempt.stmt m.kernel m.current f.pc = some (e, pc))
    (hstay : ∀ t g, (t ≠ m.current ∧ g ∈ m.frames t) ∨ (t = m.current ∧ g ∈ rest) →
      sec (e.kernel m.kernel) t g → sec m.kernel t g) :
    Kept sec ((m.setFrames m.current (⟨pc, f.origin⟩ :: rest)).apply e) := by
  constructor
  · intro t g hg hin
    refine Eq.trans ?_ (Effect.current_kernel m.kernel e).symm
    obtain ⟨ht, -⟩ | ⟨ht, -⟩ | ⟨ht, hold⟩ | ⟨-, -, rfl⟩ := hd.mem_frames_stmt hframes hstmt hg
    · exact ht
    · exact ht
    · exact h.current t g hold (hstay t g (Or.inl ⟨ht, hold⟩) hin)
    · exact absurd hin (hsec.first _ _)
  · intro t
    by_cases ht : t = m.current
    · subst ht
      have habove := h.above m.current
      rw [hframes, List.pairwise_cons] at habove
      rw [hd.frames_stmt_self hframes hstmt]
      refine List.pairwise_cons.mpr ⟨fun g hg hin => habove.1 g hg (hstay _ g (Or.inr ⟨rfl, hg⟩) hin), ?_⟩
      exact habove.2.imp_of_mem fun _ hg hrel hin => hrel (hstay _ _ (Or.inr ⟨rfl, hg⟩) hin)
    · obtain heq | ⟨-, -, heq⟩ := hd.frames_stmt_of_ne hframes hstmt ht
      · rw [heq]
        exact (h.above t).imp_of_mem fun _ hg hrel hin => hrel (hstay t _ (Or.inl ⟨ht, hg⟩) hin)
      · rw [heq]
        exact List.pairwise_singleton _ _

/-- One step: the timer does not come upon the section. -/
theorem move (h : Kept sec m) (hsec : IsSection sec) (hd : Discipline m builder) (hp : Prompt m) {l : Label}
    (hmove : Move m l m')
    (hstay : ∀ f rest e pc, m.frames m.current = f :: rest → Preempt.stmt m.kernel m.current f.pc = some (e, pc) →
      ∀ t g, (t ≠ m.current ∧ g ∈ m.frames t) ∨ (t = m.current ∧ g ∈ rest) →
        sec (e.kernel m.kernel) t g → sec m.kernel t g)
    (htimer : l = .timer → ∀ f ∈ m.frames m.current, ¬ sec m.kernel m.current f) : Kept sec m' := by
  have habove := h.above m.current
  cases hmove with
  | stmt hframes hstmt henabled => exact h.stmt hsec hd hframes hstmt (hstay _ _ _ _ hframes hstmt)
  | proceed hframes hpc hnext =>
      rw [hframes, List.pairwise_cons] at habove
      obtain ⟨-, -, -, hquick, -, -⟩ := Origin.proceed_eq hnext
      refine h.quiet (b := m.intr) hsec (List.pairwise_cons.mpr ⟨fun g hg hin => ?_, habove.2⟩) (Or.inl rfl)
      exact hquick.trans (habove.1 g hg hin)
  | ret hframes hpc _ =>
      rw [hframes] at habove
      exact h.quiet hsec habove.of_cons (Or.inl rfl)
  | stay hframes hpc =>
      have hprompt := hp.handlers _ _ (hframes ▸ List.mem_cons_self ..)
      rw [hframes, List.pairwise_cons] at habove
      rw [Frame.waited_of_prompt hprompt (by rw [hpc]; rfl)]
      exact h.quiet (b := m.intr) hsec (List.pairwise_cons.mpr habove) (Or.inl rfl)
  | @switch f rest next hframes hpc hne hsaved =>
      have hprompt := hp.handlers _ f (hframes ▸ List.mem_cons_self ..)
      have hpass : f.pc.passing = false := by rw [hpc]; rfl
      have hfree := h.free_of_top hframes (Frame.not_quick hprompt hpass) (hsec.switch _ _ f next hpc)
      rw [hframes, List.pairwise_cons] at habove
      rw [Frame.waited_of_prompt hprompt hpass]
      refine h.quiet (b := m.intr) hsec (List.pairwise_cons.mpr habove) (Or.inr fun g hg => ?_)
      obtain rfl | hg := List.mem_cons.mp hg
      · exact hsec.bare _ _ _ rfl
      · exact hfree g (hframes ▸ List.mem_cons_of_mem _ hg)
  | call hframes hallowed => exact h.quiet (b := m.intr) hsec (List.pairwise_singleton _ _) (Or.inl rfl)
  | timer hintr =>
      have hfree := htimer rfl
      exact h.quiet hsec (List.pairwise_cons.mpr ⟨fun g hg hin => absurd hin (hfree g hg), habove⟩) (Or.inl rfl)
  | device hintr => exact h.quiet hsec (List.pairwise_cons.mpr ⟨fun _ _ _ => rfl, habove⟩) (Or.inl rfl)

/-- The timer comes upon no section when it comes upon none in the top frame. -/
theorem free_of_timer (h : Kept sec m) (hd : Discipline m builder) (hmove : Move m .timer m')
    (htop : ∀ f ∈ (m.frames m.current).head?, ¬ sec m.kernel m.current f) :
    ∀ f ∈ m.frames m.current, ¬ sec m.kernel m.current f := by
  have hclear : ∀ g ∈ m.frames m.current, g.masked = false := by
    cases hmove with
    | timer hintr => exact hd.clear_of_intr hintr
  cases hframes : m.frames m.current with
  | nil => exact fun _ hf => absurd hf List.not_mem_nil
  | cons f rest =>
      have hquick := Frame.isQuick_of_masked (hclear f (hframes ▸ List.mem_cons_self ..))
      exact hframes ▸ h.free_of_top hframes hquick (htop f (by rw [hframes]; rfl))

theorem start (hsec : IsSection sec) (k : Kernel) : Kept sec (Machine.start k) := by
  constructor
  · intro t f hf hin
    rw [Machine.mem_frames_start hf] at hin
    exact absurd hin (hsec.first _ t)
  · intro t
    obtain heq | ⟨heq, -⟩ := Machine.frames_start k t
    · rw [heq]
      exact List.Pairwise.nil
    · rw [heq]
      exact List.pairwise_singleton _ _

end Kept

end I386Kernel.Preempt
