import I386Kernel.Interrupt.Serial

/-!
# When `serial_interrupt` blocks

What `serial_interrupt` does is settled by the state it finds: it reaches its end of interrupt exactly if `sema_write` can be passed without waiting and, where somebody waits for it, the lists are free. Runs whose interrupts all find such a state never block in the handler.
-/

namespace I386Kernel.Serial

variable {τ : Type} [DecidableEq τ] {m m' : Machine τ} {pc : Pc τ} {rest : List (Pc τ)}

namespace Machine

@[simp] theorem stack_goto (m : Machine τ) (pcs : List (Pc τ)) : (m.goto pcs).stack m.current = pcs :=
  Function.update_self ..

/-- A statement other than `switch_to` does not look at the stack it is taken from. -/
theorem exec_goto (m : Machine τ) (pcs rest : List (Pc τ)) (hpc : pc.leaves = false) :
    (m.goto pcs).exec rest pc = m.exec rest pc := by
  cases pc <;>
    first
    | simp only [exec, goto, setStatus, listAddTail, Function.update_idem]; done
    | simp only [exec, goto, Function.update_idem]; rfl
    | cases hpc

end Machine

/-! ## One statement of the handler -/

/-- Places where the handler goes on by itself. -/
def Pc.plain : Pc τ → Bool
  | poll _ | eoi => false
  | pc => !pc.leaves

omit [DecidableEq τ] in
theorem Pc.leaves_of_plain (h : pc.plain = true) : pc.leaves = false := by
  cases pc <;> first | rfl | cases h

theorem handled_iff_of_exec (hplain : pc.plain = true) (hexec : m.exec rest pc = some m') :
    Handled (m.goto (pc :: rest)) ↔ Handled m' := by
  have htop := m.stack_goto (pc :: rest)
  have hexec' := (m.exec_goto (pc :: rest) rest (Pc.leaves_of_plain hplain)).trans hexec
  refine ⟨fun h => ?_, .step htop (Pc.leaves_of_plain hplain) hexec'⟩
  cases h with
  | eoi htop' =>
      cases htop.symm.trans htop'
      cases hplain
  | step htop' hpc hexec₂ h =>
      cases htop.symm.trans htop'
      cases hexec'.symm.trans hexec₂
      exact h
  | wait htop' h =>
      cases htop.symm.trans htop'
      cases hplain

/-- A handler that cannot go on, or that is about to block, does not reach its end. -/
theorem not_handled (hstuck : pc.leaves = true ∨ pc.plain = true ∧ m.exec rest pc = none) :
    ¬Handled (m.goto (pc :: rest)) := by
  have htop := m.stack_goto (pc :: rest)
  intro h
  cases h with
  | eoi htop' =>
      cases htop.symm.trans htop'
      exact hstuck.elim nofun fun h => nomatch h.1
  | step htop' hpc hexec h =>
      cases htop.symm.trans htop'
      rw [m.exec_goto _ _ hpc] at hexec
      obtain hleaves | ⟨-, hnone⟩ := hstuck
      · cases hpc.symm.trans hleaves
      · cases hnone.symm.trans hexec
  | wait htop' h =>
      cases htop.symm.trans htop'
      exact hstuck.elim nofun fun h => nomatch h.1

omit [DecidableEq τ] in
theorem setThre_self (h : m.thre = true) : { m with thre := true } = m := by
  rw [← h]

theorem handled_poll {ch : UInt8} :
    Handled (m.goto (.poll ch :: rest)) ↔ Handled ({ m with thre := true }.goto (.out ch :: rest)) := by
  constructor
  · intro h
    generalize hm : m.goto (.poll ch :: rest) = m₁ at h
    induction h generalizing m with
    | eoi htop' =>
        subst hm
        cases (m.stack_goto _).symm.trans htop'
    | step htop' hpc hexec h =>
        subst hm
        cases (m.stack_goto _).symm.trans htop'
        rw [m.exec_goto _ _ rfl] at hexec
        obtain ⟨hthre, heq⟩ := Option.ite_none_right_eq_some.mp hexec
        cases heq
        rw [setThre_self hthre]
        exact h
    | wait htop' h ih =>
        subst hm
        exact ih (m := { m with thre := true }) rfl
  · intro h
    refine .wait (m.stack_goto _) (.step (m.stack_goto _) rfl ?_ h)
    exact (Machine.exec_goto { m with thre := true } (.poll ch :: rest) rest (show Pc.leaves (.poll ch) = false from rfl)).trans rfl

/-! ## `sema_down` and `sema_up` -/

/-- `sema_down` comes back exactly if the lock is free and the count is positive. -/
theorem handled_semaDown : Handled (m.goto (.downLock :: rest)) ↔
    m.slock = false ∧ 0 < m.count ∧ Handled ({ m with slock := false, count := m.count - 1 }.goto rest) := by
  by_cases hslock : m.slock = true
  · refine iff_of_false (not_handled (Or.inr ⟨rfl, if_pos hslock⟩)) fun h => ?_
    exact Bool.false_ne_true (h.1.symm.trans hslock)
  have hlock : m.exec rest .downLock = some ({ m with slock := true }.goto (.downTest :: rest)) := if_neg hslock
  rw [handled_iff_of_exec rfl hlock, and_iff_right (Bool.not_eq_true _ ▸ hslock)]
  refine Iff.trans (handled_iff_of_exec rfl rfl) ?_
  by_cases hcount : m.count ≤ 0
  · rw [if_pos hcount]
    exact iff_of_false (not_handled (Or.inl rfl)) fun h => Int.not_lt.mpr hcount h.1
  · rw [if_neg hcount, and_iff_right (Int.not_le.mp hcount)]
    refine Iff.trans (handled_iff_of_exec rfl rfl) ?_
    exact handled_iff_of_exec rfl rfl

/-- `task_resume` comes back exactly if the lock of the lists is free. -/
theorem handled_resume (m : Machine τ) (rest : List (Pc τ)) (w : τ) : ∃ m' : Machine τ,
    (Handled (m.goto (.resLock w :: rest)) ↔ m.listSlock = false ∧ Handled (m'.goto (.upUnlock :: rest))) ∧
      m'.slock = m.slock ∧ m'.count = m.count ∧ m'.listSlock = false ∧ m'.wait = m.wait := by
  by_cases hlist : m.listSlock = true
  · refine ⟨{ m with listSlock := false }, iff_of_false (not_handled (Or.inr ⟨rfl, if_pos hlist⟩)) fun h => ?_, rfl, rfl, rfl, rfl⟩
    exact Bool.false_ne_true (h.1.symm.trans hlist)
  have hlock : m.exec rest (.resLock w) = some ({ m with listSlock := true }.goto (.resTest w :: rest)) := if_neg hlist
  have hfree : m.listSlock = false := Bool.not_eq_true _ ▸ hlist
  rw [handled_iff_of_exec rfl hlock]
  simp only [hfree, true_and]
  by_cases hblocked : m.status w = .blocked
  · refine ⟨{ (m.setStatus w .running).listAddTail (m.priority w) w with listSlock := false }, ?_, rfl, rfl, rfl, rfl⟩
    refine Iff.trans (handled_iff_of_exec rfl rfl) ?_
    rw [if_pos hblocked]
    refine Iff.trans (handled_iff_of_exec rfl rfl) (Iff.trans (handled_iff_of_exec rfl rfl) ?_)
    exact handled_iff_of_exec rfl rfl
  · refine ⟨{ m with listSlock := false }, ?_, rfl, rfl, rfl, rfl⟩
    refine Iff.trans (handled_iff_of_exec rfl rfl) ?_
    rw [if_neg hblocked]
    exact handled_iff_of_exec rfl rfl

/-- `sema_up` of a count that comes to be positive comes back exactly if its lock is free, and where somebody waits, that of the lists as well. -/
theorem handled_semaUp (m : Machine τ) (rest : List (Pc τ)) (hcount : 0 < int32 (m.count + 1)) : ∃ m' : Machine τ,
    (Handled (m.goto (.upLock :: rest)) ↔
      m.slock = false ∧ (m.listSlock = false ∨ m.wait = []) ∧ Handled (m'.goto rest)) ∧
      m'.slock = false ∧ m'.count = int32 (m.count + 1) ∧ (m.listSlock = false → m'.listSlock = false) ∧
      m'.wait = m.wait.tail := by
  by_cases hslock : m.slock = true
  · refine ⟨{ m with slock := false, count := int32 (m.count + 1), wait := m.wait.tail },
      iff_of_false (not_handled (Or.inr ⟨rfl, if_pos hslock⟩)) fun h => ?_, rfl, rfl, id, rfl⟩
    exact Bool.false_ne_true (h.1.symm.trans hslock)
  have hlock : m.exec rest .upLock = some ({ m with slock := true }.goto (.upInc :: rest)) := if_neg hslock
  have hfree : m.slock = false := Bool.not_eq_true _ ▸ hslock
  rw [handled_iff_of_exec rfl hlock]
  simp only [hfree, true_and]
  have hinc : Handled ({ m with slock := true }.goto (.upInc :: rest)) ↔
      Handled ({ m with slock := true, count := int32 (m.count + 1) }.goto
        ((if m.wait = [] then .upUnlock else .upPop) :: rest)) := by
    refine Iff.trans (handled_iff_of_exec rfl rfl) ?_
    rw [if_pos hcount]
    exact handled_iff_of_exec rfl rfl
  rw [hinc]
  by_cases hwait : m.wait = []
  · refine ⟨{ m with slock := false, count := int32 (m.count + 1) }, ?_, rfl, rfl, id, ?_⟩
    · rw [if_pos hwait, and_iff_right (Or.inr hwait)]
      exact handled_iff_of_exec rfl rfl
    · rw [hwait]
      rfl
  · obtain ⟨w, ws, hcons⟩ := List.exists_cons_of_ne_nil hwait
    obtain ⟨m', hresume, -, hcount', hlist', hwait'⟩ := handled_resume
      { m with slock := true, count := int32 (m.count + 1), wait := m.wait.tail } rest w
    refine ⟨{ m' with slock := false }, ?_, rfl, hcount', fun _ => hlist', hwait'⟩
    have hpop : Machine.exec { m with slock := true, count := int32 (m.count + 1) } rest .upPop =
        some ({ m with slock := true, count := int32 (m.count + 1), wait := m.wait.tail }.goto (.resLock w :: rest)) := by
      show m.wait.head?.map _ = _
      rw [hcons]
      rfl
    rw [if_neg hwait, handled_iff_of_exec rfl hpop, hresume, or_iff_left hwait]
    exact and_congr_right fun _ => handled_iff_of_exec rfl rfl

/-! ## `serial_putc` and `serial_interrupt` -/

/-- The condition for `serial_putc` to come back without waiting. -/
def Passable (m : Machine τ) : Prop := m.slock = false ∧ 0 < m.count ∧ (m.listSlock = false ∨ m.wait = [])

theorem handled_putc (m : Machine τ) (rest : List (Pc τ)) (ch : UInt8) (hmax : m.count < 2 ^ 31) : ∃ m' : Machine τ,
    (Handled (m.goto (.down ch :: rest)) ↔ Passable m ∧ Handled (m'.goto rest)) ∧
      m'.count = m.count ∧ (Passable m → Passable m') := by
  have hdown : Handled (m.goto (.down ch :: rest)) ↔ m.slock = false ∧ 0 < m.count ∧
      Handled ({ m with slock := false, count := m.count - 1, thre := false }.goto (.upLock :: rest)) := by
    refine Iff.trans (handled_iff_of_exec rfl rfl) (Iff.trans handled_semaDown ?_)
    refine and_congr_right fun _ => and_congr_right fun _ => ?_
    exact Iff.trans handled_poll (handled_iff_of_exec rfl rfl)
  by_cases hcount : 0 < m.count
  · have hsame : int32 (m.count - 1 + 1) = m.count := by
      rw [int32]
      omega
    obtain ⟨m', hup, hslock', hcount', hlist', hwait'⟩ := handled_semaUp
      { m with slock := false, count := m.count - 1, thre := false } rest (hsame.symm ▸ hcount)
    refine ⟨m', ?_, hcount'.trans hsame, fun hpass => ⟨hslock', ?_, ?_⟩⟩
    · rw [hdown, hup, and_iff_right rfl, Passable, and_assoc, and_assoc]
    · rw [hcount', hsame]
      exact hcount
    · refine hpass.2.2.imp hlist' fun hwait => ?_
      rw [hwait']
      show m.wait.tail = []
      rw [hwait]
      rfl
  · exact ⟨m, iff_of_false (fun h => hcount (hdown.mp h).2.1) fun h => hcount h.1.2.1, rfl, id⟩

/-- `serial_interrupt` reaches its end of interrupt exactly if it is taken where `serial_putc` does not wait; a carriage return makes no difference. -/
theorem handled_interrupt_iff (m : Machine τ) (ch : UInt8) (hmax : m.count < 2 ^ 31) :
    Handled (m.interrupt ch) ↔ Calm m (.rx ch) := by
  have hentry : Handled (m.interrupt ch) ↔
      Handled ({ m with intr := false }.goto (.down ch :: .again ch :: m.stack m.current)) :=
    Iff.trans (handled_iff_of_exec (m := { m with intr := false }) rfl rfl) (handled_iff_of_exec rfl rfl)
  have hier : ∀ m' : Machine τ, Handled (m'.goto (.ier :: m.stack m.current)) := fun m' =>
    (handled_iff_of_exec rfl rfl).mpr (.eoi (Machine.stack_goto _ _))
  obtain ⟨m₁, hputc, hcount₁, hpass₁⟩ := handled_putc { m with intr := false } (.again ch :: m.stack m.current) ch hmax
  rw [hentry, hputc]
  refine and_iff_left_of_imp fun hpass => (handled_iff_of_exec rfl rfl).mpr ?_
  by_cases hch : ch = ascii '\r'
  · rw [if_pos hch]
    obtain ⟨m₂, hputc₂, -, -⟩ := handled_putc m₁ (.ier :: m.stack m.current) (ascii '\n') (hcount₁ ▸ hmax)
    exact hputc₂.mpr ⟨hpass₁ hpass, hier m₂⟩
  · rw [if_neg hch]
    exact hier m₁

/-! ## Steps -/

/-- The number of calls of `serial_interrupt` in progress. -/
def handlers (pcs : List (Pc τ)) : Nat := pcs.countP Pc.handler

omit [DecidableEq τ] in
theorem inHandler_iff {t : τ} : InHandler m t ↔ 0 < handlers (m.stack t) := List.countP_pos_iff.symm

omit [DecidableEq τ] in
@[simp] theorem handlers_cons (pc : Pc τ) (pcs : List (Pc τ)) :
    handlers (pc :: pcs) = handlers pcs + if pc.handler then 1 else 0 := List.countP_cons ..

/-- A statement enters no handler, and the end of interrupt leaves one. -/
theorem stack_of_exec (h : m.exec rest pc = some m') : ∃ pcs, m'.stack = Function.update m.stack m.current pcs ∧
    handlers pcs ≤ handlers (pc :: rest) ∧ (pc = .eoi → pcs = .iret :: rest) := by
  cases pc <;>
    simp only [Machine.exec, Option.some.injEq, Option.ite_none_left_eq_some, Option.ite_none_right_eq_some,
      Option.map_eq_some_iff] at h
  case downTest | upInc | upEmpty | resTest | schTest | again =>
    subst h
    refine ⟨_, rfl, ?_, nofun⟩
    split <;> simp [Pc.handler]
  case poll | downLock | suspLock | upLock | resLock | rotLock =>
    obtain ⟨-, rfl⟩ := h
    exact ⟨_, rfl, by simp [Pc.handler], nofun⟩
  case upPop | schRead =>
    obtain ⟨w, -, rfl⟩ := h
    exact ⟨_, rfl, by simp [Pc.handler], nofun⟩
  case eoi =>
    subst h
    exact ⟨_, rfl, by simp [Pc.handler], fun _ => rfl⟩
  all_goals
    subst h
    exact ⟨_, rfl, by simp [Pc.handler], nofun⟩

/-- A statement of the handler stays with the current task and keeps interrupts disabled. -/
theorem frame_of_exec (h : m.exec rest pc = some m') (hpc : pc.leaves = false) :
    m'.current = m.current ∧ m'.intr = m.intr := by
  cases pc <;>
    simp only [Machine.exec, Option.some.injEq, Option.ite_none_left_eq_some, Option.ite_none_right_eq_some,
      Option.map_eq_some_iff] at h
  case poll | downLock | upLock | resLock =>
    obtain ⟨-, rfl⟩ := h
    exact ⟨rfl, rfl⟩
  case upPop =>
    obtain ⟨w, -, rfl⟩ := h
    exact ⟨rfl, rfl⟩
  all_goals
    first
    | subst h; exact ⟨rfl, rfl⟩
    | cases hpc

theorem count_of_exec (h : m.exec rest pc = some m') (hmax : m.count < 2 ^ 31) : m'.count < 2 ^ 31 := by
  cases pc <;>
    simp only [Machine.exec, Option.some.injEq, Option.ite_none_left_eq_some, Option.ite_none_right_eq_some,
      Option.map_eq_some_iff] at h
  case downDec =>
    subst h
    show m.count - 1 < 2 ^ 31
    omega
  case upInc =>
    subst h
    show int32 (m.count + 1) < 2 ^ 31
    rw [int32]
    omega
  case poll | downLock | suspLock | upLock | resLock | rotLock =>
    obtain ⟨-, rfl⟩ := h
    exact hmax
  case upPop | schRead =>
    obtain ⟨w, -, rfl⟩ := h
    exact hmax
  all_goals
    subst h
    exact hmax

/-- Below the end of interrupt, one statement of a handler that reaches it leads to a handler that reaches it. -/
theorem Handled.exec (h : Handled m) (htop : m.stack m.current = pc :: rest) (hexec : m.exec rest pc = some m') :
    pc = .eoi ∨ pc.leaves = false ∧ Handled m' := by
  induction h with
  | eoi htop' =>
      cases htop.symm.trans htop'
      exact Or.inl rfl
  | step htop' hpc hexec' h =>
      cases htop.symm.trans htop'
      cases hexec.symm.trans hexec'
      exact Or.inr ⟨hpc, h⟩
  | @wait m ch rest' htop' h ih =>
      cases htop.symm.trans htop'
      have hthre : m.thre = true := (Option.ite_none_right_eq_some.mp hexec).1
      rw [setThre_self hthre] at ih
      exact ih htop hexec

/-- The transmitter may become empty at any time. -/
theorem Handled.setThre (h : Handled m) : Handled { m with thre := true } := by
  induction h with
  | eoi htop => exact .eoi htop
  | wait htop h ih => exact h
  | @step m m' pc rest htop hpc hexec h ih =>
      have hcases : Machine.exec { m with thre := true } rest pc = some m' ∨
          Machine.exec { m with thre := true } rest pc = some { m' with thre := true } := by
        cases pc <;>
          simp only [Machine.exec, Option.some.injEq, Option.ite_none_left_eq_some, Option.ite_none_right_eq_some,
            Option.map_eq_some_iff] at hexec ⊢
        case out => exact Or.inl hexec
        case poll =>
          obtain ⟨-, rfl⟩ := hexec
          exact Or.inr ⟨trivial, rfl⟩
        case downLock | suspLock | upLock | resLock | rotLock =>
          obtain ⟨hfree, rfl⟩ := hexec
          exact Or.inr ⟨hfree, rfl⟩
        case upPop | schRead =>
          obtain ⟨w, hw, rfl⟩ := hexec
          exact Or.inr ⟨w, hw, rfl⟩
        all_goals
          subst hexec
          exact Or.inr rfl
      obtain hexec' | hexec' := hcases
      · exact .step htop hpc hexec' h
      · exact .step htop hpc hexec' ih

/-! ## Runs -/

structure Inv (m : Machine τ) : Prop where
  count : m.count < 2 ^ 31
  /-- At most one call of `serial_interrupt` is in progress, on the current task with interrupts disabled, and it reaches its end. -/
  handler : ∀ t, InHandler m t → t = m.current ∧ m.intr = false ∧ handlers (m.stack t) ≤ 1 ∧ Handled m

/-- Nothing is asked of a state without a handler. -/
theorem Inv.of_none (hcount : m.count < 2 ^ 31) (h : ∀ t, ¬InHandler m t) : Inv m :=
  ⟨hcount, fun t ht => absurd ht (h t)⟩

namespace Inv

theorem none_of_intr (h : Inv m) (hintr : m.intr = true) (t : τ) : ¬InHandler m t := fun ht =>
  Bool.false_ne_true ((h.handler t ht).2.1.symm.trans hintr)

theorem none_of_stack (h : Inv m) (hstack : m.stack m.current = []) (t : τ) : ¬InHandler m t := by
  intro ht
  obtain ⟨pc, hpc, -⟩ := (h.handler t ht).1 ▸ ht
  rw [hstack] at hpc
  exact List.not_mem_nil hpc

/-- Going to a stack without a handler from a state without one. -/
theorem none_of_update {pcs : List (Pc τ)} (h : ∀ t, ¬InHandler m t) (hstack : m'.stack = Function.update m.stack m.current pcs)
    (hpcs : handlers pcs = 0) (t : τ) : ¬InHandler m' t := by
  rw [inHandler_iff, hstack]
  by_cases ht : t = m.current
  · rw [ht, Function.update_self, hpcs]
    exact Nat.lt_irrefl 0
  · rw [Function.update_of_ne ht, ← inHandler_iff]
    exact h t

omit [DecidableEq τ] in
theorem handlers_of_none (h : ∀ t, ¬InHandler m t) (t : τ) : handlers (m.stack t) = 0 :=
  Nat.eq_zero_of_not_pos fun hpos => h t (inHandler_iff.mpr hpos)

theorem run (h : Inv m) (hrun : m.run = some m') : Inv m' := by
  rw [Machine.run] at hrun
  cases htop : m.stack m.current with
  | nil =>
      rw [htop] at hrun
      cases hrun
  | cons pc rest =>
      rw [htop] at hrun
      obtain ⟨pcs, hstack, hle, heoi⟩ := stack_of_exec hrun
      have hcount := count_of_exec hrun h.count
      by_cases hin : InHandler m m.current
      · obtain ⟨-, hintr, hone, hhandled⟩ := h.handler _ hin
        rw [htop] at hone
        have hothers : ∀ t, t ≠ m.current → ¬InHandler m' t := by
          intro t ht hin'
          rw [inHandler_iff, hstack, Function.update_of_ne ht, ← inHandler_iff] at hin'
          exact ht (h.handler t hin').1
        obtain rfl | ⟨hpc, hhandled'⟩ := hhandled.exec htop hrun
        · refine .of_none hcount fun t ht => ?_
          by_cases heq : t = m.current
          · rw [inHandler_iff, hstack, heq, Function.update_self, heoi rfl] at ht
            rw [handlers_cons] at hone ht
            exact absurd (Nat.lt_of_lt_of_le (Nat.succ_lt_succ ht) hone) (Nat.lt_irrefl 1)
          · exact hothers t heq ht
        · obtain ⟨hcurr, hintr'⟩ := frame_of_exec hrun hpc
          refine ⟨hcount, fun t ht => ?_⟩
          have heq : t = m.current := by
            by_contra hne
            exact hothers t hne ht
          refine ⟨heq.trans hcurr.symm, hintr'.trans hintr, ?_, hhandled'⟩
          rw [hstack, heq, Function.update_self]
          exact Nat.le_trans hle hone
      · have hnone : ∀ t, ¬InHandler m t := fun t ht => hin ((h.handler t ht).1 ▸ ht)
        have hzero := handlers_of_none hnone m.current
        rw [htop] at hzero
        exact .of_none hcount (none_of_update hnone hstack (Nat.le_zero.mp (hzero ▸ hle)))

theorem next (h : Inv m) {l : Label} (hcalm : Calm m l) (hnext : next m l = some m') : Inv m' := by
  cases l with
  | step => exact h.run hnext
  | putc ch =>
      obtain ⟨hstack, heq⟩ := Option.ite_none_right_eq_some.mp hnext
      cases heq
      exact .of_none h.count (none_of_update (h.none_of_stack hstack) rfl rfl)
  | tick =>
      obtain ⟨hintr, heq⟩ := Option.ite_none_right_eq_some.mp hnext
      cases heq
      have hnone := h.none_of_intr hintr
      refine .of_none h.count (none_of_update hnone rfl ?_)
      rw [handlers_cons, handlers_cons, handlers_of_none hnone]
      rfl
  | rx ch =>
      obtain ⟨hintr, heq⟩ := Option.ite_none_right_eq_some.mp hnext
      cases heq
      have hnone := h.none_of_intr hintr
      refine ⟨h.count, fun t ht => ?_⟩
      have heq : t = m.current := by
        by_contra hne
        have hin : InHandler m t := by
          obtain ⟨pc, hpc, hhandler⟩ := ht
          exact ⟨pc, Function.update_of_ne hne _ m.stack ▸ hpc, hhandler⟩
        exact hnone t hin
      refine ⟨heq, rfl, ?_, (handled_interrupt_iff m ch h.count).mpr hcalm⟩
      show handlers (Function.update m.stack m.current _ t) ≤ 1
      rw [heq, Function.update_self, handlers_cons, handlers_of_none hnone]
      rfl
  | empty =>
      cases hnext
      refine ⟨h.count, fun t ht => ?_⟩
      obtain ⟨heq, hintr, hone, hhandled⟩ := h.handler t ht
      exact ⟨heq, hintr, hone, hhandled.setThre⟩

end Inv

theorem inv_start (h : Start m) : Inv m := by
  refine .of_none (by rw [h.count]; decide) fun t ht => ?_
  obtain ⟨pc, hpc, hhandler⟩ := ht
  by_cases heq : t = m.current
  · rw [heq, h.current] at hpc
    exact List.not_mem_nil hpc
  · rw [h.others t heq, List.mem_singleton] at hpc
    subst hpc
    cases hhandler

/-- In the runs whose receive interrupts are taken where `sema_write` can be passed, `serial_interrupt` always reaches its end of interrupt, on the task it interrupted, without `task_suspend` or `schedule`. -/
theorem serialInterrupt_handled (h : ((system τ).restrict Calm).Reachable m) {t : τ} (ht : InHandler m t) :
    t = m.current ∧ m.intr = false ∧ Handled m := by
  have hinv : Inv m := ((system τ).restrict Calm).invariant (fun m hm => inv_start hm)
    (fun m l m' _ hm hstep => hm.next hstep.1 hstep.2) h
  obtain ⟨heq, hintr, -, hhandled⟩ := hinv.handler t ht
  exact ⟨heq, hintr, hhandled⟩

/-! ## Two tasks -/

/-- The first of two tasks runs, and the second has been switched away from. -/
def twoTasks : Machine (Fin 2) where
  slock := false
  listSlock := false
  count := 1
  wait := []
  ready := fun p => if p = prioDefault then [⟨0, Nat.two_pos⟩, ⟨1, Nat.one_lt_two⟩] else []
  priority := fun _ => prioDefault
  status := fun _ => .running
  current := ⟨0, Nat.two_pos⟩
  intr := true
  thre := true
  stack := fun t => if t.val = 0 then [] else [.schSti]

theorem start_twoTasks : Start twoTasks := ⟨rfl, rfl, rfl, rfl, rfl, rfl, by decide⟩

/-- A carriage return arrives while a task is about to take `sema_write`. -/
theorem serialInterrupt_handled_twoTasks : ∃ m, ((system (Fin 2)).restrict Calm).Reachable m ∧
    m.stack 0 = [.down (ascii '\r'), .again (ascii '\r'), .downLock, .poll 0x61] ∧ Handled m := by
  obtain ⟨m, hreach, hstack⟩ : ∃ m, ((system (Fin 2)).restrict Calm).Reachable m ∧
      m.stack 0 = [.down (ascii '\r'), .again (ascii '\r'), .downLock, .poll 0x61] :=
    TransitionSystem.exists_reachable_restrict_exec Calm start_twoTasks
      (.putc 0x61 :: .step :: .rx (ascii '\r') :: List.replicate 2 .step) _ (by decide +kernel)
  refine ⟨m, hreach, hstack, (serialInterrupt_handled hreach (t := 0) ⟨.again (ascii '\r'), ?_, rfl⟩).2.2⟩
  rw [hstack]
  decide

/-- A character that arrives while a task sends one: after `sema_down` of the task the handler waits for `sema_write`, so that the task is blocked and another runs in the middle of the interrupt; and between the lock and the test of that `sema_down` the handler spins on the lock for ever. -/
theorem not_serialInterrupt_handled :
    (∃ m, (system (Fin 2)).Reachable m ∧ InHandler m 0 ∧ m.status 0 = .blocked ∧ m.current = 1) ∧
      ∃ m, (system (Fin 2)).Reachable m ∧ InHandler m 0 ∧ m.current = 0 ∧ m.run = none ∧ m.slock = true ∧
        m.intr = false := by
  constructor
  · have hview : (TransitionSystem.exec next twoTasks (.putc 0x61 :: List.replicate 5 .step ++ .rx 0x78 ::
        List.replicate 16 .step)).map (fun m => (m.stack 0, m.status 0, m.current)) =
          some ([.schSti, .poll 0x78, .again 0x78, .poll 0x61], .blocked, 1) := by decide +kernel
    obtain ⟨m, hm, hview⟩ := Option.map_eq_some_iff.mp hview
    rw [Prod.mk.injEq, Prod.mk.injEq] at hview
    obtain ⟨hstack, hst, hcurr⟩ := hview
    refine ⟨m, TransitionSystem.reachable_exec _ (.init start_twoTasks) hm, ⟨.again 0x78, ?_, rfl⟩, hst, hcurr⟩
    rw [hstack]
    decide
  · have hview : (TransitionSystem.exec next twoTasks (.putc 0x61 :: List.replicate 2 .step ++ .rx 0x78 ::
        List.replicate 3 .step)).map (fun m => (m.stack 0, m.current, m.run.isNone, m.slock, m.intr)) =
          some ([.downLock, .poll 0x78, .again 0x78, .downTest, .poll 0x61], 0, true, true, false) := by decide +kernel
    obtain ⟨m, hm, hview⟩ := Option.map_eq_some_iff.mp hview
    rw [Prod.mk.injEq, Prod.mk.injEq, Prod.mk.injEq, Prod.mk.injEq, Option.isNone_iff_eq_none] at hview
    obtain ⟨hstack, hcurr, hrun, hslock, hintr⟩ := hview
    refine ⟨m, TransitionSystem.reachable_exec _ (.init start_twoTasks) hm, ⟨.again 0x78, ?_, rfl⟩, hcurr, hrun, hslock, hintr⟩
    rw [hstack]
    decide

end I386Kernel.Serial
