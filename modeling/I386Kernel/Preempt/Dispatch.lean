import I386Kernel.Preempt.Relink
import I386Kernel.Preempt.Runs

/-!
# What `schedule` dispatches and whom `sema_up` wakes

As long as the timer spares the exposed places, every task is linked where its status says or is in the charge of one frame, so that `schedule` only dispatches tasks that can run and no task is lost. Otherwise a task may be chosen and block before it is dispatched, or be marked ready after it has blocked.
-/

namespace I386Kernel.Preempt

namespace QueueInv

variable {m m' : Machine} {seq seq' : Queues} {charge builder : Word → Option Word} {f : Frame} {rest : List Frame}
  {e : Effect} {pc : Pc}

/-! ## Statements -/

/-- A frame below the top one, or of a task that does not run, has chosen a task only at an exposed place. -/
theorem exposed_of_chosen (hd : Discipline m builder) (hframes : m.frames m.current = f :: rest) {t next : Word} {g : Frame}
    (hg : (t = m.current ∧ g ∈ rest) ∨ (t ≠ m.current ∧ g ∈ m.frames t)) (hnext : g.pc.chosen = some next) :
    g.pc.exposed = true := by
  obtain ⟨hplace, -⟩ := Pc.exposed_of_chosen hnext
  refine hplace.resolve_right fun hmasked => ?_
  have hmasked := Frame.masked_of_pc hmasked
  obtain ⟨rfl, hg⟩ | ⟨hne, hg⟩ := hg
  · have hclear := hd.interrupted _ f rest hframes g hg
    exact absurd (hclear.symm.trans hmasked) Bool.false_ne_true
  · obtain ⟨top, rest', htop⟩ := List.exists_cons_of_ne_nil (List.ne_nil_of_mem hg)
    rw [htop] at hg
    obtain rfl | hg := List.mem_cons.mp hg
    · have hnone := Pc.chosen_of_suspended (hd.switched t hne g rest' htop)
      exact absurd (hnone.symm.trans hnext) (Option.some_ne_none _).symm
    · have hclear := hd.interrupted _ top rest' htop g hg
      exact absurd (hclear.symm.trans hmasked) Bool.false_ne_true

/-- Above an exposed place only devices run, and these take nobody off a ready list. -/
theorem ready_of_exposed (h : QueueInv m seq charge) (hframes : m.frames m.current = f :: rest)
    (hstmt : stmt m.kernel m.current f.pc = some (e, pc))
    (ho : Outcome m seq charge f e pc seq') {t : Word} {g : Frame}
    (hg : (t = m.current ∧ g ∈ rest) ∨ (t ≠ m.current ∧ g ∈ m.frames t)) (hexposed : g.pc.exposed = true) {u : Word}
    {p : Fin 64} (hu : u ∈ seq (.ready p)) : u ∈ seq' (.ready p) := by
  obtain ⟨rfl, hg⟩ | ⟨hne, hg⟩ := hg
  · have hquick := h.kept.above_top hframes hg hexposed
    have hpass := Frame.passing_of_quick (h.prompt.handlers _ f (hframes ▸ List.mem_cons_self ..)) hquick
    refine (ho.ready p u hu).resolve_right ?_
    rintro rfl
    exact absurd ((stmt_listDel hstmt).2.2.1.symm.trans hpass) Bool.false_ne_true
  · exact absurd (h.kept.current t g hg hexposed) hne

theorem chosen_stmt (h : QueueInv m seq charge) (hframes : m.frames m.current = f :: rest)
    (hstmt : stmt m.kernel m.current f.pc = some (e, pc)) (ho : Outcome m seq charge f e pc seq') {next : Word}
    (hnext : pc.chosen = some next) :
    next ∈ seq' (.ready prioDefault) ∨ (pc = .rotAdd next ∧ next = m.current) := by
  have hmem : f ∈ m.frames m.current := hframes ▸ List.mem_cons_self ..
  have hready : next ∈ seq (.ready prioDefault) →
      next ∈ seq' (.ready prioDefault) ∨ (pc = .rotAdd next ∧ next = m.current) := by
    intro hmem
    refine (ho.ready _ next hmem).imp_right ?_
    rintro rfl
    obtain ⟨-, rfl, -, hrot⟩ := stmt_listDel hstmt
    obtain ⟨hread, -, heq⟩ | hchosen := stmt_chosen hstmt hnext
    · cases heq
    · exact ⟨hrot _ hchosen, rfl⟩
  obtain ⟨-, hlist, -⟩ | hchosen := stmt_chosen hstmt hnext
  · rw [h.links.listEntry_next (ready_ne_all _)] at hlist
    exact hready (List.mem_of_head? hlist)
  · obtain hold | ⟨hpc, rfl⟩ := h.chosen _ f hmem next hchosen
    · exact hready hold
    · rw [hpc] at hstmt
      cases hstmt
      exact Or.inl (ho.added _ _ rfl)

theorem resumed_stmt (h : QueueInv m seq charge) (hframes : m.frames m.current = f :: rest) {s w : Word}
    (hstmt : stmt m.kernel m.current f.pc = some (e, .resUnlock s w))
    (ho : Outcome m seq charge f e (.resUnlock s w) seq') : (standing (e.kernel m.kernel) seq' w).ready := by
  obtain ⟨p, -, rfl⟩ | ⟨hpc, hblocked⟩ := stmt_resUnlock hstmt
  · exact ⟨p, ho.added _ _ rfl⟩
  · have hfound := h.found _ f (hframes ▸ List.mem_cons_self ..) w (by rw [hpc]; rfl)
    rw [hpc] at hfound
    exact absurd hfound.2.2.2 hblocked

/-- A task that is linked stays so while the `sema_up` that linked it holds `list_slock`. -/
theorem ready_of_resUnlock (hd : Discipline m builder) (hframes : m.frames m.current = f :: rest)
    (hstmt : stmt m.kernel m.current f.pc = some (e, pc)) (ho : Outcome m seq charge f e pc seq') {t s w : Word}
    {g : Frame} (hg : (t = m.current ∧ g ∈ rest) ∨ (t ≠ m.current ∧ g ∈ m.frames t)) (hpc : g.pc = .resUnlock s w)
    (hready : (standing m.kernel seq w).ready) : (standing (e.kernel m.kernel) seq' w).ready := by
  obtain ⟨p, hp⟩ := hready
  refine ⟨p, (ho.ready p w hp).resolve_right ?_⟩
  rintro rfl
  have hlist := (stmt_listDel hstmt).1
  refine of_decide_eq_false (hd.locks.others_free (r := Lock.list) hframes (decide_eq_true hlist) hg) ?_
  rw [hpc]
  exact List.mem_cons_self ..

theorem awake_stmt (h : QueueInv m seq charge) (hd : Discipline m builder)
    (hframes : m.frames m.current = f :: rest) (hstmt : stmt m.kernel m.current f.pc = some (e, pc))
    (hstatus : (e.kernel m.kernel).status m.current = .blocked ∨ (e.kernel m.kernel).status m.current = .dying) :
    ∃ g ∈ (⟨pc, f.origin⟩ : Frame) :: rest, g.pc.leaving = true := by
  obtain hold | ⟨-, -, hleaving⟩ | ⟨hbuilds, hbefore⟩ := h.prompt.status_cases hframes hstmt hstatus
  · obtain ⟨g, hg, hleaving⟩ := h.awake hold
    rw [hframes] at hg
    obtain rfl | hg := List.mem_cons.mp hg
    · exact ⟨_, List.mem_cons_self .., stmt_leaving hstmt hleaving⟩
    · exact ⟨g, List.mem_cons_of_mem _ hg, hleaving⟩
  · exact ⟨_, List.mem_cons_self .., hleaving⟩
  · exact absurd rfl (hd.unstacked _ f (hframes ▸ List.mem_cons_self ..) _ hbuilds hbefore).2

theorem rotates_stmt (h : QueueInv m seq charge) (hframes : m.frames m.current = f :: rest)
    (hd : Discipline m builder) (hstmt : stmt m.kernel m.current f.pc = some (e, pc)) (hrotates : pc.rotates = true) :
    ¬ ((e.kernel m.kernel).status m.current = .blocked ∨ (e.kernel m.kernel).status m.current = .dying) := by
  intro hstatus
  have hmem : f ∈ m.frames m.current := hframes ▸ List.mem_cons_self ..
  obtain ⟨hrunning, hsched⟩ := stmt_rotates hstmt hrotates
  obtain hold | ⟨-, hparks, -⟩ | ⟨hbuilds, hbefore⟩ := h.prompt.status_cases hframes hstmt hstatus
  · obtain hrunning | hrotates := hrunning
    · rw [hrunning] at hold
      obtain hold | hold := hold <;> cases hold
    · exact h.rotates _ f hmem hrotates hold
  · generalize f.pc = pc₀ at hsched hparks
    cases pc₀ <;> first | (cases hsched; done) | cases hparks
  · exact (hd.unstacked _ f hmem _ hbuilds hbefore).2 rfl

theorem stmt (h : QueueInv m seq charge) (hd : Discipline m builder) (hframes : m.frames m.current = f :: rest)
    (hstmt : stmt m.kernel m.current f.pc = some (e, pc)) (ho : Outcome m seq charge f e pc seq')
    (hprompt : Prompt ((m.setFrames m.current (⟨pc, f.origin⟩ :: rest)).apply e)) :
    QueueInv ((m.setFrames m.current (⟨pc, f.origin⟩ :: rest)).apply e) seq'
      (Custody.handed m.current (f.pc.charge m.current) (pc.charge m.current) charge) := by
  have hmem : f ∈ m.frames m.current := hframes ▸ List.mem_cons_self ..
  have hcurrent : ((m.setFrames m.current (⟨pc, f.origin⟩ :: rest)).apply e).current = m.current :=
    Effect.current_kernel m.kernel e
  -- the frame that went on, one that was there, or the first of a new task
  have hcases : ∀ {t g}, g ∈ ((m.setFrames m.current (⟨pc, f.origin⟩ :: rest)).apply e).frames t →
      (t = m.current ∧ g = ⟨pc, f.origin⟩) ∨
        (((t = m.current ∧ g ∈ rest) ∨ (t ≠ m.current ∧ g ∈ m.frames t)) ∧ g ∈ m.frames t) ∨
        g = ⟨.initPost, .fresh⟩ := by
    intro t g hg
    obtain hnew | ⟨rfl, hrest⟩ | hold | ⟨-, -, hfirst⟩ := hd.mem_frames_stmt hframes hstmt hg
    · exact Or.inl hnew
    · exact Or.inr (Or.inl ⟨Or.inl ⟨rfl, hrest⟩, hframes ▸ List.mem_cons_of_mem _ hrest⟩)
    · exact Or.inr (Or.inl ⟨Or.inr hold, hold.2⟩)
    · exact Or.inr (Or.inr hfirst)
  have hcustody := hd.custody_stmt hframes hstmt h.custody (fun _ _ => rfl) fun x =>
    h.custody.handed_change (g := ⟨pc, f.origin⟩) hframes (ho.gained x)
  refine ⟨ho.links, ho.member, hcustody, fun x hx hnone => ?_, fun t g hg x hgx => ?_, fun t g hg hgc => ?_,
    fun hstatus => ?_, fun t g hg next hnext => ?_, fun t g hg hrotates => ?_, fun t g hg s w hpc => ?_,
    h.kept.stmt isSection_exposed hd hframes hstmt fun _ _ _ hin => hin, hprompt⟩
  · obtain ⟨hnew, hold⟩ := Custody.of_handed_eq_none hnone
    exact ho.settled x hx hold.symm hnew
  · obtain ⟨rfl, rfl⟩ | ⟨hother, hold⟩ | rfl := hcases hg
    · exact ho.found x hgx
    · obtain ⟨htask, hfinds⟩ := h.found t g hold x hgx
      have hfree : f.pc.charge m.current ≠ some x := fun hf =>
        of_decide_eq_false (h.custody.others_free hframes (decide_eq_true hf) hother) hgx
      have hholder := h.custody.holder_of_mem hold (decide_eq_true hgx)
      rw [show standing ((m.setFrames m.current (⟨pc, f.origin⟩ :: rest)).apply e).kernel seq' x =
        standing m.kernel seq x from ho.others x hfree (by rw [hholder]; exact Option.some_ne_none _)]
      exact ⟨(Effect.isTask_kernel x).mpr (Or.inl htask), hfinds⟩
    · cases hgx
  · rw [hcurrent] at hgc ⊢
    obtain ⟨rfl, rfl⟩ | ⟨-, hold⟩ | rfl := hcases hg
    · exact ⟨rfl, ho.own hgc⟩
    · exact h.own t g hold hgc
    · cases hgc
  · rw [hcurrent] at hstatus ⊢
    rw [hd.frames_stmt_self hframes hstmt]
    exact h.awake_stmt hd hframes hstmt hstatus
  · obtain ⟨rfl, rfl⟩ | ⟨hother, hold⟩ | rfl := hcases hg
    · exact h.chosen_stmt hframes hstmt ho hnext
    · have hexposed := exposed_of_chosen hd hframes hother hnext
      exact (h.chosen t g hold next hnext).imp_left fun hmem => h.ready_of_exposed hframes hstmt ho hother hexposed hmem
    · cases hnext
  · obtain ⟨rfl, rfl⟩ | ⟨hother, hold⟩ | rfl := hcases hg
    · exact h.rotates_stmt hframes hd hstmt hrotates
    · exact fun hstatus => h.rotates t g hold hrotates (h.prompt.status_stmt hd hframes hstmt hother.symm hstatus)
    · cases hrotates
  · obtain ⟨rfl, rfl⟩ | ⟨hother, hold⟩ | rfl := hcases hg
    · obtain rfl : pc = .resUnlock s w := hpc
      exact h.resumed_stmt hframes hstmt ho
    · exact ready_of_resUnlock hd hframes hstmt ho hother hpc (h.resumed t g hold s w hpc)
    · cases hpc

/-! ## Steps -/

/-- What `schedule` is about to mark or to dispatch can run. -/
theorem runnable_of_chosen (h : QueueInv m seq charge) (hframes : m.frames m.current = f :: rest) {next : Word}
    (hpc : f.pc = .schMark next ∨ f.pc = .schSwitch next) :
    charge next = none ∧ ¬ (m.kernel.status next = .blocked ∨ m.kernel.status next = .dying) := by
  have hmem : f ∈ m.frames m.current := hframes ▸ List.mem_cons_self ..
  have htables : f.pc.passing = false ∧ f.pc.exposed = false ∧ f.pc.chosen = some next ∧ f.pc ≠ .rotAdd next := by
    obtain hpc | hpc := hpc <;> rw [hpc] <;> exact ⟨rfl, rfl, rfl, Pc.noConfusion⟩
  obtain ⟨hpass, hexposed, hchosen, hne⟩ := htables
  have hready : next ∈ seq (.ready prioDefault) := (h.chosen _ f hmem next hchosen).resolve_right fun heq => hne heq.1
  have hnone := h.uncharged_of_ready hframes (Frame.not_quick (h.prompt.handlers _ f hmem) hpass) hexposed ⟨_, hready⟩
  refine ⟨hnone, fun hstatus => ?_⟩
  obtain ⟨-, ⟨q, hq, hon, hadmits⟩ | ⟨hoff, -⟩⟩ := h.settled next (h.member _ _ hready) hnone
  · rw [h.links.queue_unique hq (ready_ne_all _) hon hready] at hadmits
    have hadmits : m.kernel.status next = .running ∨ m.kernel.status next = .ready := hadmits
    obtain heq | heq := hadmits <;> rw [heq] at hstatus <;> exact absurd hstatus (by decide)
  · exact hoff _ (ready_ne_all _) hready

/-- A step that is no statement. -/
theorem quiet (h : QueueInv m seq charge) (hq : Quiet m m')
    (hcustody : Custody (fun t f x => decide (f.pc.charge t = some x)) m'.frames charge)
    (hkept : Kept (fun _ _ f => f.pc.exposed = true) m') (hprompt : Prompt m')
    (hcurrent : m'.current = m.current ∨ charge m'.current = none)
    (hawake : m.kernel.status m'.current = .blocked ∨ m.kernel.status m'.current = .dying →
      ∃ f ∈ m'.frames m'.current, f.pc.leaving = true) : QueueInv m' seq charge := by
  have hstanding : ∀ t, standing m'.kernel seq t = standing m.kernel seq t := fun t => by rw [hq.kernel]; rfl
  have hstatus : ∀ t, m'.kernel.status t = m.kernel.status t := fun t => by rw [hq.kernel]; rfl
  have htask : ∀ t, m'.kernel.IsTask t ↔ m.kernel.IsTask t := fun t => by rw [hq.kernel]; rfl
  have hlinks : m'.kernel.links = m.kernel.links := by rw [hq.kernel]
  have hold : ∀ {t f}, f ∈ m'.frames t → (f.pc.bare = true → False) → f ∈ m.frames t := fun hf hbare =>
    (hq.frames _ _ hf).resolve_right fun heq => hbare heq.2
  refine ⟨hlinks ▸ h.links, fun q t ht => (htask t).mpr (h.member q t ht), hcustody, fun x hx hnone => ?_,
    fun t f hf x hx => ?_, fun t f hf hx => ?_, fun hbad => ?_, fun t f hf next hnext => ?_, fun t f hf hrotates => ?_,
    fun t f hf s w hpc => ?_, hkept, hprompt⟩
  · rw [hstanding]
    exact h.settled x ((htask x).mp hx) hnone
  · rw [hstanding, htask]
    refine h.found t f (hold hf fun hbare => ?_) x hx
    rw [Pc.charge_of_bare hbare] at hx
    cases hx
  · have hf : f ∈ m.frames t := hold hf fun hbare => by
      rw [Pc.charge_of_bare hbare] at hx
      cases hx
    obtain heq | hnone := hcurrent
    · rw [heq] at hx ⊢
      exact h.own t f hf hx
    · exact absurd (hnone.symm.trans (h.custody.holder_of_mem hf (decide_eq_true hx))) (Option.some_ne_none _).symm
  · rw [hstatus] at hbad
    exact hawake hbad
  · refine h.chosen t f (hold hf fun hbare => ?_) next hnext
    rw [Pc.chosen_of_bare hbare] at hnext
    cases hnext
  · rw [hstatus]
    refine h.rotates t f (hold hf fun hbare => ?_) hrotates
    rw [Pc.rotates_of_bare hbare] at hrotates
    cases hrotates
  · rw [hstanding]
    refine h.resumed t f (hold hf fun hbare => ?_) s w hpc
    rw [hpc] at hbare
    cases hbare

theorem move (h : QueueInv m seq charge) (hd : Discipline m builder) {l : Label} (hok : SparesExposed m l)
    (hmove : Move m l m') : ∃ seq' charge', QueueInv m' seq' charge' := by
  have hkept : Kept (fun _ _ f => f.pc.exposed = true) m' := by
    refine h.kept.move isSection_exposed hd h.prompt hmove (fun _ _ _ _ _ _ _ _ _ hin => hin) fun hl => ?_
    subst hl
    refine h.kept.free_of_timer hd hmove fun f hf hexposed => ?_
    exact absurd ((hok.1 rfl f hf).symm.trans hexposed) Bool.false_ne_true
  have hprompt := h.prompt.move hd hok.2 hmove
  have hfree : ∀ {f : Frame}, f.pc.bare = true → ∀ x, decide (f.pc.charge m.current = some x) = false := fun hbare x =>
    decide_eq_false fun heq => absurd ((Pc.charge_of_bare hbare _).symm.trans heq) (Option.some_ne_none _).symm
  have hstmt : ∀ {f rest e pc}, m.frames m.current = f :: rest → Preempt.stmt m.kernel m.current f.pc = some (e, pc) →
      Prompt ((m.setFrames m.current (⟨pc, f.origin⟩ :: rest)).apply e) →
      ∃ seq' charge', QueueInv ((m.setFrames m.current (⟨pc, f.origin⟩ :: rest)).apply e) seq' charge' := by
    intro f rest e pc hframes hstmt hprompt
    obtain ⟨seq', ho⟩ := h.outcome hd hframes hstmt
    exact ⟨_, _, h.stmt hd hframes hstmt ho hprompt⟩
  have hpush : ∀ {f : Frame}, f.pc.bare = true → _ := fun hbare => h.custody.push (t := m.current) (hfree hbare)
  have hself : ∀ stack : List Frame, Function.update m.frames m.current stack m.current = stack := fun stack =>
    Function.update_self ..
  -- an interrupt leaves the place of the task it comes upon
  have habove : ∀ {f : Frame}, m.kernel.status m.current = .blocked ∨ m.kernel.status m.current = .dying →
      ∃ g ∈ Function.update m.frames m.current (f :: m.frames m.current) m.current, g.pc.leaving = true := by
    intro f hstatus
    obtain ⟨g, hg, hleaving⟩ := h.awake hstatus
    rw [hself]
    exact ⟨g, List.mem_cons_of_mem _ hg, hleaving⟩
  obtain ⟨f, rest, e, pc, -, hframes, heq, -, rfl⟩ | hq := hmove.stmt_or_quiet
  · exact hstmt hframes heq hprompt
  -- the place of a task that is blocked or dying is not the return of a function
  have hbelow : ∀ {f : Frame} {rest : List Frame}, m.frames m.current = f :: rest → f.pc = .ret →
      m.kernel.status m.current = .blocked ∨ m.kernel.status m.current = .dying → ∃ g ∈ rest, g.pc.leaving = true := by
    intro f rest hframes hpc hstatus
    obtain ⟨g, hg, hleaving⟩ := h.awake hstatus
    rw [hframes] at hg
    obtain rfl | hg := List.mem_cons.mp hg
    · rw [hpc] at hleaving
      cases hleaving
    · exact ⟨g, hg, hleaving⟩
  cases hmove with
  | stmt hframes heq henabled => exact hstmt hframes heq hprompt
  | @proceed f g rest hframes hpc hnext =>
      have hcustody := h.custody.replace (g := g) hframes fun x =>
        Or.inl ⟨by rw [hpc, Pc.charge_of_bare (Origin.bare_proceed hnext)]; rfl, rfl⟩
      refine ⟨_, _, h.quiet hq hcustody hkept hprompt (Or.inl rfl) fun hstatus => ?_⟩
      obtain ⟨g', hg, hleaving⟩ := hbelow hframes hpc hstatus
      refine ⟨g', ?_, hleaving⟩
      show g' ∈ Function.update m.frames m.current (g :: rest) m.current
      rw [hself]
      exact List.mem_cons_of_mem _ hg
  | @ret f rest hframes hpc _ =>
      refine ⟨_, _, h.quiet hq (h.custody.pop hframes (hfree (by rw [hpc]; rfl))) hkept hprompt (Or.inl rfl) fun hstatus => ?_⟩
      obtain ⟨g, hg, hleaving⟩ := hbelow hframes hpc hstatus
      refine ⟨g, ?_, hleaving⟩
      show g ∈ Function.update m.frames m.current rest m.current
      rw [hself]
      exact hg
  | @stay f rest hframes hpc =>
      obtain ⟨-, hawake⟩ := h.runnable_of_chosen hframes (Or.inr hpc)
      have hcustody := h.custody.replace (g := ⟨.schSti, f.origin.waited⟩) hframes fun x => Or.inl ⟨by rw [hpc]; rfl, rfl⟩
      exact ⟨_, _, h.quiet hq hcustody hkept hprompt (Or.inl rfl) fun hstatus => absurd hstatus hawake⟩
  | @switch f rest next hframes hpc hne hsaved =>
      obtain ⟨hnone, hawake⟩ := h.runnable_of_chosen hframes (Or.inr hpc)
      have hcustody := h.custody.replace (g := ⟨.schPost, f.origin.waited⟩) hframes fun x => Or.inl ⟨by rw [hpc]; rfl, rfl⟩
      exact ⟨_, _, h.quiet hq hcustody hkept hprompt (Or.inr hnone) fun hstatus => absurd hstatus hawake⟩
  | @call c hframes hallowed =>
      have hcustody := hpush (f := ⟨c.entry, .call c⟩) c.bare_entry
      rw [hframes] at hcustody
      refine ⟨_, _, h.quiet hq hcustody hkept hprompt (Or.inl rfl) fun hstatus => ?_⟩
      obtain ⟨g, hg, -⟩ := h.awake hstatus
      rw [hframes] at hg
      cases hg
  | timer hintr => exact ⟨_, _, h.quiet hq (hpush rfl) hkept hprompt (Or.inl rfl) habove⟩
  | @device op ops hintr => exact ⟨_, _, h.quiet hq (hpush op.bare_entry) hkept hprompt (Or.inl rfl) habove⟩

end QueueInv

/-! ## Runs -/

/-- All tasks are linked and none is blocked: nobody has a task in charge. -/
theorem QueueInv.start {k : Kernel} {seq : Queues} (h : SchedInv k seq) (hcurrent : k.status k.current = .running)
    (hstatus : ∀ t, k.IsTask t → k.status t = .running ∨ k.status t = .ready) :
    QueueInv (Machine.start k) seq fun _ => none := by
  have hfirst : ∀ {t f}, f ∈ (Machine.start k).frames t → f = ⟨.initPost, .fresh⟩ := Machine.mem_frames_start
  refine ⟨h.links, h.ledger.member, fun t x => List.countP_eq_zero.mpr fun f hf hx => ?_, fun x hx _ => ?_,
    fun t f hf x hx => ?_, fun t f hf hx => ?_, fun hbad => ?_, fun t f hf next hnext => ?_, fun t f hf hrotates => ?_,
    fun t f hf s w hpc => ?_, Kept.start isSection_exposed k, Prompt.start k⟩
  · rw [hfirst hf] at hx
    cases hx
  · have hdying : k.status x ≠ .dying := by
      obtain heq | heq := hstatus x hx <;> rw [heq] <;> exact TaskStatus.noConfusion
    obtain ⟨q, hq, hmem⟩ := h.ledger.queued x hx hdying
    exact ⟨h.valid x hx, Or.inl ⟨q, hq, hmem, h.ledger.admits q x hmem⟩⟩
  · rw [hfirst hf] at hx
    cases hx
  · rw [hfirst hf] at hx
    cases hx
  · have hbad : k.status k.current = .blocked ∨ k.status k.current = .dying := hbad
    rw [hcurrent] at hbad
    exact absurd hbad (by decide)
  · rw [hfirst hf] at hnext
    cases hnext
  · rw [hfirst hf] at hrotates
    cases hrotates
  · rw [hfirst hf] at hpc
    cases hpc

theorem queueInv_reachable {m : Machine} (h : (system.restrict SparesExposed).Reachable m) :
    ∃ seq charge, QueueInv m seq charge := by
  refine (system.restrict SparesExposed).invariant (P := fun m => ∃ seq charge, QueueInv m seq charge)
    (fun m hstart => ?_) (fun m l m' hr hm hstep => ?_) h
  · obtain ⟨k, sem, hboot, -, rfl⟩ := hstart
    obtain ⟨seq, hinv, hcurrent, -, hstatus⟩ := schedInitTasks_inv hboot
    exact ⟨seq, _, QueueInv.start hinv hcurrent hstatus⟩
  · obtain ⟨seq, charge, hm⟩ := hm
    obtain ⟨builder, hd⟩ := discipline_reachable (system.reachable_of_restrict hr)
    exact hm.move hd hstep.1 (Machine.next_move hstep.2)

/-! ## Dispatch -/

/-- What `schedule` is about to mark as running is neither blocked nor dying. -/
def DispatchesRunnable (m : Machine) : Prop :=
  ∀ f rest next, m.frames m.current = f :: rest → f.pc = .schMark next →
    m.kernel.status next ≠ .blocked ∧ m.kernel.status next ≠ .dying

/-- When the timer spares the exposed places, `schedule` only dispatches tasks that can run. -/
theorem dispatchesRunnable_reachable {m : Machine} (h : (system.restrict SparesExposed).Reachable m) :
    DispatchesRunnable m := by
  obtain ⟨builder, hd⟩ := discipline_reachable (system.reachable_of_restrict h)
  obtain ⟨seq, charge, hinv⟩ := queueInv_reachable h
  intro f rest next hframes hpc
  exact not_or.mp (hinv.runnable_of_chosen hframes (Or.inl hpc)).2

private def child : CreateArgs := ⟨0xc0105000, 7, [0x61], ((prioDefault : Fin 64) : Nat), .ready, validPriority_default⟩

/-- The timer interrupts a task, whose `schedule` chooses it again, or another one that goes on with what it was at. -/
private def tick (n : Nat) : List Label := [.timer] ++ steps n

/-- From one task over both idle tasks to the one after them. -/
private def overIdle : List Label := tick 11 ++ tick 12 ++ tick 11 ++ tick 12

/-- The child has chosen the first task and is interrupted before it disables interrupts; the first task waits, and is blocked when the child goes on. -/
theorem not_dispatchesRunnable : ¬ ∀ m, system.Reachable m → DispatchesRunnable m := by
  intro h
  obtain ⟨m, hreach, hcurrent, hframes, hstatus⟩ := exists_run
    ([.call (.taskCreate child)] ++ steps 20 ++ tick 11 ++ tick 12 ++ overIdle ++ [.call .schedule] ++ steps 11 ++
      [.call .schedule] ++ steps 6 ++ tick 12 ++ [.call (.semaDown 0xc0110f00)] ++ steps 16 ++ overIdle ++ steps 1)
    (fun m => m.current = 0xc0203000 ∧ m.frames 0xc0203000 = [⟨.schMark 0xc0110000, .call .schedule⟩] ∧
      m.kernel.status 0xc0110000 = .blocked) (by decide +kernel)
  exact (h m hreach _ _ _ (hcurrent ▸ hframes) rfl).1 hstatus

/-- The first task waits and is woken, and its turn comes. -/
theorem dispatchesRunnable_reachable_smallStart : ∃ m, (system.restrict SparesExposed).Reachable m ∧
    m.frames 0xc0202000 = [⟨.schMark 0xc0110000, .timer⟩] ∧ DispatchesRunnable m := by
  obtain ⟨m, hreach, hframes⟩ := exists_restrict_run SparesExposed
    ([.call (.semaDown 0xc0110f00)] ++ steps 16 ++ [.call (.semaUp 0xc0110f00)] ++ steps 12 ++ tick 11 ++ tick 12 ++
      tick 11 ++ tick 7)
    (fun m => m.frames 0xc0202000 = [⟨.schMark 0xc0110000, .timer⟩]) (by decide +kernel)
  exact ⟨m, hreach, hframes, dispatchesRunnable_reachable hreach⟩

/-! ## Wakeups -/

/-- On this list, as the links have it. -/
def Linked (k : Kernel) (q : QueueId) (t : Word) : Prop := ∃ seq, Represents k.links seq ∧ t ∈ seq q

/-- A `sema_up` that took a task off a wait list leaves it on a ready list when `task_resume` returns; and a task that does not run is dying, on a list, or in the hands of a `sema_up` or a `task_create` that is about to link it. -/
structure NoneLost (m : Machine) : Prop where
  woken : ∀ f rest e s w, m.frames m.current = f :: rest →
    stmt m.kernel m.current f.pc = some (e, .upUnlock s (some w)) → ∃ p, Linked m.kernel (.ready p) w
  queued : ∀ t, m.kernel.IsTask t → t ≠ m.current → m.kernel.status t ≠ .dying →
    (∃ q, q ≠ .all ∧ Linked m.kernel q t) ∨ ∃ u, ∃ f ∈ m.frames u, f.pc.links = some t

/-- A linked task is what the node before it points at. -/
theorem Linked.next_prev {k : Kernel} {q : QueueId} {t : Word} (h : Linked k q t) (hq : q ≠ .all) :
    k.links.next (k.links.prev (.queued t)) = .queued t := by
  obtain ⟨seq, hlinks, hmem⟩ := h
  have hnode := List.mem_map_of_mem (f := q.node) hmem
  rw [q.node_of_ne hq] at hnode
  exact (hlinks.ring q).next_prev (List.mem_cons_of_mem _ hnode)

theorem QueueInv.noneLost {m : Machine} {seq : Queues} {charge : Word → Option Word} (h : QueueInv m seq charge) :
    NoneLost m := by
  constructor
  · intro f rest e s w hframes hstmt
    have hmem : f ∈ m.frames m.current := hframes ▸ List.mem_cons_self ..
    obtain hpc | ⟨hpc, hvalid⟩ := stmt_upUnlock hstmt
    · obtain ⟨p, hp⟩ := h.resumed _ f hmem s w hpc
      exact ⟨p, seq, h.links, hp⟩
    · have hfound := (h.found _ f hmem w (by rw [hpc]; rfl)).2
      rw [hpc] at hfound
      exact absurd hfound.1 hvalid
  · intro t ht hne hdying
    cases hcharge : charge t with
    | none =>
        obtain ⟨-, ⟨q, hq, hmem, -⟩ | ⟨-, heq⟩⟩ := h.settled t ht hcharge
        · exact Or.inl ⟨q, hq, seq, h.links, hmem⟩
        · exact absurd heq hdying
    | some u =>
        obtain ⟨g, hg, hgt⟩ := h.custody.exists_of_holder hcharge
        have hgt : g.pc.charge u = some t := of_decide_eq_true hgt
        obtain hlinks | ⟨rfl, hexposed⟩ | hready := Pc.links_of_charge hgt
        · exact Or.inr ⟨u, g, hg, hlinks⟩
        · exact absurd (h.kept.current t g hg hexposed) hne
        · obtain ⟨p, hp⟩ := hready _ (h.found u g hg t hgt).2
          exact Or.inl ⟨.ready p, ready_ne_all p, seq, h.links, hp⟩

/-- When the timer spares the exposed places, every wakeup makes its task runnable and no task is lost. -/
theorem noneLost_reachable {m : Machine} (h : (system.restrict SparesExposed).Reachable m) : NoneLost m := by
  obtain ⟨seq, charge, hinv⟩ := queueInv_reachable h
  exact hinv.noneLost

/-- The first task is interrupted before its last status store in `task_create`; the child waits, and is marked ready on the wait list, so the wakeup takes it off that list and leaves it on none. -/
theorem not_noneLost : ¬ ∀ m, system.Reachable m → NoneLost m := by
  intro h
  obtain ⟨m, hreach, hcurrent, hframes, hlost⟩ := exists_run
    ([.call (.taskCreate child)] ++ steps 17 ++ tick 11 ++ tick 12 ++ overIdle ++ [.call (.semaDown 0xc0110f00)] ++
      steps 19 ++ [.call (.semaUp 0xc0110f00)] ++ steps 7)
    (fun m => m.current = 0xc0110000 ∧
      m.frames 0xc0110000 = [⟨.resUnlock 0xc0110f00 0xc0203000, .call (.semaUp 0xc0110f00)⟩] ∧
      m.kernel.links.next (m.kernel.links.prev (.queued 0xc0203000)) ≠ .queued 0xc0203000) (by decide +kernel)
  obtain ⟨p, hlinked⟩ := (h m hreach).woken _ _ _ _ _ (hcurrent ▸ hframes) rfl
  exact hlost (hlinked.next_prev (ready_ne_all p))

/-- The idle task that wakes the first task is interrupted after its `list_pop`. -/
theorem noneLost_reachable_smallStart : ∃ m, (system.restrict SparesExposed).Reachable m ∧
    m.frames 0xc0201000 = [⟨.resUnlock 0xc0110f00 0xc0110000, .call (.semaUp 0xc0110f00)⟩] ∧ NoneLost m := by
  obtain ⟨m, hreach, hframes⟩ := exists_restrict_run SparesExposed
    ([.call (.semaDown 0xc0110f00)] ++ steps 16 ++ [.call (.semaUp 0xc0110f00)] ++ steps 4 ++ tick 11 ++ steps 5)
    (fun m => m.frames 0xc0201000 = [⟨.resUnlock 0xc0110f00 0xc0110000, .call (.semaUp 0xc0110f00)⟩])
    (by decide +kernel)
  exact ⟨m, hreach, hframes, noneLost_reachable hreach⟩

end I386Kernel.Preempt
