import I386Kernel.Preempt.Charge

/-!
# What a statement does to the lists

Each statement changes the standing of one task at most: one that nobody has in charge, or one that the frame it belongs to has in charge. The lemmas go from the effects to the statements, and in the end every statement has an `Outcome`.
-/

namespace I386Kernel.Preempt

open CircularList (Links)

/-! ## Effects -/

/-- An effect that only changes the standing of the task `x`. -/
structure Touches (k : Kernel) (seq : Queues) (e : Effect) (x : Word) (seq' : Queues) : Prop where
  links : Represents (e.kernel k).links seq'
  others : ∀ t, t ≠ x → standing (e.kernel k) seq' t = standing k seq t
  ready : ∀ p, x ∈ seq (.ready p) → x ∈ seq' (.ready p) ∨ e = .listDel x
  waits : ∀ s, x ∈ seq (.wait s) →
    x ∈ seq' (.wait s) ∨ (e = .listPop s ∧ listEntry (k.links.next (.head (.wait s))) = some x)
  added : ∀ q t, e = .listAddTail q t → t ∈ seq' q

/-- An effect that changes nobody's standing. -/
def Effect.neutral : Effect → Bool
  | .skip | .acquire _ | .release _ | .setIntr _ | .setCount _ _ | .incPid | .storePid _ | .storeSlices _ _
  | .buildStack _ _ _ | .returnPid _ => true
  | _ => false

section
variable {k : Kernel} {seq : Queues} {t u : Word} {q : QueueId}

theorem standing_update {k' : Kernel} {g : TaskStruct} (htask : k'.task = Function.update k.task u g)
    (hstatus : g.status = (k.task u).status) (hmagic : g.magic = (k.task u).magic) (t : Word) :
    standing k' seq t = standing k seq t := by
  by_cases ht : t = u
  · subst ht
    rw [standing, standing, Kernel.status, Kernel.status, validTask, validTask, htask, Function.update_self, hstatus,
      hmagic]
  · exact standing_congr (by rw [htask, Function.update_of_ne ht]) fun _ => Iff.rfl

theorem Effect.neutral_kernel {e : Effect} (he : e.neutral = true) (k : Kernel) :
    (e.kernel k).links = k.links ∧ ∀ seq t, standing (e.kernel k) seq t = standing k seq t := by
  cases e with
  | storePid n | storeSlices n _ =>
      refine ⟨rfl, fun _ t => ?_⟩
      apply standing_update (u := n) <;> rfl
  | buildStack n proc params =>
      rw [Effect.kernel, buildFrames_eq]
      refine ⟨rfl, fun _ t => ?_⟩
      apply standing_update (u := n) <;> rfl
  | skip | acquire _ | release _ | setIntr _ | setCount _ _ | incPid | returnPid _ => exact ⟨rfl, fun _ _ => rfl⟩
  | _ => cases he

theorem standing_setStatus_self (st : TaskStatus) :
    standing (k.setStatus t st) seq t = { standing k seq t with status := st } := by
  rw [standing, Kernel.status, validTask, k.task_setStatus_self]
  rfl

theorem touches_setStatus (h : Represents k.links seq) (t : Word) (st : TaskStatus) :
    Touches k seq (.setStatus t st) t seq where
  links := h
  others := fun _ ht => standing_congr (k.task_setStatus_of_ne st ht) fun _ => Iff.rfl
  ready := fun _ => Or.inl
  waits := fun _ => Or.inl
  added := fun _ _ he => by cases he

theorem touches_listDel (h : Represents k.links seq) {p : Fin 64} (ht : t ∈ seq (.ready p)) :
    Touches k seq (.listDel t) t (seq.dequeue t) where
  links := h.listDel (ready_ne_all p) ht
  others := fun _ hne => standing_congr rfl fun _ => Queues.mem_dequeue_of_ne hne
  ready := fun _ _ => Or.inr rfl
  waits := fun s hs => absurd (h.queue_unique (ready_ne_all p) (wait_ne_all s) ht hs) QueueId.noConfusion
  added := fun _ _ he => by cases he

theorem touches_listAdd (h : Represents k.links seq) (ht : ∀ r, (q = .all ↔ r = .all) → t ∉ seq r) :
    Touches k seq (.listAdd q t) t (seq.pushFront q t) where
  links := h.listAdd ht
  others := fun _ hne => standing_congr rfl fun _ => Queues.mem_pushFront.trans (or_iff_right fun heq => hne heq.2)
  ready := fun _ hmem => Or.inl (Queues.mem_pushFront.mpr (Or.inr hmem))
  waits := fun _ hmem => Or.inl (Queues.mem_pushFront.mpr (Or.inr hmem))
  added := fun _ _ he => by cases he

theorem touches_listAddTail (h : Represents k.links seq) (ht : ∀ r, (q = .all ↔ r = .all) → t ∉ seq r) :
    Touches k seq (.listAddTail q t) t (seq.pushBack q t) where
  links := h.listAddTail ht
  others := fun _ hne => standing_congr rfl fun _ => Queues.mem_pushBack.trans (or_iff_right fun heq => hne heq.2)
  ready := fun _ hmem => Or.inl (Queues.mem_pushBack.mpr (Or.inr hmem))
  waits := fun _ hmem => Or.inl (Queues.mem_pushBack.mpr (Or.inr hmem))
  added := fun _ _ he => by
    cases he
    exact Queues.mem_pushBack.mpr (Or.inl ⟨rfl, rfl⟩)

theorem touches_listPop (h : Represents k.links seq) {s w : Word}
    (hw : listEntry (k.links.next (.head (.wait s))) = some w) :
    w ∈ seq (.wait s) ∧ Touches k seq (.listPop s) w (seq.dequeue w) := by
  have hmem : w ∈ seq (.wait s) := List.mem_of_head? ((h.listEntry_next (wait_ne_all s)).symm.trans hw)
  have hnode : k.links.next (.head (.wait s)) = .queued w := by
    generalize k.links.next (.head (.wait s)) = node at hw
    cases node with
    | queued t => exact congrArg _ (Option.some.inj hw)
    | _ => cases hw
  have hpop : (Effect.kernel k (.listPop s)) = k.setLinks (listDel k.links (.queued w)) := by
    rw [← hnode]
    rfl
  refine ⟨hmem, ?_, fun t hne => ?_, fun p hp => ?_, fun s' hs' => ?_, fun _ _ he => ?_⟩
  · rw [hpop]
    exact h.listDel (wait_ne_all s) hmem
  · rw [hpop]
    exact standing_congr rfl fun _ => Queues.mem_dequeue_of_ne hne
  · exact absurd (h.queue_unique (ready_ne_all p) (wait_ne_all s) hp hmem) QueueId.noConfusion
  · obtain rfl := QueueId.wait.inj (h.queue_unique (wait_ne_all s) (wait_ne_all s') hmem hs')
    exact Or.inr ⟨rfl, hw⟩
  · cases he

theorem touches_takePage (h : Represents k.links seq) (n : Word) (mem : Mem) (proc : Word) :
    Touches k seq (.takePage n mem proc) n seq where
  links := h
  others := fun _ _ => rfl
  ready := fun _ => Or.inl
  waits := fun _ => Or.inl
  added := fun _ _ he => by cases he

theorem touches_zeroPage (h : Represents k.links seq) (ht : ∀ q, t ∉ seq q) : Touches k seq (.zeroPage t) t seq where
  links := h.zeroNodes ht
  others := fun _ hne => standing_congr (Function.update_of_ne hne _ _) fun _ => Iff.rfl
  ready := fun _ => Or.inl
  waits := fun _ => Or.inl
  added := fun _ _ he => by cases he

theorem touches_initTask (h : Represents k.links seq) (ht : ∀ q, t ∉ seq q) (a : CreateArgs) :
    Touches k seq (.initTask t a) t seq where
  links := h.zeroNodes ht
  others := fun _ hne => standing_congr (Function.update_of_ne hne _ _) fun _ => Iff.rfl
  ready := fun _ => Or.inl
  waits := fun _ => Or.inl
  added := fun _ _ he => by cases he

/-- A task that leaves its list is on none. -/
theorem off_dequeue {L : Links Node} (h : Represents L seq) (k : Kernel) (t : Word) :
    (standing k (seq.dequeue t) t).off := by
  intro q hq hmem
  have hmem : t ∈ seq.dequeue t q := hmem
  rw [Queues.dequeue_of_ne hq] at hmem
  exact (h.nodup q).not_mem_erase hmem

/-- A task that is on no list may be linked. -/
theorem fresh_of_off (h : (standing k seq t).off) (hq : q ≠ .all) : ∀ r, (q = .all ↔ r = .all) → t ∉ seq r :=
  fun r hiff => h r fun hr => hq (hiff.mpr hr)

end

/-! ## What is known of a task -/

namespace QueueInv

variable {m : Machine} {seq : Queues} {charge builder : Word → Option Word} {f : Frame} {rest : List Frame}

/-- Nobody else has the current task in charge, and it has itself only at an exposed place. -/
theorem uncharged_current (h : QueueInv m seq charge) (hd : Discipline m builder)
    (hframes : m.frames m.current = f :: rest) (hquick : f.origin.isQuick = false)
    (hcharge : f.pc.charge m.current = none) : charge m.current = none := by
  rw [Option.eq_none_iff_forall_ne_some]
  intro u hu
  obtain ⟨g, hg, hgc⟩ := h.custody.exists_of_holder hu
  have hgc : g.pc.charge u = some m.current := of_decide_eq_true hgc
  obtain ⟨rfl, hplace⟩ := h.own u g hg hgc
  rw [hframes] at hg
  obtain rfl | hg := List.mem_cons.mp hg
  · exact absurd (hcharge.symm.trans hgc) (Option.some_ne_none _).symm
  · obtain hexposed | hquick' := hplace
    · exact absurd (hquick.symm.trans (h.kept.above_top hframes hg hexposed)) Bool.false_ne_true
    · have hclear := Frame.isQuick_of_masked (hd.interrupted _ f rest hframes g hg)
      exact absurd (hclear.symm.trans hquick') Bool.false_ne_true

/-- A task in the middle of a function of its own is neither blocked nor dying. -/
theorem awake_of_bottom (h : QueueInv m seq charge) (hframes : m.frames m.current = [f])
    (hleaving : f.pc.leaving = false) : ¬ (m.kernel.status m.current = .blocked ∨ m.kernel.status m.current = .dying) := by
  intro hstatus
  obtain ⟨g, hg, hgl⟩ := h.awake hstatus
  rw [hframes] at hg
  rw [List.mem_singleton.mp hg, hleaving] at hgl
  cases hgl

/-- Nobody has a task on a wait list in charge. -/
theorem uncharged_of_wait (h : QueueInv m seq charge) {s w : Word} (hw : w ∈ seq (.wait s)) :
    m.kernel.IsTask w ∧ charge w = none ∧ validTask (m.kernel.task w) ∧ m.kernel.status w = .blocked := by
  have htask := h.member _ _ hw
  have hnone : charge w = none := by
    rw [Option.eq_none_iff_forall_ne_some]
    intro u hu
    obtain ⟨g, hg, hgw⟩ := h.custody.exists_of_holder hu
    have hgw : g.pc.charge u = some w := of_decide_eq_true hgw
    obtain hoff | ⟨⟨p, hready⟩, -⟩ := Pc.off_of_finds hgw (h.found u g hg w hgw).2
    · exact hoff _ (wait_ne_all s) hw
    · exact absurd (h.links.queue_unique (ready_ne_all p) (wait_ne_all s) hready hw) QueueId.noConfusion
  refine ⟨htask, hnone, (h.settled w htask hnone).1, ?_⟩
  obtain ⟨-, ⟨q, hq, hmem, hadmits⟩ | ⟨hoff, -⟩⟩ := h.settled w htask hnone
  · rw [h.links.queue_unique hq (wait_ne_all s) hmem hw] at hadmits
    exact hadmits
  · exact absurd hw (hoff _ (wait_ne_all s))

/-- When `schedule` chooses a task or dispatches it, nobody has a task on a ready list in charge. -/
theorem uncharged_of_ready (h : QueueInv m seq charge) (hframes : m.frames m.current = f :: rest)
    (hquick : f.origin.isQuick = false) (hexposed : f.pc.exposed = false) {t : Word}
    (ht : (standing m.kernel seq t).ready) : charge t = none := by
  rw [Option.eq_none_iff_forall_ne_some]
  intro u hu
  obtain ⟨g, hg, hgt⟩ := h.custody.exists_of_holder hu
  have hgt : g.pc.charge u = some t := of_decide_eq_true hgt
  obtain hoff | ⟨-, hg'⟩ := Pc.off_of_finds hgt (h.found u g hg t hgt).2
  · obtain ⟨p, hp⟩ := ht
    exact hoff _ (ready_ne_all p) hp
  · obtain rfl := h.kept.current u g hg hg'
    refine h.kept.free_of_top hframes hquick ?_ g hg hg'
    rw [hexposed]
    exact Bool.false_ne_true

end QueueInv

/-! ## Statements -/

/-- What the statement of the top frame `f`, which goes on to `pc`, leaves behind. -/
structure Outcome (m : Machine) (seq : Queues) (charge : Word → Option Word) (f : Frame) (e : Effect) (pc : Pc)
    (seq' : Queues) : Prop where
  links : Represents (e.kernel m.kernel).links seq'
  member : ∀ q t, t ∈ seq' q → (e.kernel m.kernel).IsTask t
  others : ∀ t, f.pc.charge m.current ≠ some t → charge t ≠ none →
    standing (e.kernel m.kernel) seq' t = standing m.kernel seq t
  found : ∀ t, pc.charge m.current = some t → (e.kernel m.kernel).IsTask t ∧ pc.finds (standing (e.kernel m.kernel) seq' t)
  settled : ∀ t, (e.kernel m.kernel).IsTask t → charge t = none ∨ f.pc.charge m.current = some t →
    pc.charge m.current ≠ some t → (standing (e.kernel m.kernel) seq' t).settled
  gained : ∀ t, pc.charge m.current = some t → f.pc.charge m.current = some t ∨ charge t = none
  own : pc.charge m.current = some m.current → pc.exposed = true ∨ f.origin.isQuick = true
  ready : ∀ p t, t ∈ seq (.ready p) → t ∈ seq' (.ready p) ∨ e = .listDel t
  waits : ∀ s t, t ∈ seq (.wait s) →
    t ∈ seq' (.wait s) ∨ (e = .listPop s ∧ listEntry (m.kernel.links.next (.head (.wait s))) = some t)
  added : ∀ q t, e = .listAddTail q t → t ∈ seq' q

namespace Outcome

variable {m : Machine} {seq seq' : Queues} {charge builder : Word → Option Word} {f : Frame} {rest : List Frame}
  {e : Effect} {pc : Pc} {x : Word}

/-- A frame that keeps its charge passes on what it knows of the current task's place. -/
theorem own_of_same (h : QueueInv m seq charge) (hframes : m.frames m.current = f :: rest)
    (hstmt : stmt m.kernel m.current f.pc = some (e, pc)) (hsame : f.pc.charge m.current = some m.current)
    (hcharge : pc.charge m.current = some m.current) : pc.exposed = true ∨ f.origin.isQuick = true := by
  refine (h.own _ f (hframes ▸ List.mem_cons_self ..) hsame).2.imp_left fun hexposed => ?_
  exact stmt_exposed hstmt hexposed (by rw [hcharge]; exact Option.some_ne_none _)

/-- A statement that changes nobody's standing. -/
theorem of_neutral (h : QueueInv m seq charge) (hframes : m.frames m.current = f :: rest)
    (hstmt : stmt m.kernel m.current f.pc = some (e, pc)) (he : e.neutral = true)
    (hsame : pc.charge m.current = f.pc.charge m.current)
    (hfinds : ∀ t s, f.pc.charge m.current = some t → f.pc.finds s → pc.finds s) : Outcome m seq charge f e pc seq := by
  obtain ⟨hlinks, hstanding⟩ := Effect.neutral_kernel he m.kernel
  have htask : ∀ t, (e.kernel m.kernel).IsTask t ↔ m.kernel.IsTask t := fun t => by
    refine (Effect.isTask_kernel t).trans (or_iff_left ?_)
    rintro ⟨mem, proc, rfl, -⟩
    cases he
  refine ⟨hlinks ▸ h.links, fun q t ht => (htask t).mpr (h.member q t ht), fun t _ _ => hstanding seq t,
    fun t ht => ?_, fun t ht hor hne => ?_, fun t ht => Or.inl (hsame ▸ ht), fun hc => ?_, fun _ _ => Or.inl, fun _ _ => Or.inl,
    fun q t heq => ?_⟩
  · rw [hsame] at ht
    obtain ⟨hmem, hold⟩ := h.found _ f (hframes ▸ List.mem_cons_self ..) t ht
    rw [hstanding]
    exact ⟨(htask t).mpr hmem, hfinds t _ ht hold⟩
  · rw [hstanding]
    exact h.settled t ((htask t).mp ht) (hor.resolve_right (hsame ▸ hne))
  · exact own_of_same h hframes hstmt (hsame ▸ hc) hc
  · rw [heq] at he
    cases he

/-- A statement that changes the standing of `x`, which the frame has in charge or nobody has. -/
theorem of_touches (h : QueueInv m seq charge) (ht : Touches m.kernel seq e x seq')
    (htasks : ∀ t, (e.kernel m.kernel).IsTask t → t = x ∨ m.kernel.IsTask t) (hx : (e.kernel m.kernel).IsTask x)
    (hold : ∀ t, f.pc.charge m.current = some t → t = x) (hnew : ∀ t, pc.charge m.current = some t → t = x)
    (hcharge : f.pc.charge m.current = some x ∨ charge x = none)
    (hown : pc.charge m.current = some m.current → pc.exposed = true ∨ f.origin.isQuick = true)
    (hfound : pc.charge m.current = some x → pc.finds (standing (e.kernel m.kernel) seq' x))
    (hsettled : pc.charge m.current ≠ some x → (standing (e.kernel m.kernel) seq' x).settled) :
    Outcome m seq charge f e pc seq' := by
  have hon : ∀ {t}, t ≠ x → ∀ q, t ∈ seq' q ↔ t ∈ seq q := fun hne q =>
    Iff.of_eq (congrFun (congrArg Standing.on (ht.others _ hne)) q)
  refine ⟨ht.links, fun q t hmem => ?_, fun t hne hsome => ht.others t ?_, fun t hc => ?_, fun t htask hor hne => ?_,
    fun t hc => ?_, hown, fun p t hp => ?_, fun s t hs => ?_, ht.added⟩
  · by_cases htx : t = x
    · exact htx ▸ hx
    · exact (Effect.isTask_kernel t).mpr (Or.inl (h.member q t ((hon htx q).mp hmem)))
  · rintro rfl
    exact hcharge.elim hne hsome
  · obtain rfl := hnew t hc
    exact ⟨hx, hfound hc⟩
  · by_cases htx : t = x
    · subst htx
      exact hsettled hne
    · rw [ht.others t htx]
      exact h.settled t ((htasks t htask).resolve_left htx) (hor.resolve_right fun hc => htx (hold t hc))
  · obtain rfl := hnew t hc
    exact hcharge
  · by_cases htx : t = x
    · subst htx
      exact ht.ready p hp
    · exact Or.inl ((hon htx _).mpr hp)
  · by_cases htx : t = x
    · subst htx
      exact ht.waits s hs
    · exact Or.inl ((hon htx _).mpr hs)

/-! ### Statuses -/

/-- `task_suspend` and `task_exit` store the status of the current task. -/
theorem of_own_status (h : QueueInv m seq charge) (hd : Discipline m builder)
    (hframes : m.frames m.current = f :: rest) (hparks : f.pc.parks = true)
    (hleaving : f.pc.leaving = false) (hcharge : f.pc.charge m.current = none) {st : TaskStatus}
    (hnew : pc.charge m.current = some m.current) (hexposed : pc.exposed = true)
    (hfinds : ∀ s : Standing, s.valid → s.ready → s.status = st → pc.finds s) :
    Outcome m seq charge f (.setStatus m.current st) pc seq := by
  obtain ⟨hnil, hisr⟩ := h.prompt.alone hd hframes hparks
  have hnone := h.uncharged_current hd hframes (Origin.isQuick_of_isr hisr) hcharge
  have hawake := h.awake_of_bottom (hnil ▸ hframes) hleaving
  have hsettled := h.settled _ hd.current hnone
  refine of_touches h (touches_setStatus h.links _ st) (fun _ => Or.inr) hd.current (fun t ht => ?_) (fun t ht => ?_)
    (Or.inr hnone) (fun _ => Or.inl hexposed) (fun _ => ?_) fun hne => absurd hnew hne
  · rw [hcharge] at ht
    cases ht
  · rw [hnew] at ht
    exact (Option.some.inj ht).symm
  · show pc.finds (standing (m.kernel.setStatus m.current st) seq m.current)
    rw [standing_setStatus_self]
    exact hfinds _ hsettled.1 (Standing.ready_of_settled hsettled hawake).1 rfl

/-- `task_resume` marks the task it took off the wait list. -/
theorem resMark (h : QueueInv m seq charge) {s w : Word} {o : Origin}
    (hframes : m.frames m.current = ⟨.resMark s w, o⟩ :: rest) :
    Outcome m seq charge ⟨.resMark s w, o⟩ (.setStatus w .running) (.resLink s w) seq := by
  obtain ⟨htask, hvalid, hoff, -⟩ := h.found _ _ (hframes ▸ List.mem_cons_self ..) w rfl
  refine of_touches h (touches_setStatus h.links _ _) (fun _ => Or.inr) htask (fun t ht => (Option.some.inj ht).symm)
    (fun t ht => (Option.some.inj ht).symm) (Or.inl rfl) (fun hc => own_of_same h hframes rfl hc hc) (fun _ => ?_)
    fun hne => absurd rfl hne
  show Pc.finds (standing (m.kernel.setStatus w .running) seq w) (.resLink s w)
  rw [standing_setStatus_self]
  exact ⟨hvalid, hoff, rfl⟩

theorem mkStatus (h : QueueInv m seq charge) {a : CreateArgs} {n : Word} {o : Origin}
    (hframes : m.frames m.current = ⟨.mkStatus a n, o⟩ :: rest) :
    Outcome m seq charge ⟨.mkStatus a n, o⟩ (.setStatus n a.status) (.mkReturn n) seq := by
  obtain ⟨htask, hvalid, p, hp⟩ := h.found _ _ (hframes ▸ List.mem_cons_self ..) n rfl
  refine of_touches h (touches_setStatus h.links _ _) (fun _ => Or.inr) htask (fun t ht => (Option.some.inj ht).symm)
    (fun t ht => by cases ht) (Or.inl rfl) (fun hc => by cases hc) (fun hc => by cases hc) fun _ => ?_
  show Standing.settled (standing (m.kernel.setStatus n a.status) seq n)
  rw [standing_setStatus_self]
  have hrun := of_decide_eq_true (h.prompt.runnable _ _ (hframes ▸ List.mem_cons_self ..) a rfl)
  exact ⟨hvalid, Or.inl ⟨.ready p, ready_ne_all p, hp, hrun.symm⟩⟩

/-- `schedule` marks the task it has chosen, which is still on its ready list. -/
theorem schMark (h : QueueInv m seq charge) {next : Word} {o : Origin}
    (hframes : m.frames m.current = ⟨.schMark next, o⟩ :: rest) :
    Outcome m seq charge ⟨.schMark next, o⟩ (.setStatus next .running) (.schSwitch next) seq := by
  have hmem : (⟨.schMark next, o⟩ : Frame) ∈ m.frames m.current := hframes ▸ List.mem_cons_self ..
  have hready : next ∈ seq (.ready prioDefault) := (h.chosen _ _ hmem next rfl).resolve_right fun heq => by cases heq.1
  have htask := h.member _ _ hready
  have hnone := h.uncharged_of_ready hframes (Frame.not_quick (h.prompt.handlers _ _ hmem) rfl) rfl ⟨_, hready⟩
  refine of_touches h (touches_setStatus h.links _ _) (fun _ => Or.inr) htask (fun t ht => by cases ht)
    (fun t ht => by cases ht) (Or.inr hnone) (fun hc => by cases hc) (fun hc => by cases hc) fun _ => ?_
  show Standing.settled (standing (m.kernel.setStatus next .running) seq next)
  rw [standing_setStatus_self]
  exact ⟨(h.settled next htask hnone).1, Or.inl ⟨_, ready_ne_all _, hready, Or.inl rfl⟩⟩

/-! ### Lists -/

/-- The current task, which is on a ready list, is taken off it. -/
theorem of_listDel (h : QueueInv m seq charge) (hd : Discipline m builder)
    (hcharge : f.pc.charge m.current = some m.current ∨ charge m.current = none)
    (hold : ∀ t, f.pc.charge m.current = some t → t = m.current)
    (hnew : ∀ t, pc.charge m.current = some t → t = m.current)
    (hown : pc.charge m.current = some m.current → pc.exposed = true) (hready : (standing m.kernel seq m.current).ready)
    (hdone : ∀ s : Standing, s.off → s.valid = validTask (m.kernel.task m.current) →
      s.status = m.kernel.status m.current →
        (pc.charge m.current = some m.current ∧ pc.finds s) ∨ (pc.charge m.current = none ∧ s.settled)) :
    Outcome m seq charge f (.listDel m.current) pc (seq.dequeue m.current) := by
  obtain ⟨p, hp⟩ := hready
  have hoff := off_dequeue h.links (m.kernel.setLinks (I386Kernel.listDel m.kernel.links (.queued m.current))) m.current
  refine of_touches h (touches_listDel h.links hp) (fun _ => Or.inr) hd.current hold hnew hcharge
    (fun hc => Or.inl (hown hc)) (fun hc => ?_) fun hc => ?_
  · obtain ⟨-, hfinds⟩ | ⟨hnone, -⟩ := hdone _ hoff rfl rfl
    · exact hfinds
    · exact absurd (hnone.symm.trans hc) (Option.some_ne_none _).symm
  · exact ((hdone _ hoff rfl rfl).resolve_left fun heq => hc heq.1).2

theorem suspDel (h : QueueInv m seq charge) (hd : Discipline m builder) {s : Word} {o : Origin}
    (hframes : m.frames m.current = ⟨.suspDel s, o⟩ :: rest) :
    Outcome m seq charge ⟨.suspDel s, o⟩ (.listDel m.current) (.suspAdd s) (seq.dequeue m.current) := by
  obtain ⟨-, hvalid, hready, hblocked⟩ := h.found _ _ (hframes ▸ List.mem_cons_self ..) _ rfl
  refine of_listDel h hd (Or.inl rfl) (fun t ht => (Option.some.inj ht).symm) (fun t ht => (Option.some.inj ht).symm)
    (fun _ => rfl) hready fun s hoff hvalid' hstatus => ?_
  exact Or.inl ⟨rfl, hvalid' ▸ hvalid, hoff, hstatus.trans hblocked⟩

theorem exitDel (h : QueueInv m seq charge) (hd : Discipline m builder) {o : Origin}
    (hframes : m.frames m.current = ⟨.exitDel, o⟩ :: rest) :
    Outcome m seq charge ⟨.exitDel, o⟩ (.listDel m.current) .exitUnlock (seq.dequeue m.current) := by
  obtain ⟨-, hvalid, hready, hdying⟩ := h.found _ _ (hframes ▸ List.mem_cons_self ..) _ rfl
  refine of_listDel h hd (Or.inl rfl) (fun t ht => (Option.some.inj ht).symm) (fun t ht => by cases ht)
    (fun hc => by cases hc) hready fun s hoff hvalid' hstatus => ?_
  exact Or.inr ⟨rfl, hvalid' ▸ hvalid, Or.inr ⟨hoff, hstatus.trans hdying⟩⟩

theorem rotDel (h : QueueInv m seq charge) (hd : Discipline m builder) {next : Word} {o : Origin}
    (hframes : m.frames m.current = ⟨.rotDel next, o⟩ :: rest) :
    Outcome m seq charge ⟨.rotDel next, o⟩ (.listDel m.current) (.rotAdd next) (seq.dequeue m.current) := by
  have hmem : (⟨.rotDel next, o⟩ : Frame) ∈ m.frames m.current := hframes ▸ List.mem_cons_self ..
  have hnone := h.uncharged_current hd hframes (Frame.not_quick (h.prompt.handlers _ _ hmem) rfl) rfl
  have hsettled := h.settled _ hd.current hnone
  obtain ⟨hready, hrun⟩ := Standing.ready_of_settled hsettled (h.rotates _ _ hmem rfl)
  refine of_listDel h hd (Or.inr hnone) (fun t ht => by cases ht) (fun t ht => (Option.some.inj ht).symm) (fun _ => rfl)
    hready fun s hoff hvalid' hstatus => ?_
  exact Or.inl ⟨rfl, hvalid' ▸ hsettled.1, hoff, hstatus ▸ hrun⟩

theorem suspAdd (h : QueueInv m seq charge) {s : Word} {o : Origin}
    (hframes : m.frames m.current = ⟨.suspAdd s, o⟩ :: rest) :
    Outcome m seq charge ⟨.suspAdd s, o⟩ (.listAdd (.wait s) m.current) (.suspUnlock s)
      (seq.pushFront (.wait s) m.current) := by
  obtain ⟨htask, hvalid, hoff, hblocked⟩ := h.found _ _ (hframes ▸ List.mem_cons_self ..) _ rfl
  refine of_touches h (touches_listAdd h.links (fresh_of_off hoff (wait_ne_all s))) (fun _ => Or.inr) htask
    (fun t ht => (Option.some.inj ht).symm) (fun t ht => by cases ht) (Or.inl rfl) (fun hc => by cases hc)
    (fun hc => by cases hc) fun _ => ⟨hvalid, Or.inl ⟨.wait s, wait_ne_all s, ?_, hblocked⟩⟩
  exact Queues.mem_pushFront.mpr (Or.inl ⟨rfl, rfl⟩)

theorem rotAdd (h : QueueInv m seq charge) {next : Word} {o : Origin}
    (hframes : m.frames m.current = ⟨.rotAdd next, o⟩ :: rest) :
    Outcome m seq charge ⟨.rotAdd next, o⟩ (.listAddTail (.ready prioDefault) m.current) (.rotUnlock next)
      (seq.pushBack (.ready prioDefault) m.current) := by
  obtain ⟨htask, hvalid, hoff, hrun⟩ := h.found _ _ (hframes ▸ List.mem_cons_self ..) _ rfl
  refine of_touches h (touches_listAddTail h.links (fresh_of_off hoff (ready_ne_all _))) (fun _ => Or.inr) htask
    (fun t ht => (Option.some.inj ht).symm) (fun t ht => by cases ht) (Or.inl rfl) (fun hc => by cases hc)
    (fun hc => by cases hc) fun _ => ⟨hvalid, Or.inl ⟨.ready prioDefault, ready_ne_all _, ?_, hrun⟩⟩
  exact Queues.mem_pushBack.mpr (Or.inl ⟨rfl, rfl⟩)

theorem resLink (h : QueueInv m seq charge) {s w : Word} {o : Origin}
    (hframes : m.frames m.current = ⟨.resLink s w, o⟩ :: rest) (p : Fin 64) :
    Outcome m seq charge ⟨.resLink s w, o⟩ (.listAddTail (.ready p) w) (.resUnlock s w) (seq.pushBack (.ready p) w) := by
  obtain ⟨htask, hvalid, hoff, hrun⟩ := h.found _ _ (hframes ▸ List.mem_cons_self ..) w rfl
  refine of_touches h (touches_listAddTail h.links (fresh_of_off hoff (ready_ne_all _))) (fun _ => Or.inr) htask
    (fun t ht => (Option.some.inj ht).symm) (fun t ht => by cases ht) (Or.inl rfl) (fun hc => by cases hc)
    (fun hc => by cases hc) fun _ => ⟨hvalid, Or.inl ⟨.ready p, ready_ne_all _, ?_, Or.inl hrun⟩⟩
  exact Queues.mem_pushBack.mpr (Or.inl ⟨rfl, rfl⟩)

theorem linkAdd (h : QueueInv m seq charge) {a : CreateArgs} {n : Word} {o : Origin}
    (hframes : m.frames m.current = ⟨.linkAdd a n, o⟩ :: rest) (p : Fin 64) :
    Outcome m seq charge ⟨.linkAdd a n, o⟩ (.listAddTail (.ready p) n) (.linkUnlock a n) (seq.pushBack (.ready p) n) := by
  obtain ⟨htask, hvalid, hoff⟩ := h.found _ _ (hframes ▸ List.mem_cons_self ..) n rfl
  refine of_touches h (touches_listAddTail h.links (fresh_of_off hoff (ready_ne_all _))) (fun _ => Or.inr) htask
    (fun t ht => (Option.some.inj ht).symm) (fun t ht => (Option.some.inj ht).symm) (Or.inl rfl)
    (fun _ => Or.inl rfl) (fun _ => ⟨hvalid, p, ?_⟩) fun hc => absurd rfl hc
  exact Queues.mem_pushBack.mpr (Or.inl ⟨rfl, rfl⟩)

theorem allAdd (h : QueueInv m seq charge) {a : CreateArgs} {n : Word} {o : Origin}
    (hframes : m.frames m.current = ⟨.allAdd a n, o⟩ :: rest) :
    Outcome m seq charge ⟨.allAdd a n, o⟩ (.listAdd .all n) (.allUnlock a n) (seq.pushFront .all n) := by
  obtain ⟨htask, hvalid, hoff⟩ := h.found _ _ (hframes ▸ List.mem_cons_self ..) n rfl
  refine of_touches h (touches_listAdd h.links fun r _ => hoff r) (fun _ => Or.inr) htask
    (fun t ht => (Option.some.inj ht).symm) (fun t ht => (Option.some.inj ht).symm) (Or.inl rfl)
    (fun hc => own_of_same h hframes rfl hc hc) (fun _ => ⟨hvalid, fun q hq hmem => ?_⟩) fun hc => absurd rfl hc
  exact (Queues.mem_pushFront.mp hmem).elim (fun heq => hq heq.1) (hoff q)

/-- A waiter that `sema_up` takes off the wait list; it may be the current task only if a device interrupted it. -/
theorem upPop (h : QueueInv m seq charge) (hd : Discipline m builder) {s w : Word} {o : Origin}
    (hframes : m.frames m.current = ⟨.upPop s, o⟩ :: rest)
    (hw : listEntry (m.kernel.links.next (.head (.wait s))) = some w) :
    Outcome m seq charge ⟨.upPop s, o⟩ (.listPop s) (.resValid s w) (seq.dequeue w) := by
  obtain ⟨hmem, htouches⟩ := touches_listPop h.links hw
  obtain ⟨htask, hnone, hvalid, hblocked⟩ := h.uncharged_of_wait hmem
  refine of_touches h htouches (fun _ => Or.inr) htask (fun t ht => by cases ht) (fun t ht => (Option.some.inj ht).symm)
    (Or.inr hnone) (fun hc => Or.inr ?_) (fun _ => ⟨hvalid, off_dequeue h.links _ w, hblocked⟩) fun hc => absurd rfl hc
  cases hquick : o.isQuick with
  | true => rfl
  | false =>
      obtain rfl : w = m.current := Option.some.inj hc
      have hmem : (⟨.upPop s, o⟩ : Frame) ∈ m.frames m.current := hframes ▸ List.mem_cons_self ..
      have hisr : o.isr = false := by
        by_contra hisr
        have hquick' := h.prompt.quick_of_isr hd hmem (by simpa using hisr) ⟨Part.noConfusion, Part.noConfusion, Part.noConfusion⟩
        exact absurd (hquick.symm.trans hquick') Bool.false_ne_true
      exact absurd (Or.inl hblocked) (h.awake_of_bottom (hd.rest_nil hframes hisr ▸ hframes) rfl)

/-! ### Pages -/

theorem mkTake (h : QueueInv m seq charge) (hd : Discipline m builder) {a : CreateArgs} {n : Word} {mem : Mem}
    {o : Origin} (hstmt : stmt m.kernel m.current (.mkTake a) = some (.takePage n mem a.proc, .mkUnlock a n)) :
    Outcome m seq charge ⟨.mkTake a, o⟩ (.takePage n mem a.proc) (.mkUnlock a n) seq := by
  have hlinks := touches_takePage h.links n mem a.proc
  by_cases hn : n = 0
  · subst hn
    have hfree : ∀ {p : Word → Prop} (t : Word), (Pc.mkUnlock a 0).charge m.current = some t → p t := fun t ht => by
      cases ht
    refine ⟨h.links, h.member, fun _ _ _ => rfl, hfree, fun t ht hor _ => ?_, hfree, fun hc => ?_, fun _ _ => Or.inl,
      fun _ _ => Or.inl, fun _ _ he => ?_⟩
    · exact h.settled t ht (hor.resolve_right fun hc => by cases hc)
    · cases hc
    · cases he
  · obtain ⟨hfresh, -, -⟩ := stmt_takePage_fresh hd.pages hstmt hn
    have hnone : charge n = none := by
      rw [Option.eq_none_iff_forall_ne_some]
      intro u hu
      obtain ⟨g, hg, hgn⟩ := h.custody.exists_of_holder hu
      exact hfresh (h.found u g hg n (of_decide_eq_true hgn)).1
    have hcharge : (Pc.mkUnlock a n).charge m.current = some n := if_neg hn
    refine of_touches h hlinks (fun t ht => ?_) ((Effect.isTask_kernel n).mpr (Or.inr ⟨mem, a.proc, rfl, hn⟩))
      (fun t ht => by cases ht) (fun t ht => (Option.some.inj (hcharge.symm.trans ht)).symm) (Or.inr hnone) (fun hc => ?_)
      (fun _ q hmem => hfresh (h.member q n hmem)) fun hc => absurd hcharge hc
    · obtain hold | ⟨_, _, heq, -⟩ := (Effect.isTask_kernel t).mp ht
      · exact Or.inr hold
      · cases heq
        exact Or.inl rfl
    · obtain rfl := Option.some.inj (hcharge.symm.trans hc)
      exact absurd hd.current hfresh

theorem mkZero (h : QueueInv m seq charge) {a : CreateArgs} {n : Word} {o : Origin}
    (hframes : m.frames m.current = ⟨.mkZero a n, o⟩ :: rest) :
    Outcome m seq charge ⟨.mkZero a n, o⟩ (.zeroPage n) (.mkInit a n) seq := by
  obtain ⟨htask, hoff⟩ := h.found _ _ (hframes ▸ List.mem_cons_self ..) n rfl
  exact of_touches h (touches_zeroPage h.links hoff) (fun _ => Or.inr) htask (fun t ht => (Option.some.inj ht).symm)
    (fun t ht => (Option.some.inj ht).symm) (Or.inl rfl) (fun hc => own_of_same h hframes rfl hc hc) (fun _ => hoff)
    fun hc => absurd rfl hc

theorem mkInit (h : QueueInv m seq charge) {a : CreateArgs} {n : Word} {o : Origin}
    (hframes : m.frames m.current = ⟨.mkInit a n, o⟩ :: rest) :
    Outcome m seq charge ⟨.mkInit a n, o⟩ (.initTask n a) (.allLock a n) seq := by
  obtain ⟨htask, hoff⟩ := h.found _ _ (hframes ▸ List.mem_cons_self ..) n rfl
  refine of_touches h (touches_initTask h.links hoff a) (fun _ => Or.inr) htask (fun t ht => (Option.some.inj ht).symm)
    (fun t ht => (Option.some.inj ht).symm) (Or.inl rfl) (fun hc => own_of_same h hframes rfl hc hc)
    (fun _ => ⟨?_, hoff⟩) fun hc => absurd rfl hc
  show validTask (Function.update m.kernel.task n (initialised a n) n)
  rw [Function.update_self]
  rfl

end Outcome

/-- Every statement has an outcome. -/
theorem QueueInv.outcome {m : Machine} {seq : Queues} {charge builder : Word → Option Word} {f : Frame}
    {rest : List Frame} {e : Effect} {pc : Pc} (h : QueueInv m seq charge) (hd : Discipline m builder)
    (hframes : m.frames m.current = f :: rest) (hstmt : stmt m.kernel m.current f.pc = some (e, pc)) :
    ∃ seq', Outcome m seq charge f e pc seq' := by
  obtain ⟨pc₀, o⟩ := f
  have hmem : (⟨pc₀, o⟩ : Frame) ∈ m.frames m.current := hframes ▸ List.mem_cons_self ..
  cases pc₀ with
  | suspBlock s =>
      cases hstmt
      exact ⟨_, Outcome.of_own_status h hd hframes rfl rfl rfl rfl rfl fun _ hv hr hs => ⟨hv, hr, hs⟩⟩
  | exitDying =>
      cases hstmt
      exact ⟨_, Outcome.of_own_status h hd hframes rfl rfl rfl rfl rfl fun _ hv hr hs => ⟨hv, hr, hs⟩⟩
  | resMark s w =>
      cases hstmt
      exact ⟨_, Outcome.resMark h hframes⟩
  | mkStatus a n =>
      cases hstmt
      exact ⟨_, Outcome.mkStatus h hframes⟩
  | schMark next =>
      cases hstmt
      exact ⟨_, Outcome.schMark h hframes⟩
  | suspDel s =>
      cases hstmt
      exact ⟨_, Outcome.suspDel h hd hframes⟩
  | exitDel =>
      cases hstmt
      exact ⟨_, Outcome.exitDel h hd hframes⟩
  | rotDel next =>
      cases hstmt
      exact ⟨_, Outcome.rotDel h hd hframes⟩
  | suspAdd s =>
      cases hstmt
      exact ⟨_, Outcome.suspAdd h hframes⟩
  | rotAdd next =>
      cases hstmt
      exact ⟨_, Outcome.rotAdd h hframes⟩
  | resLink s w =>
      cases hstmt
      exact ⟨_, Outcome.resLink h hframes _⟩
  | linkAdd a n =>
      cases hstmt
      exact ⟨_, Outcome.linkAdd h hframes _⟩
  | allAdd a n =>
      cases hstmt
      exact ⟨_, Outcome.allAdd h hframes⟩
  | upPop s =>
      obtain ⟨w, hw, heq⟩ := Option.map_eq_some_iff.mp hstmt
      cases heq
      exact ⟨_, Outcome.upPop h hd hframes hw⟩
  | mkTake a =>
      obtain ⟨he, hpc⟩ := Prod.mk.inj (Option.some.inj hstmt)
      subst he hpc
      exact ⟨_, Outcome.mkTake h hd hstmt⟩
  | mkZero a n =>
      cases hstmt
      exact ⟨_, Outcome.mkZero h hframes⟩
  | mkInit a n =>
      cases hstmt
      exact ⟨_, Outcome.mkInit h hframes⟩
  -- the task a `sema_up` took off a wait list is valid and blocked until the `sema_up` has marked it
  | resValid s w =>
      obtain ⟨-, hvalid, -⟩ := h.found _ _ hmem w rfl
      have hpc : (if validTask (m.kernel.task w) then Pc.resLock s w else .upUnlock s (some w)) = .resLock s w := if_pos hvalid
      obtain ⟨rfl, rfl⟩ := Prod.mk.inj (Option.some.inj hstmt)
      refine ⟨_, Outcome.of_neutral h hframes hstmt rfl ?_ fun _ _ _ hfinds => ?_⟩
      · rw [hpc]
        rfl
      · rw [hpc]
        exact hfinds
  | resTest s w =>
      obtain ⟨-, -, -, hblocked⟩ := h.found _ _ hmem w rfl
      have hpc : (if m.kernel.status w = .blocked then Pc.resMark s w else .resUnlock s w) = .resMark s w :=
        if_pos hblocked
      obtain ⟨rfl, rfl⟩ := Prod.mk.inj (Option.some.inj hstmt)
      refine ⟨_, Outcome.of_neutral h hframes hstmt rfl ?_ fun _ _ _ hfinds => ?_⟩
      · rw [hpc]
        rfl
      · rw [hpc]
        exact hfinds
  | mkUnlock a n =>
      obtain ⟨rfl, rfl⟩ := Prod.mk.inj (Option.some.inj hstmt)
      refine ⟨_, Outcome.of_neutral h hframes hstmt rfl ?_ fun t s hc hfinds => ?_⟩
      · show (if n = 0 then Pc.ret else .mkZero a n).charge m.current = if n = 0 then none else some n
        split <;> rfl
      · have hc : (if n = 0 then none else some n) = some t := hc
        obtain ⟨hn, -⟩ := Option.ite_none_left_eq_some.mp hc
        rw [if_neg hn]
        exact hfinds
  | schRead =>
      obtain ⟨next, -, heq⟩ := Option.map_eq_some_iff.mp hstmt
      cases heq
      exact ⟨_, Outcome.of_neutral h hframes hstmt rfl rfl fun _ _ hc => by cases hc⟩
  | downTest _ | upInc _ | upEmpty _ | schTest _ =>
      obtain ⟨rfl, rfl⟩ := Prod.mk.inj (Option.some.inj hstmt)
      refine ⟨_, Outcome.of_neutral h hframes hstmt rfl ?_ fun _ _ hc => by cases hc⟩
      split <;> rfl
  | schSwitch _ | ret => cases hstmt
  | _ =>
      cases hstmt
      exact ⟨_, Outcome.of_neutral h hframes rfl rfl rfl fun _ _ _ hfinds => hfinds⟩

end I386Kernel.Preempt
