import I386Kernel.Preempt.Section

/-!
# Tasks between lists

A statement changes one list, or the status of one task. Between the two statements of a move a task is on no list, or on one that does not go with its status, and it is in the charge of the frame that makes the move. All other tasks are where their status says.
-/

namespace I386Kernel.Preempt

/-! ## Places -/

namespace Pc

/-- The task that `sema_up` or `task_create` is about to link on a ready list. -/
def links : Pc → Option Word
  | resValid _ w | resLock _ w | resTest _ w | resMark _ w | resLink _ w => some w
  | mkUnlock _ n => if n = 0 then none else some n
  | mkZero _ n | mkInit _ n | allLock _ n | allAdd _ n | allUnlock _ n | pidLock _ n | pidInc _ n | pidUnlock _ n
  | pidRead _ n | mkSlice _ n | mkStack _ n | linkLock _ n | linkAdd _ n => some n
  | _ => none

/-- The task in the charge of a frame of the task `t`. -/
def charge (t : Word) : Pc → Option Word
  | suspDel _ | suspAdd _ | rotAdd _ | exitDel => some t
  | linkUnlock _ n | mkStatus _ n => some n
  | pc => pc.links

/-- The task `schedule` has chosen. -/
def chosen : Pc → Option Word
  | schTest next | rotLock next | rotDel next | rotAdd next | rotUnlock next | schCli next | schMark next
  | schSwitch next => some next
  | _ => none

/-- `next_task_to_run` has found the current task running, and has not taken it off its list. -/
def rotates : Pc → Bool
  | rotLock _ | rotDel _ => true
  | _ => false

/-- `task_suspend` or `task_exit` has stored the status and has not moved the task, `schedule` has chosen a task and has not disabled interrupts, or `task_create` has linked a task and has not stored its status. -/
def exposed : Pc → Bool
  | suspDel _ | suspAdd _ | exitDel | linkUnlock _ _ | mkStatus _ _ => true
  | schTest _ | rotLock _ | rotDel _ | rotAdd _ | rotUnlock _ | schCli _ => true
  | _ => false

end Pc

/-! ## Standing -/

/-- What a `task_struct` and the lists tell of a task. -/
structure Standing where
  valid : Prop
  status : TaskStatus
  on : QueueId → Prop

def standing (k : Kernel) (seq : Queues) (t : Word) : Standing := ⟨validTask (k.task t), k.status t, fun q => t ∈ seq q⟩

namespace Standing

variable (s : Standing)

def ready : Prop := ∃ p, s.on (.ready p)

/-- On no ready list and no wait list. -/
def off : Prop := ∀ q, q ≠ .all → ¬ s.on q

/-- Where the status says: on a list for it, or dying and on none. -/
def settled : Prop := s.valid ∧ ((∃ q, q ≠ .all ∧ s.on q ∧ q.admits s.status) ∨ (s.off ∧ s.status = .dying))

/-- A task that is neither blocked nor dying is on a ready list. -/
theorem ready_of_settled {s : Standing} (h : s.settled) (hstatus : ¬ (s.status = .blocked ∨ s.status = .dying)) :
    s.ready ∧ (s.status = .running ∨ s.status = .ready) := by
  obtain ⟨blocked, dying⟩ := not_or.mp hstatus
  obtain ⟨-, ⟨q, hq, hon, hadmits⟩ | ⟨-, heq⟩⟩ := h
  · cases q with
    | ready p => exact ⟨⟨p, hon⟩, hadmits⟩
    | wait sema => exact absurd hadmits blocked
    | all => exact absurd rfl hq
  · exact absurd heq dying

end Standing

theorem standing_congr {k k' : Kernel} {seq seq' : Queues} {t : Word} (htask : k'.task t = k.task t)
    (hon : ∀ q, t ∈ seq' q ↔ t ∈ seq q) : standing k' seq' t = standing k seq t := by
  rw [standing, standing, Kernel.status, Kernel.status, htask]
  exact congrArg _ (funext fun q => propext (hon q))

/-- How a frame finds the task in its charge. -/
def Pc.finds (s : Standing) : Pc → Prop
  | suspDel _ => s.valid ∧ s.ready ∧ s.status = .blocked
  | exitDel => s.valid ∧ s.ready ∧ s.status = .dying
  | suspAdd _ | resValid _ _ | resLock _ _ | resTest _ _ | resMark _ _ => s.valid ∧ s.off ∧ s.status = .blocked
  | rotAdd _ => s.valid ∧ s.off ∧ (s.status = .running ∨ s.status = .ready)
  | resLink _ _ => s.valid ∧ s.off ∧ s.status = .running
  | mkUnlock _ _ | mkZero _ _ | mkInit _ _ => ∀ q, ¬ s.on q
  | allLock _ _ | allAdd _ _ => s.valid ∧ ∀ q, ¬ s.on q
  | linkUnlock _ _ | mkStatus _ _ => s.valid ∧ s.ready
  | _ => s.valid ∧ s.off

/-! ## The invariant -/

/-- The timer does not interrupt a task at an exposed place, the handlers of devices do not have to wait, and no task is created that cannot run. -/
def SparesExposed (m : Machine) (l : Label) : Prop :=
  (l = .timer → ∀ f ∈ (m.frames m.current).head?, f.pc.exposed = false) ∧ HandlersPass m l

instance (m : Machine) (l : Label) : Decidable (SparesExposed m l) := inferInstanceAs (Decidable (_ ∧ _))

/-- The lists, and who is in whose charge. -/
structure QueueInv (m : Machine) (seq : Queues) (charge : Word → Option Word) : Prop where
  links : Represents m.kernel.links seq
  member : ∀ q t, t ∈ seq q → m.kernel.IsTask t
  custody : Custody (fun t f x => decide (f.pc.charge t = some x)) m.frames charge
  settled : ∀ x, m.kernel.IsTask x → charge x = none → (standing m.kernel seq x).settled
  found : ∀ t, ∀ f ∈ m.frames t, ∀ x, f.pc.charge t = some x →
    m.kernel.IsTask x ∧ f.pc.finds (standing m.kernel seq x)
  own : ∀ t, ∀ f ∈ m.frames t, f.pc.charge t = some m.current →
    t = m.current ∧ (f.pc.exposed = true ∨ f.origin.isQuick = true)
  awake : m.kernel.status m.current = .blocked ∨ m.kernel.status m.current = .dying →
    ∃ f ∈ m.frames m.current, f.pc.leaving = true
  chosen : ∀ t, ∀ f ∈ m.frames t, ∀ next, f.pc.chosen = some next →
    next ∈ seq (.ready prioDefault) ∨ (f.pc = .rotAdd next ∧ next = t)
  rotates : ∀ t, ∀ f ∈ m.frames t, f.pc.rotates = true →
    ¬ (m.kernel.status t = .blocked ∨ m.kernel.status t = .dying)
  resumed : ∀ t, ∀ f ∈ m.frames t, ∀ s w, f.pc = .resUnlock s w → (standing m.kernel seq w).ready
  kept : Kept (fun _ _ f => f.pc.exposed = true) m
  prompt : Prompt m

/-! ## Tables -/

theorem Pc.charge_of_bare {pc : Pc} (h : pc.bare = true) (t : Word) : pc.charge t = none := by
  cases pc <;> first | rfl | cases h

theorem Pc.chosen_of_bare {pc : Pc} (h : pc.bare = true) : pc.chosen = none := by
  cases pc <;> first | rfl | cases h

theorem Pc.rotates_of_bare {pc : Pc} (h : pc.bare = true) : pc.rotates = false := by
  cases pc <;> first | rfl | cases h

theorem Pc.exposed_of_bare {pc : Pc} (h : pc.bare = true) : pc.exposed = false := by
  cases pc <;> first | rfl | cases h

/-- What has chosen a task is exposed, or runs with interrupts off. -/
theorem Pc.exposed_of_chosen {pc : Pc} {next : Word} (h : pc.chosen = some next) :
    (pc.exposed = true ∨ pc.masked = true) ∧ pc.part = .sched := by
  cases pc <;> first | exact ⟨Or.inl rfl, rfl⟩ | exact ⟨Or.inr rfl, rfl⟩ | cases h

/-- A task that does not run has chosen nobody. -/
theorem Pc.chosen_of_suspended {pc : Pc} (h : pc.suspended = true) : pc.chosen = none := by
  cases pc <;> first | rfl | cases h

/-- A task in somebody's charge is on no list, or on a ready list while that frame is at an exposed place. -/
theorem Pc.off_of_finds {pc : Pc} {t x : Word} {s : Standing} (hcharge : pc.charge t = some x) (h : pc.finds s) :
    s.off ∨ (s.ready ∧ pc.exposed = true) := by
  cases pc with
  | suspDel _ | exitDel => exact Or.inr ⟨h.2.1, rfl⟩
  | linkUnlock _ _ | mkStatus _ _ => exact Or.inr ⟨h.2, rfl⟩
  | suspAdd _ | rotAdd _ | resValid _ _ | resLock _ _ | resTest _ _ | resMark _ _ | resLink _ _ => exact Or.inl h.2.1
  | mkUnlock _ _ | mkZero _ _ | mkInit _ _ => exact Or.inl fun q _ => h q
  | allLock _ _ | allAdd _ _ => exact Or.inl fun q _ => h.2 q
  | allUnlock _ _ | pidLock _ _ | pidInc _ _ | pidUnlock _ _ | pidRead _ _ | mkSlice _ _ | mkStack _ _ | linkLock _ _
  | linkAdd _ _ => exact Or.inl h.2
  | _ => cases hcharge

/-- Whom a frame has in charge: a task it is about to link, the task it belongs to, or one that is linked already. -/
theorem Pc.links_of_charge {pc : Pc} {t x : Word} (h : pc.charge t = some x) :
    pc.links = some x ∨ (x = t ∧ pc.exposed = true) ∨ ∀ s, pc.finds s → s.ready := by
  cases pc with
  | suspDel _ | suspAdd _ | rotAdd _ | exitDel => exact Or.inr (Or.inl ⟨(Option.some.inj h).symm, rfl⟩)
  | linkUnlock _ _ | mkStatus _ _ => exact Or.inr (Or.inr fun s hs => hs.2)
  | _ => exact Or.inl h

theorem isSection_exposed : IsSection fun _ _ f => f.pc.exposed = true where
  bare := fun _ _ _ h hexposed => absurd ((Pc.exposed_of_bare h).symm.trans hexposed) Bool.false_ne_true
  first := fun _ _ h => by cases h
  switch := fun _ _ _ _ hpc h => by
    rw [hpc] at h
    cases h
  current := fun _ _ _ _ h => h

section
variable {k : Kernel} {c : Word} {pc pc' : Pc} {e : Effect}

theorem stmt_exposed (h : stmt k c pc = some (e, pc')) (hexposed : pc.exposed = true) (hcharge : pc'.charge c ≠ none) :
    pc'.exposed = true := by
  cases pc with
  | suspDel _ | rotDel _ | linkUnlock _ _ =>
      cases h
      rfl
  | suspAdd _ | exitDel | mkStatus _ _ | rotLock _ | rotAdd _ | rotUnlock _ | schCli _ =>
      cases h
      exact absurd rfl hcharge
  | schTest _ =>
      cases h
      split at hcharge <;> exact absurd rfl hcharge
  | _ => cases hexposed

theorem stmt_leaving (h : stmt k c pc = some (e, pc')) (hleaving : pc.leaving = true) : pc'.leaving = true := by
  cases pc with
  | schRead =>
      obtain ⟨next, -, heq⟩ := Option.map_eq_some_iff.mp h
      cases heq
      rfl
  | schTest _ =>
      cases h
      split <;> rfl
  | suspDel _ | suspAdd _ | suspUnlock _ | waitUnlock _ | exitDel | exitUnlock | rotLock _ | rotDel _ | rotAdd _
  | rotUnlock _ | schCli _ | schMark _ =>
      cases h
      rfl
  | schSwitch _ => cases h
  | _ => cases hleaving

theorem stmt_chosen {next : Word} (h : stmt k c pc = some (e, pc')) (hnext : pc'.chosen = some next) :
    (pc = .schRead ∧ listEntry (k.links.next (.head (.ready prioDefault))) = some next ∧ e = .skip) ∨
      pc.chosen = some next := by
  cases pc with
  | upPop s =>
      obtain ⟨w, -, heq⟩ := Option.map_eq_some_iff.mp h
      cases heq
      cases hnext
  | schRead =>
      obtain ⟨w, hw, heq⟩ := Option.map_eq_some_iff.mp h
      cases heq
      cases hnext
      exact Or.inl ⟨rfl, hw, rfl⟩
  | schTest _ =>
      cases h
      right
      split at hnext <;> exact hnext
  | downTest _ | upInc _ | upEmpty _ | resValid _ _ | resTest _ _ | mkUnlock _ _ =>
      cases h
      split at hnext <;> cases hnext
  | _ =>
      cases h <;> exact Or.inr hnext

theorem stmt_rotates (h : stmt k c pc = some (e, pc')) (hrotates : pc'.rotates = true) :
    (k.status c = .running ∨ pc.rotates = true) ∧ pc.part = .sched := by
  cases pc with
  | upPop s =>
      obtain ⟨w, -, heq⟩ := Option.map_eq_some_iff.mp h
      cases heq
      cases hrotates
  | schRead =>
      obtain ⟨w, hw, heq⟩ := Option.map_eq_some_iff.mp h
      cases heq
      cases hrotates
  | schTest _ =>
      cases h
      split at hrotates
      · rename_i hrunning
        exact ⟨Or.inl hrunning, rfl⟩
      · cases hrotates
  | rotLock _ => exact ⟨Or.inr rfl, rfl⟩
  | downTest _ | upInc _ | upEmpty _ | resValid _ _ | resTest _ _ | mkUnlock _ _ =>
      cases h
      split at hrotates <;> cases hrotates
  | _ =>
      cases h <;> cases hrotates

/-- `list_del` is called with `list_slock` held. -/
theorem stmt_listDel {t : Word} (h : stmt k c pc = some (.listDel t, pc')) :
    .list ∈ pc.locks ∧ t = c ∧ pc.passing = false ∧ ∀ next, pc.chosen = some next → pc' = .rotAdd next := by
  cases pc with
  | upPop s =>
      obtain ⟨w, -, heq⟩ := Option.map_eq_some_iff.mp h
      cases heq
  | schRead =>
      obtain ⟨w, hw, heq⟩ := Option.map_eq_some_iff.mp h
      cases heq
  | suspDel _ | exitDel =>
      cases h
      refine ⟨List.mem_cons_self .., rfl, rfl, fun next hnext => ?_⟩
      cases hnext
  | rotDel next =>
      cases h
      exact ⟨List.mem_cons_self .., rfl, rfl, fun _ hnext => congrArg Pc.rotAdd (Option.some.inj hnext)⟩
  | _ => cases h

theorem stmt_resUnlock {s w : Word} (h : stmt k c pc = some (e, .resUnlock s w)) :
    (∃ p, pc = .resLink s w ∧ e = .listAddTail (.ready p) w) ∨ (pc = .resTest s w ∧ k.status w ≠ .blocked) := by
  cases pc with
  | upPop s =>
      obtain ⟨w, -, heq⟩ := Option.map_eq_some_iff.mp h
      cases heq
  | schRead =>
      obtain ⟨w, hw, heq⟩ := Option.map_eq_some_iff.mp h
      cases heq
  | resLink _ _ =>
      cases h
      exact Or.inl ⟨_, rfl, rfl⟩
  | resTest s' w' =>
      obtain ⟨-, hpc⟩ := Prod.mk.inj (Option.some.inj h)
      by_cases hblocked : k.status w' = .blocked
      · rw [if_pos hblocked] at hpc
        cases hpc
      · rw [if_neg hblocked] at hpc
        cases hpc
        exact Or.inr ⟨rfl, hblocked⟩
  | downTest _ | upInc _ | upEmpty _ | resValid _ _ | schTest _ | mkUnlock _ _ =>
      obtain ⟨-, hpc⟩ := Prod.mk.inj (Option.some.inj h)
      split at hpc <;> cases hpc
  | _ => cases h

theorem stmt_upUnlock {s w : Word} (h : stmt k c pc = some (e, .upUnlock s (some w))) :
    pc = .resUnlock s w ∨ (pc = .resValid s w ∧ ¬ validTask (k.task w)) := by
  cases pc with
  | upPop s =>
      obtain ⟨w, -, heq⟩ := Option.map_eq_some_iff.mp h
      cases heq
  | schRead =>
      obtain ⟨w, hw, heq⟩ := Option.map_eq_some_iff.mp h
      cases heq
  | resUnlock _ _ =>
      cases h
      exact Or.inl rfl
  | resValid s' w' =>
      obtain ⟨-, hpc⟩ := Prod.mk.inj (Option.some.inj h)
      by_cases hvalid : validTask (k.task w')
      · rw [if_pos hvalid] at hpc
        cases hpc
      · rw [if_neg hvalid] at hpc
        cases hpc
        exact Or.inr ⟨rfl, hvalid⟩
  | downTest _ | upInc _ | upEmpty _ | resTest _ _ | schTest _ | mkUnlock _ _ =>
      obtain ⟨-, hpc⟩ := Prod.mk.inj (Option.some.inj h)
      split at hpc <;> cases hpc
  | _ => cases h

end

end I386Kernel.Preempt
