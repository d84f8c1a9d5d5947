import I386Kernel.Init.Main

/-!
# When the scheduler is first entered

The scheduler is ready when `sched_init` has initialised `list_slock` and the ready lists and has linked `init_task`. By then `main` has acquired `list_slock` once itself, in `task_struct_init`. A tick enters `schedule` when it uses up the time slice; one that comes before `init_task` is linked counts down what the boot stack page holds, and after its `memset` a slice of 0.
-/

namespace I386Kernel.Init

/-- The statements of `sched_init` that make the scheduler ready. -/
def Stmt.prepares : Stmt → Bool
  | .spinLockInit .list | .listHeadInit (.ready _) | .linkInitTask => true
  | _ => false

def SchedReady (todo : List Stmt) : Prop := ∀ s ∈ todo, s.prepares = false

/-- `list_slock` and the ready lists are initialised. -/
def ListsReady (todo : List Stmt) : Prop := ∀ s ∈ todo, s.prepares = true → s = .linkInitTask

/-- A tick that comes before `init_task` is linked does not use up the time slice it finds. -/
def SliceLasts (m : Machine) (l : Label) : Prop :=
  l = .timer → .linkInitTask ∈ m.todo → 0 < (m.task .timeSliceRes - 1).toInt

instance (m : Machine) (l : Label) : Decidable (SliceLasts m l) := inferInstanceAs (Decidable (_ → _))

instance : DecidablePred SchedReady := fun todo => inferInstanceAs (Decidable (∀ s ∈ todo, s.prepares = false))

instance : DecidablePred ListsReady := fun todo =>
  inferInstanceAs (Decidable (∀ s ∈ todo, s.prepares = true → s = .linkInitTask))

/-! ## The sequence of `main` -/

/-- What is true of every place in `main`, whatever the addresses of the two semaphores. -/
private def placeOk : List Stmt → Bool
  | [] => true
  | s :: rest =>
      decide (.linkInitTask ∈ s :: rest) && (decide (s ≠ .linkInitTask) || rest.isEmpty) &&
        (decide (s ≠ .spinLock .list) || decide (ListsReady rest)) &&
        (decide (s ≠ .spinLock .list ∧ s ≠ .spinUnlock .list ∧ s ≠ .spinLockInit .list) ||
          decide (.spinLockInit .list ∉ rest)) &&
        (decide (s ≠ .interruptEnable ∧ s ≠ .spinLockInit .list) || decide (.bssInit ∉ rest))

private theorem main_placeOk (semaWrite sem : Word) : (main semaWrite sem).tails.all placeOk = true := by
  rfl

section Places
variable {semaWrite sem : Word} {s : Stmt} {rest : List Stmt}

private theorem placeOk_of_suffix (h : s :: rest <:+ main semaWrite sem) : placeOk (s :: rest) = true :=
  List.all_eq_true.mp (main_placeOk semaWrite sem) _ ((List.mem_tails ..).mpr h)

/-- Linking `init_task` is what `main` does last. -/
theorem link_mem (h : s :: rest <:+ main semaWrite sem) : .linkInitTask ∈ s :: rest := by
  have hplace := placeOk_of_suffix h
  simp only [placeOk, Bool.and_eq_true, decide_eq_true_eq] at hplace
  exact hplace.1.1.1.1

theorem schedReady_of_link {todo : List Stmt} (h : todo <:+ main semaWrite sem) (hlink : .linkInitTask ∉ todo) :
    SchedReady todo := by
  cases todo with
  | nil => nofun
  | cons s rest => exact absurd (link_mem h) hlink

theorem listsReady_of_lock (h : .spinLock .list :: rest <:+ main semaWrite sem) : ListsReady rest := by
  have hplace := placeOk_of_suffix h
  simp only [placeOk, Bool.and_eq_true, Bool.or_eq_true, decide_eq_true_eq] at hplace
  exact hplace.1.1.2.resolve_left fun hne => hne rfl

/-- The first statement on `list_slock` after `.bss` has been cleared is its `spin_lock_init`. -/
theorem lockInit_notMem (h : s :: rest <:+ main semaWrite sem)
    (hs : s = .spinLock .list ∨ s = .spinUnlock .list ∨ s = .spinLockInit .list) : .spinLockInit .list ∉ rest := by
  have hplace := placeOk_of_suffix h
  simp only [placeOk, Bool.and_eq_true, Bool.or_eq_true, decide_eq_true_eq] at hplace
  refine hplace.1.2.resolve_left fun hne => ?_
  obtain hs | hs | hs := hs
  · exact hne.1 hs
  · exact hne.2.1 hs
  · exact hne.2.2 hs

theorem bssInit_notMem (h : s :: rest <:+ main semaWrite sem) (hs : s = .interruptEnable) : .bssInit ∉ rest := by
  have hplace := placeOk_of_suffix h
  simp only [placeOk, Bool.and_eq_true, Bool.or_eq_true, decide_eq_true_eq] at hplace
  exact hplace.2.resolve_left fun hne => hne.1 hs

end Places

/-! ## Steps -/

namespace Machine

variable {m m' : Machine}

/-- What a statement of `main` does to what the handler works with. -/
theorem exec_frame {s : Stmt} (h : m.exec s = some m') :
    m'.todo = m.todo ∧ m'.handler = m.handler ∧
      (m'.log = m.log ∨ (s = .spinLock .list ∧ m.lock .list ≠ 0 ∧ m'.log = (.lockList false, m.todo.tail) :: m.log)) ∧
      (m'.intr = true → m.intr = true ∨ s = .interruptEnable) ∧
      (m'.lock .list = m.lock .list ∨ m'.lock .list = 0 ∨ s = .spinUnlock .list ∨ s = .spinLockInit .list) := by
  have hlock : ∀ (l : Lock) (b : BitVec 8), Function.update m.lock l b .list = m.lock .list ∨ l = .list := by
    intro l b
    cases l with
    | list => exact Or.inr rfl
    | pid => exact Or.inl (Function.update_of_ne (by nofun) _ _)
  cases s with
  | bssInit =>
      cases h
      exact ⟨rfl, rfl, Or.inl rfl, Or.inl, Or.inr (Or.inl rfl)⟩
  | interruptDisable =>
      cases h
      exact ⟨rfl, rfl, Or.inl rfl, nofun, Or.inl rfl⟩
  | interruptEnable =>
      cases h
      exact ⟨rfl, rfl, Or.inl rfl, fun _ => Or.inr rfl, Or.inl rfl⟩
  | spinLockInit l =>
      cases h
      refine ⟨rfl, rfl, Or.inl rfl, Or.inl, (hlock l 1).imp_right fun hl => Or.inr (Or.inr ?_)⟩
      rw [hl]
  | spinUnlock l =>
      cases h
      refine ⟨rfl, rfl, Or.inl rfl, Or.inl, (hlock l 1).imp_right fun hl => Or.inr (Or.inl ?_)⟩
      rw [hl]
  | spinLock l =>
      obtain ⟨hfree, heq⟩ := Option.ite_none_left_eq_some.mp h
      cases heq
      refine ⟨rfl, rfl, ?_, Or.inl, (hlock l 0).imp_right fun hl => ?_⟩
      · cases l with
        | pid => exact Or.inl rfl
        | list => exact Or.inr ⟨rfl, hfree, rfl⟩
      · subst hl
        exact Or.inl (Function.update_self Lock.list 0 m.lock)
  | linkInitTask =>
      obtain ⟨hprio, heq⟩ := Option.dite_none_right_eq_some.mp h
      cases heq
      exact ⟨rfl, rfl, Or.inl rfl, Or.inl, Or.inl rfl⟩
  | _ =>
      cases h
      exact ⟨rfl, rfl, Or.inl rfl, Or.inl, Or.inl rfl⟩

/-- What a statement of the handler does to what `main` works with. -/
theorem handle_frame {pc : HandlerPc} (h : m.handle pc = some m') :
    m'.todo = m.todo ∧ (m'.lock .list = m.lock .list ∨ m'.lock .list = 0) ∧
      (m'.log = m.log ∨ (pc = .check ∧ m.schedOnReturn = true ∧ m'.log = (.schedule, m.todo) :: m.log) ∨
        (pc = .rotLock ∧ m.lock .list ≠ 0 ∧ m'.log = (.lockList true, m.todo) :: m.log)) := by
  cases pc with
  | entry =>
      rw [handle] at h
      split at h <;>
        · cases h
          exact ⟨rfl, Or.inl rfl, Or.inl rfl⟩
  | check =>
      rw [handle] at h
      split at h
      · rename_i hflag
        cases h
        exact ⟨rfl, Or.inl rfl, Or.inr (Or.inl ⟨rfl, hflag, rfl⟩)⟩
      · cases h
        exact ⟨rfl, Or.inl rfl, Or.inl rfl⟩
  | rotLock =>
      obtain ⟨hfree, heq⟩ := Option.ite_none_left_eq_some.mp h
      cases heq
      exact ⟨rfl, Or.inr (Function.update_self Lock.list 0 m.lock), Or.inr (Or.inr ⟨rfl, hfree, rfl⟩)⟩
  | rotDel => cases h
  | schCli => cases h
  | _ =>
      cases h
      exact ⟨rfl, Or.inl rfl, Or.inl rfl⟩

/-- A step is one of `main`, one of the handler, or an interrupt. -/
theorem next_cases {l : Label} (h : m.next l = some m') :
    (∃ s rest m₁, m.handler = none ∧ m.todo = s :: rest ∧ m.exec s = some m₁ ∧ m' = { m₁ with todo := rest }) ∨
      (∃ pc, m.handler = some pc ∧ m.handle pc = some m') ∨
      (l = .timer ∧ m.intr = true ∧ m' = { m with intr := false, handler := some .entry }) := by
  cases l with
  | step =>
      rw [next] at h
      split at h
      · rename_i pc hpc
        exact Or.inr (Or.inl ⟨pc, hpc, h⟩)
      · rename_i hnone
        split at h
        · cases h
        · rename_i s rest htodo
          obtain ⟨m₁, hexec, rfl⟩ := Option.map_eq_some_iff.mp h
          exact Or.inl ⟨s, rest, m₁, hnone, htodo, hexec, rfl⟩
  | timer =>
      obtain ⟨⟨hintr, -⟩, heq⟩ := Option.ite_none_right_eq_some.mp h
      cases heq
      exact Or.inr (Or.inr ⟨rfl, hintr, rfl⟩)

end Machine

/-! ## `list_slock` -/

/-- `list_slock` is 0, which means held, in the cleared `.bss`; so nobody gets it before its `spin_lock_init`. -/
structure LockInv (m : Machine) : Prop where
  place : ∃ semaWrite sem, m.todo <:+ main semaWrite sem
  uncleared : .bssInit ∈ m.todo → m.intr = false ∧ m.handler = none
  held : .bssInit ∉ m.todo → .spinLockInit .list ∈ m.todo → m.lock .list = 0
  places : ∀ p ∈ m.log, ∃ semaWrite sem, p.2 <:+ main semaWrite sem
  log : ∀ p ∈ m.log, ∀ b, p.1 = .lockList b → .spinLockInit .list ∉ p.2 ∧ (b = false → ListsReady p.2)

theorem LockInv.next {m m' : Machine} {l : Label} (h : LockInv m) (hnext : m.next l = some m') : LockInv m' := by
  obtain ⟨semaWrite, sem, hplace⟩ := h.place
  obtain ⟨s, rest, m₁, hhandler, htodo, hexec, rfl⟩ | ⟨pc, hpc, hhandle⟩ | ⟨-, hintr, rfl⟩ := Machine.next_cases hnext
  · rw [htodo] at hplace
    obtain ⟨htodo₁, hhandler₁, hlog, hintr, hlock⟩ := Machine.exec_frame hexec
    have hmem : ∀ {s'}, s' ∈ rest → s' ∈ m.todo := fun hs' => htodo ▸ List.mem_cons_of_mem _ hs'
    have hrest : rest <:+ main semaWrite sem := (List.suffix_cons s rest).trans hplace
    refine ⟨⟨semaWrite, sem, hrest⟩, fun hbss => ?_, fun hbss hinit => ?_, fun p hp => ?_, fun p hp b hb => ?_⟩
    · obtain ⟨hoff, -⟩ := h.uncleared (hmem hbss)
      refine ⟨?_, hhandler₁.trans hhandler⟩
      by_contra hon
      obtain hon | rfl := hintr (by simpa using hon)
      · rw [hoff] at hon
        cases hon
      · exact bssInit_notMem hplace rfl hbss
    · by_cases hs : s = .bssInit
      · subst hs
        cases hexec
        rfl
      · obtain heq | hzero | rfl | rfl := hlock
        · show m₁.lock .list = 0
          rw [heq]
          refine h.held (fun hbss' => ?_) (hmem hinit)
          rw [htodo] at hbss'
          obtain heq' | hbss' := List.mem_cons.mp hbss'
          · exact hs heq'.symm
          · exact hbss hbss'
        · exact hzero
        · exact absurd hinit (lockInit_notMem hplace (Or.inr (Or.inl rfl)))
        · exact absurd hinit (lockInit_notMem hplace (Or.inr (Or.inr rfl)))
    · have hp : p ∈ m₁.log := hp
      obtain heq | ⟨-, -, heq⟩ := hlog
      · exact h.places p (heq ▸ hp)
      · rw [heq] at hp
        obtain rfl | hp := List.mem_cons.mp hp
        · rw [htodo]
          exact ⟨semaWrite, sem, hrest⟩
        · exact h.places p hp
    · have hp : p ∈ m₁.log := hp
      obtain heq | ⟨rfl, -, heq⟩ := hlog
      · exact h.log p (heq ▸ hp) b hb
      · rw [heq] at hp
        obtain rfl | hp := List.mem_cons.mp hp
        · rw [htodo]
          exact ⟨lockInit_notMem hplace (Or.inl rfl), fun _ => listsReady_of_lock hplace⟩
        · exact h.log p hp b hb
  · obtain ⟨htodo, hlock, hlog⟩ := Machine.handle_frame hhandle
    have hcleared : .bssInit ∉ m.todo := fun hbss => nomatch hpc.symm.trans (h.uncleared hbss).2
    refine ⟨⟨semaWrite, sem, htodo ▸ hplace⟩, fun hbss => absurd (htodo ▸ hbss) hcleared, fun _ hinit => ?_,
      fun p hp => ?_, fun p hp b hb => ?_⟩
    · rw [htodo] at hinit
      obtain heq | hzero := hlock
      · exact heq.trans (h.held hcleared hinit)
      · exact hzero
    · have hnew : ∀ e, m'.log = (e, m.todo) :: m.log → ∃ semaWrite sem, p.2 <:+ main semaWrite sem := by
        intro e heq
        rw [heq] at hp
        obtain rfl | hp := List.mem_cons.mp hp
        · exact ⟨semaWrite, sem, hplace⟩
        · exact h.places p hp
      obtain heq | ⟨-, -, heq⟩ | ⟨-, -, heq⟩ := hlog
      · exact h.places p (heq ▸ hp)
      · exact hnew _ heq
      · exact hnew _ heq
    · obtain heq | ⟨-, -, heq⟩ | ⟨-, hfree, heq⟩ := hlog
      · exact h.log p (heq ▸ hp) b hb
      · rw [heq] at hp
        obtain rfl | hp := List.mem_cons.mp hp
        · cases hb
        · exact h.log p hp b hb
      · rw [heq] at hp
        obtain rfl | hp := List.mem_cons.mp hp
        · cases hb
          exact ⟨fun hinit => hfree (h.held hcleared hinit), nofun⟩
        · exact h.log p hp b hb
  · refine ⟨h.place, fun hbss => ?_, h.held, h.places, h.log⟩
    have hoff := (h.uncleared hbss).1
    rw [hintr] at hoff
    cases hoff

theorem LockInv.start {m : Machine} (h : Start m) : LockInv m := by
  obtain ⟨⟨semaWrite, sem, htodo⟩, hintr, -, hhandler, -, hlog⟩ := h
  refine ⟨⟨semaWrite, sem, htodo ▸ List.suffix_rfl⟩, fun _ => ⟨hintr, hhandler⟩, fun hbss => absurd ?_ hbss, ?_, ?_⟩
  · rw [htodo]
    exact List.mem_cons_self ..
  · rw [hlog]
    nofun
  · rw [hlog]
    nofun

theorem lockInv_reachable {m : Machine} (h : system.Reachable m) : LockInv m :=
  system.invariant (fun _ => LockInv.start) (fun _ _ _ _ hm hstep => hm.next hstep) h

/-! ## `schedule` -/

namespace HandlerPc

/-- The handler has yet to count the time slice down. -/
def beforeTick : HandlerPc → Bool
  | entry | isr | tick => true
  | _ => false

/-- The handler is on its way past `schedule`. -/
def passes : HandlerPc → Bool
  | entry | isr | tick | endOfInterrupt | check | iret => true
  | _ => false

end HandlerPc

/-- Before `init_task` is linked the handler does not come to `schedule`. -/
structure SliceInv (m : Machine) : Prop where
  passes : .linkInitTask ∈ m.todo → ∀ pc, m.handler = some pc → pc.passes = true
  slice : .linkInitTask ∈ m.todo → ∀ pc, m.handler = some pc → pc.beforeTick = true → 0 < (m.task .timeSliceRes - 1).toInt
  flag : .linkInitTask ∈ m.todo → ∀ pc, m.handler = some pc → pc ≠ .entry → m.schedOnReturn = false ∨ pc = .iret
  log : ∀ p ∈ m.log, p.1 = .lockList false ∨ .linkInitTask ∉ p.2

theorem SliceInv.next {m m' : Machine} {l : Label} (h : SliceInv m) (hok : SliceLasts m l)
    (hnext : m.next l = some m') : SliceInv m' := by
  obtain ⟨s, rest, m₁, hhandler, htodo, hexec, rfl⟩ | ⟨pc, hpc, hhandle⟩ | ⟨rfl, hintr, rfl⟩ := Machine.next_cases hnext
  · obtain ⟨-, hhandler₁, hlog, -, -⟩ := Machine.exec_frame hexec
    have hnone : ∀ pc, m₁.handler ≠ some pc := by
      intro pc heq
      rw [hhandler₁, hhandler] at heq
      cases heq
    refine ⟨fun _ pc hpc => absurd hpc (hnone pc), fun _ pc hpc => absurd hpc (hnone pc),
      fun _ pc hpc => absurd hpc (hnone pc), fun p hp => ?_⟩
    have hp : p ∈ m₁.log := hp
    obtain heq | ⟨-, -, heq⟩ := hlog
    · exact h.log p (heq ▸ hp)
    · rw [heq] at hp
      obtain rfl | hp := List.mem_cons.mp hp
      · exact Or.inl rfl
      · exact h.log p hp
  · obtain ⟨htodo, -, hlog⟩ := Machine.handle_frame hhandle
    have hlog' : ∀ p ∈ m'.log, p.1 = .lockList false ∨ .linkInitTask ∉ p.2 := by
      intro p hp
      obtain heq | ⟨rfl, hflag, heq⟩ | ⟨rfl, -, heq⟩ := hlog
      · exact h.log p (heq ▸ hp)
      · rw [heq] at hp
        obtain rfl | hp := List.mem_cons.mp hp
        · refine Or.inr fun hlink => ?_
          obtain hoff | heq := h.flag hlink _ hpc nofun
          · rw [hflag] at hoff
            cases hoff
          · cases heq
        · exact h.log p hp
      · rw [heq] at hp
        obtain rfl | hp := List.mem_cons.mp hp
        · exact Or.inr fun hlink => nomatch h.passes hlink _ hpc
        · exact h.log p hp
    by_cases hlink : .linkInitTask ∈ m.todo
    · have hpasses := h.passes hlink pc hpc
      have hslice := h.slice hlink pc hpc
      have hflag := h.flag hlink pc hpc
      suffices hnew : ∀ pc', m'.handler = some pc' → pc'.passes = true ∧
          (pc'.beforeTick = true → 0 < (m'.task .timeSliceRes - 1).toInt) ∧
          (pc' ≠ .entry → m'.schedOnReturn = false ∨ pc' = .iret) from
        ⟨fun _ pc' hpc' => (hnew pc' hpc').1, fun _ pc' hpc' => (hnew pc' hpc').2.1,
          fun _ pc' hpc' => (hnew pc' hpc').2.2, hlog'⟩
      intro pc' hpc'
      cases pc with
      | entry =>
          rw [Machine.handle] at hhandle
          split at hhandle
          · cases hhandle
            cases hpc'
            exact ⟨rfl, nofun, fun _ => Or.inr rfl⟩
          · cases hhandle
            cases hpc'
            exact ⟨rfl, fun _ => hslice rfl, fun _ => Or.inl rfl⟩
      | isr =>
          cases hhandle
          cases hpc'
          have hoff : m.schedOnReturn = false := (hflag nofun).resolve_right nofun
          split
          · exact ⟨rfl, fun _ => hslice rfl, fun _ => Or.inl hoff⟩
          · exact ⟨rfl, nofun, fun _ => Or.inl hoff⟩
      | tick =>
          cases hhandle
          cases hpc'
          have hoff : m.schedOnReturn = false := (hflag nofun).resolve_right nofun
          rw [if_neg (Int.not_le.mpr (hslice rfl))]
          exact ⟨rfl, nofun, fun _ => Or.inl hoff⟩
      | endOfInterrupt =>
          cases hhandle
          cases hpc'
          exact ⟨rfl, nofun, fun _ => Or.inl ((hflag nofun).resolve_right nofun)⟩
      | check =>
          have hoff : m.schedOnReturn = false := (hflag nofun).resolve_right nofun
          rw [Machine.handle, hoff] at hhandle
          cases hhandle
          cases hpc'
          exact ⟨rfl, nofun, fun _ => Or.inr rfl⟩
      | iret =>
          cases hhandle
          cases hpc'
      | _ => cases hpasses
    · rw [← htodo] at hlink
      exact ⟨fun hlink' => absurd hlink' hlink, fun hlink' => absurd hlink' hlink, fun hlink' => absurd hlink' hlink, hlog'⟩
  · refine ⟨fun _ pc hpc => ?_, fun hlink pc hpc _ => hok rfl hlink, fun _ pc hpc hne => ?_, h.log⟩
    · cases hpc
      rfl
    · cases hpc
      exact absurd rfl hne

theorem SliceInv.start {m : Machine} (h : Start m) : SliceInv m := by
  obtain ⟨-, -, -, hhandler, -, hlog⟩ := h
  have hnone : ∀ pc, m.handler ≠ some pc := by
    intro pc heq
    rw [hhandler] at heq
    cases heq
  refine ⟨fun _ pc hpc => absurd hpc (hnone pc), fun _ pc hpc => absurd hpc (hnone pc),
    fun _ pc hpc => absurd hpc (hnone pc), ?_⟩
  rw [hlog]
  nofun

theorem sliceInv_reachable {m : Machine} (h : (system.restrict SliceLasts).Reachable m) : SliceInv m :=
  (system.restrict SliceLasts).invariant (fun _ => SliceInv.start) (fun _ _ _ _ hm hstep => hm.next hstep.1 hstep.2) h

/-- `list_slock` is acquired in no run before its initialisation. As long as the ticks before `init_task` is linked do not use up the time slice they find, `schedule` is entered and `list_slock` acquired when the scheduler is ready, but for `main`'s own acquisition in `task_struct_init`, which comes when `list_slock` and the ready lists are initialised. -/
theorem boot_order :
    (∀ m, system.Reachable m → ∀ p ∈ m.log, ∀ b, p.1 = .lockList b → .spinLockInit .list ∉ p.2) ∧
    (∀ m, (system.restrict SliceLasts).Reachable m → ∀ p ∈ m.log,
      SchedReady p.2 ∨ (p.1 = .lockList false ∧ ListsReady p.2)) := by
  refine ⟨fun m h p hp b hb => ((lockInv_reachable h).log p hp b hb).1, fun m h p hp => ?_⟩
  have hlock := lockInv_reachable (system.reachable_of_restrict h)
  obtain ⟨semaWrite, sem, hplace⟩ := hlock.places p hp
  obtain hmain | hlink := (sliceInv_reachable h).log p hp
  · exact Or.inr ⟨hmain, (hlock.log p hp false hmain).2 rfl⟩
  · exact Or.inl (schedReady_of_link hplace hlink)

/-! ## Runs -/

/-- The boot stack page holds `slice` where `task_tick` looks for the time slice, and zeros. -/
def bootStart (slice : Word) : Machine where
  todo := main 0xc0120000 0xc000ef00
  intr := false
  masked := true
  gate := .unknownIsr
  handler := none
  schedOnReturn := false
  inInterrupt := false
  lock := fun _ => 0
  task := fun f => if f = .timeSliceRes then slice else 0
  links := ⟨fun _ => .null, fun _ => .null⟩
  semaCount := fun _ => 0
  initTask := 0
  nextPid := -1
  log := []

theorem start_bootStart (slice : Word) : Start (bootStart slice) := ⟨⟨_, _, rfl⟩, rfl, rfl, rfl, rfl, rfl⟩

private def steps (n : Nat) : List Label := List.replicate n .step

private theorem exists_run (slice : Word) (labels : List Label) (log : List (Event × List Stmt))
    (h : (TransitionSystem.exec Machine.next (bootStart slice) labels).map Machine.log = some log) :
    ∃ m, system.Reachable m ∧ m.log = log := by
  obtain ⟨m, hexec, hlog⟩ := Option.map_eq_some_iff.mp h
  exact ⟨m, TransitionSystem.reachable_exec _ (TransitionSystem.Reachable.init (start_bootStart slice)) hexec, hlog⟩

/-- On a boot stack page of zeros, a tick right after `serial_enable_intr` enters `schedule`; and without any tick, `main` acquires `list_slock` before it links `init_task`. -/
theorem not_boot_order :
    (¬ ∀ m, system.Reachable m → ∀ p ∈ m.log, p.1 = .schedule → SchedReady p.2) ∧
    (¬ ∀ m, system.Reachable m → ∀ p ∈ m.log, p.1 = .lockList false → SchedReady p.2) := by
  constructor
  · intro h
    obtain ⟨m, hreach, hlog⟩ := exists_run 0 (steps 13 ++ [.timer] ++ steps 7)
      [(.schedule, (main 0xc0120000 0xc000ef00).drop 13)] (by decide +kernel)
    exact absurd (h m hreach _ (hlog ▸ List.mem_singleton.mpr rfl) rfl) (by decide +kernel)
  · intro h
    obtain ⟨m, hreach, hlog⟩ := exists_run 0 (steps 90)
      [(.lockList false, (main 0xc0120000 0xc000ef00).drop 90)] (by decide +kernel)
    exact absurd (h m hreach _ (hlog ▸ List.mem_singleton.mpr rfl) rfl) (by decide +kernel)

/-- A tick that finds a time slice of 5 right after `serial_enable_intr`, and `main` up to its `spin_lock(&list_slock)`. -/
theorem boot_order_bootStart : ∃ m, (system.restrict SliceLasts).Reachable m ∧
    m.log = [(.lockList false, (main 0xc0120000 0xc000ef00).drop 90)] ∧
    (∀ p ∈ m.log, ∀ b, p.1 = .lockList b → .spinLockInit .list ∉ p.2) ∧
    (∀ p ∈ m.log, SchedReady p.2 ∨ (p.1 = .lockList false ∧ ListsReady p.2)) := by
  have hrun : (TransitionSystem.exec (fun m l => if SliceLasts m l then m.next l else none) (bootStart 5)
      (steps 13 ++ [.timer] ++ steps 84)).map Machine.log =
        some [(.lockList false, (main 0xc0120000 0xc000ef00).drop 90)] := by decide +kernel
  obtain ⟨m, hexec, hlog⟩ := Option.map_eq_some_iff.mp hrun
  have hreach : (system.restrict SliceLasts).Reachable m :=
    TransitionSystem.reachable_restrict_exec SliceLasts _ (TransitionSystem.Reachable.init (start_bootStart 5)) hexec
  exact ⟨m, hreach, hlog, boot_order.1 m (system.reachable_of_restrict hreach), boot_order.2 m hreach⟩

end I386Kernel.Init
