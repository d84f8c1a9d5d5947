import I386Kernel.Preempt.Spin
import Mathlib.Logic.Relation

/-!
# Calls without interrupts

`sched.c` and `sync.c` are modelled twice: each function as one step of `Kernel`, and statement by statement on `Machine`. When no interrupt comes within a call, the statements of a call go where its function does, from a machine on which nothing is in progress to the next one; a call that gives up the CPU ends on the stack of the task that `schedule` dispatches. So between calls the two models have the same states.
-/

namespace I386Kernel.Preempt

open Relation (ReflTransGen)
open TransitionSystem (exec)

/-! ## The statements of one frame -/

/-- A frame of the current task that runs on its own, with the stacks of the other tasks. -/
structure Solo where
  pc : Pc
  intr : Bool
  kernel : Kernel
  frames : Word → List Frame

/-- A new stack is not that of the task `c`. -/
def Effect.Spares (c : Word) : Effect → Prop
  | .buildStack n _ _ => n ≠ c
  | _ => True

inductive Solo.Step : Solo → Solo → Prop
  | stmt {s : Solo} {e : Effect} {pc : Pc} (hstmt : Preempt.stmt s.kernel s.kernel.current s.pc = some (e, pc))
      (hspares : e.Spares s.kernel.current) : Step s ⟨pc, e.intr s.intr, e.kernel s.kernel, e.frames s.frames⟩

abbrev Solo.Leads : Solo → Solo → Prop := ReflTransGen Solo.Step

open Solo (Leads)

variable {k k' : Kernel} {b : Bool} {F : Word → List Frame} {s w next : Word}

theorem leads_suspend (k : Kernel) (b : Bool) (F : Word → List Frame) (s : Word) :
    Leads ⟨.suspLock s, b, k, F⟩ ⟨.schRead, b, taskSuspend k k.current (.wait s), F⟩ := by
  refine .head (.stmt rfl trivial) (.head (.stmt rfl trivial) (.head (.stmt rfl trivial) ?_))
  exact .head (.stmt rfl trivial) (.head (.stmt rfl trivial) (.head (.stmt rfl trivial) .refl))

theorem leads_resume (k : Kernel) (b : Bool) (F : Word → List Frame) (s w : Word) :
    Leads ⟨.resValid s w, b, k, F⟩ ⟨.ret, b, taskResume k w, F⟩ := by
  refine .head (.stmt rfl trivial) ?_
  change Leads ⟨if validTask (k.task w) then .resLock s w else .upUnlock s (some w), b, k, F⟩ _
  rw [taskResume]
  by_cases hvalid : validTask (k.task w)
  · rw [if_pos hvalid, if_neg (not_not.mpr hvalid)]
    refine .head (.stmt rfl trivial) (.head (.stmt rfl trivial) ?_)
    change Leads ⟨if k.status w = .blocked then .resMark s w else .resUnlock s w, b, k, F⟩ _
    by_cases hblocked : k.status w = .blocked
    · rw [if_pos hblocked, if_pos hblocked]
      refine .head (.stmt rfl trivial) (.head (.stmt rfl trivial) ?_)
      exact .head (.stmt rfl trivial) (.head (.stmt rfl trivial) .refl)
    · rw [if_neg hblocked, if_neg hblocked]
      exact .head (.stmt rfl trivial) (.head (.stmt rfl trivial) .refl)
  · rw [if_neg hvalid, if_pos hvalid]
    exact .head (.stmt rfl trivial) .refl

theorem leads_semaUp (h : semaUp k s = some k') (b : Bool) (F : Word → List Frame) :
    Leads ⟨.upLock s, b, k, F⟩ ⟨.ret, b, k', F⟩ := by
  have hcount : (k.setCount s (int32 (k.semaCount s + 1))).semaCount s = int32 (k.semaCount s + 1) :=
    Function.update_self ..
  refine .head (.stmt rfl trivial) (.head (.stmt rfl trivial) ?_)
  rw [semaUp, hcount] at h
  change Leads ⟨if int32 (k.semaCount s + 1) > 0 then .upEmpty s else .upUnlock s none, b,
    k.setCount s (int32 (k.semaCount s + 1)), F⟩ _
  generalize k.setCount s (int32 (k.semaCount s + 1)) = k₁ at h ⊢
  by_cases hpos : int32 (k.semaCount s + 1) > 0
  · rw [if_pos hpos]
    refine .head (.stmt rfl trivial) ?_
    change Leads ⟨if listEmpty k₁.links (.head (.wait s)) then .upUnlock s none else .upPop s, b, k₁, F⟩ _
    cases hempty : listEmpty k₁.links (.head (.wait s)) with
    | true =>
        rw [if_neg (by rw [hempty]; simp)] at h
        cases h
        exact .head (.stmt rfl trivial) .refl
    | false =>
        rw [if_pos ⟨hpos, hempty⟩] at h
        obtain ⟨w, hw, rfl⟩ := Option.map_eq_some_iff.mp h
        have hpop : stmt k₁ k₁.current (.upPop s) = some (.listPop s, .resValid s w) :=
          Option.map_eq_some_iff.mpr ⟨w, hw, rfl⟩
        exact .head (.stmt hpop trivial) (leads_resume ..)
  · rw [if_neg hpos]
    rw [if_neg fun h => hpos h.1] at h
    cases h
    exact .head (.stmt rfl trivial) .refl

/-- What `sema_up` leaves alone. -/
theorem semaUp_frame (h : semaUp k s = some k') :
    k'.created = k.created ∧ k'.current = k.current ∧ k'.mem = k.mem ∧ k'.pool = k.pool := by
  rw [semaUp] at h
  split at h
  · obtain ⟨w, -, rfl⟩ := Option.map_eq_some_iff.mp h
    rw [taskResume]
    split
    · exact ⟨rfl, rfl, rfl, rfl⟩
    · split <;> exact ⟨rfl, rfl, rfl, rfl⟩
  · cases h
    exact ⟨rfl, rfl, rfl, rfl⟩

theorem leads_nextTaskToRun (hnext : (nextTaskToRun k).1 = some next) (b : Bool) (F : Word → List Frame) :
    Leads ⟨.schRead, b, k, F⟩ ⟨.schCli next, b, (nextTaskToRun k).2, F⟩ := by
  have hhead : listEntry (k.links.next (.head (.ready prioDefault))) = some next := by
    rw [← hnext, nextTaskToRun]
    split <;> rfl
  have hread : stmt k k.current .schRead = some (.skip, .schTest next) :=
    Option.map_eq_some_iff.mpr ⟨next, hhead, rfl⟩
  refine .head (.stmt hread trivial) (.head (.stmt rfl trivial) ?_)
  change Leads ⟨if k.status k.current = .running then .rotLock next else .schCli next, b, k, F⟩ _
  rw [nextTaskToRun]
  by_cases hrun : k.status k.current = .running
  · rw [if_pos hrun, if_pos hrun]
    refine .head (.stmt rfl trivial) (.head (.stmt rfl trivial) ?_)
    exact .head (.stmt rfl trivial) (.head (.stmt rfl trivial) .refl)
  · rw [if_neg hrun, if_neg hrun]

theorem leads_schedule (hnext : (nextTaskToRun k).1 = some next) (b : Bool) (F : Word → List Frame) :
    Leads ⟨.schRead, b, k, F⟩ ⟨.schSwitch next, false, (nextTaskToRun k).2.setStatus next .running, F⟩ :=
  (leads_nextTaskToRun hnext b F).trans (.head (.stmt rfl trivial) (.head (.stmt rfl trivial) .refl))

theorem leads_exit (k : Kernel) (b : Bool) (F : Word → List Frame) :
    Leads ⟨.exitLock, b, k, F⟩ ⟨.schRead, b, taskExitSection k, F⟩ := by
  refine .head (.stmt rfl trivial) (.head (.stmt rfl trivial) ?_)
  exact .head (.stmt rfl trivial) (.head (.stmt rfl trivial) .refl)

/-! ## `task_create` -/

/-- No page of the pool is at address 0. -/
def NoNullPage (k : Kernel) : Prop := TaskPages k.mem k.pool 0 fun _ => False

theorem mmKgetPage_fst (m : Mem) (pool : MemPool) (pfFlag : Word) : (mmKgetPage m pool pfFlag).1 = (mmKgetPage m pool 0).1 := by
  simp only [mmKgetPage, mmKgetPages]
  split
  · rfl
  · split
    · rfl
    · split <;> rfl

theorem NoNullPage.kget_null (h : NoNullPage k) {pfFlag : Word} (hnull : (mmKgetPage k.mem k.pool pfFlag).1 = 0) :
    (mmKgetPage k.mem k.pool pfFlag).2 = k.mem := by
  obtain ⟨-, hmem, -⟩ | ⟨i, hi, -, haddr, -⟩ := mmKgetPage_spec h.wf pfFlag
  · exact hmem
  · exact absurd (haddr.symm.trans hnull) (h.init i hi)

/-- With `PF_ZERO` the page that is handed out is cleared afterwards. -/
theorem mmKgetPage_pfZero {m : Mem} {pool : MemPool} (hpage : (mmKgetPage m pool 0).1 ≠ 0) :
    (mmKgetPage m pool pfZero).2 = memsetZero (mmKgetPage m pool 0).2 (mmKgetPage m pool 0).1 pageSize := by
  have hone : (1 : Word) ≠ 0 := by decide
  simp only [mmKgetPage, mmKgetPages, if_neg hone] at hpage ⊢
  by_cases herr : bitmapFindFirstBitsGroup m pool.bm 0 1 false = bitmapErr
  · rw [if_pos herr] at hpage
    exact absurd rfl hpage
  · rw [if_neg herr, if_neg herr]
    rfl

theorem leads_create_null {a : CreateArgs} (hnull : (mmKgetPage k.mem k.pool 0).1 = 0) (b : Bool) (F : Word → List Frame) :
    Leads ⟨.mkLock a, b, k, F⟩ ⟨.ret, b, { k with mem := (mmKgetPage k.mem k.pool 0).2 }, F⟩ := by
  have htake : stmt k k.current (.mkTake a) = some (.takePage 0 (mmKgetPage k.mem k.pool 0).2 a.proc, .mkUnlock a 0) := by
    show some (Effect.takePage (mmKgetPage k.mem k.pool 0).1 _ _, Pc.mkUnlock a (mmKgetPage k.mem k.pool 0).1) = _
    rw [hnull]
  refine .head (.stmt rfl trivial) (.head (.stmt htake trivial) ?_)
  exact .head (.stmt rfl trivial) .refl

/-- The page is cleared and the `task_struct` initialised. -/
def initialisedTask (k : Kernel) (n : Word) (a : CreateArgs) : Kernel :=
  (Effect.initTask n a).kernel ((Effect.zeroPage n).kernel k)

/-- The task is on `all_tasks_list` and has its pid and its time slices. -/
def registeredTask (k : Kernel) (n : Word) (a : CreateArgs) : Kernel :=
  let k := Effect.incPid.kernel ((Effect.listAdd .all n).kernel k)
  (Effect.storeSlices n a.priority).kernel ((Effect.storePid n).kernel k)

/-- The task has its stack and is on its ready list. -/
def linkedTask (k : Kernel) (n : Word) (a : CreateArgs) : Kernel :=
  let k := (Effect.buildStack n a.proc a.params).kernel k
  (Effect.setStatus n a.status).kernel ((Effect.listAddTail (.ready (k.task n).priority) n).kernel k)

theorem leads_initialisedTask (k : Kernel) (n : Word) (a : CreateArgs) (b : Bool) (F : Word → List Frame) :
    Leads ⟨.mkZero a n, b, k, F⟩ ⟨.allLock a n, b, initialisedTask k n a, F⟩ :=
  .head (.stmt rfl trivial) (.head (.stmt rfl trivial) .refl)

theorem leads_registeredTask (k : Kernel) (n : Word) (a : CreateArgs) (b : Bool) (F : Word → List Frame) :
    Leads ⟨.allLock a n, b, k, F⟩ ⟨.mkStack a n, b, registeredTask k n a, F⟩ := by
  refine .head (.stmt rfl trivial) (.head (.stmt rfl trivial) (.head (.stmt rfl trivial) ?_))
  refine .head (.stmt rfl trivial) (.head (.stmt rfl trivial) (.head (.stmt rfl trivial) ?_))
  exact .head (.stmt rfl trivial) (.head (.stmt rfl trivial) .refl)

theorem leads_link (k : Kernel) (n : Word) (a : CreateArgs) (b : Bool) (F : Word → List Frame) :
    Leads ⟨.linkLock a n, b, k, F⟩ ⟨.ret, b,
    (Effect.setStatus n a.status).kernel ((Effect.listAddTail (.ready (k.task n).priority) n).kernel k), F⟩ := by
  refine .head (.stmt rfl trivial) (.head (.stmt rfl trivial) (.head (.stmt rfl trivial) ?_))
  exact .head (.stmt rfl trivial) (.head (.stmt rfl trivial) .refl)

theorem leads_linkedTask (k : Kernel) {n : Word} (hcurr : n ≠ k.current) (a : CreateArgs) (b : Bool) (F : Word → List Frame) :
    Leads ⟨.mkStack a n, b, k, F⟩ ⟨.ret, b, linkedTask k n a, Function.update F n [⟨.initPost, .fresh⟩]⟩ :=
  .head (.stmt rfl hcurr) (leads_link ..)

theorem linkedTask_eq (k : Kernel) (m : Mem) {n : Word} (a : CreateArgs) (hn : n ≠ 0) :
    linkedTask (registeredTask (initialisedTask ((Effect.takePage n m a.proc).kernel k) n a) n a) n a =
      withTask k (memsetZero m n pageSize) n a.proc a.params a.name a.priority a.valid a.status := by
  simp only [linkedTask, registeredTask, initialisedTask, Effect.kernel, if_neg hn, buildFrames_eq, Kernel.setTask,
    Kernel.setStatus, Kernel.setLinks, Kernel.zeroNodes, initialised, Function.update_self, Function.update_idem]
  rfl

/-- `task_create` once it has the page `n`. -/
theorem leads_create {a : CreateArgs} {m : Mem} {n : Word} (hpage : mmKgetPage k.mem k.pool 0 = (n, m)) (hn : n ≠ 0)
    (hcurr : n ≠ k.current) (b : Bool) (F : Word → List Frame) : Leads ⟨.mkLock a, b, k, F⟩ ⟨.ret, b,
      withTask k (memsetZero m n pageSize) n a.proc a.params a.name a.priority a.valid a.status,
      Function.update F n [⟨.initPost, .fresh⟩]⟩ := by
  have htake : stmt k k.current (.mkTake a) = some (.takePage n m a.proc, .mkUnlock a n) := by
    show some (Effect.takePage (mmKgetPage k.mem k.pool 0).1 (mmKgetPage k.mem k.pool 0).2 a.proc, _) = _
    rw [hpage]
  rw [← linkedTask_eq k m a hn]
  refine .head (.stmt rfl trivial) (.head (.stmt htake trivial) (.head (.stmt rfl trivial) ?_))
  change Leads ⟨if n = 0 then .ret else .mkZero a n, b, (Effect.takePage n m a.proc).kernel k, F⟩ _
  rw [if_neg hn]
  refine (leads_initialisedTask ..).trans ((leads_registeredTask ..).trans (leads_linkedTask _ ?_ a b F))
  rw [registeredTask, initialisedTask]
  simp only [Effect.current_kernel]
  exact hcurr

/-! ## On the machine -/

theorem Machine.run_stmt {m : Machine} {f : Frame} {rest : List Frame} {e : Effect} {pc : Pc}
    (hframes : m.frames m.current = f :: rest) (hstmt : stmt m.kernel m.current f.pc = some (e, pc))
    (henabled : e.enabled m.holder = true) : m.run = some ((m.setFrames m.current (⟨pc, f.origin⟩ :: rest)).apply e) := by
  obtain ⟨pc₀, o⟩ := f
  have hrun : m.run = (stmt m.kernel m.current pc₀).bind fun p =>
      if p.1.enabled m.holder then some ((m.setFrames m.current (⟨p.2, o⟩ :: rest)).apply p.1) else none := by
    rw [run, hframes]
    cases pc₀ with
    | ret | schSwitch next => cases hstmt
    | _ => rfl
  rw [hrun, hstmt]
  exact if_pos henabled

/-- The state `m'` comes from `m` by statements alone. -/
def Machine.Reaches (m m' : Machine) : Prop := ∃ n, exec Machine.next m (List.replicate n .step) = some m'

theorem Machine.Reaches.head {m m₁ m' : Machine} (hstep : m.next .step = some m₁) (h : m₁.Reaches m') : m.Reaches m' := by
  obtain ⟨n, hexec⟩ := h
  exact ⟨n + 1, Option.bind_eq_some_iff.mpr ⟨m₁, hstep, hexec⟩⟩

theorem Machine.Reaches.trans {m m₁ m' : Machine} (h : m.Reaches m₁) (h' : m₁.Reaches m') : m.Reaches m' := by
  obtain ⟨n, hexec⟩ := h
  obtain ⟨n', hexec'⟩ := h'
  refine ⟨n + n', ?_⟩
  rw [List.replicate_add, TransitionSystem.exec_append, hexec]
  exact hexec'

/-- The frame is all that is in progress on the current stack, with nothing to do after it, and nobody else holds a lock. -/
structure Running (m : Machine) (o : Origin) (s : Solo) : Prop where
  last : o.proceed = none
  kernel : m.kernel = s.kernel
  frames : m.frames = Function.update s.frames s.kernel.current [⟨s.pc, o⟩]
  intr : m.intr = s.intr
  holder : ∀ l, m.holder l = if l ∈ s.pc.locks then some s.kernel.current else none

namespace Running

variable {m : Machine} {o : Origin} {s s' : Solo}

theorem current (h : Running m o s) : m.current = s.kernel.current := congrArg Kernel.current h.kernel

theorem top (h : Running m o s) : m.frames m.current = [⟨s.pc, o⟩] := by
  rw [h.frames, h.current, Function.update_self]

theorem step (h : Running m o s) (hstep : s.Step s') : ∃ m', m.next .step = some m' ∧ Running m' o s' := by
  obtain ⟨hstmt, hspares⟩ := hstep
  rename_i e pc
  have hlocks := stmt_locks hstmt
  have henabled : e.enabled m.holder = true := by
    cases e with
    | acquire l =>
        show (m.holder l).isNone = true
        rw [h.holder, if_neg (stmt_acquire_not_mem hstmt)]
        rfl
    | _ => rfl
  have hstmt' : stmt m.kernel m.current s.pc = some (e, pc) := by rwa [h.current, h.kernel]
  refine ⟨_, m.run_stmt h.top hstmt' henabled, h.last, congrArg e.kernel h.kernel, ?_, congrArg e.intr h.intr, fun l => ?_⟩
  · show e.frames (Function.update m.frames m.current [⟨pc, o⟩]) = Function.update (e.frames s.frames) _ _
    rw [h.frames, h.current, Function.update_idem, e.current_kernel]
    cases e with
    | buildStack n proc params => exact Function.update_comm hspares.symm _ _ _
    | _ => rfl
  · show e.holder m.current m.holder l = if l ∈ pc.locks then some (e.kernel s.kernel).current else none
    rw [e.current_kernel, h.current]
    cases e with
    | acquire l' =>
        have hlocks : pc.locks = l' :: s.pc.locks := hlocks
        show Function.update m.holder l' (some s.kernel.current) l = _
        by_cases hl : l = l'
        · rw [hl, Function.update_self, hlocks, if_pos (List.mem_cons_self ..)]
        · rw [Function.update_of_ne hl, h.holder, hlocks]
          exact if_congr ⟨List.mem_cons_of_mem _, fun hmem => (List.mem_cons.mp hmem).resolve_left hl⟩ rfl rfl
    | release l' =>
        have hlocks : s.pc.locks = l' :: pc.locks := hlocks
        have hnot : l' ∉ pc.locks := (List.nodup_cons.mp (hlocks ▸ s.pc.nodup_locks)).1
        show Function.update m.holder l' none l = _
        by_cases hl : l = l'
        · rw [hl, Function.update_self, if_neg hnot]
        · rw [Function.update_of_ne hl, h.holder, hlocks]
          exact if_congr ⟨fun hmem => (List.mem_cons.mp hmem).resolve_left hl, List.mem_cons_of_mem _⟩ rfl rfl
    | _ =>
        have hlocks : pc.locks = s.pc.locks := hlocks
        rw [hlocks]
        exact h.holder l

theorem leads (h : Running m o s) (hleads : s.Leads s') : ∃ m', m.Reaches m' ∧ Running m' o s' := by
  induction hleads with
  | refl => exact ⟨m, ⟨0, rfl⟩, h⟩
  | tail _ hstep ih =>
      obtain ⟨m₁, hreaches, h₁⟩ := ih
      obtain ⟨m₂, hm₂, h₂⟩ := h₁.step hstep
      exact ⟨m₂, hreaches.trans (.head hm₂ ⟨0, rfl⟩), h₂⟩

end Running

/-! ## Between calls -/

/-- Every task but the current one has been switched away from in its last function, or has not run yet. -/
def Saved (k : Kernel) (F : Word → List Frame) : Prop :=
  ∀ t, k.IsTask t → t ≠ k.current → ∃ f, F t = [f] ∧ f.pc.suspended = true ∧ f.origin.proceed = none

theorem Origin.proceed_waited (o : Origin) (h : o.proceed = none) : o.waited.proceed = none := by
  cases o with
  | device op ops late =>
      cases ops with
      | nil => rfl
      | cons op' ops => cases h
  | _ => exact h

theorem Saved.congr (h : Saved k F) (hcreated : k'.created = k.created) (hcurrent : k'.current = k.current) : Saved k' F := by
  intro t ht hne
  rw [Kernel.IsTask, hcreated] at ht
  exact h t ht (hcurrent ▸ hne)

/-- Nothing is in progress on the current stack. -/
structure Between (m : Machine) : Prop where
  top : m.frames m.current = []
  saved : Saved m.kernel m.frames
  intr : m.intr = true
  free : ∀ l, m.holder l = none

theorem Machine.next_step_of_empty {m : Machine} (h : m.frames m.current = []) : m.next .step = none := by
  show m.run = none
  rw [Machine.run, h]

namespace Running

variable {m : Machine} {o : Origin}

theorem ret (h : Running m o ⟨.ret, b, k, F⟩) (hintr : (b || o.isr) = true) (hsaved : Saved k F) :
    ∃ m', m.Reaches m' ∧ Between m' ∧ m'.kernel = k := by
  have hkernel : m.kernel = k := h.kernel
  have hcurrent : m.current = k.current := h.current
  refine ⟨{ m.setFrames m.current [] with intr := m.intr || o.isr }, .head ?_ ⟨0, rfl⟩,
    ⟨Function.update_self .., fun t ht hne => ?_, ?_, fun l => h.holder l⟩, hkernel⟩
  · show m.run = _
    simp only [Machine.run, h.top, h.last]
  · show ∃ f, Function.update m.frames m.current [] t = [f] ∧ _
    have hne : t ≠ k.current := hcurrent ▸ hne
    rw [hcurrent, Function.update_of_ne hne, h.frames, Function.update_of_ne hne]
    exact hsaved t (hkernel ▸ ht) hne
  · show (m.intr || o.isr) = true
    rw [h.intr]
    exact hintr

/-- The task that is dispatched leaves `schedule`, or `switch_initial` the first time. -/
theorem dispatch (h : Running m o ⟨.schSwitch next, b, k, F⟩) (hsaved : Saved k F) (htask : k.IsTask next) :
    ∃ m', m.Reaches m' ∧ Between m' ∧ m'.kernel = { k with current := next } := by
  have hcurrent : m.current = k.current := h.current
  by_cases heq : next = k.current
  · subst heq
    have hstep : m.next .step = some (m.setFrames m.current [⟨.schSti, o.waited⟩]) := by
      show m.run = _
      rw [Machine.run, h.top]
      exact if_pos hcurrent.symm
    have hsti : Running (m.setFrames m.current [⟨.schSti, o.waited⟩]) o.waited ⟨.schSti, b, k, F⟩ := by
      refine ⟨o.proceed_waited h.last, h.kernel, ?_, h.intr, h.holder⟩
      show Function.update m.frames m.current _ = _
      rw [h.frames, hcurrent, Function.update_idem]
    obtain ⟨m₁, hreaches, h₁⟩ := hsti.leads (.head (.stmt rfl trivial) .refl)
    obtain ⟨m', hreaches', hbetween, hkernel⟩ := h₁.ret rfl hsaved
    exact ⟨m', .head hstep (hreaches.trans hreaches'), hbetween, hkernel⟩
  · obtain ⟨⟨pc, o'⟩, hframes, hsuspended, hlast⟩ := hsaved next htask heq
    have hstep : m.next .step = some ((m.setFrames m.current [⟨.schPost, o.waited⟩]).switchTo next) := by
      show m.run = _
      rw [Machine.run, h.top]
      refine (if_neg (hcurrent ▸ heq)).trans (if_neg ?_)
      rw [h.frames, Function.update_of_ne heq]
      show F next ≠ []
      rw [hframes]
      exact List.cons_ne_nil _ _
    have hnext : Function.update F k.current [⟨.schPost, o.waited⟩] next = [⟨pc, o'⟩] := by
      rw [Function.update_of_ne heq, hframes]
    have hdispatched : Running ((m.setFrames m.current [⟨.schPost, o.waited⟩]).switchTo next) o'
        ⟨pc, b, { k with current := next }, Function.update F k.current [⟨.schPost, o.waited⟩]⟩ := by
      refine ⟨hlast, congrArg (fun k : Kernel => { k with current := next }) h.kernel, ?_, h.intr, fun l => ?_⟩
      · show Function.update m.frames m.current [⟨.schPost, o.waited⟩] = Function.update _ next [⟨pc, o'⟩]
        rw [← hnext, Function.update_eq_self, h.frames, hcurrent, Function.update_idem]
      · have hlocks : pc.locks = [] := by
          cases pc <;> first | rfl | cases hsuspended
        rw [hlocks]
        exact h.holder l
    have hleads : Solo.Leads ⟨pc, b, { k with current := next }, Function.update F k.current [⟨.schPost, o.waited⟩]⟩
        ⟨.ret, true, { k with current := next }, Function.update F k.current [⟨.schPost, o.waited⟩]⟩ := by
      cases pc <;> first
        | exact .head (.stmt rfl trivial) (.head (.stmt rfl trivial) .refl)
        | cases hsuspended
    have hsaved' : Saved { k with current := next } (Function.update F k.current [⟨.schPost, o.waited⟩]) := by
      intro t ht _
      by_cases heq' : t = k.current
      · rw [heq', Function.update_self]
        exact ⟨_, rfl, rfl, o.proceed_waited h.last⟩
      · rw [Function.update_of_ne heq']
        exact hsaved t ht heq'
    obtain ⟨m₁, hreaches, h₁⟩ := hdispatched.leads hleads
    obtain ⟨m', hreaches', hbetween, hkernel⟩ := h₁.ret rfl hsaved'
    exact ⟨m', .head hstep (hreaches.trans hreaches'), hbetween, hkernel⟩

variable {seq : Queues}

theorem schedule (h : Running m o ⟨.schRead, b, k, F⟩) (hinv : SchedInv k seq) (hsaved : Saved k F) :
    ∃ m', m.Reaches m' ∧ Between m' ∧ I386Kernel.schedule k = some m'.kernel := by
  obtain ⟨next, hnext⟩ := hinv.exists_next
  obtain ⟨m₁, hreaches, h₁⟩ := h.leads (leads_schedule (hinv.nextTaskToRun_next.trans hnext) b F)
  have hsaved' : Saved ((nextTaskToRun k).2.setStatus next .running) F := by
    rw [SchedInv.nextTaskToRun_snd]
    exact hsaved
  have htask : ((nextTaskToRun k).2.setStatus next .running).IsTask next := by
    rw [SchedInv.nextTaskToRun_snd]
    exact hinv.ledger.member _ _ (List.mem_of_head? hnext)
  obtain ⟨m', hreaches', hbetween, hkernel⟩ := h₁.dispatch hsaved' htask
  refine ⟨m', hreaches.trans hreaches', hbetween, ?_⟩
  rw [hkernel]
  exact hinv.schedule_eq hnext

theorem semaDown (h : Running m o ⟨.downLock s, true, k, F⟩) (hinv : SchedInv k seq) (hrun : k.status k.current = .running)
    (hidle : ¬ k.IsIdle k.current) (hsaved : Saved k F) :
    ∃ m', m.Reaches m' ∧ Between m' ∧ I386Kernel.semaDown k s = some m'.kernel := by
  have htest : Solo.Leads ⟨.downLock s, true, k, F⟩
      ⟨if k.semaCount s ≤ 0 then .suspLock s else .downDec s, true, k, F⟩ :=
    .head (.stmt rfl trivial) (.head (.stmt rfl trivial) .refl)
  rw [I386Kernel.semaDown, semaDownSection]
  by_cases hcount : k.semaCount s ≤ 0
  · rw [if_pos hcount] at htest ⊢
    obtain ⟨m₁, hreaches, h₁⟩ := h.leads (htest.trans (leads_suspend k true F s))
    obtain ⟨m', hreaches', hbetween, hkernel⟩ :=
      h₁.schedule (hinv.taskSuspend s (by rw [hrun]; decide) hidle) (hsaved.congr rfl rfl)
    exact ⟨m', hreaches.trans hreaches', hbetween, hkernel⟩
  · rw [if_neg hcount] at htest ⊢
    obtain ⟨m₁, hreaches, h₁⟩ := h.leads
      (htest.trans (.head (.stmt rfl trivial) (.head (.stmt rfl trivial) .refl)))
    obtain ⟨m', hreaches', hbetween, hkernel⟩ := h₁.ret rfl (hsaved.congr rfl rfl)
    exact ⟨m', hreaches.trans hreaches', hbetween, congrArg some hkernel.symm⟩

theorem semaUp (h : Running m o ⟨.upLock s, b, k, F⟩) (hintr : (b || o.isr) = true) (hinv : SchedInv k seq)
    (hrun : k.status k.current = .running) (hsaved : Saved k F) :
    ∃ m', m.Reaches m' ∧ Between m' ∧ I386Kernel.semaUp k s = some m'.kernel := by
  obtain ⟨k', hup, -⟩ := hinv.semaUp_run hrun s
  obtain ⟨hcreated, hcurrent, -⟩ := semaUp_frame hup
  obtain ⟨m₁, hreaches, h₁⟩ := h.leads (leads_semaUp hup b F)
  obtain ⟨m', hreaches', hbetween, hkernel⟩ := h₁.ret hintr (hsaved.congr hcreated hcurrent)
  exact ⟨m', hreaches.trans hreaches', hbetween, hup.trans (congrArg some hkernel.symm)⟩

theorem taskExit (h : Running m o ⟨.exitLock, b, k, F⟩) (hinv : SchedInv k seq) (hrun : k.status k.current = .running)
    (hidle : ¬ k.IsIdle k.current) (hsaved : Saved k F) :
    ∃ m', m.Reaches m' ∧ Between m' ∧ I386Kernel.taskExit k = some m'.kernel := by
  obtain ⟨m₁, hreaches, h₁⟩ := h.leads (leads_exit k b F)
  obtain ⟨m', hreaches', hbetween, hkernel⟩ :=
    h₁.schedule (hinv.taskExitSection (by rw [hrun]; decide) hidle) (hsaved.congr rfl rfl)
  exact ⟨m', hreaches.trans hreaches', hbetween, hkernel⟩

theorem taskCreate {a : CreateArgs} (h : Running m o ⟨(Call.taskCreate a).entry, true, k, F⟩) (hinv : SchedInv k seq)
    (hnull : NoNullPage k) (hsaved : Saved k F) : ∃ m', m.Reaches m' ∧ Between m' ∧
      (I386Kernel.taskCreate k a.proc a.params (some a.name) a.priority a.status).2 = m'.kernel := by
  rw [Call.entry] at h
  by_cases hproc : a.proc = 0
  · rw [if_pos hproc] at h
    obtain ⟨m', hreaches, hbetween, hkernel⟩ := h.ret rfl hsaved
    refine ⟨m', hreaches, hbetween, ?_⟩
    rw [I386Kernel.taskCreate, if_pos hproc, hkernel]
  rw [if_neg hproc] at h
  have hfst := mmKgetPage_fst k.mem k.pool pfZero
  by_cases hpage : (mmKgetPage k.mem k.pool 0).1 = 0
  · obtain ⟨m₁, hreaches, h₁⟩ := h.leads (leads_create_null hpage true F)
    obtain ⟨m', hreaches', hbetween, hkernel⟩ := h₁.ret rfl (hsaved.congr rfl rfl)
    refine ⟨m', hreaches.trans hreaches', hbetween, ?_⟩
    rw [hpage] at hfst
    obtain ⟨-, hk | hk⟩ := taskCreate_of_null k a.params (some a.name) a.priority a.status (Or.inr hfst)
    · rw [hk, hkernel, hnull.kget_null hpage]
    · rw [hk, hkernel, hnull.kget_null hpage, hnull.kget_null hfst]
  · have hfresh : ¬ k.IsTask (mmKgetPage k.mem k.pool 0).1 := by
      obtain ⟨hzero, -⟩ | ⟨i, hi, hunused, haddr, -⟩ := mmKgetPage_spec hinv.pages.wf 0
      · exact absurd hzero hpage
      · rw [haddr]
        exact hinv.pages.fresh hi hunused
    have hcurr : (mmKgetPage k.mem k.pool 0).1 ≠ k.current := fun heq => hfresh (heq ▸ hinv.current)
    obtain ⟨m₁, hreaches, h₁⟩ := h.leads (leads_create Prod.mk.eta.symm hpage hcurr true F)
    have hsaved' : Saved (withTask k (memsetZero (mmKgetPage k.mem k.pool 0).2 (mmKgetPage k.mem k.pool 0).1 pageSize)
        (mmKgetPage k.mem k.pool 0).1 a.proc a.params a.name a.priority a.valid a.status)
        (Function.update F (mmKgetPage k.mem k.pool 0).1 [⟨.initPost, .fresh⟩]) := by
      intro t ht hne
      by_cases heq : t = (mmKgetPage k.mem k.pool 0).1
      · rw [heq, Function.update_self]
        exact ⟨_, rfl, rfl, rfl⟩
      · rw [Function.update_of_ne heq]
        exact hsaved t (((TaskInv.isTask_withTask t).mp ht).resolve_left heq) hne
    obtain ⟨m', hreaches', hbetween, hkernel⟩ := h₁.ret rfl hsaved'
    refine ⟨m', hreaches.trans hreaches', hbetween, ?_⟩
    rw [taskCreate_eq k a.name a.status hproc hfst hpage a.valid, hkernel, mmKgetPage_pfZero hpage]

end Running

/-! ## A call from beginning to end -/

/-- The call that a label begins; a device with one `sema_up`, and a new task that is ready. -/
def Label.begins : Label → Option SchedCall
  | .step => none
  | .call (.semaDown s) => some (.semaDown s)
  | .call (.semaUp s) => some (.semaUp s)
  | .call (.taskCreate a) => if a.status = .ready then some (.taskCreate a.proc a.params a.name a.priority) else none
  | .call .taskExit => some .taskExit
  | .call .schedule => some .schedule
  | .timer => some .schedule
  | .device (.up s) [] => some (.semaUp s)
  | .device _ _ => none

namespace Between

variable {m m₁ : Machine}

theorem call (h : Between m) (c : Call) :
    Running (m.setFrames m.current [⟨c.entry, .call c⟩]) (.call c) ⟨c.entry, true, m.kernel, m.frames⟩ := by
  refine ⟨rfl, rfl, rfl, h.intr, fun l => ?_⟩
  rw [if_neg (by rw [c.entry_locks.1]; exact List.not_mem_nil)]
  exact h.free l

theorem interrupt (h : Between m) {f : Frame} (hlocks : f.pc.locks = []) (hlast : f.origin.proceed = none) :
    Running (m.interrupt f) f.origin ⟨f.pc, false, m.kernel, m.frames⟩ := by
  refine ⟨hlast, rfl, ?_, rfl, fun l => ?_⟩
  · show Function.update m.frames m.current (f :: m.frames m.current) = _
    rw [h.top]
    rfl
  · rw [if_neg (by rw [hlocks]; exact List.not_mem_nil)]
    exact h.free l

/-- Without another interrupt the call ends with the result that it has when it is taken whole. -/
theorem begins (h : Between m) (hinv : RunInv m.kernel) (hnull : NoNullPage m.kernel) {l : Label} {call : SchedCall}
    (hl : l.begins = some call) (hnext : m.next l = some m₁) :
    call.allowed m.kernel ∧ ∃ m', m₁.Reaches m' ∧ Between m' ∧ callResult m.kernel call = some m'.kernel := by
  obtain ⟨seq, hsched, hrun⟩ := hinv
  cases l with
  | step => cases hl
  | timer =>
      cases hl
      obtain ⟨-, heq⟩ := Option.ite_none_right_eq_some.mp hnext
      cases heq
      exact ⟨trivial, (h.interrupt (f := ⟨.schRead, .timer⟩) rfl rfl).schedule hsched h.saved⟩
  | device op ops =>
      obtain ⟨-, heq⟩ := Option.ite_none_right_eq_some.mp hnext
      cases heq
      match op, ops, hl with
      | .up s, [], hl =>
          cases hl
          exact ⟨trivial, (h.interrupt (f := ⟨.upLock s, .device (.up s) [] false⟩) rfl rfl).semaUp rfl hsched hrun h.saved⟩
  | call c =>
      obtain ⟨⟨-, hallowed⟩, heq⟩ := Option.ite_none_right_eq_some.mp hnext
      cases heq
      have hentered := h.call c
      cases c with
      | semaDown s =>
          cases hl
          exact ⟨hallowed, hentered.semaDown hsched hrun hallowed h.saved⟩
      | semaUp s =>
          cases hl
          exact ⟨trivial, hentered.semaUp rfl hsched hrun h.saved⟩
      | taskCreate a =>
          obtain ⟨hready, heq⟩ := Option.ite_none_right_eq_some.mp hl
          cases heq
          obtain ⟨m', hreaches, hbetween, hkernel⟩ := hentered.taskCreate hsched hnull h.saved
          rw [hready] at hkernel
          exact ⟨⟨hallowed, a.valid⟩, m', hreaches, hbetween, congrArg some hkernel⟩
      | taskExit =>
          cases hl
          exact ⟨hallowed, hentered.taskExit hsched hrun hallowed h.saved⟩
      | schedule =>
          cases hl
          exact ⟨trivial, hentered.schedule hsched h.saved⟩

/-- Every call that is allowed can begin. -/
theorem exists_begins (h : Between m) {call : SchedCall} (hallowed : call.allowed m.kernel) :
    ∃ l m₁, l.begins = some call ∧ m.next l = some m₁ := by
  have hcall : ∀ {c : Call}, c.allowed m.kernel → ∃ m₁, m.next (.call c) = some m₁ := fun hc => ⟨_, if_pos ⟨h.top, hc⟩⟩
  cases call with
  | taskCreate proc params name priority =>
      obtain ⟨m₁, hm₁⟩ := hcall (c := .taskCreate ⟨proc, params, name, priority, .ready, hallowed.2⟩) hallowed.1
      exact ⟨_, m₁, rfl, hm₁⟩
  | semaDown s =>
      obtain ⟨m₁, hm₁⟩ := hcall (c := .semaDown s) hallowed
      exact ⟨_, m₁, rfl, hm₁⟩
  | semaUp s =>
      obtain ⟨m₁, hm₁⟩ := hcall (c := .semaUp s) trivial
      exact ⟨_, m₁, rfl, hm₁⟩
  | taskExit =>
      obtain ⟨m₁, hm₁⟩ := hcall (c := .taskExit) hallowed
      exact ⟨_, m₁, rfl, hm₁⟩
  | schedule => exact ⟨.timer, _, rfl, if_pos h.intr⟩

end Between

/-! ## Pages at address 0 -/

namespace NoNullPage

theorem congr (h : NoNullPage k) (hmem : k'.mem = k.mem) (hpool : k'.pool = k.pool) : NoNullPage k' := by
  rw [NoNullPage, hmem, hpool]
  exact h

theorem taskCreate (h : NoNullPage k) (proc params : Word) (name : List UInt8) {priority : Int}
    (hp : validPriority priority) (st : TaskStatus) : NoNullPage (I386Kernel.taskCreate k proc params (some name) priority st).2 := by
  have hpages : TaskPages (mmKgetPage k.mem k.pool pfZero).2 k.pool 0 fun _ => False := by
    obtain ⟨-, hmem, -⟩ | ⟨i, hi, -, -, hgrant⟩ := mmKgetPage_spec h.wf pfZero
    · rw [hmem]
      exact h
    · exact (h.grant hi hgrant).mono fun _ => False.elim
  by_cases hnull : proc = 0 ∨ (mmKgetPage k.mem k.pool pfZero).1 = 0
  · obtain ⟨-, hk | hk⟩ := taskCreate_of_null k params (some name) priority st hnull
    · rw [hk]
      exact h
    · rw [hk]
      exact hpages
  · obtain ⟨hproc, hpage⟩ := not_or.mp hnull
    obtain ⟨hzero, -⟩ | ⟨i, hi, -, haddr, hgrant⟩ := mmKgetPage_spec h.wf pfZero
    · exact absurd hzero hpage
    rw [taskCreate_eq k name st hproc haddr (haddr ▸ hpage) hp]
    have hcount := pageCount_congr hgrant.header
    have halign := h.wf.pageAddr_aligned (Nat.le_of_lt hi)
    have hout : ∀ a, k.pool.InBitmap (mmKgetPage k.mem k.pool pfZero).2 a → ¬ InPage (k.pool.pageAddr i) a :=
      fun a ha hin => hpages.wf.not_inBitmap_of_inPage (hcount.symm ▸ hi) hin ha
    generalize k.pool.pageAddr i = tsk at *
    change TaskPages (frames (mmKgetPage k.mem k.pool pfZero).2 k.sym (tsk + pageSize) proc params) k.pool 0 _
    exact hpages.congr fun a ha => frames_of_not_inPage halign (hout a ha)

theorem schedule {seq : Queues} (h : NoNullPage k) (hinv : SchedInv k seq) (hk : I386Kernel.schedule k = some k') :
    NoNullPage k' := by
  obtain ⟨next, hnext⟩ := hinv.exists_next
  rw [hinv.schedule_eq hnext] at hk
  cases hk
  rw [SchedInv.dispatched, SchedInv.nextTaskToRun_snd]
  exact h

theorem call (h : NoNullPage k) (hinv : RunInv k) {call : SchedCall} (hstep : callStep k call = some k') : NoNullPage k' := by
  obtain ⟨seq, hsched, hrun⟩ := hinv
  obtain ⟨hallowed, hres⟩ := Option.ite_none_right_eq_some.mp hstep
  cases call with
  | taskCreate proc params name priority =>
      cases hres
      exact h.taskCreate proc params name hallowed.2 .ready
  | semaUp s =>
      obtain ⟨-, -, hmem, hpool⟩ := semaUp_frame hres
      exact h.congr hmem hpool
  | taskExit =>
      have hexit : NoNullPage (taskExitSection k) := h.congr rfl rfl
      exact hexit.schedule (hsched.taskExitSection (by rw [hrun]; decide) hallowed) hres
  | schedule => exact h.schedule hsched hres
  | semaDown s =>
      change semaDown k s = some k' at hres
      rw [semaDown, semaDownSection] at hres
      by_cases hcount : k.semaCount s ≤ 0
      · rw [if_pos hcount] at hres
        have hsuspend : NoNullPage (taskSuspend k k.current (.wait s)) := h.congr rfl rfl
        exact hsuspend.schedule (hsched.taskSuspend s (by rw [hrun]; decide) hallowed) hres
      · rw [if_neg hcount] at hres
        cases hres
        exact h

theorem schedInitTasks (h : NoNullPage k) (sem : Word) : NoNullPage (schedInitTasks k sem) := by
  have hloop : ∀ (ps : List (Fin 64)) (k : Kernel),
      (ps.foldl (fun k i => k.setLinks (listHeadInit k.links (.head (.ready i)))) k).mem = k.mem ∧
        (ps.foldl (fun k i => k.setLinks (listHeadInit k.links (.head (.ready i)))) k).pool = k.pool := by
    intro ps
    induction ps with
    | nil => exact fun k => ⟨rfl, rfl⟩
    | cons p ps ih => exact fun k => ih (k.setLinks (listHeadInit k.links (.head (.ready p))))
  have hinit : ∀ (k : Kernel) (t : Word) (name : Option (List UInt8)) (priority : Int),
      (taskStructInit k t name priority).mem = k.mem ∧ (taskStructInit k t name priority).pool = k.pool := by
    intro k t name priority
    cases name with
    | none => exact ⟨rfl, rfl⟩
    | some name =>
        rw [taskStructInit]
        split <;> exact ⟨rfl, rfl⟩
  have hlists : NoNullPage (schedInitLists k sem) := by
    obtain ⟨hmem, hpool⟩ := hloop (List.finRange 64) (semaInit k sem 0)
    rw [schedInitLists]
    generalize (List.finRange 64).foldl _ _ = k₁ at hmem hpool ⊢
    exact h.congr ((hinit ..).1.trans hmem) ((hinit ..).2.trans hpool)
  have hdefault : validPriority ((prioDefault : Fin 64) : Nat) := by decide
  rw [I386Kernel.schedInitTasks, createIdle, createIdle]
  exact (hlists.taskCreate _ _ _ hdefault _).taskCreate _ _ _ hdefault _

theorem of_poolOk (h : PoolOk k.mem k.pool) : NoNullPage k :=
  ⟨h.toPoolWf, fun _ => False.elim, fun _ hi => h.pageAddr_ne_zero (Nat.le_of_lt hi)⟩

end NoNullPage

/-! ## Runs -/

/-- Interrupts come between two calls only, and begin one of the calls. -/
def Uninterrupted (m : Machine) (l : Label) : Prop := l = .step ∨ (l.begins.isSome = true ∧ m.frames m.current = [])

/-- The statements of uninterrupted calls, one at a time. -/
def statements (k : Kernel) : TransitionSystem Machine Label :=
  (TransitionSystem.ofFn (· = Machine.start k) Machine.next).restrict Uninterrupted

/-- The same calls, each as one step. -/
def wholeCalls (k : Kernel) : TransitionSystem Kernel SchedCall := .ofFn (· = k) callStep

variable {k₀ : Kernel} {sem : Word}

theorem wholeCalls_inv (hboot : Boot k₀ sem) (hpool : PoolOk k₀.mem k₀.pool)
    (h : (wholeCalls (schedInitTasks k₀ sem)).Reachable k) : RunInv k ∧ NoNullPage k := by
  refine (wholeCalls _).invariant (P := fun k => RunInv k ∧ NoNullPage k) (fun k hk => ?_) (fun k call k' _ hinv hstep => ?_) h
  · subst hk
    obtain ⟨seq, hinv, hrun, -⟩ := schedInitTasks_inv hboot
    exact ⟨⟨seq, hinv, hrun⟩, (NoNullPage.of_poolOk hpool).schedInitTasks sem⟩
  · exact ⟨callStep_run hinv.1 hstep, hinv.2.call hinv.1 hstep⟩

theorem between_start (k : Kernel) : Between (Machine.start k) := by
  refine ⟨if_neg fun h => h.2 rfl, fun t ht hne => ?_, rfl, fun _ => rfl⟩
  obtain ⟨proc, hmem⟩ := ht
  exact ⟨_, if_pos ⟨List.mem_map_of_mem hmem, hne⟩, rfl, rfl⟩

theorem statements_reaches {m m' : Machine} (h : (statements k₀).Reachable m) (hreaches : m.Reaches m') :
    (statements k₀).Reachable m' := by
  obtain ⟨n, hexec⟩ := hreaches
  induction n generalizing m with
  | zero =>
      cases hexec
      exact h
  | succ n ih =>
      obtain ⟨m₁, hm₁, hrest⟩ := Option.bind_eq_some_iff.mp hexec
      exact ih (.step (l := .step) h ⟨Or.inl rfl, hm₁⟩) hrest

/-- What can still take a step has not ended. -/
theorem Machine.Reaches.cases {m m' : Machine} (h : m.Reaches m') :
    m = m' ∨ ∃ m₁, m.next .step = some m₁ ∧ m₁.Reaches m' := by
  obtain ⟨n, hexec⟩ := h
  cases n with
  | zero => exact Or.inl (Option.some.inj hexec)
  | succ n =>
      obtain ⟨m₁, hm₁, hrest⟩ := Option.bind_eq_some_iff.mp hexec
      exact Or.inr ⟨m₁, hm₁, n, hrest⟩

theorem Machine.Reaches.eq_of_empty {m m' : Machine} (h : m.Reaches m') (hempty : m.frames m.current = []) : m = m' := by
  obtain heq | ⟨m₁, hm₁, -⟩ := h.cases
  · exact heq
  · rw [Machine.next_step_of_empty hempty] at hm₁
    cases hm₁

/-- A call that has begun is on the way to the state in which it ends. -/
theorem statements_inv (hboot : Boot k₀ sem) (hpool : PoolOk k₀.mem k₀.pool) {m : Machine}
    (h : (statements (schedInitTasks k₀ sem)).Reachable m) :
    ∃ m', m.Reaches m' ∧ Between m' ∧ (wholeCalls (schedInitTasks k₀ sem)).Reachable m'.kernel := by
  refine (statements _).invariant (P := fun m => ∃ m', m.Reaches m' ∧ Between m' ∧
    (wholeCalls (schedInitTasks k₀ sem)).Reachable m'.kernel) (fun m hm => ?_) (fun m l m₁ _ hinv hstep => ?_) h
  · subst hm
    exact ⟨_, ⟨0, rfl⟩, between_start _, .init rfl⟩
  · obtain ⟨m', hreaches, hbetween, hreach⟩ := hinv
    obtain ⟨hok, hnext⟩ := hstep
    have hnext : m.next l = some m₁ := hnext
    by_cases hl : l = .step
    · subst hl
      obtain rfl | ⟨m₂, hm₂, hrest⟩ := hreaches.cases
      · rw [Machine.next_step_of_empty hbetween.top] at hnext
        cases hnext
      · obtain rfl := Option.some.inj (hm₂.symm.trans hnext)
        exact ⟨m', hrest, hbetween, hreach⟩
    · -- another label finds nothing in progress
      obtain ⟨hbegins, hempty⟩ := hok.resolve_left hl
      obtain rfl := hreaches.eq_of_empty hempty
      obtain ⟨call, hcall⟩ := Option.isSome_iff_exists.mp hbegins
      obtain ⟨hrun, hnull⟩ := wholeCalls_inv hboot hpool hreach
      obtain ⟨hallowed, m'', hreaches', hbetween', hres⟩ := hbetween.begins hrun hnull hcall hnext
      exact ⟨m'', hreaches', hbetween', .step hreach ((if_pos hallowed).trans hres)⟩

/-- Between calls that no interrupt breaks into, the kernel taken statement by statement is in the states of the kernel whose calls are taken whole. -/
theorem between_calls (hboot : Boot k₀ sem) (hpool : PoolOk k₀.mem k₀.pool) (k : Kernel) :
    (∃ m, (statements (schedInitTasks k₀ sem)).Reachable m ∧ Between m ∧ m.kernel = k) ↔
      (wholeCalls (schedInitTasks k₀ sem)).Reachable k := by
  constructor
  · rintro ⟨m, hreach, hbetween, rfl⟩
    obtain ⟨m', hreaches, -, hreach'⟩ := statements_inv hboot hpool hreach
    obtain rfl := hreaches.eq_of_empty hbetween.top
    exact hreach'
  · intro h
    induction h with
    | init hk => exact ⟨_, .init rfl, between_start _, hk.symm⟩
    | step hreach hstep ih =>
        obtain ⟨m, hm, hbetween, rfl⟩ := ih
        obtain ⟨hrun, hnull⟩ := wholeCalls_inv hboot hpool hreach
        obtain ⟨hallowed, hres⟩ := Option.ite_none_right_eq_some.mp hstep
        obtain ⟨l, m₁, hl, hnext⟩ := hbetween.exists_begins hallowed
        obtain ⟨-, m', hreaches, hbetween', hres'⟩ := hbetween.begins hrun hnull hl hnext
        have hok : Uninterrupted m l := Or.inr ⟨by rw [hl]; rfl, hbetween.top⟩
        refine ⟨m', statements_reaches (.step hm ⟨hok, hnext⟩) hreaches, hbetween', ?_⟩
        exact Option.some.inj (hres'.symm.trans hres)

/-- The boot task waits, an idle task wakes it, and it creates a task. -/
theorem between_calls_smallMachine : ∃ k m, exec callStep (schedInitTasks smallMachine 0xc0110f00)
    [.semaDown 0xc0110f00, .semaUp 0xc0110f00, .schedule, .schedule, .schedule, .schedule,
      .taskCreate 0xc0105000 7 [0x61] 31] = some k ∧
    (statements (schedInitTasks smallMachine 0xc0110f00)).Reachable m ∧ Between m ∧ m.kernel = k := by
  have hboot : Boot smallMachine 0xc0110f00 := boot_smallMachine _ (by unfold IdleTasksCreated; decide +kernel)
  have hpool : PoolOk smallMachine.mem smallMachine.pool := ⟨hboot.pool, by decide⟩
  have hsome : (exec callStep (schedInitTasks smallMachine 0xc0110f00) [.semaDown 0xc0110f00, .semaUp 0xc0110f00, .schedule,
      .schedule, .schedule, .schedule, .taskCreate 0xc0105000 7 [0x61] 31]).isSome = true := by decide +kernel
  obtain ⟨k, hk⟩ := Option.isSome_iff_exists.mp hsome
  obtain ⟨m, hm, hbetween, hkernel⟩ := (between_calls hboot hpool k).mpr (TransitionSystem.reachable_exec _ (.init rfl) hk)
  exact ⟨k, m, hk, hm, hbetween, hkernel⟩

end I386Kernel.Preempt
