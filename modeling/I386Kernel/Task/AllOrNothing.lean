import I386Kernel.Task.SchedRuns

/-!
# `task_create` for all arguments

`task_struct_init` checks the name and the priority and returns without a word when one of them is invalid, and `task_create` does not look: it links the zeroed page as a task of priority 0 and builds the stack below address 0. It also links a new task on the ready list whatever status it is given.
-/

namespace I386Kernel

open CircularList (Ring)
open FirstFit (IsFirst Run)

/-! ## What a call is to do -/

/-- The task is met on the list, from its head on. -/
def OnList (L : CircularList.Links Node) (q : QueueId) (t : Word) : Prop :=
  ∃ ts : List Word, Ring L (.head q) (ts.map q.node) ∧ t ∈ ts

/-- The call has failed, and the pool and the lists are as they were. -/
structure Refused (k : Kernel) (r : Int × Kernel) : Prop where
  ret : r.1 = -1
  pool : ∀ i, i < k.pool.pageCount k.mem → k.pool.used r.2.mem i = k.pool.used k.mem i
  links : r.2.links = k.links

/-- A task has been built in the page `tsk`, with its stack in that page, and is on its ready list if it is to run. -/
structure Built (k : Kernel) (name : Option (List UInt8)) (priority : Int) (st : TaskStatus) (r : Int × Kernel)
    (tsk : Word) : Prop where
  page : ∃ i, i < k.pool.pageCount k.mem ∧ tsk = k.pool.pageAddr i ∧ k.pool.used k.mem i = false ∧
    k.pool.used r.2.mem i = true
  ret : 0 ≤ r.1
  pid : (r.2.task tsk).pid = r.1
  magic : (r.2.task tsk).magic = taskMagic
  name : name.map (List.take 15) = some (r.2.task tsk).name
  priority : ((r.2.task tsk).priority : Nat) = priority
  stack : ∀ off, off < kernelProcStackSize + switchFrameSize → InPage tsk ((r.2.task tsk).sp + off)
  queued : OnList r.2.links (.ready (r.2.task tsk).priority) tsk ↔ st = .running ∨ st = .ready

def AllOrNothing (k : Kernel) (name : Option (List UInt8)) (priority : Int) (st : TaskStatus) (r : Int × Kernel) :
    Prop :=
  Refused k r ∨ ∃ tsk, Built k name priority st r tsk

/-- The lists are well formed, and every task on one has its page to itself. -/
structure Settled (k : Kernel) (seq : Queues) : Prop where
  links : Represents k.links seq
  pages : TaskPages k.mem k.pool k.initTask fun t => ∃ q, t ∈ seq q
  pid : -2 ^ 31 ≤ k.nextPid ∧ k.nextPid < 2 ^ 31

theorem TaskInv.settled {k : Kernel} {seq : Queues} (h : TaskInv k seq) (hpid : -2 ^ 31 ≤ k.nextPid ∧ k.nextPid < 2 ^ 31) :
    Settled k seq where
  links := h.links
  pages := h.pages.mono fun t ⟨q, hq⟩ => h.ledger.member q t hq
  pid := hpid

theorem Represents.onList_iff {L : CircularList.Links Node} {seq : Queues} (h : Represents L seq) (q : QueueId) (t : Word) :
    OnList L q t ↔ t ∈ seq q := by
  constructor
  · intro ⟨ts, hring, ht⟩
    have hseq : seq q = ts := List.map_injective_iff.mpr q.node_injective ((h.ring q).unique hring)
    exact hseq ▸ ht
  · exact fun ht => ⟨seq q, h.ring q, ht⟩

/-! ## Invalid arguments -/

theorem taskStructInit_of_invalid (k : Kernel) (tsk : Word) {name : Option (List UInt8)} {priority : Int}
    (h : name = none ∨ ¬validPriority priority) : taskStructInit k tsk name priority = k := by
  cases name with
  | none => rfl
  | some name =>
      have hp := h.resolve_left nofun
      exact dif_neg fun hvalid => hp hvalid.2

/-- The state after a call with an invalid name or priority. -/
theorem taskCreate_of_invalid (k : Kernel) {proc params tsk : Word} {name : Option (List UInt8)} {priority : Int}
    (st : TaskStatus) (hproc : proc ≠ 0) (hpage : (mmKgetPage k.mem k.pool pfZero).1 = tsk) (htsk : tsk ≠ 0)
    (h : name = none ∨ ¬validPriority priority) :
    (taskCreate k proc params name priority st).2.task tsk =
        { TaskStruct.zero with sp := 0 - kernelProcStackSize - switchFrameSize, status := st } ∧
      (taskCreate k proc params name priority st).2.mem =
        frames (mmKgetPage k.mem k.pool pfZero).2 k.sym 0 proc params := by
  subst hpage
  rw [taskCreate, if_neg hproc]
  simp only [if_neg htsk, taskStructInit_of_invalid _ _ h, buildFrames_eq, Kernel.setTask, Kernel.setStatus,
    Kernel.setLinks, Function.update_self, Function.update_idem]
  exact ⟨rfl, rfl⟩

theorem taskCreate_of_no_page (k : Kernel) {proc params : Word} {name : Option (List UInt8)} {priority : Int}
    {st : TaskStatus} (hproc : proc ≠ 0) (hpage : (mmKgetPage k.mem k.pool pfZero).1 = 0) :
    taskCreate k proc params name priority st = (-1, { k with mem := (mmKgetPage k.mem k.pool pfZero).2 }) := by
  rw [taskCreate, if_neg hproc]
  simp only [if_pos hpage]

/-! ## The page -/

/-- The first page that is not marked. -/
def MemPool.Next (pool : MemPool) (m : Mem) (i : Nat) : Prop := IsFirst (pool.free m) (pool.pageCount m) 1 0 i

theorem mmKgetPage_of_next {m : Mem} {pool : MemPool} (h : PoolWf m pool) {i : Nat} (hi : pool.Next m i) :
    (mmKgetPage m pool pfZero).1 = pool.pageAddr i ∧
      Granted m (mmKgetPage m pool pfZero).2 pool i 1 (pfZero &&& pfZero ≠ 0) := by
  obtain ⟨-, -, hnone⟩ | ⟨-, j, hj, hpage, hgrant⟩ := mmKgetPages_spec h pfZero 1
  · exact absurd hi.run (hnone.resolve_left (by decide) i)
  · obtain rfl := hj.unique hi
    exact ⟨hpage, hgrant⟩

theorem MemPool.exists_next_or {m : Mem} {pool : MemPool} (h : PoolWf m pool) :
    (∃ i, pool.Next m i) ∨ (∀ i, ¬pool.Next m i) ∧ (mmKgetPage m pool pfZero).1 = 0 ∧ (mmKgetPage m pool pfZero).2 = m := by
  obtain ⟨hnull, hmem, hnone⟩ | ⟨-, i, hi, -, -⟩ := mmKgetPages_spec h pfZero 1
  · exact Or.inr ⟨fun i hi => hnone.resolve_left (by decide) i hi.run, hnull, hmem⟩
  · exact Or.inl ⟨i, hi⟩

namespace Settled

variable {k : Kernel} {seq : Queues} {i : Nat} {proc params : Word} {name : Option (List UInt8)} {priority : Int}
  {st : TaskStatus}

theorem fresh (h : Settled k seq) (hi : k.pool.Next k.mem i) (q : QueueId) : k.pool.pageAddr i ∉ seq q := by
  obtain ⟨hlt, hfree⟩ := run_one_iff.mp hi.run
  exact fun hmem => h.pages.fresh hlt hfree ⟨q, hmem⟩

/-- Words of a page, and words at the end of the address space, are none of the bitmap. -/
theorem used_frames (h : Settled k seq) {m : Mem} (hheader : m k.pool.bm = k.mem k.pool.bm) {tsk : Word}
    (htsk : tsk = 0xfffff000 ∨ ∃ i, i < k.pool.pageCount k.mem ∧ tsk = k.pool.pageAddr i) {j : Nat}
    (hj : j < k.pool.pageCount k.mem) :
    k.pool.used (frames m k.sym (tsk + pageSize) proc params) j = k.pool.used m j := by
  have hwf := h.pages.wf.congr hheader
  have hcount := pageCount_congr hheader
  refine used_congr (fun a ha => frames_of_not_inPage ?_ fun hin => ?_) (hcount ▸ hj)
  · obtain rfl | ⟨i, hi, rfl⟩ := htsk
    · rfl
    · exact h.pages.wf.pageAddr_aligned (Nat.le_of_lt hi)
  · obtain rfl | ⟨i, hi, rfl⟩ := htsk
    · have hbelow := (hwf.inBitmap_bounds ha).2
      have haligned := hwf.aligned
      have hbase := k.pool.base.isLt
      have hhigh : 0xfffff000 ≤ a.toNat := hin.1
      omega
    · exact hwf.not_inBitmap_of_inPage (hcount ▸ hi) hin ha

/-- A call that gets page `i` marks that page and no other. -/
theorem used_taskCreate (h : Settled k seq) (hi : k.pool.Next k.mem i) (hproc : proc ≠ 0) {j : Nat}
    (hj : j < k.pool.pageCount k.mem) :
    k.pool.used (taskCreate k proc params name priority st).2.mem j =
      if i ≤ j ∧ j < i + 1 then true else k.pool.used k.mem j := by
  obtain ⟨hpage, hgrant⟩ := mmKgetPage_of_next h.pages.wf hi
  have hlt := (run_one_iff.mp hi.run).1
  rw [← hgrant.used j hj]
  by_cases hzero : k.pool.pageAddr i = 0
  · rw [taskCreate_of_no_page k hproc (hpage.trans hzero)]
  by_cases hinvalid : name = none ∨ ¬validPriority priority
  · rw [(taskCreate_of_invalid k st hproc hpage hzero hinvalid).2]
    exact h.used_frames hgrant.header (Or.inl (Eq.refl 0xfffff000)) hj
  · obtain ⟨hname, hp⟩ := not_or.mp hinvalid
    obtain ⟨name, rfl⟩ := Option.ne_none_iff_exists'.mp hname
    rw [taskCreate_eq k name st hproc hpage hzero (not_not.mp hp)]
    exact h.used_frames hgrant.header (Or.inr ⟨i, hlt, rfl⟩) hj

/-- A task that has been built sits in the page that the call got. -/
theorem built_page (h : Settled k seq) (hi : k.pool.Next k.mem i) (hproc : proc ≠ 0) {tsk : Word}
    (hbuilt : Built k name priority st (taskCreate k proc params name priority st) tsk) : tsk = k.pool.pageAddr i := by
  obtain ⟨j, hj, rfl, hfree, hused⟩ := hbuilt.page
  rw [h.used_taskCreate hi hproc hj, hfree, ite_eq_left_iff] at hused
  have hij : i ≤ j ∧ j < i + 1 := by
    by_contra hne
    exact Bool.false_ne_true (hused hne)
  rw [show j = i from Nat.le_antisymm (Nat.le_of_lt_succ hij.2) hij.1]

/-- A call that gets a page has not left the pool alone. -/
theorem not_refused (h : Settled k seq) (hi : k.pool.Next k.mem i) (hproc : proc ≠ 0) :
    ¬Refused k (taskCreate k proc params name priority st) := by
  intro hrefused
  obtain ⟨hlt, hfree⟩ := run_one_iff.mp hi.run
  have hsame := hrefused.pool i hlt
  rw [h.used_taskCreate hi hproc hlt, if_pos ⟨Nat.le_refl i, Nat.lt_succ_self i⟩] at hsame
  exact Bool.false_ne_true (hfree.symm.trans hsame.symm)

/-- With a valid name and priority, the new task is on its ready list, whatever its status. -/
theorem onList_taskCreate (h : Settled k seq) (params : Word) (st : TaskStatus) (hi : k.pool.Next k.mem i)
    (hproc : proc ≠ 0) (hzero : k.pool.pageAddr i ≠ 0) (name : List UInt8) (hp : validPriority priority) :
    let r := taskCreate k proc params (some name) priority st
    OnList r.2.links (.ready (r.2.task (k.pool.pageAddr i)).priority) (k.pool.pageAddr i) := by
  rw [taskCreate_eq k name st hproc (mmKgetPage_of_next h.pages.wf hi).1 hzero hp]
  intro r
  have hrep := TaskInv.represents_entered h.links (h.fresh hi) ⟨priority.toNat, toNat_lt_of_validPriority hp⟩
  have htask : (r.2.task (k.pool.pageAddr i)).priority = ⟨priority.toNat, toNat_lt_of_validPriority hp⟩ :=
    congrArg TaskStruct.priority (task_withTask ..)
  rw [htask]
  exact (hrep.onList_iff _ _).mpr (Queues.mem_pushBack.mpr (Or.inl ⟨rfl, rfl⟩))

theorem nonneg_pid (h : Settled k seq) : 0 ≤ int32 (k.nextPid + 1) ↔ -1 ≤ k.nextPid ∧ k.nextPid < 2 ^ 31 - 1 := by
  obtain ⟨hlow, hhigh⟩ := h.pid
  rw [int32]
  omega

/-- With valid arguments and a status to run with, a task is built. -/
theorem built (h : Settled k seq) (hi : k.pool.Next k.mem i) (hproc : proc ≠ 0) (hzero : k.pool.pageAddr i ≠ 0)
    {name : List UInt8} (hp : validPriority priority) (hst : st = .running ∨ st = .ready)
    (hpid : 0 ≤ int32 (k.nextPid + 1)) :
    Built k (some name) priority st (taskCreate k proc params (some name) priority st) (k.pool.pageAddr i) := by
  have hpage := (mmKgetPage_of_next h.pages.wf hi).1
  obtain ⟨hlt, hfree⟩ := run_one_iff.mp hi.run
  have hused : k.pool.used (taskCreate k proc params (some name) priority st).2.mem i = _ := h.used_taskCreate hi hproc hlt
  have hqueued := h.onList_taskCreate params st hi hproc hzero name hp
  have halign := h.pages.wf.pageAddr_aligned (Nat.le_of_lt hlt)
  rw [if_pos ⟨Nat.le_refl i, Nat.lt_succ_self i⟩] at hused
  rw [taskCreate_eq k name st hproc hpage hzero hp] at hused hqueued ⊢
  refine ⟨⟨i, hlt, rfl, hfree, hused⟩, hpid, ?_, ?_, ?_, ?_, fun off hoff => ?_, iff_of_true hqueued hst⟩
  · rw [task_withTask, newTask]
  · rw [task_withTask, newTask]
  · rw [task_withTask, newTask, Option.map_some]
  · rw [task_withTask, newTask]
    exact Int.toNat_of_nonneg hp.1
  · rw [task_withTask, newTask]
    generalize k.pool.pageAddr i = tsk at halign
    have htsk := tsk.isLt
    simp only [kernelProcStackSize, switchFrameSize, pageSize, InPage] at hoff ⊢
    bv_omega

/-- A task that has been built was asked for with valid arguments. -/
theorem args_of_built (h : Settled k seq) (hi : k.pool.Next k.mem i) (hproc : proc ≠ 0)
    (hbuilt : Built k name priority st (taskCreate k proc params name priority st) (k.pool.pageAddr i)) :
    k.pool.pageAddr i ≠ 0 ∧ name ≠ none ∧ validPriority priority ∧ (st = .running ∨ st = .ready) ∧
      -1 ≤ k.nextPid ∧ k.nextPid < 2 ^ 31 - 1 := by
  have hpage := (mmKgetPage_of_next h.pages.wf hi).1
  have hzero : k.pool.pageAddr i ≠ 0 := by
    intro hzero
    have hret := hbuilt.ret
    rw [taskCreate_of_no_page k hproc (hpage.trans hzero)] at hret
    exact absurd (show (0 : Int) ≤ -1 from hret) (by decide)
  have hvalid : ¬(name = none ∨ ¬validPriority priority) := by
    intro hinvalid
    have hmagic := hbuilt.magic
    rw [(taskCreate_of_invalid k st hproc hpage hzero hinvalid).1] at hmagic
    exact absurd (show (0 : Word) = taskMagic from hmagic) (by decide)
  obtain ⟨hname, hp⟩ := not_or.mp hvalid
  obtain ⟨name, rfl⟩ := Option.ne_none_iff_exists'.mp hname
  have hst := hbuilt.queued.mp (h.onList_taskCreate params st hi hproc hzero name (not_not.mp hp))
  have hret := hbuilt.ret
  rw [taskCreate_eq k name st hproc hpage hzero (not_not.mp hp)] at hret
  exact ⟨hzero, hname, not_not.mp hp, hst, h.nonneg_pid.mp hret⟩

/-- A call that gets a page does nothing or all only if its arguments are valid. -/
theorem args_of_allOrNothing (h : Settled k seq) (hi : k.pool.Next k.mem i) (hproc : proc ≠ 0)
    (hall : AllOrNothing k name priority st (taskCreate k proc params name priority st)) :
    k.pool.pageAddr i ≠ 0 ∧ name ≠ none ∧ validPriority priority ∧ (st = .running ∨ st = .ready) ∧
      -1 ≤ k.nextPid ∧ k.nextPid < 2 ^ 31 - 1 := by
  obtain ⟨tsk, hbuilt⟩ := hall.resolve_left (h.not_refused hi hproc)
  obtain rfl := h.built_page hi hproc hbuilt
  exact h.args_of_built hi hproc hbuilt

end Settled

/-- A call fails for want of a procedure or a page, or it is given a name, a priority and a status that it takes for granted. -/
theorem taskCreate_allOrNothing_iff {k : Kernel} {seq : Queues} (h : Settled k seq) (proc params : Word)
    (name : Option (List UInt8)) (priority : Int) (st : TaskStatus) :
    AllOrNothing k name priority st (taskCreate k proc params name priority st) ↔
      proc = 0 ∨ ∀ i, k.pool.Next k.mem i → k.pool.pageAddr i ≠ 0 ∧ name ≠ none ∧ validPriority priority ∧
        (st = .running ∨ st = .ready) ∧ -1 ≤ k.nextPid ∧ k.nextPid < 2 ^ 31 - 1 := by
  by_cases hproc : proc = 0
  · refine iff_of_true (Or.inl ?_) (Or.inl hproc)
    rw [taskCreate, if_pos hproc]
    exact ⟨rfl, fun _ _ => rfl, rfl⟩
  rw [or_iff_right hproc]
  obtain ⟨i, hi⟩ | ⟨hfull, hnull, hmem⟩ := MemPool.exists_next_or h.pages.wf
  · constructor
    · intro hall j hj
      exact h.args_of_allOrNothing hj hproc hall
    · intro hargs
      obtain ⟨hzero, hname, hp, hst, hpid⟩ := hargs i hi
      obtain ⟨name, rfl⟩ := Option.ne_none_iff_exists'.mp hname
      exact Or.inr ⟨_, h.built hi hproc hzero hp hst (h.nonneg_pid.mpr hpid)⟩
  · refine iff_of_true (Or.inl ?_) fun i hi => absurd hi (hfull i)
    rw [taskCreate_of_no_page k hproc hnull, hmem]
    exact ⟨rfl, fun _ _ => rfl, rfl⟩

/-! ## Calls on the small machine -/

private theorem settled_smallMachine : Settled smallMachine fun _ => [] where
  links := ⟨fun _ => ⟨⟨rfl, rfl⟩, List.nodup_singleton _⟩, fun p q hpq n hp hq => by
    rw [List.mem_singleton.mp hp] at hq
    exact hpq (Node.head.inj (List.mem_singleton.mp hq))⟩
  pages := ⟨⟨by decide, by decide, by decide⟩, fun _ ⟨_, ht⟩ => absurd ht List.not_mem_nil, by decide⟩
  pid := ⟨by decide, by decide⟩

theorem taskCreate_smallMachine :
    AllOrNothing smallMachine (some [0x61]) 31 .ready (taskCreate smallMachine 0xc0105000 7 (some [0x61]) 31 .ready) := by
  refine (taskCreate_allOrNothing_iff settled_smallMachine 0xc0105000 7 (some [0x61]) 31 .ready).mpr (Or.inr fun i hi => ?_)
  have hzero : ∀ i, i < smallMachine.pool.pageCount smallMachine.mem → smallMachine.pool.pageAddr i ≠ 0 := by decide
  exact ⟨hzero i (run_one_iff.mp hi.run).1, nofun, by decide, Or.inr rfl, by decide, by decide⟩

/-- After `sched_init`, a task without a name is neither refused nor built; nor is one that is to be blocked, and when it is resumed its node comes to point at itself. -/
theorem not_taskCreate_allOrNothing : ∃ k, schedSystem.Reachable k ∧
    ¬AllOrNothing k none 31 .ready (taskCreate k 0xc0105000 7 none 31 .ready) ∧
    ¬AllOrNothing k (some [0x61]) 31 .blocked (taskCreate k 0xc0105000 7 (some [0x61]) 31 .blocked) ∧
    (taskResume (taskCreate k 0xc0105000 7 (some [0x61]) 31 .blocked).2 0xc0203000).links.next (.queued 0xc0203000) =
      .queued 0xc0203000 := by
  have hboot : Boot smallMachine 0xc0110f00 := boot_smallMachine _ (by unfold IdleTasksCreated; decide +kernel)
  have hview : (schedInit smallMachine 0xc0110f00).map (fun k => (k.nextPid, (mmKgetPage k.mem k.pool pfZero).1,
      (taskResume (taskCreate k 0xc0105000 7 (some [0x61]) 31 .blocked).2 0xc0203000).links.next (.queued 0xc0203000))) =
        some (2, 0xc0203000, .queued 0xc0203000) := by decide +kernel
  obtain ⟨k, hk, hview⟩ := Option.map_eq_some_iff.mp hview
  rw [Prod.mk.injEq, Prod.mk.injEq] at hview
  obtain ⟨hpid, hpage, hnext⟩ := hview
  have hreach : schedSystem.Reachable k := .init ⟨_, _, hboot, hk⟩
  obtain ⟨seq, hinv, -⟩ := runInv_reachable hreach
  have h : Settled k seq := hinv.settled (by rw [hpid]; decide)
  obtain ⟨i, hi⟩ | ⟨-, hnull, -⟩ := MemPool.exists_next_or h.pages.wf
  · refine ⟨k, hreach, fun hall => ?_, fun hall => ?_, hnext⟩
    · exact (h.args_of_allOrNothing hi (by decide) hall).2.1 rfl
    · exact (h.args_of_allOrNothing hi (by decide) hall).2.2.2.1.elim nofun nofun
  · exact absurd (hpage.symm.trans hnull) (by decide)

end I386Kernel
