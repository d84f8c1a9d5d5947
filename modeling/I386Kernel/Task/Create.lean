import I386Kernel.Task.Scheduler

/-!
# Creating tasks

For valid arguments `task_create` either finds no page, or builds in a fresh page a task that is linked on `all_tasks_list` and at the tail of the ready list of its priority.
-/

namespace I386Kernel

open CircularList (Links Rings Ring)

/-! ## The state `task_create` leads to -/

/-- The `task_struct` of a new task. -/
def newTask (pid : Int) (name : List UInt8) (priority : Int) (h : validPriority priority)
    (sp : Word) (status : TaskStatus) : TaskStruct where
  pid := pid
  status := status
  name := name.take 15
  sp := sp
  priority := ⟨priority.toNat, toNat_lt_of_validPriority h⟩
  timeSliceInit := (priority + 31 - 1) / 31
  timeSliceRes := (priority + 31 - 1) / 31
  magic := taskMagic

theorem taskStructInit_eq (k : Kernel) {tsk : Word} {priority : Int} (name : List UInt8) (htsk : tsk ≠ 0)
    (hp : validPriority priority) :
    taskStructInit k tsk (some name) priority =
      { k with
        links := listAdd (k.zeroNodes tsk).links (.all tsk) (.head .all)
        nextPid := int32 (k.nextPid + 1)
        task := Function.update k.task tsk
          (newTask (int32 (k.nextPid + 1)) name priority hp (tsk + pageSize) .blocked) } := by
  rw [taskStructInit, dif_pos ⟨htsk, hp⟩]
  simp only [Kernel.setTask, Kernel.setLinks, Kernel.zeroNodes, allocatePid, Function.update_self,
    Function.update_idem]
  rfl

/-- The words `task_create` writes below `sp`. -/
def frames (m : Mem) (sym : Symbols) (sp proc params : Word) : Mem :=
  let m := Function.update m (sp - kernelProcStackSize + offParams) params
  let m := Function.update m (sp - kernelProcStackSize + offKernelTaskRetEip) sym.taskExit
  let m := Function.update m (sp - kernelProcStackSize + offProc) proc
  Function.update m (sp - kernelProcStackSize - switchFrameSize + offEip) sym.switchInitial

theorem buildFrames_eq (k : Kernel) (tsk proc params : Word) :
    buildFrames k tsk proc params =
      { k with
        mem := frames k.mem k.sym (k.task tsk).sp proc params
        task := Function.update k.task tsk
          { k.task tsk with sp := (k.task tsk).sp - kernelProcStackSize - switchFrameSize } } := by
  simp only [buildFrames, Kernel.setTask, Kernel.store, Function.update_self, Function.update_idem]
  rfl

/-- The state with a task in the page `tsk`, when the request for the page has left the memory `m`. -/
def withTask (k : Kernel) (m : Mem) (tsk proc params : Word) (name : List UInt8) (priority : Int)
    (h : validPriority priority) (st : TaskStatus) : Kernel :=
  { k with
    mem := frames m k.sym (tsk + pageSize) proc params
    links := listAddTail (listAdd ((k.zeroNodes tsk).zeroNodes tsk).links (.all tsk) (.head .all))
      (.queued tsk) (.head (.ready ⟨priority.toNat, toNat_lt_of_validPriority h⟩))
    nextPid := int32 (k.nextPid + 1)
    task := Function.update k.task tsk (newTask (int32 (k.nextPid + 1)) name priority h
      (tsk + pageSize - kernelProcStackSize - switchFrameSize) st)
    created := (tsk, proc) :: k.created }

theorem task_withTask (k : Kernel) (m : Mem) (tsk proc params : Word) (name : List UInt8) {priority : Int}
    (hp : validPriority priority) (st : TaskStatus) :
    (withTask k m tsk proc params name priority hp st).task tsk = newTask (int32 (k.nextPid + 1)) name priority hp
      (tsk + pageSize - kernelProcStackSize - switchFrameSize) st :=
  Function.update_self ..

theorem task_withTask_of_ne (k : Kernel) (m : Mem) {tsk t : Word} (proc params : Word) (name : List UInt8) {priority : Int}
    (hp : validPriority priority) (st : TaskStatus) (h : t ≠ tsk) :
    (withTask k m tsk proc params name priority hp st).task t = k.task t :=
  Function.update_of_ne h _ _

theorem taskCreate_eq (k : Kernel) {proc params tsk : Word} {priority : Int} (name : List UInt8)
    (st : TaskStatus) (hproc : proc ≠ 0) (hpage : (mmKgetPage k.mem k.pool pfZero).1 = tsk) (htsk : tsk ≠ 0)
    (hp : validPriority priority) :
    taskCreate k proc params (some name) priority st = (int32 (k.nextPid + 1),
      withTask k (mmKgetPage k.mem k.pool pfZero).2 tsk proc params name priority hp st) := by
  subst hpage
  rw [taskCreate, if_neg hproc]
  simp only [if_neg htsk, taskStructInit_eq _ name htsk hp, buildFrames_eq, Kernel.setTask, Kernel.setStatus,
    Kernel.setLinks, Function.update_self, Function.update_idem]
  rfl

theorem taskCreate_of_null (k : Kernel) {proc : Word} (params : Word) (name : Option (List UInt8))
    (priority : Int) (st : TaskStatus) (h : proc = 0 ∨ (mmKgetPage k.mem k.pool pfZero).1 = 0) :
    (taskCreate k proc params name priority st).1 = -1 ∧
      ((taskCreate k proc params name priority st).2 = k ∨ (taskCreate k proc params name priority st).2 =
        { k with mem := (mmKgetPage k.mem k.pool pfZero).2 }) := by
  by_cases hproc : proc = 0
  · rw [taskCreate, if_pos hproc]
    exact ⟨rfl, Or.inl rfl⟩
  · have hnull := h.resolve_left hproc
    rw [taskCreate, if_neg hproc]
    simp only [if_pos hnull]
    exact ⟨trivial, Or.inr trivial⟩

/-! ## Pages -/

namespace TaskPages

variable {m m' : Mem} {pool : MemPool} {initTask : Word} {isTask : Word → Prop} {i : Nat}

theorem congr (h : TaskPages m pool initTask isTask) (hm : ∀ a, pool.InBitmap m a → m' a = m a) :
    TaskPages m' pool initTask isTask := by
  have hheader := hm _ (Or.inl rfl)
  have hcount := pageCount_congr hheader
  refine ⟨h.wf.congr hheader, fun t ht => ?_, fun i hi => h.init i (hcount ▸ hi)⟩
  refine (h.page t ht).imp_right ?_
  rintro ⟨i, hi, haddr, hused⟩
  exact ⟨i, hcount ▸ hi, haddr, (used_congr hm hi).trans hused⟩

/-- A request for a page takes none that a task sits in. -/
theorem fresh (h : TaskPages m pool initTask isTask) (hi : i < pool.pageCount m)
    (hunused : pool.used m i = false) : ¬ isTask (pool.pageAddr i) := by
  intro ht
  obtain heq | ⟨j, hj, haddr, hused⟩ := h.page _ ht
  · exact h.init i hi heq
  · have hij := h.wf.pageAddr_inj (Nat.le_of_lt hi) (Nat.le_of_lt hj) haddr
    rw [← hij, hunused] at hused
    cases hused

theorem grant (h : TaskPages m pool initTask isTask) (hi : i < pool.pageCount m) {zero : Prop}
    (hgrant : Granted m m' pool i 1 zero) :
    TaskPages m' pool initTask fun t => t = pool.pageAddr i ∨ isTask t := by
  have hcount := pageCount_congr hgrant.header
  have hmark : ∀ j, j < pool.pageCount m → pool.used m j = true ∨ j = i → pool.used m' j = true := by
    intro j hj hmark
    rw [hgrant.used j hj]
    obtain hmark | rfl := hmark
    · rw [hmark, ite_self]
    · rw [if_pos (by omega)]
  refine ⟨h.wf.congr hgrant.header, fun t ht => ?_, fun j hj => h.init j (hcount ▸ hj)⟩
  obtain rfl | ht := ht
  · exact Or.inr ⟨i, hcount ▸ hi, rfl, hmark i hi (Or.inr rfl)⟩
  · refine (h.page t ht).imp_right ?_
    rintro ⟨j, hj, haddr, hused⟩
    exact ⟨j, hcount ▸ hj, haddr, hmark j hj (Or.inl hused)⟩

theorem mono (h : TaskPages m pool initTask isTask) {isTask' : Word → Prop}
    (himp : ∀ t, isTask' t → isTask t) : TaskPages m pool initTask isTask' :=
  ⟨h.wf, fun t ht => h.page t (himp t ht), h.init⟩

end TaskPages

private theorem inPage_frame {tsk off : Word} (halign : tsk.toNat % 0x1000 = 0) (hoff : off.toNat < 0x1000) :
    InPage tsk (tsk + off) := by
  have htsk := tsk.isLt
  rw [InPage, BitVec.toNat_add]
  omega

/-- The frames of a new task are words of its page. -/
theorem frames_of_not_inPage {m : Mem} {sym : Symbols} {tsk proc params a : Word}
    (halign : tsk.toNat % 0x1000 = 0) (ha : ¬ InPage tsk a) :
    frames m sym (tsk + pageSize) proc params a = m a := by
  have hne : ∀ b off : Word, b = tsk + off → off.toNat < 0x1000 → a ≠ b := by
    rintro b off rfl hoff rfl
    exact ha (inPage_frame halign hoff)
  have h1 := hne (tsk + pageSize - kernelProcStackSize - switchFrameSize + offEip) 0xfe8
    (by simp only [pageSize, kernelProcStackSize, switchFrameSize, offEip]; bv_omega) (by decide)
  have h2 := hne (tsk + pageSize - kernelProcStackSize + offProc) 0xff4
    (by simp only [pageSize, kernelProcStackSize, offProc]; bv_omega) (by decide)
  have h3 := hne (tsk + pageSize - kernelProcStackSize + offKernelTaskRetEip) 0xff8
    (by simp only [pageSize, kernelProcStackSize, offKernelTaskRetEip]; bv_omega) (by decide)
  have h4 := hne (tsk + pageSize - kernelProcStackSize + offParams) 0xffc
    (by simp only [pageSize, kernelProcStackSize, offParams]; bv_omega) (by decide)
  rw [frames, Function.update_of_ne h1, Function.update_of_ne h2, Function.update_of_ne h3,
    Function.update_of_ne h4]

/-- What `task_create` does to the sequences. -/
def entered (seq : Queues) (tsk : Word) (priority : Fin 64) : Queues :=
  (seq.pushFront .all tsk).pushBack (.ready priority) tsk

namespace TaskInv

variable {k : Kernel} {seq : Queues}

theorem mem_entered {u tsk : Word} {priority : Fin 64} {q : QueueId} (h : u ∈ seq q) :
    u ∈ entered seq tsk priority q :=
  Queues.mem_pushBack.mpr (Or.inr (Queues.mem_pushFront.mpr (Or.inr h)))

theorem represents_entered (h : Represents k.links seq) {tsk : Word} (ht : ∀ r, tsk ∉ seq r)
    (priority : Fin 64) :
    Represents (listAddTail (listAdd ((k.zeroNodes tsk).zeroNodes tsk).links (.all tsk) (.head .all))
      (.queued tsk) (.head (.ready priority))) (entered seq tsk priority) := by
  have hzero : Represents ((k.zeroNodes tsk).zeroNodes tsk).links seq := (h.zeroNodes ht).zeroNodes ht
  have hall := hzero.listAdd (q := .all) (t := tsk) fun r _ => ht r
  refine hall.listAddTail (q := .ready priority) (t := tsk) fun r hr hmem => ?_
  obtain ⟨rfl, -⟩ | hmem := Queues.mem_pushFront.mp hmem
  · exact absurd (hr.mpr rfl) (ready_ne_all priority)
  · exact ht r hmem

theorem ledger_entered {status : Word → TaskStatus} {isTask isTask' : Word → Prop} {tsk : Word}
    (h : Ledger status isTask seq) (hfresh : ¬ isTask tsk)
    (hiff : ∀ t, isTask' t ↔ t = tsk ∨ isTask t) {st : TaskStatus} (hst : st = .running ∨ st = .ready)
    (priority : Fin 64) : Ledger (Function.update status tsk st) isTask' (entered seq tsk priority) := by
  have heq : isTask' = fun t => t = tsk ∨ isTask t := funext fun t => propext (hiff t)
  rw [heq]
  exact (h.register hfresh).enqueue (Or.inl rfl) (ready_ne_all priority) hst fun r u => Queues.mem_pushBack

/-- Only the record of a page without a task has changed. -/
theorem setMem (h : TaskInv k seq) {m : Mem} (hm : TaskPages m k.pool k.initTask k.IsTask) :
    TaskInv { k with mem := m } seq :=
  ⟨h.links, h.ledger, h.valid, h.nonnull, h.current, hm⟩

theorem isTask_withTask {m : Mem} {tsk proc params : Word} {name : List UInt8} {priority : Int}
    {hp : validPriority priority} {st : TaskStatus} (t : Word) :
    (withTask k m tsk proc params name priority hp st).IsTask t ↔ t = tsk ∨ k.IsTask t := by
  change (∃ p, (t, p) ∈ (tsk, proc) :: k.created) ↔ _
  simp only [List.mem_cons, Prod.mk.injEq, exists_or, exists_and_left, exists_eq, and_true]
  rfl

theorem status_withTask (k : Kernel) (m : Mem) (tsk proc params : Word) (name : List UInt8) {priority : Int}
    (hp : validPriority priority) (st : TaskStatus) :
    (withTask k m tsk proc params name priority hp st).status = Function.update k.status tsk st :=
  Function.comp_update TaskStruct.status k.task tsk _

/-- A task is built in page `i` of the pool, which no task sat in. -/
theorem withTask_inv (h : TaskInv k seq) {m : Mem} {i : Nat} (proc params : Word) (name : List UInt8)
    {priority : Int} (hp : validPriority priority) {st : TaskStatus} (hst : st = .running ∨ st = .ready)
    {zero : Prop} (hi : i < k.pool.pageCount k.mem) (hunused : k.pool.used k.mem i = false)
    (hgrant : Granted k.mem m k.pool i 1 zero) (htsk : k.pool.pageAddr i ≠ 0) :
    TaskInv (withTask k m (k.pool.pageAddr i) proc params name priority hp st)
      (entered seq (k.pool.pageAddr i) ⟨priority.toNat, toNat_lt_of_validPriority hp⟩) := by
  have hfresh := h.pages.fresh hi hunused
  have halign := h.pages.wf.pageAddr_aligned (Nat.le_of_lt hi)
  have hnot : ∀ r, k.pool.pageAddr i ∉ seq r := fun r hmem => hfresh (h.ledger.member r _ hmem)
  have hcount := pageCount_congr hgrant.header
  generalize htsk' : k.pool.pageAddr i = tsk at *
  have hiff : ∀ t, (withTask k m tsk proc params name priority hp st).IsTask t ↔ t = tsk ∨ k.IsTask t :=
    isTask_withTask
  refine ⟨represents_entered h.links hnot _, ?_, fun t ht => ?_, fun t ht => ?_, ?_, ?_⟩
  · rw [status_withTask]
    exact ledger_entered h.ledger hfresh hiff hst _
  · change validTask (Function.update k.task tsk _ t)
    obtain rfl | hold := (hiff t).mp ht
    · rw [Function.update_self]
      rfl
    · have hne : t ≠ tsk := fun heq => hfresh (heq ▸ hold)
      rw [Function.update_of_ne hne]
      exact h.valid t hold
  · obtain rfl | hold := (hiff t).mp ht
    · exact htsk
    · exact h.nonnull t hold
  · exact (hiff _).mpr (Or.inr h.current)
  · have hgranted := (h.pages.grant hi hgrant).mono fun t ht =>
      ((hiff t).mp ht).imp_left fun heq => heq.trans htsk'.symm
    have hframes : ∀ a, k.pool.InBitmap m a → frames m k.sym (tsk + pageSize) proc params a = m a :=
      fun a ha => frames_of_not_inPage halign fun hin =>
        hgranted.wf.not_inBitmap_of_inPage (hcount ▸ hi) (htsk' ▸ hin) ha
    exact hgranted.congr hframes

/-- Either no task is created, or one that is linked at the tail of the ready list of its priority. -/
theorem taskCreate (h : TaskInv k seq) (proc params : Word) (name : List UInt8) {priority : Int}
    (hp : validPriority priority) {st : TaskStatus} (hst : st = .running ∨ st = .ready) :
    ((taskCreate k proc params (some name) priority st).1 = -1 ∧
      TaskInv (taskCreate k proc params (some name) priority st).2 seq ∧
      ∃ m, (taskCreate k proc params (some name) priority st).2 = { k with mem := m }) ∨
    ∃ tsk m, proc ≠ 0 ∧ ¬ k.IsTask tsk ∧
      (taskCreate k proc params (some name) priority st).2 =
        withTask k m tsk proc params name priority hp st ∧
      TaskInv (taskCreate k proc params (some name) priority st).2
        (entered seq tsk ⟨priority.toNat, toNat_lt_of_validPriority hp⟩) := by
  by_cases hnull : proc = 0 ∨ (mmKgetPage k.mem k.pool pfZero).1 = 0
  · obtain ⟨hret, hk⟩ := taskCreate_of_null k params (some name) priority st hnull
    refine Or.inl ⟨hret, ?_⟩
    obtain hk | hk := hk
    · rw [hk]
      exact ⟨h, k.mem, rfl⟩
    · rw [hk]
      refine ⟨h.setMem ?_, _, rfl⟩
      obtain ⟨-, hmem, -⟩ | ⟨i, hi, -, -, hgrant⟩ := mmKgetPage_spec h.pages.wf pfZero
      · rw [hmem]
        exact h.pages
      · exact (h.pages.grant hi hgrant).mono fun t ht => Or.inr ht
  · obtain ⟨hproc, hpage⟩ := not_or.mp hnull
    obtain ⟨hret, -⟩ | ⟨i, hi, hunused, haddr, hgrant⟩ := mmKgetPage_spec h.pages.wf pfZero
    · exact absurd hret hpage
    have htsk : k.pool.pageAddr i ≠ 0 := haddr ▸ hpage
    rw [taskCreate_eq k name st hproc haddr htsk hp]
    exact Or.inr ⟨_, _, hproc, h.pages.fresh hi hunused, rfl,
      h.withTask_inv proc params name hp hst hi hunused hgrant htsk⟩

end TaskInv

namespace SchedInv

variable {k : Kernel} {seq : Queues}

theorem taskCreate (h : SchedInv k seq) (proc params : Word) (name : List UInt8) {priority : Int}
    (hp : validPriority priority) {st : TaskStatus} (hst : st = .running ∨ st = .ready) :
    ((taskCreate k proc params (some name) priority st).1 = -1 ∧
      SchedInv (taskCreate k proc params (some name) priority st).2 seq ∧
      ∃ m, (taskCreate k proc params (some name) priority st).2 = { k with mem := m }) ∨
    ∃ tsk m, proc ≠ 0 ∧ ¬ k.IsTask tsk ∧
      (taskCreate k proc params (some name) priority st).2 =
        withTask k m tsk proc params name priority hp st ∧
      SchedInv (taskCreate k proc params (some name) priority st).2
        (entered seq tsk ⟨priority.toNat, toNat_lt_of_validPriority hp⟩) := by
  obtain ⟨u, hu, hidle⟩ := h.idle
  obtain ⟨hret, hinv, m, hk⟩ | ⟨tsk, m, hproc, hfresh, hk, hinv⟩ :=
    h.toTaskInv.taskCreate proc params name hp hst
  · refine Or.inl ⟨hret, ⟨hinv, u, hu, ?_⟩, m, hk⟩
    rw [hk]
    exact hidle
  · refine Or.inr ⟨tsk, m, hproc, hfresh, hk, hinv, u, TaskInv.mem_entered hu, ?_⟩
    rw [hk]
    exact List.mem_cons_of_mem _ hidle

end SchedInv

end I386Kernel
