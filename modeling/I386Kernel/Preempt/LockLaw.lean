import I386Kernel.Preempt.Runs
import I386Kernel.Preempt.Spin

/-!
# What the spinlocks keep

Whatever the tasks, the timer and the devices do, a lock is held by one function in progress and no other is in its section; what a lock protects changes only while the current task holds it; and no functions wait in a circle for each other's locks, since `list_slock` is the only lock that is taken while another is held. A deadlock always goes through a handler that waits on the stack of the function it has interrupted.
-/

namespace I386Kernel.Preempt

open Custody (Waits)

/-! ## Statements and their locks -/

/-- The lock that an effect needs; `sema_up` takes a task off a wait list without `list_slock`. -/
def Effect.guards : Effect → List Lock
  | .setCount s _ | .listPop s => [.slock s]
  | .incPid => [.pid]
  | .takePage .. => [.pool]
  | .listDel _ | .listAdd .. | .listAddTail .. => [.list]
  | _ => []

theorem stmt_guards {k : Kernel} {c : Word} {pc pc' : Pc} {e : Effect} (h : stmt k c pc = some (e, pc')) :
    e.guards ⊆ pc.locks := by
  cases pc with
  | upPop s =>
      obtain ⟨w, -, heq⟩ := Option.map_eq_some_iff.mp h
      cases heq
      exact List.Subset.refl _
  | schRead =>
      obtain ⟨next, -, heq⟩ := Option.map_eq_some_iff.mp h
      cases heq
      exact List.nil_subset _
  | _ =>
      cases h <;> first
        | exact List.nil_subset _
        | exact fun l hl => List.mem_singleton.mp hl ▸ List.mem_cons_self ..

/-- `list_slock`, `pid_slock` and the lock of the pool come after the lock of a semaphore. -/
def Lock.rank : Lock → Nat
  | .slock _ => 0
  | _ => 1

/-- The next statement of the frame is a `spin_lock` of the lock. -/
def Wants (k : Kernel) (f : Frame) (l : Lock) : Prop := ∃ c pc, stmt k c f.pc = some (.acquire l, pc)

/-- The frame is in the section of the lock. -/
def Holds (f : Frame) (l : Lock) : Prop := l ∈ f.pc.locks

theorem stmt_rank {k : Kernel} {c : Word} {pc pc' : Pc} {l l' : Lock} (h : stmt k c pc = some (.acquire l, pc'))
    (hmem : l' ∈ pc.locks) : l'.rank < l.rank := by
  cases pc with
  | upPop s =>
      obtain ⟨w, -, heq⟩ := Option.map_eq_some_iff.mp h
      cases heq
  | schRead =>
      obtain ⟨next, -, heq⟩ := Option.map_eq_some_iff.mp h
      cases heq
  | suspLock s | resLock s w =>
      cases h
      rw [List.mem_singleton.mp hmem]
      exact Nat.zero_lt_one
  | _ => cases h <;> cases hmem

/-! ## What a step changes -/

theorem links_zeroNodes (k : Kernel) {n : Word} {x : Node} (hq : x ≠ .queued n) (ha : x ≠ .all n) :
    (k.zeroNodes n).links.next x = k.links.next x ∧ (k.zeroNodes n).links.prev x = k.links.prev x := by
  constructor
  · show Function.update (Function.update k.links.next (.queued n) .null) (.all n) .null x = _
    rw [Function.update_of_ne ha, Function.update_of_ne hq]
  · show Function.update (Function.update k.links.prev (.queued n) .null) (.all n) .null x = _
    rw [Function.update_of_ne ha, Function.update_of_ne hq]

section
variable {m m' : Machine} {builder : Word → Option Word} {f : Frame} {rest : List Frame} {e : Effect} {pc : Pc}

/-- A task is built outside the bitmap of the pool. -/
theorem Discipline.bitmap_stmt (h : Discipline m builder) (hframes : m.frames m.current = f :: rest)
    (hstmt : Preempt.stmt m.kernel m.current f.pc = some (e, pc)) (htake : ∀ n m' proc, e ≠ .takePage n m' proc) {a : Word}
    (ha : m.kernel.pool.InBitmap m.kernel.mem a) : (e.kernel m.kernel).mem a = m.kernel.mem a := by
  have hmem : f ∈ m.frames m.current := hframes ▸ List.mem_cons_self ..
  have hpage : ∀ n, f.pc.builds = some n →
      ∃ i, i < m.kernel.pool.pageCount m.kernel.mem ∧ n = m.kernel.pool.pageAddr i := by
    intro n hn
    obtain ⟨htask, hne⟩ := h.building_of_mem hmem hn
    obtain ⟨i, hi, haddr, -⟩ := (h.pages.page n htask).resolve_left hne
    exact ⟨i, hi, haddr⟩
  cases e with
  | takePage n m' proc => exact absurd rfl (htake n m' proc)
  | zeroPage n =>
      obtain ⟨i, hi, rfl⟩ := hpage n (stmt_page hstmt rfl)
      exact memsetZero_of_inBitmap h.pages.wf hi ha
  | buildStack n proc params =>
      obtain ⟨⟨hn, -, hinit⟩, -⟩ := stmt_buildStack hstmt
      obtain ⟨i, hi, rfl⟩ := hpage n hn
      have hsp := h.stackTop _ f hmem _ hn hinit
      have halign := h.pages.wf.pageAddr_aligned (Nat.le_of_lt hi)
      have hout : ¬ InPage (m.kernel.pool.pageAddr i) a := fun hin => h.pages.wf.not_inBitmap_of_inPage hi hin ha
      show (buildFrames m.kernel _ proc params).mem a = m.kernel.mem a
      rw [buildFrames_eq, hsp]
      show I386Kernel.frames m.kernel.mem m.kernel.sym (m.kernel.pool.pageAddr i + pageSize) proc params a = m.kernel.mem a
      generalize m.kernel.pool.pageAddr i = p at *
      exact frames_of_not_inPage halign hout
  | _ => rfl

/-- What a step changes of the data that locks protect, it changes in a section of the lock. -/
structure Guarded (m m' : Machine) : Prop where
  count : ∀ s, m'.kernel.semaCount s ≠ m.kernel.semaCount s → m.holder (.slock s) = some m.current
  nextPid : m'.kernel.nextPid ≠ m.kernel.nextPid → m.holder .pid = some m.current
  bitmap : ∀ a, m.kernel.pool.InBitmap m.kernel.mem a → m'.kernel.mem a ≠ m.kernel.mem a →
    m.holder .pool = some m.current
  /-- `sema_up` takes a task off a wait list with the lock of its semaphore only, and `task_create` clears the nodes of the task it builds. -/
  links : ∀ x, m'.kernel.links.next x ≠ m.kernel.links.next x ∨ m'.kernel.links.prev x ≠ m.kernel.links.prev x →
    m.holder .list = some m.current ∨ (∃ s, m.holder (.slock s) = some m.current) ∨
      ∃ f ∈ m.frames m.current, ∃ n, f.pc.builds = some n ∧ (x = .queued n ∨ x = .all n)

/-- A step that is no statement leaves the data alone. -/
theorem Guarded.of_same (hkernel : m'.kernel.semaCount = m.kernel.semaCount ∧ m'.kernel.nextPid = m.kernel.nextPid ∧
    m'.kernel.mem = m.kernel.mem ∧ m'.kernel.links = m.kernel.links) : Guarded m m' := by
  obtain ⟨hcount, hpid, hmem, hlinks⟩ := hkernel
  refine ⟨fun s hne => absurd (congrFun hcount s) hne, fun hne => absurd hpid hne, fun a _ hne => absurd (congrFun hmem a) hne,
    fun x hne => ?_⟩
  rw [hlinks] at hne
  exact absurd hne (by simp)

theorem Discipline.guarded_stmt (h : Discipline m builder) (hframes : m.frames m.current = f :: rest)
    (hstmt : Preempt.stmt m.kernel m.current f.pc = some (e, pc)) {m' : Machine} (hkernel : m'.kernel = e.kernel m.kernel) :
    Guarded m m' := by
  have hmem : f ∈ m.frames m.current := hframes ▸ List.mem_cons_self ..
  have hguard : ∀ l ∈ e.guards, m.holder l = some m.current := fun l hl =>
    h.locks.holder_of_mem hmem (decide_eq_true (stmt_guards hstmt hl))
  have hbuilds : ∀ n, e.page = some n → f.pc.builds = some n := fun n => stmt_page hstmt
  have hbitmap := fun htake a => h.bitmap_stmt hframes hstmt htake (a := a)
  clear hstmt
  have hzero : ∀ n, f.pc.builds = some n → ∀ (k : Kernel), k.links = m.kernel.links → ∀ x,
      (k.zeroNodes n).links.next x ≠ m.kernel.links.next x ∨ (k.zeroNodes n).links.prev x ≠ m.kernel.links.prev x →
      ∃ f ∈ m.frames m.current, ∃ n, f.pc.builds = some n ∧ (x = .queued n ∨ x = .all n) := by
    intro n hn k hk x hne
    by_contra hout
    have hx : x ≠ .queued n ∧ x ≠ .all n := by
      rw [← not_or]
      exact fun hx => hout ⟨f, hmem, n, hn, hx⟩
    obtain ⟨hnext, hprev⟩ := links_zeroNodes k hx.1 hx.2
    rw [hnext, hprev, hk] at hne
    exact absurd hne (by simp)
  constructor
  · intro s hne
    rw [hkernel] at hne
    cases e with
    | setCount s' n =>
        by_cases hs : s = s'
        · exact hguard _ (hs ▸ List.mem_cons_self ..)
        · exact absurd (Function.update_of_ne hs _ _) hne
    | _ => exact absurd rfl hne
  · intro hne
    rw [hkernel] at hne
    cases e with
    | incPid => exact hguard _ (List.mem_cons_self ..)
    | _ => exact absurd rfl hne
  · intro a ha hne
    rw [hkernel] at hne
    cases e with
    | takePage n m' proc => exact hguard _ (List.mem_cons_self ..)
    | _ => exact absurd (hbitmap (fun _ _ _ => nofun) a ha) hne
  · intro x hne
    rw [hkernel] at hne
    cases e with
    | listDel t | listAdd q t | listAddTail q t => exact Or.inl (hguard _ (List.mem_cons_self ..))
    | listPop s => exact Or.inr (Or.inl ⟨s, hguard _ (List.mem_cons_self ..)⟩)
    | zeroPage n | initTask n a => exact Or.inr (Or.inr (hzero n (hbuilds n rfl) m.kernel rfl x hne))
    | buildStack n proc params =>
        have hsame : (buildFrames m.kernel n proc params).links = m.kernel.links := by
          rw [buildFrames_eq]
        exact absurd hne (by simp [Effect.kernel, hsame])
    | _ => exact absurd hne (by simp [Effect.kernel, Kernel.setStatus, Kernel.setTask, Kernel.setCount])

end

/-! ## Every reachable state -/

structure LockLaw (m : Machine) : Prop where
  /-- A lock has a holder exactly when a function that is in progress on its stack is in the section. -/
  held : ∀ l t, m.holder l = some t ↔ ∃ f ∈ m.frames t, Holds f l
  /-- Of two functions in progress, on one stack or on two, only one is in the section. -/
  once : ∀ l t, (m.frames t).countP (fun f => l ∈ f.pc.locks) ≤ 1
  exclusive : ∀ l t u, ∀ f ∈ m.frames t, ∀ g ∈ m.frames u, Holds f l → Holds g l → t = u
  guarded : ∀ l m', m.next l = some m' → Guarded m m'
  acyclic : ∀ f, ¬ Relation.TransGen (Waits (Wants m.kernel) Holds) f f

theorem lockLaw_reachable {m : Machine} (h : system.Reachable m) : LockLaw m := by
  obtain ⟨builder, hd⟩ := discipline_reachable h
  have hcustody := hd.locks
  refine ⟨fun l t => ⟨fun hl => ?_, ?_⟩, fun l t => ?_, fun l t u f hf g hg hfl hgl => ?_, fun l m' hnext => ?_, ?_⟩
  · obtain ⟨f, hf, hholds⟩ := hcustody.exists_of_holder hl
    exact ⟨f, hf, of_decide_eq_true (p := l ∈ f.pc.locks) hholds⟩
  · rintro ⟨f, hf, hholds⟩
    exact hcustody.holder_of_mem hf (decide_eq_true hholds)
  · rw [hcustody t l]
    split <;> decide
  · exact hcustody.thread_unique hf hg (decide_eq_true hfl) (decide_eq_true hgl)
  · cases Machine.next_move hnext with
    | stmt hframes hstmt _ => exact hd.guarded_stmt hframes hstmt rfl
    | proceed | ret | stay | switch | call | timer | device => exact .of_same ⟨rfl, rfl, rfl, rfl⟩
  · refine Custody.not_waits_cycle fun f l l' hwants hholds => (?_ : Lock.rank l' < Lock.rank l)
    obtain ⟨c, pc, hstmt⟩ := hwants
    exact stmt_rank hstmt hholds

/-- A device has interrupted the first task in `schedule`, and its `sema_up` holds the lock of the semaphore. -/
theorem lockLaw_reachable_smallStart : ∃ m, system.Reachable m ∧ m.holder .list = some 0xc0110000 ∧
    m.holder (.slock 0xc0110f00) = some 0xc0110000 ∧ LockLaw m := by
  obtain ⟨m, hreach, hlist, hslock⟩ := exists_run ([.call .schedule] ++ steps 3 ++ [.device (.up 0xc0110f00) []] ++ steps 1)
    (fun m => m.holder .list = some 0xc0110000 ∧ m.holder (.slock 0xc0110f00) = some 0xc0110000) (by decide +kernel)
  exact ⟨m, hreach, hlist, hslock, lockLaw_reachable hreach⟩

end I386Kernel.Preempt
