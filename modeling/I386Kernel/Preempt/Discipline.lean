import I386Kernel.Preempt.Places
import I386Kernel.Task.SchedRuns

/-!
# Stacks, locks and new pages

What every run keeps, whatever the tasks, the timer and the devices do. A lock is held by one frame or by none; a page `task_create` builds a task in belongs to one frame; a task that does not run has been switched away from by `schedule` or has not been dispatched yet; a frame that runs with interrupts off is on top of its stack and is not interrupted.
-/

namespace I386Kernel.Preempt

/-! ## The invariant -/

/-- The builders after an effect of the task `c`. -/
def Effect.builder (c : Word) (builder : Word → Option Word) : Effect → Word → Option Word
  | .takePage n _ _ => if n = 0 then builder else Function.update builder n (some c)
  | .returnPid n => Function.update builder n none
  | _ => builder

/-- The stacks, the locks and the pages of new tasks; `builder` gives the task that is building a task in a page. -/
structure Discipline (m : Machine) (builder : Word → Option Word) : Prop where
  locks : Custody (fun _ f l => decide (l ∈ f.pc.locks)) m.frames m.holder
  builds : Custody (fun _ f n => decide (f.pc.builds = some n)) m.frames builder
  bottom : ∀ t, ((m.frames t).map Frame.origin).Pairwise fun o _ => o.isr = true
  parts : ∀ t, ∀ f ∈ m.frames t, f.origin.has f.pc.part = true
  masked : ∀ f rest, m.frames m.current = f :: rest → f.masked = true → m.intr = false
  interrupted : ∀ t f rest, m.frames t = f :: rest → ∀ g ∈ rest, g.masked = false
  switched : ∀ t, t ≠ m.current → ∀ f rest, m.frames t = f :: rest → f.pc.suspended = true
  framed : ∀ t, m.frames t ≠ [] → m.kernel.IsTask t
  current : m.kernel.IsTask m.current
  pages : TaskPages m.kernel.mem m.kernel.pool m.kernel.initTask m.kernel.IsTask
  building : ∀ n u, builder n = some u → m.kernel.IsTask n ∧ n ≠ m.kernel.initTask
  unstacked : ∀ t, ∀ f ∈ m.frames t, ∀ n, f.pc.builds = some n → f.pc.beforeStack = true →
    m.frames n = [] ∧ n ≠ m.current
  stackTop : ∀ t, ∀ f ∈ m.frames t, ∀ n, f.pc.builds = some n → f.pc.initialised = true →
    (m.kernel.task n).sp = n + pageSize

namespace Effect

variable (k : Kernel) (e : Effect)

theorem current_kernel : (e.kernel k).current = k.current := by
  cases e <;> rfl

theorem initTask_kernel : (e.kernel k).initTask = k.initTask := by
  cases e <;> rfl

theorem pool_kernel : (e.kernel k).pool = k.pool := by
  cases e <;> rfl

variable {k e}

/-- The `task_struct` of a page changes by a status store or by the builder of the task in it. -/
theorem task_kernel {t : Word} (hstatus : ∀ st, e ≠ .setStatus t st) (hpage : e.page ≠ some t) :
    (e.kernel k).task t = k.task t := by
  cases e with
  | setStatus u st =>
      have hne : t ≠ u := fun heq => hstatus st (heq ▸ rfl)
      exact Function.update_of_ne hne _ _
  | zeroPage n | initTask n _ | storePid n | storeSlices n _ =>
      have hne : t ≠ n := fun heq => hpage (heq ▸ rfl)
      exact Function.update_of_ne hne _ _
  | buildStack n proc params =>
      have hne : t ≠ n := fun heq => hpage (heq ▸ rfl)
      rw [Effect.kernel, buildFrames_eq]
      exact Function.update_of_ne hne _ _
  | _ => rfl

theorem sp_kernel {t : Word} (h : e.page = none ∨ e.page ≠ some t ∨ e = .storePid t ∨ ∃ p, e = .storeSlices t p) :
    ((e.kernel k).task t).sp = (k.task t).sp := by
  by_cases hstatus : ∃ st, e = .setStatus t st
  · obtain ⟨st, rfl⟩ := hstatus
    exact (congrArg TaskStruct.sp (k.task_setStatus_self t st)).trans rfl
  have hstatus : ∀ st, e ≠ .setStatus t st := fun st heq => hstatus ⟨st, heq⟩
  obtain hnone | hne | rfl | ⟨p, rfl⟩ := h
  · exact congrArg TaskStruct.sp (task_kernel hstatus (by rw [hnone]; nofun))
  · exact congrArg TaskStruct.sp (task_kernel hstatus hne)
  · show (Function.update k.task t { k.task t with pid := k.nextPid } t).sp = (k.task t).sp
    rw [Function.update_self]
  · show (Function.update k.task t { k.task t with timeSliceInit := _, timeSliceRes := _ } t).sp = (k.task t).sp
    rw [Function.update_self]

/-- The tasks there are change when `task_create` finds a page. -/
theorem isTask_kernel (t : Word) :
    (e.kernel k).IsTask t ↔ k.IsTask t ∨ ∃ m proc, e = .takePage t m proc ∧ t ≠ 0 := by
  by_cases htake : ∃ n m proc, e = .takePage n m proc
  · obtain ⟨n, m, proc, rfl⟩ := htake
    show (∃ p, (t, p) ∈ if n = 0 then k.created else (n, proc) :: k.created) ↔ _
    by_cases hn : n = 0
    · rw [if_pos hn]
      refine ⟨Or.inl, fun h => h.resolve_right ?_⟩
      rintro ⟨_, _, heq, hne⟩
      cases heq
      exact hne hn
    · rw [if_neg hn]
      constructor
      · rintro ⟨p, hmem⟩
        obtain heq | hmem := List.mem_cons.mp hmem
        · cases heq
          exact Or.inr ⟨_, _, rfl, hn⟩
        · exact Or.inl ⟨p, hmem⟩
      · rintro (⟨p, hmem⟩ | ⟨_, _, heq, -⟩)
        · exact ⟨p, List.mem_cons_of_mem _ hmem⟩
        · cases heq
          exact ⟨proc, List.mem_cons_self ..⟩
  · have hcreated : (e.kernel k).created = k.created := by
      cases e with
      | takePage n m proc => exact absurd ⟨n, m, proc, rfl⟩ htake
      | _ => rfl
    rw [Kernel.IsTask, hcreated]
    refine ⟨Or.inl, fun h => h.resolve_right ?_⟩
    rintro ⟨m, proc, heq, -⟩
    exact htake ⟨t, m, proc, heq⟩

end Effect

theorem stmt_takePage {k : Kernel} {c n proc : Word} {pc pc' : Pc} {m : Mem}
    (h : stmt k c pc = some (.takePage n m proc, pc')) : mmKgetPage k.mem k.pool 0 = (n, m) := by
  cases pc with
  | upPop s =>
      obtain ⟨w, -, heq⟩ := Option.map_eq_some_iff.mp h
      cases heq
  | schRead =>
      obtain ⟨next, -, heq⟩ := Option.map_eq_some_iff.mp h
      cases heq
  | mkTake a =>
      cases h
      rfl
  | _ => cases h

/-- A page `task_create` gets holds no task. -/
theorem stmt_takePage_fresh {k : Kernel} {c n proc : Word} {pc pc' : Pc} {m : Mem}
    (hpages : TaskPages k.mem k.pool k.initTask k.IsTask) (h : stmt k c pc = some (.takePage n m proc, pc'))
    (hn : n ≠ 0) : ¬ k.IsTask n ∧ n ≠ k.initTask ∧
      TaskPages m k.pool k.initTask fun t => t = n ∨ k.IsTask t := by
  have hpage := stmt_takePage h
  obtain ⟨hnull, -⟩ | ⟨i, hi, hunused, haddr, hgrant⟩ := mmKgetPage_spec hpages.wf 0
  · rw [hpage] at hnull
    exact absurd hnull hn
  · rw [hpage] at haddr hgrant
    have haddr : n = k.pool.pageAddr i := haddr
    subst haddr
    exact ⟨hpages.fresh hi hunused, hpages.init i hi, hpages.grant hi hgrant⟩

/-- Clearing a page does not touch the bitmap. -/
theorem memsetZero_of_inBitmap {m : Mem} {pool : MemPool} (h : PoolWf m pool) {i : Nat}
    (hi : i < pool.pageCount m) {a : Word} (ha : pool.InBitmap m a) :
    memsetZero m (pool.pageAddr i) pageSize a = m a := by
  refine if_neg fun hlt => h.not_inBitmap_of_inPage hi ?_ ha
  have halign := h.pageAddr_aligned (Nat.le_of_lt hi)
  generalize pool.pageAddr i = p at *
  have hp := p.isLt
  simp only [pageSize] at hlt
  rw [InPage]
  bv_omega

theorem Effect.pages_kernel {k : Kernel} {c : Word} {pc pc' : Pc} {e : Effect}
    (h : stmt k c pc = some (e, pc')) (hpages : TaskPages k.mem k.pool k.initTask k.IsTask)
    (hbuilding : ∀ n, pc.builds = some n → k.IsTask n ∧ n ≠ k.initTask)
    (hsp : ∀ n, pc.builds = some n → pc.beforeStack = true → pc.initialised = true →
      (k.task n).sp = n + pageSize) :
    TaskPages (e.kernel k).mem (e.kernel k).pool (e.kernel k).initTask (e.kernel k).IsTask := by
  rw [e.pool_kernel, e.initTask_kernel]
  by_cases htake : ∃ n m proc, e = .takePage n m proc
  · obtain ⟨n, m, proc, rfl⟩ := htake
    have hiff := fun t => isTask_kernel (k := k) (e := .takePage n m proc) t
    by_cases hn : n = 0
    · have hpage := stmt_takePage h
      obtain ⟨-, hmem, -⟩ | ⟨i, hi, -, -, hgrant⟩ := mmKgetPage_spec hpages.wf 0
      · rw [hpage] at hmem
        have hmem : m = k.mem := hmem
        refine (hmem ▸ hpages).mono fun t ht => ((hiff t).mp ht).resolve_right ?_
        rintro ⟨_, _, heq, hne⟩
        cases heq
        exact hne hn
      · rw [hpage] at hgrant
        refine (hpages.grant hi hgrant).mono fun t ht => Or.inr (((hiff t).mp ht).resolve_right ?_)
        rintro ⟨_, _, heq, hne⟩
        cases heq
        exact hne hn
    · obtain ⟨-, -, hgranted⟩ := stmt_takePage_fresh hpages h hn
      refine hgranted.mono fun t ht => ((hiff t).mp ht).symm.imp_left ?_
      rintro ⟨_, _, heq, -⟩
      cases heq
      rfl
  · have hsame : TaskPages k.mem k.pool k.initTask (e.kernel k).IsTask := by
      refine hpages.mono fun t ht => ((isTask_kernel t).mp ht).resolve_right ?_
      rintro ⟨m, proc, heq, -⟩
      exact htake ⟨t, m, proc, heq⟩
    have hpage : ∀ n, pc.builds = some n → ∃ i, i < k.pool.pageCount k.mem ∧ n = k.pool.pageAddr i := by
      intro n hn
      obtain ⟨htask, hne⟩ := hbuilding n hn
      obtain ⟨i, hi, haddr, -⟩ := (hpages.page n htask).resolve_left hne
      exact ⟨i, hi, haddr⟩
    cases e with
    | takePage n m proc => exact absurd ⟨n, m, proc, rfl⟩ htake
    | zeroPage n =>
        obtain ⟨i, hi, rfl⟩ := hpage n (stmt_page h rfl)
        exact hsame.congr fun a ha => memsetZero_of_inBitmap hpages.wf hi ha
    | buildStack n proc params =>
        obtain ⟨⟨hn, hbefore, hinit⟩, -⟩ := stmt_buildStack h
        obtain ⟨i, hi, rfl⟩ := hpage n hn
        refine hsame.congr fun a ha => ?_
        show (buildFrames k _ proc params).mem a = k.mem a
        rw [buildFrames_eq, hsp _ hn hbefore hinit]
        show I386Kernel.frames k.mem k.sym (k.pool.pageAddr i + pageSize) proc params a = k.mem a
        have halign := hpages.wf.pageAddr_aligned (Nat.le_of_lt hi)
        have hout : ¬ InPage (k.pool.pageAddr i) a := fun hin => hpages.wf.not_inBitmap_of_inPage hi hin ha
        generalize k.pool.pageAddr i = p at *
        exact frames_of_not_inPage halign hout
    | _ => exact hsame

/-! ## Every step keeps it -/

theorem Frame.masked_iff (f : Frame) :
    f.masked = true ↔ f.pc.masked = true ∨ f.origin.isQuick = true ∨ (f.origin = .timer ∧ f.pc ≠ .ret) := by
  simp [Frame.masked, or_assoc]

theorem Frame.masked_of_pc {f : Frame} (h : f.pc.masked = true) : f.masked = true := f.masked_iff.mpr (Or.inl h)

/-- What an interrupt may come upon: a task's own function, the timer's handler at its end, or a device's that has been through `schedule`. -/
theorem Frame.masked_eq_false {f : Frame} (h : f.masked = false) :
    f.pc.masked = false ∧ f.origin.isQuick = false ∧ (f.origin = .timer → f.pc = .ret) := by
  have hnot := mt f.masked_iff.mpr (by rw [h]; exact Bool.false_ne_true)
  rw [not_or, not_or, Bool.not_eq_true, Bool.not_eq_true, not_and, not_not] at hnot
  exact hnot

namespace Discipline

variable {m : Machine} {builder : Word → Option Word} {f : Frame} {rest : List Frame} {e : Effect} {pc : Pc}

/-- The frames of the other tasks after a statement: only the builder of a task gives that one a frame. -/
theorem frames_stmt_of_ne (h : Discipline m builder) (hframes : m.frames m.current = f :: rest)
    (hstmt : stmt m.kernel m.current f.pc = some (e, pc)) {t : Word} (ht : t ≠ m.current) :
    ((m.setFrames m.current (⟨pc, f.origin⟩ :: rest)).apply e).frames t = m.frames t ∨
      (m.frames t = [] ∧ (f.pc.builds = some t ∧ ∃ a, pc = .linkLock a t) ∧
        ((m.setFrames m.current (⟨pc, f.origin⟩ :: rest)).apply e).frames t = [⟨.initPost, .fresh⟩]) := by
  cases e with
  | buildStack n proc params =>
      obtain ⟨⟨hn, hbefore, -⟩, -⟩ := stmt_buildStack hstmt
      by_cases htn : t = n
      · subst htn
        refine Or.inr ⟨(h.unstacked _ f (hframes ▸ List.mem_cons_self ..) t hn hbefore).1, ⟨hn, ?_⟩, ?_⟩
        · exact (stmt_buildStack hstmt).2
        · exact Function.update_self ..
      · exact Or.inl ((Function.update_of_ne htn _ _).trans (Function.update_of_ne ht _ _))
  | _ => exact Or.inl (Function.update_of_ne ht _ _)

theorem frames_stmt_self (h : Discipline m builder) (hframes : m.frames m.current = f :: rest)
    (hstmt : stmt m.kernel m.current f.pc = some (e, pc)) :
    ((m.setFrames m.current (⟨pc, f.origin⟩ :: rest)).apply e).frames m.current = ⟨pc, f.origin⟩ :: rest := by
  cases e with
  | buildStack n proc params =>
      obtain ⟨⟨hn, hbefore, -⟩, -⟩ := stmt_buildStack hstmt
      have hne := (h.unstacked _ f (hframes ▸ List.mem_cons_self ..) n hn hbefore).2
      exact (Function.update_of_ne hne.symm _ _).trans (Function.update_self ..)
  | _ => exact Function.update_self ..

/-- A frame after a statement is the one that went on, one that was there, or the first of a new task. -/
theorem mem_frames_stmt (h : Discipline m builder) (hframes : m.frames m.current = f :: rest)
    (hstmt : stmt m.kernel m.current f.pc = some (e, pc)) {t : Word} {g : Frame}
    (hg : g ∈ ((m.setFrames m.current (⟨pc, f.origin⟩ :: rest)).apply e).frames t) :
    (t = m.current ∧ g = ⟨pc, f.origin⟩) ∨ (t = m.current ∧ g ∈ rest) ∨ (t ≠ m.current ∧ g ∈ m.frames t) ∨
      (t ≠ m.current ∧ f.pc.builds = some t ∧ g = ⟨.initPost, .fresh⟩) := by
  by_cases ht : t = m.current
  · subst ht
    rw [h.frames_stmt_self hframes hstmt] at hg
    obtain heq | hmem := List.mem_cons.mp hg
    · exact Or.inl ⟨rfl, heq⟩
    · exact Or.inr (Or.inl ⟨rfl, hmem⟩)
  · obtain heq | ⟨-, ⟨hn, -⟩, heq⟩ := h.frames_stmt_of_ne hframes hstmt ht
    · rw [heq] at hg
      exact Or.inr (Or.inr (Or.inl ⟨ht, hg⟩))
    · rw [heq] at hg
      exact Or.inr (Or.inr (Or.inr ⟨ht, hn, List.mem_singleton.mp hg⟩))

/-- A custody survives a statement when its top frame's does and a new task's first frame holds nothing. -/
theorem custody_stmt {R : Type} {holds : Word → Frame → R → Bool} {holder holder' : R → Option Word}
    (h : Discipline m builder) (hframes : m.frames m.current = f :: rest)
    (hstmt : stmt m.kernel m.current f.pc = some (e, pc)) (hcustody : Custody holds m.frames holder)
    (hfirst : ∀ t r, holds t ⟨.initPost, .fresh⟩ r = false)
    (hchange : ∀ r, (holds m.current ⟨pc, f.origin⟩ r = holds m.current f r ∧ holder' r = holder r) ∨
      (holds m.current f r = false ∧ holds m.current ⟨pc, f.origin⟩ r = true ∧ holder r = none ∧
        holder' r = some m.current) ∨
      (holds m.current f r = true ∧ holds m.current ⟨pc, f.origin⟩ r = false ∧ holder' r = none)) :
    Custody holds ((m.setFrames m.current (⟨pc, f.origin⟩ :: rest)).apply e).frames holder' := by
  have hnew := hcustody.replace hframes hchange
  cases e with
  | buildStack n proc params =>
      obtain ⟨⟨hn, hbefore, -⟩, -⟩ := stmt_buildStack hstmt
      obtain ⟨hempty, hne⟩ := h.unstacked _ f (hframes ▸ List.mem_cons_self ..) n hn hbefore
      have hpush := hnew.push (t := n) (hfirst n)
      rw [Function.update_of_ne hne, hempty] at hpush
      exact hpush
  | _ => exact hnew

theorem locks_stmt (h : Discipline m builder) (hframes : m.frames m.current = f :: rest)
    (hstmt : stmt m.kernel m.current f.pc = some (e, pc)) (henabled : e.enabled m.holder = true) :
    Custody (fun _ f l => decide (l ∈ f.pc.locks)) ((m.setFrames m.current (⟨pc, f.origin⟩ :: rest)).apply e).frames
      (e.holder m.current m.holder) := by
  refine h.custody_stmt hframes hstmt h.locks (fun _ _ => rfl) fun l => ?_
  have hshift := stmt_locks hstmt
  have hnodup := pc.nodup_locks
  have hnodup' := f.pc.nodup_locks
  cases e with
  | acquire l' =>
      have hshift : pc.locks = l' :: f.pc.locks := hshift
      by_cases hl : l = l'
      · subst hl
        rw [hshift] at hnodup
        refine Or.inr (Or.inl ⟨decide_eq_false (List.nodup_cons.mp hnodup).1, ?_, Option.isNone_iff_eq_none.mp henabled, ?_⟩)
        · exact decide_eq_true (hshift ▸ List.mem_cons_self ..)
        · exact Function.update_self ..
      · refine Or.inl ⟨decide_eq_decide.mpr ?_, Function.update_of_ne hl _ _⟩
        rw [hshift, List.mem_cons]
        exact or_iff_right hl
  | release l' =>
      have hshift : f.pc.locks = l' :: pc.locks := hshift
      by_cases hl : l = l'
      · subst hl
        rw [hshift] at hnodup'
        refine Or.inr (Or.inr ⟨decide_eq_true (hshift ▸ List.mem_cons_self ..), ?_, Function.update_self ..⟩)
        exact decide_eq_false (List.nodup_cons.mp hnodup').1
      · refine Or.inl ⟨decide_eq_decide.mpr ?_, Function.update_of_ne hl _ _⟩
        rw [hshift, List.mem_cons]
        exact (or_iff_right hl).symm
  | _ =>
      have hshift : pc.locks = f.pc.locks := hshift
      exact Or.inl ⟨by rw [hshift], rfl⟩

theorem builder_eq_none (h : Discipline m builder) {n : Word} (hn : ¬ m.kernel.IsTask n) : builder n = none := by
  rw [Option.eq_none_iff_forall_ne_some]
  exact fun u hu => hn (h.building n u hu).1

theorem builds_stmt (h : Discipline m builder) (hframes : m.frames m.current = f :: rest)
    (hstmt : stmt m.kernel m.current f.pc = some (e, pc)) :
    Custody (fun _ f n => decide (f.pc.builds = some n))
      ((m.setFrames m.current (⟨pc, f.origin⟩ :: rest)).apply e).frames (e.builder m.current builder) := by
  refine h.custody_stmt hframes hstmt h.builds (fun _ _ => rfl) fun r => ?_
  have hpass := stmt_builds hstmt
  cases e with
  | takePage n mem proc =>
      obtain ⟨hnone, hsome⟩ : f.pc.builds = none ∧ pc.builds = if n = 0 then none else some n := hpass
      by_cases hn : n = 0
      · rw [if_pos hn] at hsome
        refine Or.inl ⟨?_, congrFun (if_pos hn) r⟩
        rw [hsome, hnone]
      · rw [if_neg hn] at hsome
        have hbuilder : (Effect.takePage n mem proc).builder m.current builder =
            Function.update builder n (some m.current) := if_neg hn
        rw [hbuilder]
        by_cases hr : r = n
        · subst hr
          have hfresh := (stmt_takePage_fresh h.pages hstmt hn).1
          refine Or.inr (Or.inl ⟨decide_eq_false (by rw [hnone]; nofun), decide_eq_true hsome,
            h.builder_eq_none hfresh, Function.update_self ..⟩)
        · refine Or.inl ⟨decide_eq_decide.mpr ?_, Function.update_of_ne hr _ _⟩
          rw [hsome, hnone, Option.some.injEq]
          exact iff_of_false (Ne.symm hr) nofun
  | returnPid n =>
      obtain ⟨hsome, hnone⟩ : f.pc.builds = some n ∧ pc.builds = none := hpass
      by_cases hr : r = n
      · subst hr
        exact Or.inr (Or.inr ⟨decide_eq_true hsome, decide_eq_false (by rw [hnone]; nofun), Function.update_self ..⟩)
      · refine Or.inl ⟨decide_eq_decide.mpr ?_, Function.update_of_ne hr _ _⟩
        rw [hsome, hnone, Option.some.injEq]
        exact iff_of_false nofun (Ne.symm hr)
  | _ =>
      have hpass : pc.builds = f.pc.builds := hpass
      exact Or.inl ⟨by rw [hpass], rfl⟩

/-- What the task that builds a task in a page knows of it. -/
theorem building_of_mem (h : Discipline m builder) {t n : Word} {g : Frame} (hg : g ∈ m.frames t)
    (hn : g.pc.builds = some n) : m.kernel.IsTask n ∧ n ≠ m.kernel.initTask :=
  h.building n t (h.builds.holder_of_mem hg (decide_eq_true hn))

/-- A frame other than the one that goes on does not build in the page that one builds in. -/
theorem builds_ne (h : Discipline m builder) (hframes : m.frames m.current = f :: rest) {t n : Word} {g : Frame}
    (hg : (t = m.current ∧ g ∈ rest) ∨ (t ≠ m.current ∧ g ∈ m.frames t)) (hn : g.pc.builds = some n) :
    f.pc.builds ≠ some n := fun hf =>
  of_decide_eq_false (h.builds.others_free hframes (decide_eq_true hf) hg) hn

theorem masked_stmt (h : Discipline m builder) (hframes : m.frames m.current = f :: rest)
    (hstmt : Preempt.stmt m.kernel m.current f.pc = some (e, pc)) (hmask : Frame.masked ⟨pc, f.origin⟩ = true) :
    e.intr m.intr = false := by
  have hret := stmt_part_ne_ret hstmt
  obtain hpc | hquick | ⟨htimer, hpc⟩ := (Frame.masked_iff _).mp hmask
  · obtain rfl | ⟨hpc, hintr⟩ := stmt_masked hstmt hpc
    · rfl
    · rw [hintr]
      exact h.masked f rest hframes (Frame.masked_of_pc hpc)
  · have hintr := h.masked f rest hframes ((Frame.masked_iff f).mpr (Or.inr (Or.inl hquick)))
    cases e with
    | setIntr b =>
        cases b with
        | false => rfl
        | true =>
            -- only a `schedule` at its end enables interrupts
            obtain ⟨hpost, hinitial⟩ := Origin.has_quick (h.parts _ f (hframes ▸ List.mem_cons_self ..)) hquick
            exact ((stmt_sti_part hstmt).elim hpost hinitial).elim
    | _ => exact hintr
  · have hintr := h.masked f rest hframes ((Frame.masked_iff f).mpr (Or.inr (Or.inr ⟨htimer, fun heq => hret (by rw [heq]; rfl)⟩)))
    cases e with
    | setIntr b =>
        cases b with
        | false => rfl
        | true => exact absurd (stmt_setIntr hstmt) hpc
    | _ => exact hintr

theorem building_stmt (h : Discipline m builder)
    (hstmt : Preempt.stmt m.kernel m.current f.pc = some (e, pc)) {n u : Word}
    (hu : e.builder m.current builder n = some u) :
    (e.kernel m.kernel).IsTask n ∧ n ≠ m.kernel.initTask := by
  have hold : ∀ n u, builder n = some u → (e.kernel m.kernel).IsTask n ∧ n ≠ m.kernel.initTask := fun n u hu =>
    ⟨(Effect.isTask_kernel n).mpr (Or.inl (h.building n u hu).1), (h.building n u hu).2⟩
  cases e with
  | takePage n' mem proc =>
      by_cases hn' : n' = 0
      · rw [Effect.builder, if_pos hn'] at hu
        exact hold n u hu
      · rw [Effect.builder, if_neg hn', Function.update_apply] at hu
        split at hu
        · rename_i hnn'
          subst hnn'
          obtain ⟨-, hinit, -⟩ := stmt_takePage_fresh h.pages hstmt hn'
          exact ⟨(Effect.isTask_kernel n).mpr (Or.inr ⟨mem, proc, rfl, hn'⟩), hinit⟩
        · exact hold n u hu
  | returnPid n' =>
      rw [Effect.builder, Function.update_apply] at hu
      split at hu
      · cases hu
      · exact hold n u hu
  | _ => exact hold n u hu

theorem unstacked_stmt (h : Discipline m builder) (hframes : m.frames m.current = f :: rest)
    (hstmt : Preempt.stmt m.kernel m.current f.pc = some (e, pc)) {t n : Word} {g : Frame}
    (hg : g ∈ ((m.setFrames m.current (⟨pc, f.origin⟩ :: rest)).apply e).frames t) (hn : g.pc.builds = some n)
    (hbefore : g.pc.beforeStack = true) :
    ((m.setFrames m.current (⟨pc, f.origin⟩ :: rest)).apply e).frames n = [] ∧ n ≠ m.current := by
  -- a page without frames stays without unless its stack is built
  have hkeep : m.frames n = [] ∧ n ≠ m.current → (f.pc.builds = some n → ∀ a, pc ≠ .linkLock a n) →
      ((m.setFrames m.current (⟨pc, f.origin⟩ :: rest)).apply e).frames n = [] ∧ n ≠ m.current := by
    rintro ⟨hempty, hne⟩ hnot
    obtain heq | ⟨-, ⟨hf, a, hpc⟩, -⟩ := h.frames_stmt_of_ne hframes hstmt hne
    · exact ⟨heq.trans hempty, hne⟩
    · exact absurd hpc (hnot hf a)
  have hothers : (t = m.current ∧ g ∈ rest) ∨ (t ≠ m.current ∧ g ∈ m.frames t) → g ∈ m.frames t →
      ((m.setFrames m.current (⟨pc, f.origin⟩ :: rest)).apply e).frames n = [] ∧ n ≠ m.current := fun hor hg =>
    hkeep (h.unstacked t g hg n hn hbefore) fun hf => absurd hf (h.builds_ne hframes hor hn)
  obtain ⟨rfl, rfl⟩ | ⟨rfl, hmem⟩ | ⟨hne, hmem⟩ | ⟨-, -, rfl⟩ := h.mem_frames_stmt hframes hstmt hg
  · refine hkeep ?_ fun _ a hpc => ?_
    · obtain ⟨mem, proc, rfl⟩ | ⟨hf, hbefore⟩ := stmt_beforeStack hstmt hn hbefore
      · have hpass : f.pc.builds = none ∧ pc.builds = if n = 0 then none else some n := stmt_builds hstmt
        have hn0 : n ≠ 0 := fun h0 => by
          rw [if_pos h0] at hpass
          exact nomatch hn.symm.trans hpass.2
        have hfresh := (stmt_takePage_fresh h.pages hstmt hn0).1
        refine ⟨?_, fun heq => hfresh (heq ▸ h.current)⟩
        by_contra hframes
        exact hfresh (h.framed n hframes)
      · exact h.unstacked _ f (hframes ▸ List.mem_cons_self ..) n hf hbefore
    · rw [hpc] at hbefore
      cases hbefore
  · exact hothers (Or.inl ⟨rfl, hmem⟩) (hframes ▸ List.mem_cons_of_mem _ hmem)
  · exact hothers (Or.inr ⟨hne, hmem⟩) hmem
  · cases hn

theorem stackTop_stmt (h : Discipline m builder) (hframes : m.frames m.current = f :: rest)
    (hstmt : Preempt.stmt m.kernel m.current f.pc = some (e, pc)) {t n : Word} {g : Frame}
    (hg : g ∈ ((m.setFrames m.current (⟨pc, f.origin⟩ :: rest)).apply e).frames t) (hn : g.pc.builds = some n)
    (hinit : g.pc.initialised = true) : ((e.kernel m.kernel).task n).sp = n + pageSize := by
  have hothers : (t = m.current ∧ g ∈ rest) ∨ (t ≠ m.current ∧ g ∈ m.frames t) → g ∈ m.frames t →
      ((e.kernel m.kernel).task n).sp = n + pageSize := by
    intro hor hg
    have hpage : e.page ≠ some n := fun heq => h.builds_ne hframes hor hn (stmt_page hstmt heq)
    rw [Effect.sp_kernel (Or.inr (Or.inl hpage))]
    exact h.stackTop t g hg n hn hinit
  obtain ⟨rfl, rfl⟩ | ⟨rfl, hmem⟩ | ⟨hne, hmem⟩ | ⟨-, -, rfl⟩ := h.mem_frames_stmt hframes hstmt hg
  · obtain ⟨a, rfl⟩ | ⟨hf, hfinit, hpage⟩ := stmt_initialised hstmt hn hinit
    · show (Function.update m.kernel.task n (initialised a n) n).sp = n + pageSize
      rw [Function.update_self, initialised]
    · rw [Effect.sp_kernel (hpage.imp_right Or.inr)]
      exact h.stackTop _ f (hframes ▸ List.mem_cons_self ..) n hf hfinit
  · exact hothers (Or.inl ⟨rfl, hmem⟩) (hframes ▸ List.mem_cons_of_mem _ hmem)
  · exact hothers (Or.inr ⟨hne, hmem⟩) hmem
  · cases hn

theorem stmt (h : Discipline m builder) (hframes : m.frames m.current = f :: rest)
    (hstmt : stmt m.kernel m.current f.pc = some (e, pc)) (henabled : e.enabled m.holder = true) :
    Discipline ((m.setFrames m.current (⟨pc, f.origin⟩ :: rest)).apply e) (e.builder m.current builder) := by
  have hmem : f ∈ m.frames m.current := hframes ▸ List.mem_cons_self ..
  have hrest : ∀ g ∈ rest, g ∈ m.frames m.current := fun g hg => hframes ▸ List.mem_cons_of_mem _ hg
  have hself := h.frames_stmt_self hframes hstmt
  have hother := fun {t} (ht : t ≠ m.current) => h.frames_stmt_of_ne hframes hstmt ht
  have hmono : ∀ t, m.kernel.IsTask t → (e.kernel m.kernel).IsTask t := fun t ht =>
    (Effect.isTask_kernel t).mpr (Or.inl ht)
  have hcurrent : ((m.setFrames m.current (⟨pc, f.origin⟩ :: rest)).apply e).current = m.current :=
    Effect.current_kernel m.kernel e
  have hinitTask : ((m.setFrames m.current (⟨pc, f.origin⟩ :: rest)).apply e).kernel.initTask =
      m.kernel.initTask := Effect.initTask_kernel m.kernel e
  refine ⟨h.locks_stmt hframes hstmt henabled, h.builds_stmt hframes hstmt, fun t => ?_, fun t g hg => ?_,
    fun g rest' hg hmask => ?_, fun t g rest' hg => ?_, fun t ht g rest' hg => ?_, fun t ht => ?_, ?_, ?_, fun n u hu => ?_,
    fun t g hg n hn hbefore => ?_, fun t g hg n hn hinit => h.stackTop_stmt hframes hstmt hg hn hinit⟩
  · by_cases ht : t = m.current
    · subst ht
      have hbottom := h.bottom m.current
      rw [hframes] at hbottom
      rw [hself]
      exact hbottom
    · obtain heq | ⟨-, -, heq⟩ := hother ht
      · rw [heq]
        exact h.bottom t
      · rw [heq]
        exact List.pairwise_singleton _ _
  · obtain ⟨-, rfl⟩ | ⟨rfl, hold⟩ | ⟨-, hold⟩ | ⟨-, -, rfl⟩ := h.mem_frames_stmt hframes hstmt hg
    · exact Origin.has_stmt hstmt (h.parts _ f hmem)
    · exact h.parts _ g (hrest g hold)
    · exact h.parts t g hold
    · rfl
  · rw [hcurrent, hself] at hg
    obtain ⟨rfl, rfl⟩ := List.cons.inj hg
    exact h.masked_stmt hframes hstmt hmask
  · by_cases ht : t = m.current
    · subst ht
      rw [hself] at hg
      obtain ⟨-, rfl⟩ := List.cons.inj hg
      exact h.interrupted _ f rest hframes
    · obtain heq | ⟨-, -, heq⟩ := hother ht
      · rw [heq] at hg
        exact h.interrupted t g rest' hg
      · rw [heq] at hg
        obtain ⟨-, rfl⟩ := List.cons.inj hg
        exact fun _ hmem => absurd hmem List.not_mem_nil
  · rw [hcurrent] at ht
    obtain heq | ⟨-, -, heq⟩ := hother ht
    · rw [heq] at hg
      exact h.switched t ht g rest' hg
    · rw [heq] at hg
      obtain ⟨rfl, rfl⟩ := List.cons.inj hg
      rfl
  · refine hmono t ?_
    by_cases htc : t = m.current
    · exact htc ▸ h.current
    · obtain heq | ⟨-, ⟨hn, -⟩, -⟩ := hother htc
      · exact h.framed t (heq ▸ ht)
      · exact (h.building_of_mem hmem hn).1
  · rw [hcurrent]
    exact hmono _ h.current
  · exact Effect.pages_kernel hstmt h.pages (fun n hn => h.building_of_mem hmem hn)
      fun n hn _ hinit => h.stackTop _ f hmem n hn hinit
  · rw [hinitTask]
    exact h.building_stmt hstmt hu
  · rw [hcurrent]
    exact h.unstacked_stmt hframes hstmt hg hn hbefore

theorem ret (h : Discipline m builder) (hframes : m.frames m.current = f :: rest) (hpc : f.pc = .ret) :
    Discipline { m.setFrames m.current rest with intr := m.intr || f.origin.isr } builder := by
  have hself : Function.update m.frames m.current rest m.current = rest := Function.update_self ..
  have hother : ∀ t, t ≠ m.current → Function.update m.frames m.current rest t = m.frames t := fun t ht =>
    Function.update_of_ne ht _ _
  have hmem : ∀ t, ∀ g ∈ Function.update m.frames m.current rest t, g ∈ m.frames t := by
    intro t g hg
    by_cases ht : t = m.current
    · subst ht
      rw [hself] at hg
      exact hframes ▸ List.mem_cons_of_mem _ hg
    · rwa [hother t ht] at hg
  refine ⟨h.locks.pop hframes fun l => ?_, h.builds.pop hframes fun n => ?_, fun t => ?_,
    fun t g hg => h.parts t g (hmem t g hg), fun g rest' hg hmask => ?_,
    fun t g rest' hg => ?_, fun t ht g rest' hg => ?_, fun t ht => ?_, h.current, h.pages, h.building,
    fun t g hg n hn hbefore => ?_, fun t g hg => h.stackTop t g (hmem t g hg)⟩
  · rw [hpc]
    rfl
  · rw [hpc]
    rfl
  · show ((Function.update m.frames m.current rest t).map Frame.origin).Pairwise _
    by_cases ht : t = m.current
    · subst ht
      have hbottom := h.bottom m.current
      rw [hframes, List.map_cons] at hbottom
      rw [hself]
      exact hbottom.of_cons
    · rw [hother t ht]
      exact h.bottom t
  · have hg : Function.update m.frames m.current rest m.current = g :: rest' := hg
    rw [hself] at hg
    have hclear := h.interrupted _ f rest hframes g (hg ▸ List.mem_cons_self ..)
    rw [hclear] at hmask
    cases hmask
  · have hg : Function.update m.frames m.current rest t = g :: rest' := hg
    by_cases ht : t = m.current
    · subst ht
      rw [hself] at hg
      subst hg
      exact fun g' hg' => h.interrupted _ f _ hframes g' (List.mem_cons_of_mem _ hg')
    · rw [hother t ht] at hg
      exact h.interrupted t g rest' hg
  · have hg : Function.update m.frames m.current rest t = g :: rest' := hg
    rw [hother t ht] at hg
    exact h.switched t ht g rest' hg
  · obtain ⟨g, hg⟩ := List.exists_mem_of_ne_nil _ ht
    exact h.framed t (List.ne_nil_of_mem (hmem t g hg))
  · obtain ⟨hempty, hne⟩ := h.unstacked t g (hmem t g hg) n hn hbefore
    exact ⟨(hother n hne).trans hempty, hne⟩

/-- The top frame of the current task becomes another one of the same kind without locks or a page, and the CPU stays or goes to a task with a saved stack. -/
theorem become (h : Discipline m builder) (hframes : m.frames m.current = f :: rest) {g : Frame}
    (hold : f.pc.locks = [] ∧ f.pc.builds = none) (hnew : g.pc.locks = [] ∧ g.pc.builds = none)
    (hhas : g.origin.has g.pc.part = true) (hisr : g.origin.isr = f.origin.isr) {current : Word}
    (hsaved : (current = m.current ∧ (g.masked = true → m.intr = false)) ∨
      (m.intr = false ∧ m.frames current ≠ [] ∧ g.pc.suspended = true)) :
    Discipline ((m.setFrames m.current (g :: rest)).switchTo current) builder := by
  have hself : Function.update m.frames m.current (g :: rest) m.current = g :: rest := Function.update_self ..
  have hother : ∀ t, t ≠ m.current → Function.update m.frames m.current (g :: rest) t = m.frames t :=
    fun t ht => Function.update_of_ne ht _ _
  have hmem : ∀ t, ∀ g' ∈ Function.update m.frames m.current (g :: rest) t, g' = g ∨ g' ∈ m.frames t := by
    intro t g' hg
    by_cases ht : t = m.current
    · subst ht
      rw [hself] at hg
      exact (List.mem_cons.mp hg).imp_right fun hg => hframes ▸ List.mem_cons_of_mem _ hg
    · rw [hother t ht] at hg
      exact Or.inr hg
  refine ⟨h.locks.replace hframes fun l => Or.inl ⟨?_, rfl⟩, h.builds.replace hframes fun n => Or.inl ⟨?_, rfl⟩,
    fun t => ?_, fun t g' hg => ?_, fun g' rest' hg hmask => ?_, fun t g' rest' hg => ?_, fun t ht g' rest' hg => ?_,
    fun t ht => ?_, ?_, h.pages, h.building, fun t g' hg n hn hbefore => ?_, fun t g' hg n hn hinit => ?_⟩
  · rw [hold.1, hnew.1]
  · rw [hold.2, hnew.2]
  · show ((Function.update m.frames m.current (g :: rest) t).map Frame.origin).Pairwise _
    by_cases ht : t = m.current
    · subst ht
      have hbottom := h.bottom m.current
      rw [hframes, List.map_cons, List.pairwise_cons] at hbottom
      rw [hself, List.map_cons, List.pairwise_cons]
      exact ⟨fun o ho => hisr.trans (hbottom.1 o ho), hbottom.2⟩
    · rw [hother t ht]
      exact h.bottom t
  · obtain rfl | hg := hmem t g' hg
    · exact hhas
    · exact h.parts t g' hg
  · obtain ⟨rfl, hmasked⟩ | ⟨hintr, -⟩ := hsaved
    · have hg : Function.update m.frames m.current (g :: rest) m.current = g' :: rest' := hg
      rw [hself] at hg
      obtain ⟨rfl, -⟩ := List.cons.inj hg
      exact hmasked hmask
    · exact hintr
  · have hg : Function.update m.frames m.current (g :: rest) t = g' :: rest' := hg
    by_cases ht : t = m.current
    · subst ht
      rw [hself] at hg
      obtain ⟨-, rfl⟩ := List.cons.inj hg
      exact h.interrupted _ f rest hframes
    · rw [hother t ht] at hg
      exact h.interrupted t g' rest' hg
  · have hg : Function.update m.frames m.current (g :: rest) t = g' :: rest' := hg
    have ht : t ≠ current := ht
    by_cases htc : t = m.current
    · subst htc
      rw [hself] at hg
      obtain ⟨rfl, -⟩ := List.cons.inj hg
      obtain ⟨heq, -⟩ | ⟨-, -, hsuspended⟩ := hsaved
      · exact absurd heq.symm ht
      · exact hsuspended
    · rw [hother t htc] at hg
      exact h.switched t htc g' rest' hg
  · show m.kernel.IsTask t
    by_cases htc : t = m.current
    · exact htc ▸ h.current
    · exact h.framed t fun hempty => ht ((hother t htc).trans hempty)
  · show m.kernel.IsTask current
    obtain ⟨rfl, -⟩ | ⟨-, hsaved, -⟩ := hsaved
    · exact h.current
    · exact h.framed current hsaved
  · obtain rfl | hg := hmem t g' hg
    · rw [hnew.2] at hn
      cases hn
    · obtain ⟨hempty, hne⟩ := h.unstacked t g' hg n hn hbefore
      refine ⟨(hother n hne).trans hempty, ?_⟩
      rintro rfl
      obtain ⟨heq, -⟩ | ⟨-, hsaved, -⟩ := hsaved
      · exact hne heq
      · exact hsaved hempty
  · obtain rfl | hg := hmem t g' hg
    · rw [hnew.2] at hn
      cases hn
    · exact h.stackTop t g' hg n hn hinit

/-- `schedule` goes through `switch_to`, to a task with a saved stack or back to its own. -/
theorem leave (h : Discipline m builder) (hframes : m.frames m.current = f :: rest) {next : Word}
    (hpc : f.pc = .schSwitch next) {pc : Pc} (hpost : pc.part = .post) {current : Word}
    (hsaved : current = m.current ∨ (m.frames current ≠ [] ∧ pc.suspended = true)) :
    Discipline ((m.setFrames m.current (⟨pc, f.origin.waited⟩ :: rest)).switchTo current) builder := by
  have hintr : m.intr = false := h.masked f rest hframes (Frame.masked_of_pc (by rw [hpc]; rfl))
  have hparts := h.parts _ f (hframes ▸ List.mem_cons_self ..)
  rw [hpc] at hparts
  have hempty : pc.locks = [] ∧ pc.builds = none := by
    cases pc <;> first | exact ⟨rfl, rfl⟩ | cases hpost
  refine h.become (g := ⟨pc, f.origin.waited⟩) hframes (by rw [hpc]; exact ⟨rfl, rfl⟩) hempty ?_ f.origin.isr_waited
    (hsaved.imp (fun heq => ⟨heq, fun _ => hintr⟩) fun hsaved => ⟨hintr, hsaved⟩)
  rw [hpost]
  exact Origin.has_waited hparts

/-- A handler goes on to its next operation. -/
theorem proceed (h : Discipline m builder) (hframes : m.frames m.current = f :: rest) (hpc : f.pc = .ret) {g : Frame}
    (hnext : f.origin.proceed = some g) : Discipline (m.setFrames m.current (g :: rest)) builder := by
  have hbare := Origin.bare_proceed hnext
  obtain ⟨hunmasked, hhas, hisr, hquick, htimer, -⟩ := Origin.proceed_eq hnext
  refine h.become hframes (by rw [hpc]; exact ⟨rfl, rfl⟩) ⟨Pc.locks_of_bare hbare, Pc.builds_of_bare hbare⟩ hhas hisr
    (Or.inl ⟨rfl, fun hmask => h.masked f rest hframes ((Frame.masked_iff f).mpr (Or.inr (Or.inl ?_)))⟩)
  obtain hpc | hquick' | ⟨heq, -⟩ := (Frame.masked_iff g).mp hmask
  · exact absurd (hunmasked.symm.trans hpc) Bool.false_ne_true
  · exact hquick.symm.trans hquick'
  · exact absurd heq htimer

/-- A frame that holds nothing goes on top of the current task's stack. -/
theorem push (h : Discipline m builder) (hlocks : f.pc.locks = []) (hbuilds : f.pc.builds = none)
    (hpart : f.origin.has f.pc.part = true) {b : Bool}
    (hisr : m.frames m.current = [] ∨ f.origin.isr = true) (hmasked : f.masked = true → b = false)
    (hclear : ∀ g ∈ m.frames m.current, g.masked = false) :
    Discipline { m.setFrames m.current (f :: m.frames m.current) with intr := b } builder := by
  have hself : Function.update m.frames m.current (f :: m.frames m.current) m.current = f :: m.frames m.current :=
    Function.update_self ..
  have hother : ∀ t, t ≠ m.current → Function.update m.frames m.current (f :: m.frames m.current) t = m.frames t :=
    fun t ht => Function.update_of_ne ht _ _
  have hmem : ∀ t, ∀ g ∈ Function.update m.frames m.current (f :: m.frames m.current) t, g = f ∨ g ∈ m.frames t := by
    intro t g hg
    by_cases ht : t = m.current
    · subst ht
      rw [hself] at hg
      exact List.mem_cons.mp hg
    · rw [hother t ht] at hg
      exact Or.inr hg
  refine ⟨h.locks.push fun l => ?_, h.builds.push fun n => ?_, fun t => ?_, fun t g hg => ?_, fun g rest' hg hmask => ?_,
    fun t g rest' hg => ?_, fun t ht g rest' hg => ?_, fun t ht => ?_, h.current,
    h.pages, h.building, fun t g hg n hn hbefore => ?_, fun t g hg n hn hinit => ?_⟩
  · rw [hlocks]
    rfl
  · rw [hbuilds]
    rfl
  · show ((Function.update m.frames m.current (f :: m.frames m.current) t).map Frame.origin).Pairwise _
    by_cases ht : t = m.current
    · subst ht
      rw [hself, List.map_cons, List.pairwise_cons]
      refine ⟨fun o ho => ?_, h.bottom _⟩
      obtain hempty | hisr := hisr
      · rw [hempty] at ho
        cases ho
      · exact hisr
    · rw [hother t ht]
      exact h.bottom t
  · obtain rfl | hg := hmem t g hg
    · exact hpart
    · exact h.parts t g hg
  · have hg : Function.update m.frames m.current (f :: m.frames m.current) m.current = g :: rest' := hg
    rw [hself] at hg
    obtain ⟨rfl, -⟩ := List.cons.inj hg
    exact hmasked hmask
  · have hg : Function.update m.frames m.current (f :: m.frames m.current) t = g :: rest' := hg
    by_cases ht : t = m.current
    · subst ht
      rw [hself] at hg
      obtain ⟨-, rfl⟩ := List.cons.inj hg
      exact hclear
    · rw [hother t ht] at hg
      exact h.interrupted t g rest' hg
  · have hg : Function.update m.frames m.current (f :: m.frames m.current) t = g :: rest' := hg
    rw [hother t ht] at hg
    exact h.switched t ht g rest' hg
  · show m.kernel.IsTask t
    by_cases htc : t = m.current
    · exact htc ▸ h.current
    · exact h.framed t fun hempty => ht ((hother t htc).trans hempty)
  · obtain rfl | hg := hmem t g hg
    · rw [hbuilds] at hn
      cases hn
    · obtain ⟨hempty, hne⟩ := h.unstacked t g hg n hn hbefore
      exact ⟨(hother n hne).trans hempty, hne⟩
  · obtain rfl | hg := hmem t g hg
    · rw [hbuilds] at hn
      cases hn
    · exact h.stackTop t g hg n hn hinit

/-- Nothing on the current stack has interrupts off while they are on. -/
theorem clear_of_intr (h : Discipline m builder) (hintr : m.intr = true) :
    ∀ g ∈ m.frames m.current, g.masked = false := by
  intro g hg
  cases hframes : m.frames m.current with
  | nil =>
      rw [hframes] at hg
      cases hg
  | cons f rest =>
      rw [hframes] at hg
      obtain rfl | hg := List.mem_cons.mp hg
      · by_contra hmask
        have := h.masked g rest hframes (by simpa using hmask)
        rw [hintr] at this
        cases this
      · exact h.interrupted _ f rest hframes g hg

theorem interrupt (h : Discipline m builder) (hintr : m.intr = true) (hlocks : f.pc.locks = [])
    (hbuilds : f.pc.builds = none) (hpart : f.origin.has f.pc.part = true) (hisr : f.origin.isr = true) :
    Discipline (m.interrupt f) builder :=
  h.push hlocks hbuilds hpart (Or.inr hisr) (fun _ => rfl) (h.clear_of_intr hintr)

end Discipline

theorem Call.entry_locks (c : Call) : c.entry.locks = [] ∧ c.entry.builds = none ∧ c.entry.masked = false := by
  cases c with
  | taskCreate a =>
      rw [Call.entry]
      split <;> exact ⟨rfl, rfl, rfl⟩
  | _ => exact ⟨rfl, rfl, rfl⟩

/-- A step is a statement, or it is quiet and the pages keep their builders. -/
theorem Discipline.move_cases {m m' : Machine} {builder : Word → Option Word} {l : Label} (h : Discipline m builder)
    (hmove : Move m l m') :
    (∃ f rest e pc, l = .step ∧ m.frames m.current = f :: rest ∧
      Preempt.stmt m.kernel m.current f.pc = some (e, pc) ∧ e.enabled m.holder = true ∧
      m' = (m.setFrames m.current (⟨pc, f.origin⟩ :: rest)).apply e) ∨ (Quiet m m' ∧ Discipline m' builder) := by
  have hquiet := hmove.stmt_or_quiet
  cases hmove with
  | stmt hframes hstmt henabled => exact Or.inl ⟨_, _, _, _, rfl, hframes, hstmt, henabled, rfl⟩
  | proceed hframes hpc hnext => exact hquiet.imp_right fun hq => ⟨hq, h.proceed hframes hpc hnext⟩
  | ret hframes hpc _ => exact hquiet.imp_right fun hq => ⟨hq, h.ret hframes hpc⟩
  | stay hframes hpc => exact hquiet.imp_right fun hq => ⟨hq, h.leave hframes hpc rfl (Or.inl rfl)⟩
  | switch hframes hpc hne hsaved =>
      exact hquiet.imp_right fun hq => ⟨hq, h.leave hframes hpc rfl (Or.inr ⟨hsaved, rfl⟩)⟩
  | @call c hframes hallowed =>
      obtain ⟨hlocks, hbuilds, hmasked⟩ := c.entry_locks
      have hpush := h.push (f := ⟨c.entry, .call c⟩) (b := m.intr) hlocks hbuilds c.has_entry (Or.inl hframes)
        (by rw [Frame.masked, hmasked]; exact fun h => absurd h Bool.false_ne_true)
        (by rw [hframes]; exact fun _ hmem => absurd hmem List.not_mem_nil)
      rw [hframes] at hpush
      exact hquiet.imp_right fun hq => ⟨hq, hpush⟩
  | timer hintr => exact hquiet.imp_right fun hq => ⟨hq, h.interrupt hintr rfl rfl rfl rfl⟩
  | @device op ops hintr =>
      have hbare := op.bare_entry
      exact hquiet.imp_right fun hq =>
        ⟨hq, h.interrupt hintr (Pc.locks_of_bare hbare) (Pc.builds_of_bare hbare) op.has_entry rfl⟩

theorem Discipline.move {m m' : Machine} {builder : Word → Option Word} {l : Label} (h : Discipline m builder)
    (hmove : Move m l m') : ∃ builder', Discipline m' builder' := by
  obtain ⟨f, rest, e, pc, -, hframes, hstmt, henabled, rfl⟩ | ⟨-, hd⟩ := h.move_cases hmove
  · exact ⟨_, h.stmt hframes hstmt henabled⟩
  · exact ⟨_, hd⟩

theorem Machine.frames_start (k : Kernel) (t : Word) : (Machine.start k).frames t = [] ∨
    ((Machine.start k).frames t = [⟨.initPost, .fresh⟩] ∧ t ≠ k.current ∧ k.IsTask t) := by
  show (if t ∈ k.created.map Prod.fst ∧ t ≠ k.current then [_] else []) = [] ∨ _
  split
  · rename_i h
    obtain ⟨⟨t', proc⟩, hmem, rfl⟩ := List.mem_map.mp h.1
    exact Or.inr ⟨if_pos h, h.2, proc, hmem⟩
  · exact Or.inl rfl

theorem Machine.mem_frames_start {k : Kernel} {t : Word} {f : Frame} (hf : f ∈ (Machine.start k).frames t) :
    f = ⟨.initPost, .fresh⟩ := by
  obtain heq | ⟨heq, -⟩ := Machine.frames_start k t
  · rw [heq] at hf
    cases hf
  · rw [heq] at hf
    exact List.mem_singleton.mp hf

/-- A machine whose tasks have no frames, or only the first. -/
theorem Discipline.start {k : Kernel} (hcurrent : k.IsTask k.current)
    (hpages : TaskPages k.mem k.pool k.initTask k.IsTask) : Discipline (Machine.start k) fun _ => none := by
  have hframes := Machine.frames_start k
  have hmem : ∀ {t f}, f ∈ (Machine.start k).frames t → f = ⟨.initPost, .fresh⟩ := Machine.mem_frames_start
  have hcurrentFrames : (Machine.start k).frames k.current = [] := if_neg fun h => h.2 rfl
  refine ⟨fun t l => List.countP_eq_zero.mpr fun f hf => ?_, fun t n => List.countP_eq_zero.mpr fun f hf => ?_,
    fun t => ?_, fun t f hf => ?_, fun f rest hf => ?_, fun t f rest hf => ?_, fun t _ f rest hf => ?_, fun t ht => ?_,
    hcurrent, hpages,
    nofun, fun t f hf n hn => ?_, fun t f hf n hn => ?_⟩
  · rw [hmem hf]
    nofun
  · rw [hmem hf]
    nofun
  · obtain heq | ⟨heq, -⟩ := hframes t
    · rw [heq]
      exact List.Pairwise.nil
    · rw [heq]
      exact List.pairwise_singleton _ _
  · rw [hmem hf]
    rfl
  · exact nomatch hcurrentFrames.symm.trans hf
  · obtain heq | ⟨heq, -⟩ := hframes t
    · exact nomatch heq.symm.trans hf
    · obtain ⟨-, rfl⟩ := List.cons.inj (heq.symm.trans hf)
      exact fun _ hmem => absurd hmem List.not_mem_nil
  · have hfirst := hmem (hf ▸ List.mem_cons_self .. : f ∈ (Machine.start k).frames t)
    rw [hfirst]
    rfl
  · obtain heq | ⟨-, -, htask⟩ := hframes t
    · exact absurd heq ht
    · exact htask
  · rw [hmem hf] at hn
    cases hn
  · rw [hmem hf] at hn
    cases hn

/-- What no interrupt brought is at the bottom of its stack. -/
theorem Discipline.rest_nil {m : Machine} {builder : Word → Option Word} (h : Discipline m builder) {t : Word}
    {f : Frame} {rest : List Frame} (hframes : m.frames t = f :: rest) (hisr : f.origin.isr = false) : rest = [] := by
  have hbottom := h.bottom t
  rw [hframes, List.map_cons, List.pairwise_cons] at hbottom
  cases rest with
  | nil => rfl
  | cons g rest => exact nomatch hisr.symm.trans (hbottom.1 g.origin (List.mem_cons_self ..))

theorem Discipline.isr_of_part {m : Machine} {builder : Word → Option Word} (h : Discipline m builder) {t : Word}
    {f : Frame} (hf : f ∈ m.frames t) (hpart : f.pc.part = .exit ∨ f.pc.part = .create ∨ f.pc.part = .initial) :
    f.origin.isr = false :=
  Origin.has_isr (h.parts t f hf) hpart

/-! ## Runs -/

theorem discipline_reachable {m : Machine} (h : system.Reachable m) : ∃ builder, Discipline m builder := by
  refine system.invariant (P := fun m => ∃ builder, Discipline m builder) (fun m hstart => ?_) (fun m l m' _ hm hstep => ?_) h
  · obtain ⟨k, sem, hboot, -, rfl⟩ := hstart
    obtain ⟨seq, hinv, -⟩ := schedInitTasks_inv hboot
    exact ⟨_, Discipline.start hinv.current hinv.pages⟩
  · obtain ⟨builder, hm⟩ := hm
    exact hm.move (Machine.next_move hstep)

end I386Kernel.Preempt
