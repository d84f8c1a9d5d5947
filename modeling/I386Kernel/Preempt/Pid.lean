import I386Kernel.Preempt.Runs

/-!
# Pids

`allocate_pid` increments `next_pid` under its lock and reads it again after the lock is released. As long as no task increments it while another is between its increment and its read, every task gets a pid of its own; two creators that interleave there get the same one.
-/

namespace I386Kernel.Preempt

namespace Pc

/-- The caller of `allocate_pid` has incremented `next_pid` and has not read it. -/
def awaitsPid : Pc → Bool
  | pidUnlock .. | pidRead .. => true
  | _ => false

def incrementsPid : Pc → Bool
  | pidInc .. => true
  | _ => false

/-- The task being built has no pid yet. -/
def beforePid : Pc → Bool
  | mkUnlock .. | mkZero .. | mkInit .. | allLock .. | allAdd .. | allUnlock .. | pidLock .. | pidInc ..
  | pidUnlock .. | pidRead .. => true
  | _ => false

end Pc

/-- The pids stored in the `task_struct`s are distinct, and so are those `task_create` has returned. -/
def PidsDistinct (m : Machine) : Prop :=
  (m.numbered.map fun t => (m.kernel.task t).pid).Nodup ∧ m.returned.Nodup

/-- No task increments `next_pid` while another is between its increment and its read. -/
def IncrementsAlone (m : Machine) (l : Label) : Prop :=
  l = .step → (∃ f ∈ (m.frames m.current).head?, f.pc.incrementsPid = true) →
    ∀ p ∈ m.kernel.created, p.1 ≠ m.current → ∀ f ∈ m.frames p.1, f.pc.awaitsPid = false

instance (m : Machine) (l : Label) : Decidable (IncrementsAlone m l) :=
  have : Decidable (∀ p ∈ m.kernel.created, p.1 ≠ m.current → ∀ f ∈ m.frames p.1, f.pc.awaitsPid = false) :=
    List.decidableBAll _ _
  inferInstanceAs (Decidable (_ → _ → _))

/-! ## Tables -/

theorem Pc.awaitsPid_of_bare {pc : Pc} (h : pc.bare = true) : pc.awaitsPid = false := by
  cases pc <;> first | rfl | cases h

theorem Pc.part_of_awaitsPid {pc : Pc} (h : pc.awaitsPid = true) : pc.part = .create := by
  cases pc <;> first | rfl | cases h

theorem stmt_awaitsPid {k : Kernel} {c : Word} {pc pc' : Pc} {e : Effect} (h : stmt k c pc = some (e, pc'))
    (hawait : pc'.awaitsPid = true) :
    (e = .incPid ∧ pc.incrementsPid = true) ∨ (pc.awaitsPid = true ∧ e = .release .pid) := by
  cases pc with
  | upPop s =>
      obtain ⟨w, -, heq⟩ := Option.map_eq_some_iff.mp h
      cases heq
      cases hawait
  | schRead =>
      obtain ⟨next, -, heq⟩ := Option.map_eq_some_iff.mp h
      cases heq
      cases hawait
  | downTest _ | upInc _ | upEmpty _ | resValid _ _ | resTest _ _ | schTest _ | mkUnlock _ _ =>
      cases h
      split at hawait <;> cases hawait
  | pidInc _ _ =>
      cases h
      exact Or.inl ⟨rfl, rfl⟩
  | pidUnlock _ _ =>
      cases h
      exact Or.inr ⟨rfl, rfl⟩
  | _ =>
      cases h <;> cases hawait

theorem stmt_storePid {k : Kernel} {c n : Word} {pc pc' : Pc} (h : stmt k c pc = some (.storePid n, pc')) :
    pc.awaitsPid = true ∧ pc.builds = some n ∧ pc.beforePid = true := by
  cases pc with
  | upPop s =>
      obtain ⟨w, -, heq⟩ := Option.map_eq_some_iff.mp h
      cases heq
  | schRead =>
      obtain ⟨next, -, heq⟩ := Option.map_eq_some_iff.mp h
      cases heq
  | pidRead _ _ =>
      cases h
      exact ⟨rfl, rfl, rfl⟩
  | _ => cases h

/-- The effects that give a page another pid come before it is numbered. -/
theorem stmt_clear {k : Kernel} {c n : Word} {pc pc' : Pc} {e : Effect} (h : stmt k c pc = some (e, pc'))
    (he : e = .zeroPage n ∨ ∃ a, e = .initTask n a) : pc.builds = some n ∧ pc.beforePid = true := by
  cases pc with
  | upPop s =>
      obtain ⟨w, -, heq⟩ := Option.map_eq_some_iff.mp h
      cases heq
      obtain heq | ⟨a, heq⟩ := he <;> cases heq
  | schRead =>
      obtain ⟨next, -, heq⟩ := Option.map_eq_some_iff.mp h
      cases heq
      obtain heq | ⟨a, heq⟩ := he <;> cases heq
  | mkZero _ _ | mkInit _ _ =>
      cases h
      obtain heq | ⟨a, heq⟩ := he <;> cases heq
      exact ⟨rfl, rfl⟩
  | schSwitch _ | ret => cases h
  | _ =>
      cases h
      obtain heq | ⟨a, heq⟩ := he <;> cases heq

theorem stmt_beforePid {k : Kernel} {c n : Word} {pc pc' : Pc} {e : Effect} (h : stmt k c pc = some (e, pc'))
    (hn : pc'.builds = some n) :
    (pc'.beforePid = true ∧ (∃ m proc, e = .takePage n m proc)) ∨ (pc'.beforePid = false ∧ e = .storePid n) ∨
      (pc.builds = some n ∧ pc'.beforePid = pc.beforePid ∧ ∀ n', e ≠ .storePid n') := by
  cases pc with
  | upPop s =>
      obtain ⟨w, -, heq⟩ := Option.map_eq_some_iff.mp h
      cases heq
      cases hn
  | schRead =>
      obtain ⟨next, -, heq⟩ := Option.map_eq_some_iff.mp h
      cases heq
      cases hn
  | mkTake a =>
      cases h
      obtain ⟨-, heq⟩ := Option.ite_none_left_eq_some.mp hn
      cases heq
      exact Or.inl ⟨rfl, _, _, rfl⟩
  | mkUnlock a n' =>
      cases h
      by_cases hn' : n' = 0
      · rw [if_pos hn'] at hn
        cases hn
      · rw [if_neg hn'] at hn ⊢
        cases hn
        exact Or.inr (Or.inr ⟨if_neg hn', rfl, fun _ he => Effect.noConfusion he⟩)
  | pidRead a n' =>
      cases h
      cases hn
      exact Or.inr (Or.inl ⟨rfl, rfl⟩)
  | downTest _ | upInc _ | upEmpty _ | resValid _ _ | resTest _ _ | schTest _ =>
      cases h
      split at hn <;> cases hn
  | _ =>
      cases h <;> first | exact Or.inr (Or.inr ⟨hn, rfl, fun _ he => Effect.noConfusion he⟩) | cases hn

theorem Effect.pid_kernel {k : Kernel} {e : Effect} {t : Word} (hstore : e ≠ .storePid t)
    (hclear : ¬ (e = .zeroPage t ∨ ∃ a, e = .initTask t a)) : ((e.kernel k).task t).pid = (k.task t).pid := by
  by_cases hstatus : ∃ st, e = .setStatus t st
  · obtain ⟨st, rfl⟩ := hstatus
    exact (congrArg TaskStruct.pid (k.task_setStatus_self t st)).trans rfl
  by_cases hpage : e.page = some t
  · cases e with
    | zeroPage n =>
        cases hpage
        exact absurd (Or.inl rfl) hclear
    | initTask n a =>
        cases hpage
        exact absurd (Or.inr ⟨a, rfl⟩) hclear
    | storePid n =>
        cases hpage
        exact absurd rfl hstore
    | storeSlices n p =>
        cases hpage
        show (Function.update k.task t { k.task t with timeSliceInit := _, timeSliceRes := _ } t).pid = (k.task t).pid
        rw [Function.update_self]
    | buildStack n proc params =>
        cases hpage
        rw [Effect.kernel, buildFrames_eq]
        show (Function.update k.task t { k.task t with sp := _ } t).pid = (k.task t).pid
        rw [Function.update_self]
    | returnPid n => rfl
    | _ => cases hpage
  · exact congrArg TaskStruct.pid (Effect.task_kernel (fun st heq => hstatus ⟨st, heq⟩) hpage)

/-! ## The invariant -/

/-- What holds of `next_pid` and the pids while the increments stay below the bound of `int32_t`. -/
structure PidValues (m : Machine) : Prop where
  count : m.kernel.nextPid = m.allocations - 1
  distinct : (m.numbered.map fun t => (m.kernel.task t).pid).Nodup
  below : ∀ n ∈ m.numbered, (m.kernel.task n).pid ≤ m.kernel.nextPid
  awaited : ∀ t, ∀ f ∈ m.frames t, f.pc.awaitsPid = true → ∀ n ∈ m.numbered, (m.kernel.task n).pid < m.kernel.nextPid

structure PidInv (m : Machine) (builder : Word → Option Word) : Prop where
  values : m.allocations < 2 ^ 31 → PidValues m
  single : ∀ t u, ∀ f ∈ m.frames t, ∀ g ∈ m.frames u, f.pc.awaitsPid = true → g.pc.awaitsPid = true → t = u
  numbered : ∀ n ∈ m.numbered, m.kernel.IsTask n
  before : ∀ t, ∀ f ∈ m.frames t, ∀ n, f.pc.builds = some n → (f.pc.beforePid = true ↔ n ∉ m.numbered)
  returned : ∃ finished : List Word, m.returned = finished.map (fun t => (m.kernel.task t).pid) ∧
    finished.Nodup ∧ ∀ n ∈ finished, n ∈ m.numbered ∧ builder n = none

namespace PidInv

variable {m m' : Machine} {builder : Word → Option Word} {f : Frame} {rest : List Frame} {e : Effect} {pc : Pc}

theorem distinct (h : PidInv m builder) (hbound : m.allocations < 2 ^ 31) : PidsDistinct m := by
  have hvalues := h.values hbound
  obtain ⟨finished, hret, hnodup, hfinished⟩ := h.returned
  refine ⟨hvalues.distinct, hret ▸ hnodup.map_on fun t ht u hu heq => ?_⟩
  exact List.inj_on_of_nodup_map hvalues.distinct (hfinished t ht).1 (hfinished u hu).1 heq

/-- Nothing changes for a page that has its number but by a `storePid`. -/
theorem pid_stmt (h : PidInv m builder) (hframes : m.frames m.current = f :: rest)
    (hstmt : stmt m.kernel m.current f.pc = some (e, pc)) {n : Word} (hn : n ∈ m.numbered) :
    ((e.kernel m.kernel).task n).pid = (m.kernel.task n).pid := by
  have hmem : f ∈ m.frames m.current := hframes ▸ List.mem_cons_self ..
  have hnot : ∀ {n'}, f.pc.builds = some n' → f.pc.beforePid = true → n ≠ n' := by
    rintro n' hbuilds hbefore rfl
    exact (h.before _ f hmem n hbuilds).mp hbefore hn
  refine Effect.pid_kernel ?_ fun hclear => ?_
  · rintro rfl
    obtain ⟨-, hbuilds, hbefore⟩ := stmt_storePid hstmt
    exact hnot hbuilds hbefore rfl
  · obtain ⟨hbuilds, hbefore⟩ := stmt_clear hstmt hclear
    exact hnot hbuilds hbefore rfl

theorem quiet (h : PidInv m builder) (hq : Quiet m m') : PidInv m' builder := by
  have hawait : ∀ {t f}, f ∈ m'.frames t → f.pc.awaitsPid = true → f ∈ m.frames t := by
    intro t f hf hawait
    obtain hold | ⟨-, hbare⟩ := hq.frames t f hf
    · exact hold
    · rw [Pc.awaitsPid_of_bare hbare] at hawait
      cases hawait
  have hbuilds : ∀ {t f n}, f ∈ m'.frames t → f.pc.builds = some n → f ∈ m.frames t := by
    intro t f n hf hn
    obtain hold | ⟨-, hbare⟩ := hq.frames t f hf
    · exact hold
    · rw [Pc.builds_of_bare hbare] at hn
      cases hn
  refine ⟨fun hbound => ?_, fun t u f hf g hg hfa hga => ?_, fun n hn => ?_, fun t f hf n hn => ?_, ?_⟩
  · rw [hq.allocations] at hbound
    obtain ⟨hcount, hdistinct, hbelow, hawaited⟩ := h.values hbound
    refine ⟨?_, ?_, ?_, fun t f hf hfa => ?_⟩
    · rw [hq.kernel, hq.allocations]
      exact hcount
    · rw [hq.kernel, hq.numbered]
      exact hdistinct
    · rw [hq.kernel, hq.numbered]
      exact hbelow
    · rw [hq.kernel, hq.numbered]
      exact hawaited t f (hawait hf hfa) hfa
  · exact h.single t u f (hawait hf hfa) g (hawait hg hga) hfa hga
  · rw [hq.numbered] at hn
    rw [hq.kernel]
    exact h.numbered n hn
  · rw [hq.numbered]
    exact h.before t f (hbuilds hf hn) n hn
  · rw [hq.returned, hq.kernel, hq.numbered]
    exact h.returned

theorem nextPid_kernel {k : Kernel} {e : Effect} (h : e ≠ .incPid) : (e.kernel k).nextPid = k.nextPid := by
  cases e with
  | incPid => exact absurd rfl h
  | _ => rfl

theorem map_pid_stmt (h : PidInv m builder) (hframes : m.frames m.current = f :: rest)
    (hstmt : stmt m.kernel m.current f.pc = some (e, pc)) (ns : List Word) (hns : ∀ n ∈ ns, n ∈ m.numbered) :
    (ns.map fun n => ((e.kernel m.kernel).task n).pid) = ns.map fun n => (m.kernel.task n).pid :=
  List.map_congr_left fun n hn => h.pid_stmt hframes hstmt (hns n hn)

theorem int32_count {a : Nat} (h : a + 1 < 2 ^ 31) : int32 ((a : Int) - 1 + 1) = ((a + 1 : Nat) : Int) - 1 := by
  rw [int32]
  omega

theorem values_stmt (h : PidInv m builder) (hd : Discipline m builder) (hframes : m.frames m.current = f :: rest)
    (hstmt : stmt m.kernel m.current f.pc = some (e, pc)) (hbound : e.allocations m.allocations < 2 ^ 31) :
    PidValues ((m.setFrames m.current (⟨pc, f.origin⟩ :: rest)).apply e) := by
  have hmem : f ∈ m.frames m.current := hframes ▸ List.mem_cons_self ..
  have hpid := fun {n} (hn : n ∈ m.numbered) => h.pid_stmt hframes hstmt hn
  have hmap := h.map_pid_stmt hframes hstmt m.numbered fun n hn => hn
  by_cases hinc : e = .incPid
  · subst hinc
    have hbound : m.allocations + 1 < 2 ^ 31 := hbound
    obtain ⟨hcount, hdistinct, hbelow, -⟩ := h.values (by omega)
    have hnext : int32 (m.kernel.nextPid + 1) = ((m.allocations + 1 : Nat) : Int) - 1 := by
      rw [hcount]
      exact int32_count hbound
    have hlt : ∀ n ∈ m.numbered, (m.kernel.task n).pid < int32 (m.kernel.nextPid + 1) := by
      intro n hn
      have hle := hbelow n hn
      rw [hnext]
      omega
    exact ⟨hnext, hdistinct, fun n hn => Int.le_of_lt (hlt n hn), fun _ _ _ _ n hn => hlt n hn⟩
  have hnext := nextPid_kernel (k := m.kernel) hinc
  have hallocations : e.allocations m.allocations = m.allocations := by
    cases e with
    | incPid => exact absurd rfl hinc
    | _ => rfl
  obtain ⟨hcount, hdistinct, hbelow, hawaited⟩ := h.values (hallocations ▸ hbound)
  by_cases hstore : ∃ n, e = .storePid n
  · obtain ⟨n, rfl⟩ := hstore
    obtain ⟨hfawait, -, -⟩ := stmt_storePid hstmt
    have hself : ((Effect.kernel m.kernel (.storePid n)).task n).pid = m.kernel.nextPid := by
      show (Function.update m.kernel.task n { m.kernel.task n with pid := m.kernel.nextPid } n).pid = _
      rw [Function.update_self]
    refine ⟨hcount, ?_, fun n' hn' => ?_, fun t g hg hgawait => ?_⟩
    · show (List.map _ (n :: m.numbered)).Nodup
      rw [List.map_cons, List.nodup_cons]
      refine ⟨fun hmem' => ?_, hmap ▸ hdistinct⟩
      obtain ⟨n', hn', heq⟩ := List.mem_map.mp hmem'
      have hlt := hawaited _ f hmem hfawait n' hn'
      have heq : ((Effect.kernel m.kernel (.storePid n)).task n').pid =
          ((Effect.kernel m.kernel (.storePid n)).task n).pid := heq
      rw [hpid hn', hself] at heq
      omega
    · obtain rfl | hn' := List.mem_cons.mp hn'
      · exact Int.le_of_eq hself
      · show ((Effect.kernel m.kernel (.storePid n)).task n').pid ≤ m.kernel.nextPid
        rw [hpid hn']
        exact hbelow n' hn'
    · -- the only task between its increment and its read is the one that reads now
      have hisr := hd.isr_of_part hmem (Or.inr (Or.inl (Pc.part_of_awaitsPid hfawait)))
      obtain ⟨-, rfl⟩ | ⟨-, hg⟩ | ⟨hne, hg⟩ | ⟨-, -, rfl⟩ := hd.mem_frames_stmt hframes hstmt hg
      · obtain ⟨heq, -⟩ | ⟨-, heq⟩ := stmt_awaitsPid hstmt hgawait <;> cases heq
      · rw [hd.rest_nil hframes hisr] at hg
        cases hg
      · exact absurd (h.single t _ g hg f hmem hgawait hfawait) hne
      · cases hgawait
  · have hnumbered : e.numbered m.numbered = m.numbered := by
      cases e with
      | storePid n => exact absurd ⟨n, rfl⟩ hstore
      | _ => rfl
    refine ⟨?_, ?_, fun n hn => ?_, fun t g hg hgawait n hn => ?_⟩
    · show (e.kernel m.kernel).nextPid = (e.allocations m.allocations : Int) - 1
      rw [hnext, hallocations]
      exact hcount
    · show ((e.numbered m.numbered).map fun n => ((e.kernel m.kernel).task n).pid).Nodup
      rw [hnumbered, hmap]
      exact hdistinct
    · have hn : n ∈ e.numbered m.numbered := hn
      rw [hnumbered] at hn
      show ((e.kernel m.kernel).task n).pid ≤ (e.kernel m.kernel).nextPid
      rw [hpid hn, hnext]
      exact hbelow n hn
    · have hn : n ∈ e.numbered m.numbered := hn
      rw [hnumbered] at hn
      show ((e.kernel m.kernel).task n).pid < (e.kernel m.kernel).nextPid
      rw [hpid hn, hnext]
      obtain ⟨-, rfl⟩ | ⟨rfl, hold⟩ | ⟨-, hold⟩ | ⟨-, -, rfl⟩ := hd.mem_frames_stmt hframes hstmt hg
      · obtain ⟨heq, -⟩ | ⟨hfawait, -⟩ := stmt_awaitsPid hstmt hgawait
        · exact absurd heq hinc
        · exact hawaited _ f hmem hfawait n hn
      · exact hawaited _ g (hframes ▸ List.mem_cons_of_mem _ hold) hgawait n hn
      · exact hawaited t g hold hgawait n hn
      · cases hgawait

theorem single_stmt (h : PidInv m builder) (hd : Discipline m builder) (hframes : m.frames m.current = f :: rest)
    (hstmt : stmt m.kernel m.current f.pc = some (e, pc)) (hok : IncrementsAlone m .step) {t u : Word} {g g' : Frame}
    (hg : g ∈ ((m.setFrames m.current (⟨pc, f.origin⟩ :: rest)).apply e).frames t)
    (hg' : g' ∈ ((m.setFrames m.current (⟨pc, f.origin⟩ :: rest)).apply e).frames u)
    (ha : g.pc.awaitsPid = true) (ha' : g'.pc.awaitsPid = true) : t = u := by
  -- a frame that awaits its read is the current task's, or it was there and so no increment is made now
  have hcases : ∀ {t g}, g ∈ ((m.setFrames m.current (⟨pc, f.origin⟩ :: rest)).apply e).frames t →
      g.pc.awaitsPid = true → t = m.current ∨
        (t ≠ m.current ∧ g ∈ m.frames t ∧ f.pc.incrementsPid = false) := by
    intro t g hg ha
    obtain ⟨ht, -⟩ | ⟨ht, -⟩ | ⟨hne, hold⟩ | ⟨-, -, rfl⟩ := hd.mem_frames_stmt hframes hstmt hg
    · exact Or.inl ht
    · exact Or.inl ht
    · refine Or.inr ⟨hne, hold, ?_⟩
      by_contra hinc
      obtain ⟨proc, hcreated⟩ := hd.framed t (List.ne_nil_of_mem hold)
      have hnone := hok rfl ⟨f, by rw [hframes]; rfl, by simpa using hinc⟩ _ hcreated hne g hold
      rw [hnone] at ha
      cases ha
    · cases ha
  -- one of the current task was there before when no increment is made
  have hcurrent : ∀ {g}, g ∈ ((m.setFrames m.current (⟨pc, f.origin⟩ :: rest)).apply e).frames m.current →
      g.pc.awaitsPid = true → f.pc.incrementsPid = false → ∃ g ∈ m.frames m.current, g.pc.awaitsPid = true := by
    intro g hg ha hinc
    rw [hd.frames_stmt_self hframes hstmt] at hg
    obtain rfl | hg := List.mem_cons.mp hg
    · obtain ⟨-, hinc'⟩ | ⟨hfawait, -⟩ := stmt_awaitsPid hstmt ha
      · rw [hinc'] at hinc
        cases hinc
      · exact ⟨f, hframes ▸ List.mem_cons_self .., hfawait⟩
    · exact ⟨g, hframes ▸ List.mem_cons_of_mem _ hg, ha⟩
  obtain rfl | ⟨-, hold, hinc⟩ := hcases hg ha
  · obtain rfl | ⟨-, hold', hinc⟩ := hcases hg' ha'
    · rfl
    · obtain ⟨g₀, hg₀, ha₀⟩ := hcurrent hg ha hinc
      exact h.single _ u g₀ hg₀ g' hold' ha₀ ha'
  · obtain rfl | ⟨-, hold', -⟩ := hcases hg' ha'
    · obtain ⟨g₀, hg₀, ha₀⟩ := hcurrent hg' ha' hinc
      exact h.single t _ g hold g₀ hg₀ ha ha₀
    · exact h.single t u g hold g' hold' ha ha'

theorem before_stmt (h : PidInv m builder) (hd : Discipline m builder) (hframes : m.frames m.current = f :: rest)
    (hstmt : stmt m.kernel m.current f.pc = some (e, pc)) {t n : Word} {g : Frame}
    (hg : g ∈ ((m.setFrames m.current (⟨pc, f.origin⟩ :: rest)).apply e).frames t) (hn : g.pc.builds = some n) :
    g.pc.beforePid = true ↔ n ∉ e.numbered m.numbered := by
  have hmem : f ∈ m.frames m.current := hframes ▸ List.mem_cons_self ..
  have hsame : (∀ n', e ≠ .storePid n') → e.numbered m.numbered = m.numbered := by
    intro hne
    cases e with
    | storePid n' => exact absurd rfl (hne n')
    | _ => rfl
  have hothers : (t = m.current ∧ g ∈ rest) ∨ (t ≠ m.current ∧ g ∈ m.frames t) → g ∈ m.frames t →
      (g.pc.beforePid = true ↔ n ∉ e.numbered m.numbered) := by
    intro hor hg
    rw [h.before t g hg n hn]
    by_cases hstore : ∃ n', e = .storePid n'
    · obtain ⟨n', rfl⟩ := hstore
      have hne : n ≠ n' := by
        rintro rfl
        exact hd.builds_ne hframes hor hn (stmt_storePid hstmt).2.1
      rw [Effect.numbered, List.mem_cons, or_iff_right hne]
    · rw [hsame fun n' heq => hstore ⟨n', heq⟩]
  obtain ⟨-, rfl⟩ | ⟨rfl, hold⟩ | ⟨hne, hold⟩ | ⟨-, -, rfl⟩ := hd.mem_frames_stmt hframes hstmt hg
  · obtain ⟨hbefore, mem, proc, rfl⟩ | ⟨hbefore, rfl⟩ | ⟨hf, hbefore, hne⟩ := stmt_beforePid hstmt hn
    · have hpass : f.pc.builds = none ∧ pc.builds = if n = 0 then none else some n := stmt_builds hstmt
      have hn0 : n ≠ 0 := fun h0 => by
        rw [if_pos h0] at hpass
        exact nomatch hn.symm.trans hpass.2
      have hfresh := (stmt_takePage_fresh hd.pages hstmt hn0).1
      exact iff_of_true hbefore fun hnum => hfresh (h.numbered n hnum)
    · refine iff_of_false (by rw [hbefore]; nofun) fun hnot => hnot (List.mem_cons_self ..)
    · rw [hbefore, hsame hne]
      exact h.before _ f hmem n hf
  · exact hothers (Or.inl ⟨rfl, hold⟩) (hframes ▸ List.mem_cons_of_mem _ hold)
  · exact hothers (Or.inr ⟨hne, hold⟩) hold
  · cases hn

theorem numbered_stmt (h : PidInv m builder) (hd : Discipline m builder) (hframes : m.frames m.current = f :: rest)
    (hstmt : stmt m.kernel m.current f.pc = some (e, pc)) {n : Word} (hn : n ∈ e.numbered m.numbered) :
    (e.kernel m.kernel).IsTask n := by
  have hold : n ∈ m.numbered → (e.kernel m.kernel).IsTask n := fun hn =>
    (Effect.isTask_kernel n).mpr (Or.inl (h.numbered n hn))
  cases e with
  | storePid n' =>
      obtain rfl | hn := List.mem_cons.mp hn
      · have hbuilds := (stmt_storePid hstmt).2.1
        exact (Effect.isTask_kernel n).mpr
          (Or.inl (hd.building_of_mem (hframes ▸ List.mem_cons_self ..) hbuilds).1)
      · exact hold hn
  | _ => exact hold hn

theorem stmt_returnPid {k : Kernel} {c n : Word} {pc pc' : Pc} (h : stmt k c pc = some (.returnPid n, pc')) :
    pc.builds = some n ∧ pc.beforePid = false := by
  cases pc with
  | upPop s =>
      obtain ⟨w, -, heq⟩ := Option.map_eq_some_iff.mp h
      cases heq
  | schRead =>
      obtain ⟨next, -, heq⟩ := Option.map_eq_some_iff.mp h
      cases heq
  | mkReturn _ =>
      cases h
      exact ⟨rfl, rfl⟩
  | _ => cases h

theorem returned_stmt (h : PidInv m builder) (hd : Discipline m builder) (hframes : m.frames m.current = f :: rest)
    (hstmt : stmt m.kernel m.current f.pc = some (e, pc)) :
    ∃ finished : List Word, e.returned m.kernel m.returned =
        finished.map (fun t => ((e.kernel m.kernel).task t).pid) ∧ finished.Nodup ∧
      ∀ n ∈ finished, n ∈ e.numbered m.numbered ∧ e.builder m.current builder n = none := by
  have hmem : f ∈ m.frames m.current := hframes ▸ List.mem_cons_self ..
  obtain ⟨finished, hret, hnodup, hfinished⟩ := h.returned
  have hmap := h.map_pid_stmt hframes hstmt finished fun n hn => (hfinished n hn).1
  have hnumbered : ∀ n ∈ m.numbered, n ∈ e.numbered m.numbered := by
    intro n hn
    cases e with
    | storePid n' => exact List.mem_cons_of_mem _ hn
    | _ => exact hn
  by_cases hreturn : ∃ n, e = .returnPid n
  · obtain ⟨n, rfl⟩ := hreturn
    obtain ⟨hbuilds, hbefore⟩ := stmt_returnPid hstmt
    have hholder := hd.builds.holder_of_mem hmem (decide_eq_true hbuilds)
    have hnum : n ∈ m.numbered := by
      by_contra hnot
      exact nomatch hbefore.symm.trans ((h.before _ f hmem n hbuilds).mpr hnot)
    refine ⟨n :: finished, ?_, List.nodup_cons.mpr ⟨fun hn => ?_, hnodup⟩, fun n' hn' => ?_⟩
    · rw [Effect.returned, hret, List.map_cons]
      rfl
    · exact nomatch hholder.symm.trans (hfinished n hn).2
    · show n' ∈ m.numbered ∧ Function.update builder n none n' = none
      rw [Function.update_apply]
      obtain rfl | hn' := List.mem_cons.mp hn'
      · exact ⟨hnum, if_pos rfl⟩
      · refine ⟨(hfinished n' hn').1, ?_⟩
        rw [(hfinished n' hn').2, ite_self]
  · have hsame : e.returned m.kernel m.returned = m.returned := by
      cases e with
      | returnPid n => exact absurd ⟨n, rfl⟩ hreturn
      | _ => rfl
    refine ⟨finished, ?_, hnodup, fun n hn => ⟨hnumbered n (hfinished n hn).1, ?_⟩⟩
    · rw [hsame, hret, hmap]
    · have hnone := (hfinished n hn).2
      cases e with
      | takePage n' mem proc =>
          by_cases hn' : n' = 0
          · rw [Effect.builder, if_pos hn']
            exact hnone
          · rw [Effect.builder, if_neg hn', Function.update_of_ne, hnone]
            rintro rfl
            exact (stmt_takePage_fresh hd.pages hstmt hn').1 (h.numbered n (hfinished n hn).1)
      | returnPid n' => exact absurd ⟨n', rfl⟩ hreturn
      | _ => exact hnone

end PidInv

theorem pidInv_start {k : Kernel} (hcount : k.nextPid = k.created.length - 1)
    (hnodup : ((k.created.map Prod.fst).map fun t => (k.task t).pid).Nodup)
    (hbelow : ∀ p ∈ k.created, (k.task p.1).pid ≤ k.nextPid) : PidInv (Machine.start k) fun _ => none := by
  have hawait : ∀ {t f}, f ∈ (Machine.start k).frames t → f.pc.awaitsPid = true → False := by
    intro t f hf ha
    rw [Machine.mem_frames_start hf] at ha
    cases ha
  refine ⟨fun _ => ⟨hcount, hnodup, fun n hn => ?_, fun t f hf ha => (hawait hf ha).elim⟩,
    fun t u f hf g hg ha => (hawait hf ha).elim, fun n hn => ?_, fun t f hf n hn => ?_,
    ⟨_, rfl, (hnodup.of_map).filter _, fun n hn => ⟨List.mem_of_mem_filter hn, rfl⟩⟩⟩
  · obtain ⟨p, hp, rfl⟩ := List.mem_map.mp hn
    exact hbelow p hp
  · obtain ⟨⟨t, proc⟩, hp, rfl⟩ := List.mem_map.mp hn
    exact ⟨proc, hp⟩
  · rw [Machine.mem_frames_start hf] at hn
    cases hn

theorem pidInv_reachable {m : Machine} (h : (system.restrict IncrementsAlone).Reachable m) :
    ∃ builder, Discipline m builder ∧ PidInv m builder := by
  refine (system.restrict IncrementsAlone).invariant (P := fun m => ∃ b, Discipline m b ∧ PidInv m b)
    (fun m hstart => ?_) (fun m l m' hr hm hstep => ?_) h
  · obtain ⟨k, sem, hboot, hpid, rfl⟩ := hstart
    obtain ⟨seq, hinv, -⟩ := schedInitTasks_inv hboot
    obtain ⟨t₁, t₂, proc, hcreated, hnext, hpid₂, hpid₁, hpid₀⟩ := schedInitTasks_pid hboot hpid
    generalize schedInitTasks k sem = k₀ at *
    refine ⟨_, Discipline.start hinv.current hinv.pages, pidInv_start ?_ ?_ ?_⟩
    · rw [hnext, hcreated]
      rfl
    · rw [hcreated]
      simp only [List.map_cons, List.map_nil, hpid₀, hpid₁, hpid₂]
      decide
    · intro p hp
      rw [hcreated] at hp
      rw [hnext]
      simp only [List.mem_cons, List.not_mem_nil, or_false] at hp
      obtain rfl | rfl | rfl := hp
      · exact Int.le_of_eq hpid₂
      · rw [hpid₁]
        decide
      · rw [hpid₀]
        decide
  · obtain ⟨builder, hd, hinv⟩ := hm
    obtain ⟨f, rest, e, pc, rfl, hframes, hstmt, henabled, rfl⟩ | ⟨hq, hd⟩ := hd.move_cases (Machine.next_move hstep.2)
    · refine ⟨_, hd.stmt hframes hstmt henabled, ?_⟩
      exact ⟨hinv.values_stmt hd hframes hstmt,
        fun t u g hg g' hg' => hinv.single_stmt hd hframes hstmt hstep.1 hg hg',
        fun n => hinv.numbered_stmt hd hframes hstmt, fun t g hg n => hinv.before_stmt hd hframes hstmt hg,
        hinv.returned_stmt hd hframes hstmt⟩
    · exact ⟨_, hd, hinv.quiet hq⟩

/-- When no task increments `next_pid` between another's increment and its read, all pids are distinct. -/
theorem pidsDistinct_reachable {m : Machine} (h : (system.restrict IncrementsAlone).Reachable m)
    (hbound : m.allocations < 2 ^ 31) : PidsDistinct m := by
  obtain ⟨builder, -, hinv⟩ := pidInv_reachable h
  exact hinv.distinct hbound

/-- The first task creates a task and is interrupted between the increment and the read in its next `task_create`; the new task creates one in the meantime. -/
private def twoCreators (n : Nat) : List Label :=
  let a : CreateArgs := ⟨0xc0105000, 7, [0x61], 31, .ready, by decide⟩
  let stay : List Label := [.timer] ++ steps 11
  let leave : List Label := [.timer] ++ steps 12
  [.call (.taskCreate a)] ++ steps 20 ++ [.call (.taskCreate a)] ++ steps n ++ stay ++ leave ++ stay ++ leave ++ stay ++
    leave ++ [.call (.taskCreate a)] ++ steps 12 ++ stay ++ leave ++ steps 1

theorem not_pidsDistinct : ¬ ∀ m, system.Reachable m → m.allocations < 2 ^ 31 → PidsDistinct m := by
  intro h
  obtain ⟨m, hreach, hbound, hdup⟩ := exists_run (twoCreators 11)
    (fun m => m.allocations < 2 ^ 31 ∧ (m.numbered.map fun t => (m.kernel.task t).pid) = [5, 5, 3, 2, 1, 0])
    (by decide +kernel)
  have hnodup := (h m hreach hbound).1
  rw [hdup] at hnodup
  exact absurd hnodup (by decide)

/-- The same interrupts after the first task has read its pid. -/
theorem pidsDistinct_reachable_smallStart : ∃ m, (system.restrict IncrementsAlone).Reachable m ∧
    (m.numbered.map fun t => (m.kernel.task t).pid) = [5, 4, 3, 2, 1, 0] ∧ PidsDistinct m := by
  obtain ⟨m, hreach, hbound, hpids⟩ := exists_restrict_run IncrementsAlone (twoCreators 13)
    (fun m => m.allocations < 2 ^ 31 ∧ (m.numbered.map fun t => (m.kernel.task t).pid) = [5, 4, 3, 2, 1, 0])
    (by decide +kernel)
  exact ⟨m, hreach, hpids, pidsDistinct_reachable hreach hbound⟩

end I386Kernel.Preempt
