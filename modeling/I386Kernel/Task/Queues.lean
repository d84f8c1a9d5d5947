import I386Kernel.Task.Kernel

/-!
# The queues as sequences

What the embedded list nodes stand for: a sequence of tasks for every ready list, every wait list and `all_tasks_list`. `Represents` connects the links to the sequences, and each list operation of the kernel is matched by the operation on sequences it implements. The sequences and the status of the tasks keep each other in step, which is what `Ledger` says: a task that is not dying stands on one queue, and that queue is one for its status.
-/

namespace I386Kernel

open CircularList (Links Rings Ring)

/-- The tasks on each list, from the head on. -/
abbrev Queues := QueueId → List Word

namespace Queues

variable (seq : Queues)

/-- Without `tsk` on any ready or wait list. -/
def dequeue (tsk : Word) : Queues := fun q => if q = .all then seq q else (seq q).erase tsk

def pushFront (q : QueueId) (tsk : Word) : Queues := Function.update seq q (tsk :: seq q)

def pushBack (q : QueueId) (tsk : Word) : Queues := Function.update seq q (seq q ++ [tsk])

variable {seq} {q r : QueueId} {t u : Word}

@[simp] theorem dequeue_all : seq.dequeue t .all = seq .all := if_pos rfl

theorem dequeue_of_ne (hq : q ≠ .all) : seq.dequeue t q = (seq q).erase t := if_neg hq

theorem mem_of_mem_dequeue (h : u ∈ seq.dequeue t q) : u ∈ seq q := by
  by_cases hq : q = .all
  · subst hq
    exact h
  · rw [dequeue_of_ne hq] at h
    exact List.mem_of_mem_erase h

theorem mem_dequeue_of_ne (hne : u ≠ t) : u ∈ seq.dequeue t q ↔ u ∈ seq q := by
  by_cases hq : q = .all
  · rw [hq, dequeue_all]
  · rw [dequeue_of_ne hq]
    exact List.mem_erase_of_ne hne

theorem mem_pushFront : u ∈ seq.pushFront q t r ↔ (r = q ∧ u = t) ∨ u ∈ seq r := by
  by_cases hr : r = q
  · subst hr
    rw [pushFront, Function.update_self, List.mem_cons]
    simp only [true_and]
  · rw [pushFront, Function.update_of_ne hr]
    simp only [hr, false_and, false_or]

theorem mem_pushBack : u ∈ seq.pushBack q t r ↔ (r = q ∧ u = t) ∨ u ∈ seq r := by
  by_cases hr : r = q
  · subst hr
    rw [pushBack, Function.update_self, List.mem_append, List.mem_singleton, or_comm]
    simp only [true_and]
  · rw [pushBack, Function.update_of_ne hr]
    simp only [hr, false_and, false_or]

end Queues

/-! ## Links -/

theorem QueueId.node_injective (q : QueueId) : Function.Injective q.node := by
  cases q with
  | all => exact fun t u h => Node.all.inj h
  | ready prio => exact fun t u h => Node.queued.inj h
  | wait sema => exact fun t u h => Node.queued.inj h

theorem QueueId.node_of_ne {q : QueueId} (hq : q ≠ .all) (t : Word) : q.node t = .queued t := by
  cases q with
  | all => exact absurd rfl hq
  | ready prio => rfl
  | wait sema => rfl

theorem QueueId.node_ne_head (q r : QueueId) (t : Word) : q.node t ≠ .head r := by
  cases q <;> nofun

/-- The lists of the kernel are rings whose nodes are the sequences `seq`. -/
def Represents (L : Links Node) (seq : Queues) : Prop :=
  Rings L Node.head fun q => (seq q).map q.node

namespace Represents

variable {L : Links Node} {seq : Queues} {q r : QueueId} {t : Word}

theorem mem_nodes_iff (seq : Queues) (q r : QueueId) (t : Word) :
    q.node t ∈ Node.head r :: (seq r).map r.node ↔ (q = .all ↔ r = .all) ∧ t ∈ seq r := by
  rw [List.mem_cons, List.mem_map]
  constructor
  · rintro (h | ⟨u, hu, h⟩)
    · exact absurd h (q.node_ne_head r t)
    · cases q <;> cases r <;> cases h <;> exact ⟨by simp, hu⟩
  · rintro ⟨hiff, ht⟩
    refine Or.inr ⟨t, ht, ?_⟩
    by_cases hq : q = .all
    · rw [hq, hiff.mp hq]
    · rw [q.node_of_ne hq, r.node_of_ne fun hr => hq (hiff.mpr hr)]

theorem nodup (h : Represents L seq) (q : QueueId) : (seq q).Nodup :=
  (List.nodup_cons.mp (h.ring q).nodup).2.of_map

/-- The links show which sequences they represent. -/
theorem seq_unique (h : Represents L seq) {seq' : Queues} (h' : Represents L seq') : seq = seq' := by
  funext q
  exact List.map_injective_iff.mpr q.node_injective ((h.ring q).unique (h'.ring q))

/-- A task is on at most one ready or wait list. -/
theorem queue_unique (h : Represents L seq) (hq : q ≠ .all) (hr : r ≠ .all) (htq : t ∈ seq q)
    (htr : t ∈ seq r) : q = r := by
  have hnq := (mem_nodes_iff seq q q t).mpr ⟨Iff.rfl, htq⟩
  have hnr := (mem_nodes_iff seq q r t).mpr ⟨iff_of_false hq hr, htr⟩
  exact h.index_unique hnq hnr

private theorem map_update (ys : List Word) :
    (fun r => (Function.update seq q ys r).map r.node) =
      Function.update (fun r => (seq r).map r.node) q (ys.map q.node) := by
  funext r
  by_cases hr : r = q
  · subst hr
    rw [Function.update_self, Function.update_self]
  · rw [Function.update_of_ne hr, Function.update_of_ne hr]

theorem dequeue_eq (h : Represents L seq) (hq : q ≠ .all) (ht : t ∈ seq q) :
    seq.dequeue t = Function.update seq q ((seq q).erase t) := by
  funext r
  by_cases hr : r = q
  · subst hr
    rw [Function.update_self, Queues.dequeue_of_ne hq]
  · rw [Function.update_of_ne hr]
    by_cases hall : r = .all
    · rw [hall, Queues.dequeue_all]
    · rw [Queues.dequeue_of_ne hall]
      exact List.erase_of_not_mem fun htr => hr (h.queue_unique hall hq htr ht)

theorem listDel (h : Represents L seq) (hq : q ≠ .all) (ht : t ∈ seq q) :
    Represents (listDel L (.queued t)) (seq.dequeue t) := by
  have hnode := List.mem_map_of_mem (f := q.node) ht
  have hrings := h.unlink hnode
  rw [← List.map_erase q.node_injective, ← map_update, q.node_of_ne hq] at hrings
  rw [Represents, listDel_eq, h.dequeue_eq hq ht]
  exact hrings

theorem listAdd (h : Represents L seq) (ht : ∀ r, (q = .all ↔ r = .all) → t ∉ seq r) :
    Represents (listAdd L (q.node t) (.head q)) (seq.pushFront q t) := by
  have hfresh : ∀ r, q.node t ∉ Node.head r :: (seq r).map r.node := fun r hmem =>
    ht r ((mem_nodes_iff seq q r t).mp hmem).1 ((mem_nodes_iff seq q r t).mp hmem).2
  have hrings := h.insertHead (i := q) hfresh
  rw [← List.map_cons, ← map_update] at hrings
  exact hrings

theorem listAddTail (h : Represents L seq) (ht : ∀ r, (q = .all ↔ r = .all) → t ∉ seq r) :
    Represents (listAddTail L (q.node t) (.head q)) (seq.pushBack q t) := by
  have hfresh : ∀ r, q.node t ∉ Node.head r :: (seq r).map r.node := fun r hmem =>
    ht r ((mem_nodes_iff seq q r t).mp hmem).1 ((mem_nodes_iff seq q r t).mp hmem).2
  have hrings := h.insertTail (i := q) hfresh
  rw [← List.map_singleton, ← List.map_append, ← map_update] at hrings
  exact hrings

/-- What `list_entry` makes of the first node of a list. -/
theorem listEntry_next (h : Represents L seq) (hq : q ≠ .all) :
    listEntry (L.next (.head q)) = (seq q).head? := by
  have hring := h.ring q
  cases hseq : seq q with
  | nil =>
      rw [hseq] at hring
      rw [hring.next_head_iff.mpr rfl]
      rfl
  | cons t ts =>
      rw [hseq] at hring
      rw [hring.next_head_cons, q.node_of_ne hq]
      rfl

theorem listEmpty_iff (h : Represents L seq) : listEmpty L (.head q) = true ↔ seq q = [] := by
  rw [I386Kernel.listEmpty_iff (h.ring q), List.map_eq_nil_iff]

/-- Pointers of nodes that are on no list may change. -/
theorem congr (h : Represents L seq) {L' : Links Node}
    (hnext : ∀ r, ∀ n ∈ Node.head r :: (seq r).map r.node, L'.next n = L.next n)
    (hprev : ∀ r, ∀ n ∈ Node.head r :: (seq r).map r.node, L'.prev n = L.prev n) : Represents L' seq :=
  ⟨fun r => (h.ring r).frame (hnext r) (hprev r), h.disjoint⟩

theorem zeroNodes {k : Kernel} (h : Represents k.links seq) (ht : ∀ r, t ∉ seq r) :
    Represents (k.zeroNodes t).links seq := by
  have hqueued : ∀ r, ∀ n ∈ Node.head r :: (seq r).map r.node, n ≠ .queued t := by
    rintro r n hn rfl
    exact ht r ((mem_nodes_iff seq (.ready 0) r t).mp hn).2
  have hall : ∀ r, ∀ n ∈ Node.head r :: (seq r).map r.node, n ≠ .all t := by
    rintro r n hn rfl
    exact ht r ((mem_nodes_iff seq .all r t).mp hn).2
  refine h.congr (fun r n hn => ?_) fun r n hn => ?_
  · exact (Function.update_of_ne (hall r n hn) _ _).trans (Function.update_of_ne (hqueued r n hn) _ _)
  · exact (Function.update_of_ne (hall r n hn) _ _).trans (Function.update_of_ne (hqueued r n hn) _ _)

end Represents

/-! ## Status and membership -/

/-- The status a task has while it is on a list. -/
def QueueId.admits : QueueId → TaskStatus → Prop
  | .ready _, status => status = .running ∨ status = .ready
  | .wait _, status => status = .blocked
  | .all, _ => True

theorem QueueId.admits_dying {q : QueueId} (hq : q ≠ .all) : ¬ q.admits .dying := by
  cases q with
  | all => exact absurd rfl hq
  | ready prio => nofun
  | wait sema => nofun

structure Ledger (status : Word → TaskStatus) (isTask : Word → Prop) (seq : Queues) : Prop where
  admits : ∀ q t, t ∈ seq q → q.admits (status t)
  queued : ∀ t, isTask t → status t ≠ .dying → ∃ q, q ≠ .all ∧ t ∈ seq q
  member : ∀ q t, t ∈ seq q → isTask t
  all : ∀ t, isTask t → t ∈ seq .all

namespace Ledger

variable {status : Word → TaskStatus} {isTask : Word → Prop} {seq seq' : Queues} {t : Word} {q : QueueId}

theorem notMem_of_dying (h : Ledger status isTask seq) (ht : status t = .dying) (hq : q ≠ .all) :
    t ∉ seq q := fun hmem => QueueId.admits_dying hq (ht ▸ h.admits q t hmem)

/-- A task leaves the list it is on; until it is put on another it counts as dying. -/
theorem dequeue {L : Links Node} (h : Ledger status isTask seq) (hrep : Represents L seq) (t : Word) :
    Ledger (Function.update status t .dying) isTask (seq.dequeue t) := by
  have hgone : ∀ q, q ≠ .all → t ∉ seq.dequeue t q := by
    intro q hq
    rw [Queues.dequeue_of_ne hq]
    exact (hrep.nodup q).not_mem_erase
  refine ⟨fun q u hu => ?_, fun u hu hdying => ?_, fun q u hu => h.member q u (Queues.mem_of_mem_dequeue hu),
    fun u hu => ?_⟩
  · by_cases hut : u = t
    · subst hut
      by_cases hq : q = .all
      · rw [hq]
        trivial
      · exact absurd hu (hgone q hq)
    · rw [Function.update_of_ne hut]
      exact h.admits q u (Queues.mem_of_mem_dequeue hu)
  · have hut : u ≠ t := by
      rintro rfl
      exact hdying (Function.update_self ..)
    rw [Function.update_of_ne hut] at hdying
    obtain ⟨q, hq, hmem⟩ := h.queued u hu hdying
    exact ⟨q, hq, (Queues.mem_dequeue_of_ne hut).mpr hmem⟩
  · rw [Queues.dequeue_all]
    exact h.all u hu

/-- A task that is on no list is put on one that admits its new status. -/
theorem enqueue (h : Ledger (Function.update status t .dying) isTask seq) (ht : isTask t) {st : TaskStatus}
    (hq : q ≠ .all) (hst : q.admits st) (hseq : ∀ r u, u ∈ seq' r ↔ (r = q ∧ u = t) ∨ u ∈ seq r) :
    Ledger (Function.update status t st) isTask seq' := by
  have hgone : ∀ r, r ≠ .all → t ∉ seq r := fun r => h.notMem_of_dying (Function.update_self ..)
  refine ⟨fun r u hu => ?_, fun u hu hdying => ?_, fun r u hu => ?_, fun u hu => ?_⟩
  · obtain ⟨rfl, rfl⟩ | hmem := (hseq r u).mp hu
    · rwa [Function.update_self]
    · by_cases hut : u = t
      · subst hut
        by_cases hr : r = .all
        · rw [hr]
          trivial
        · exact absurd hmem (hgone r hr)
      · have hadmits := h.admits r u hmem
        rwa [Function.update_of_ne hut] at hadmits ⊢
  · by_cases hut : u = t
    · exact ⟨q, hq, (hseq q u).mpr (Or.inl ⟨rfl, hut⟩)⟩
    · rw [Function.update_of_ne hut] at hdying
      obtain ⟨r, hr, hmem⟩ := h.queued u hu (by rwa [Function.update_of_ne hut])
      exact ⟨r, hr, (hseq r u).mpr (Or.inr hmem)⟩
  · obtain ⟨-, rfl⟩ | hmem := (hseq r u).mp hu
    · exact ht
    · exact h.member r u hmem
  · exact (hseq .all u).mpr (Or.inr (h.all u hu))

/-- A new task is entered on `all_tasks_list`. -/
theorem register (h : Ledger status isTask seq) (hfresh : ¬ isTask t) :
    Ledger (Function.update status t .dying) (fun u => u = t ∨ isTask u) (seq.pushFront .all t) := by
  refine ⟨fun q u hu => ?_, fun u hu hdying => ?_, fun q u hu => ?_, fun u hu => ?_⟩
  · obtain ⟨rfl, rfl⟩ | hmem := Queues.mem_pushFront.mp hu
    · trivial
    · have hut : u ≠ t := by
        rintro rfl
        exact hfresh (h.member q u hmem)
      rw [Function.update_of_ne hut]
      exact h.admits q u hmem
  · have hut : u ≠ t := by
      rintro rfl
      exact hdying (Function.update_self ..)
    rw [Function.update_of_ne hut] at hdying
    obtain ⟨q, hq, hmem⟩ := h.queued u (hu.resolve_left hut) hdying
    exact ⟨q, hq, Queues.mem_pushFront.mpr (Or.inr hmem)⟩
  · obtain ⟨-, rfl⟩ | hmem := Queues.mem_pushFront.mp hu
    · exact Or.inl rfl
    · exact Or.inr (h.member q u hmem)
  · obtain rfl | hu := hu
    · exact Queues.mem_pushFront.mpr (Or.inl ⟨rfl, rfl⟩)
    · exact Queues.mem_pushFront.mpr (Or.inr (h.all u hu))

end Ledger

end I386Kernel
