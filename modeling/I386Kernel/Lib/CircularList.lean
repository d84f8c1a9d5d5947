import Mathlib.Data.List.Nodup
import Mathlib.Logic.Function.Basic

/-!
# Circular doubly linked lists

Nodes that carry a `prev` and a `next` pointer, and families of rings in one heap of such nodes. A ring has a head that belongs to no element; the sequence of a ring is what one reads from the head on. Unlinking an element and inserting a fresh node at either end change the sequence of one ring as the list operation says, and leave the other rings alone.
-/

namespace CircularList

variable {α : Type*}

structure Links (α : Type*) where
  prev : α → α
  next : α → α

/-- From `a` on one meets the nodes of `xs` and then `b`, and back again. -/
def Seg (L : Links α) : α → List α → α → Prop
  | a, [], b => L.next a = b ∧ L.prev b = a
  | a, x :: xs, b => (L.next a = x ∧ L.prev x = a) ∧ Seg L x xs b

namespace Links

/-- The same nodes read the other way around. -/
def flip (L : Links α) : Links α := ⟨L.next, L.prev⟩

variable [DecidableEq α]

def unlink (L : Links α) (x : α) : Links α where
  prev := Function.update L.prev (L.next x) (L.prev x)
  next := Function.update L.next (L.prev x) (L.next x)

def insertBetween (L : Links α) (x p n : α) : Links α where
  prev := Function.update (Function.update L.prev x p) n x
  next := Function.update (Function.update L.next x n) p x

/-- The ring of a head that points at itself. -/
def makeHead (L : Links α) (h : α) : Links α where
  prev := Function.update L.prev h h
  next := Function.update L.next h h

@[simp] theorem unlink_next (L : Links α) (x y : α) :
    (L.unlink x).next y = if y = L.prev x then L.next x else L.next y :=
  Function.update_apply ..

@[simp] theorem unlink_prev (L : Links α) (x y : α) :
    (L.unlink x).prev y = if y = L.next x then L.prev x else L.prev y :=
  Function.update_apply ..

@[simp] theorem insertBetween_next (L : Links α) (x p n y : α) :
    (L.insertBetween x p n).next y = if y = p then x else if y = x then n else L.next y := by
  change Function.update (Function.update L.next x n) p x y = _
  rw [Function.update_apply, Function.update_apply]

@[simp] theorem insertBetween_prev (L : Links α) (x p n y : α) :
    (L.insertBetween x p n).prev y = if y = n then x else if y = x then p else L.prev y := by
  change Function.update (Function.update L.prev x p) n x y = _
  rw [Function.update_apply, Function.update_apply]

@[simp] theorem makeHead_next (L : Links α) (h y : α) :
    (L.makeHead h).next y = if y = h then h else L.next y :=
  Function.update_apply ..

@[simp] theorem makeHead_prev (L : Links α) (h y : α) :
    (L.makeHead h).prev y = if y = h then h else L.prev y :=
  Function.update_apply ..

end Links

/-! ## Segments -/

namespace Seg

variable {L L' : Links α} {a b x : α} {xs ys : List α}

theorem append : Seg L a (xs ++ x :: ys) b ↔ Seg L a xs x ∧ Seg L x ys b := by
  induction xs generalizing a with
  | nil => rfl
  | cons y xs ih =>
      change ((L.next a = y ∧ L.prev y = a) ∧ Seg L y (xs ++ x :: ys) b) ↔
        ((L.next a = y ∧ L.prev y = a) ∧ Seg L y xs x) ∧ Seg L x ys b
      rw [ih, ← and_assoc]

theorem flip (h : Seg L a xs b) : Seg L.flip b xs.reverse a := by
  induction xs generalizing a with
  | nil => exact ⟨h.2, h.1⟩
  | cons x xs ih =>
      rw [List.reverse_cons]
      exact append.mpr ⟨ih h.2, h.1.2, h.1.1⟩

theorem frame (h : Seg L a xs b) (hnext : ∀ y ∈ a :: xs, L'.next y = L.next y)
    (hprev : ∀ y ∈ xs ++ [b], L'.prev y = L.prev y) : Seg L' a xs b := by
  induction xs generalizing a with
  | nil =>
      refine ⟨?_, ?_⟩
      · rw [hnext a (List.mem_cons_self ..)]
        exact h.1
      · rw [hprev b (List.mem_cons_self ..)]
        exact h.2
  | cons x xs ih =>
      refine ⟨⟨?_, ?_⟩, ih h.2 (fun y hy => hnext y (List.mem_cons_of_mem a hy))
        fun y hy => hprev y (List.mem_cons_of_mem x hy)⟩
      · rw [hnext a (List.mem_cons_self ..)]
        exact h.1.1
      · rw [hprev x (List.mem_cons_self ..)]
        exact h.1.2

theorem unique (h : Seg L a xs b) (h' : Seg L a ys b) (hb : b ∉ xs) (hb' : b ∉ ys) : xs = ys := by
  induction xs generalizing a ys with
  | nil =>
      cases ys with
      | nil => rfl
      | cons y ys =>
          have hy : y = b := h'.1.1.symm.trans h.1
          exact absurd (hy ▸ List.mem_cons_self ..) hb'
  | cons x xs ih =>
      cases ys with
      | nil =>
          have hx : x = b := h.1.1.symm.trans h'.1
          exact absurd (hx ▸ List.mem_cons_self ..) hb
      | cons y ys =>
          obtain rfl : x = y := h.1.1.symm.trans h'.1.1
          rw [ih h.2 h'.2 (fun hmem => hb (List.mem_cons_of_mem x hmem))
            fun hmem => hb' (List.mem_cons_of_mem x hmem)]

theorem next_mem (h : Seg L a xs b) : L.next a ∈ xs ++ [b] := by
  cases xs with
  | nil =>
      rw [h.1]
      exact List.mem_cons_self ..
  | cons x xs =>
      rw [h.1.1]
      exact List.mem_cons_self ..

theorem prev_mem (h : Seg L a xs b) : L.prev b ∈ a :: xs := by
  have hmem := h.flip.next_mem
  rw [List.mem_append, List.mem_reverse, List.mem_singleton] at hmem
  exact List.mem_cons.mpr hmem.symm

theorem next_eq_head (h : Seg L a (x :: xs) b) : L.next a = x := h.1.1

/-- A segment runs from its first node only if it is empty or that node is its first element. -/
theorem next_eq_end_iff (h : Seg L a xs b) (hb : b ∉ xs) : L.next a = b ↔ xs = [] := by
  cases xs with
  | nil => exact ⟨fun _ => rfl, fun _ => h.1⟩
  | cons x xs =>
      rw [h.1.1]
      exact ⟨fun heq => absurd (heq ▸ List.mem_cons_self ..) hb, nofun⟩

/-- Going on and back leads to the same node. -/
theorem prev_next (h : Seg L a xs b) (hx : x ∈ a :: xs) : L.prev (L.next x) = x := by
  induction xs generalizing a with
  | nil =>
      rw [List.mem_singleton.mp hx, h.1]
      exact h.2
  | cons y xs ih =>
      obtain ⟨⟨hnext, hprev⟩, hrest⟩ := h
      obtain rfl | hx := List.mem_cons.mp hx
      · rw [hnext, hprev]
      · exact ih hrest hx

variable [DecidableEq α]

/-- Taking an element out of a segment; the induction is on what comes before it. -/
theorem unlink (h : Seg L a (xs ++ x :: ys) b) (hnodup : (a :: (xs ++ x :: ys)).Nodup)
    (hb : b ∉ xs ++ x :: ys) : Seg (L.unlink x) a (xs ++ ys) b := by
  induction xs generalizing a with
  | nil =>
      obtain ⟨⟨hnext, hprev⟩, hrest⟩ := h
      rw [List.nil_append, List.nodup_cons, List.nodup_cons] at hnodup
      cases ys with
      | nil =>
          obtain ⟨hnext', hprev'⟩ := hrest
          refine ⟨?_, ?_⟩
          · rw [Links.unlink_next, hprev, if_pos rfl, hnext']
          · rw [Links.unlink_prev, hnext', if_pos rfl, hprev]
      | cons y ys =>
          obtain ⟨⟨hnext', hprev'⟩, hrest⟩ := hrest
          have hy : ∀ z ∈ ys ++ [b], z ≠ y := by
            intro z hz heq
            subst heq
            obtain hz | hz := List.mem_append.mp hz
            · exact (List.nodup_cons.mp hnodup.2.2).1 hz
            · exact hb (List.mem_singleton.mp hz ▸ List.mem_cons_of_mem x (List.mem_cons_self ..))
          refine ⟨⟨?_, ?_⟩, hrest.frame (fun z hz => ?_) fun z hz => ?_⟩
          · rw [Links.unlink_next, hprev, if_pos rfl, hnext']
          · rw [Links.unlink_prev, hnext', if_pos rfl, hprev]
          · rw [Links.unlink_next, hprev, if_neg]
            intro heq
            exact hnodup.1 (heq ▸ List.mem_cons_of_mem x hz)
          · rw [Links.unlink_prev, hnext', if_neg (hy z hz)]
  | cons c xs ih =>
      obtain ⟨⟨hnext, hprev⟩, hrest⟩ := h
      rw [List.cons_append, List.nodup_cons] at hnodup
      obtain ⟨hbefore, hafter⟩ := append.mp hrest
      refine ⟨⟨?_, ?_⟩, ih hrest hnodup.2 fun hmem => hb (List.mem_cons_of_mem c hmem)⟩
      · rw [Links.unlink_next, if_neg, hnext]
        intro heq
        exact hnodup.1 (heq ▸ List.mem_append_left (x :: ys) hbefore.prev_mem)
      · rw [Links.unlink_prev, if_neg, hprev]
        intro heq
        have hmem := hafter.next_mem
        rw [← heq, List.mem_append, List.mem_singleton] at hmem
        obtain hmem | hend := hmem
        · exact (List.nodup_cons.mp hnodup.2).1 (List.mem_append_right _ (List.mem_cons_of_mem x hmem))
        · exact hb (hend ▸ List.mem_cons_self ..)

end Seg

/-! ## Rings -/

/-- `xs` is what one reads from the head `h` until one is back at it. -/
structure Ring (L : Links α) (h : α) (xs : List α) : Prop where
  seg : Seg L h xs h
  nodup : (h :: xs).Nodup

namespace Ring

variable {L L' : Links α} {h x : α} {xs : List α}

theorem head_notMem (r : Ring L h xs) : h ∉ xs := (List.nodup_cons.mp r.nodup).1

theorem unique {ys : List α} (r : Ring L h xs) (r' : Ring L h ys) : xs = ys :=
  r.seg.unique r'.seg r.head_notMem r'.head_notMem

theorem flip (r : Ring L h xs) : Ring L.flip h xs.reverse where
  seg := r.seg.flip
  nodup := List.nodup_cons.mpr
    ⟨fun hmem => r.head_notMem (List.mem_reverse.mp hmem), List.nodup_reverse.mpr (List.nodup_cons.mp r.nodup).2⟩

theorem next_mem (r : Ring L h xs) (hx : x ∈ h :: xs) : L.next x ∈ h :: xs := by
  obtain rfl | hx := List.mem_cons.mp hx
  · have hmem := r.seg.next_mem
    rw [List.mem_append, List.mem_singleton] at hmem
    exact List.mem_cons.mpr hmem.symm
  · obtain ⟨as, bs, rfl⟩ := List.append_of_mem hx
    have hmem := (Seg.append.mp r.seg).2.next_mem
    rw [List.mem_append, List.mem_singleton] at hmem
    obtain hmem | hmem := hmem
    · exact List.mem_cons_of_mem h (List.mem_append_right as (List.mem_cons_of_mem x hmem))
    · exact hmem ▸ List.mem_cons_self ..

theorem prev_mem (r : Ring L h xs) (hx : x ∈ h :: xs) : L.prev x ∈ h :: xs := by
  have hmem := r.flip.next_mem (x := x) (List.mem_cons.mpr ((List.mem_cons.mp hx).imp_right List.mem_reverse.mpr))
  exact List.mem_cons.mpr ((List.mem_cons.mp hmem).imp_right List.mem_reverse.mp)

theorem prev_next (r : Ring L h xs) (hx : x ∈ h :: xs) : L.prev (L.next x) = x := r.seg.prev_next hx

theorem next_prev (r : Ring L h xs) (hx : x ∈ h :: xs) : L.next (L.prev x) = x := by
  apply r.flip.prev_next
  exact List.mem_cons.mpr ((List.mem_cons.mp hx).imp_right List.mem_reverse.mpr)

theorem next_head_cons (r : Ring L h (x :: xs)) : L.next h = x := r.seg.next_eq_head

theorem next_head_iff (r : Ring L h xs) : L.next h = h ↔ xs = [] := r.seg.next_eq_end_iff r.head_notMem

theorem prev_head_iff (r : Ring L h xs) : L.prev h = h ↔ xs = [] := by
  rw [← List.reverse_eq_nil_iff]
  exact r.flip.next_head_iff

/-- A change of pointers of other nodes. -/
theorem frame (r : Ring L h xs) (hnext : ∀ y ∈ h :: xs, L'.next y = L.next y)
    (hprev : ∀ y ∈ h :: xs, L'.prev y = L.prev y) : Ring L' h xs where
  seg := r.seg.frame hnext fun y hy => hprev y <| by
    rw [List.mem_append, List.mem_singleton] at hy
    exact List.mem_cons.mpr hy.symm
  nodup := r.nodup

variable [DecidableEq α]

theorem unlink (r : Ring L h xs) (hx : x ∈ xs) : Ring (L.unlink x) h (xs.erase x) := by
  obtain ⟨as, bs, rfl⟩ := List.append_of_mem hx
  have hnodup := (List.nodup_cons.mp r.nodup).2
  have has : x ∉ as := fun hmem => by
    exact (List.nodup_append.mp hnodup).2.2 x hmem x (List.mem_cons_self ..) rfl
  have herase : (as ++ x :: bs).erase x = as ++ bs := by
    rw [List.erase_append_right _ has, List.erase_cons_head]
  refine ⟨herase ▸ r.seg.unlink r.nodup r.head_notMem, ?_⟩
  exact r.nodup.sublist (List.Sublist.cons_cons h List.erase_sublist)

theorem insertHead (r : Ring L h xs) (hx : x ∉ h :: xs) :
    Ring (L.insertBetween x h (L.next h)) h (x :: xs) := by
  have hxh : x ≠ h := fun heq => hx (heq ▸ List.mem_cons_self ..)
  have hnodup := List.nodup_cons.mp r.nodup
  have hnext_ne : x ≠ L.next h := fun heq => hx (heq ▸ r.next_mem (List.mem_cons_self ..))
  refine ⟨⟨⟨?_, ?_⟩, ?_⟩, ?_⟩
  · rw [Links.insertBetween_next, if_pos rfl]
  · rw [Links.insertBetween_prev, if_neg hnext_ne, if_pos rfl]
  · cases xs with
    | nil =>
        refine ⟨?_, ?_⟩
        · rw [Links.insertBetween_next, if_neg hxh, if_pos rfl, r.seg.1]
        · rw [Links.insertBetween_prev, r.seg.1, if_pos rfl]
    | cons y ys =>
        obtain ⟨⟨hy, -⟩, hrest⟩ := r.seg
        refine ⟨⟨?_, ?_⟩, hrest.frame (fun z hz => ?_) fun z hz => ?_⟩
        · rw [Links.insertBetween_next, if_neg hxh, if_pos rfl, hy]
        · rw [Links.insertBetween_prev, hy, if_pos rfl]
        · have hzh : z ≠ h := fun heq => hnodup.1 (heq ▸ hz)
          have hzx : z ≠ x := fun heq => hx (heq ▸ List.mem_cons_of_mem h hz)
          rw [Links.insertBetween_next, if_neg hzh, if_neg hzx]
        · have hmem : z ∈ h :: ys := by
            rw [List.mem_append, List.mem_singleton] at hz
            exact List.mem_cons.mpr hz.symm
          have hzy : z ≠ y := by
            intro heq
            subst heq
            obtain heq | hmem := List.mem_cons.mp hmem
            · exact hnodup.1 (heq ▸ List.mem_cons_self ..)
            · exact (List.nodup_cons.mp hnodup.2).1 hmem
          have hzx : z ≠ x := by
            intro heq
            subst heq
            obtain heq | hmem := List.mem_cons.mp hmem
            · exact hxh heq
            · exact hx (List.mem_cons_of_mem h (List.mem_cons_of_mem y hmem))
          rw [Links.insertBetween_prev, hy, if_neg hzy, if_neg hzx]
  · rw [List.mem_cons, not_or] at hx
    rw [List.nodup_cons, List.mem_cons, not_or, List.nodup_cons]
    exact ⟨⟨hxh.symm, hnodup.1⟩, hx.2, hnodup.2⟩

theorem insertTail (r : Ring L h xs) (hx : x ∉ h :: xs) :
    Ring (L.insertBetween x (L.prev h) h) h (xs ++ [x]) := by
  have hx' : x ∉ h :: xs.reverse := fun hmem =>
    hx (List.mem_cons.mpr ((List.mem_cons.mp hmem).imp_right List.mem_reverse.mp))
  have hring := (r.flip.insertHead hx').flip
  rw [List.reverse_cons, List.reverse_reverse] at hring
  exact hring

theorem makeHead (L : Links α) (h : α) : Ring (L.makeHead h) h [] where
  seg := ⟨by rw [Links.makeHead_next, if_pos rfl], by rw [Links.makeHead_prev, if_pos rfl]⟩
  nodup := List.nodup_singleton h

end Ring

/-! ## Families of rings -/

/-- The rings of a heap, one for each index, share no node. -/
structure Rings {ι : Type*} (L : Links α) (head : ι → α) (seq : ι → List α) : Prop where
  ring : ∀ i, Ring L (head i) (seq i)
  disjoint : ∀ i j, i ≠ j → List.Disjoint (head i :: seq i) (head j :: seq j)

namespace Rings

variable {ι : Type*} {L : Links α} {head : ι → α} {seq : ι → List α} {i : ι} {x : α}

/-- A node is on at most one ring. -/
theorem index_unique (R : Rings L head seq) {j : ι} (hi : x ∈ head i :: seq i) (hj : x ∈ head j :: seq j) :
    i = j := by
  by_contra hne
  exact R.disjoint i j hne hi hj

theorem congr (R : Rings L head seq) {L' : Links α}
    (h : ∀ j, ∀ y ∈ head j :: seq j, L'.next y = L.next y ∧ L'.prev y = L.prev y) : Rings L' head seq where
  ring := fun j => (R.ring j).frame (fun y hy => (h j y hy).1) fun y hy => (h j y hy).2
  disjoint := R.disjoint

private theorem ne_of_mem (R : Rings L head seq) {j : ι} (hj : j ≠ i) {y z : α} (hy : y ∈ head j :: seq j)
    (hz : z ∈ head i :: seq i) : y ≠ z := by
  intro heq
  exact hj (R.index_unique hy (heq ▸ hz))

variable [DecidableEq ι]

/-- When the new sequences of ring `i` and of the others share no node, it is enough that the pointers of the other rings are unchanged. -/
theorem update (R : Rings L head seq) {L' : Links α} {ys : List α} (hring : Ring L' (head i) ys)
    (hys : ∀ j, j ≠ i → List.Disjoint ys (head j :: seq j))
    (hnext : ∀ j, j ≠ i → ∀ y ∈ head j :: seq j, L'.next y = L.next y)
    (hprev : ∀ j, j ≠ i → ∀ y ∈ head j :: seq j, L'.prev y = L.prev y) :
    Rings L' head (Function.update seq i ys) := by
  have hdisj : ∀ j, j ≠ i → List.Disjoint (head i :: ys) (head j :: seq j) := by
    intro j hj y hy hy'
    obtain rfl | hy := List.mem_cons.mp hy
    · exact R.disjoint i j hj.symm (List.mem_cons_self ..) hy'
    · exact hys j hj hy hy'
  refine ⟨fun j => ?_, fun j k hjk => ?_⟩
  · by_cases hj : j = i
    · subst hj
      rwa [Function.update_self]
    · rw [Function.update_of_ne hj]
      exact (R.ring j).frame (hnext j hj) (hprev j hj)
  · by_cases hj : j = i
    · subst hj
      rw [Function.update_self, Function.update_of_ne hjk.symm]
      exact hdisj k hjk.symm
    · by_cases hk : k = i
      · subst hk
        rw [Function.update_self, Function.update_of_ne hj]
        exact List.disjoint_comm.mp (hdisj j hj)
      · rw [Function.update_of_ne hj, Function.update_of_ne hk]
        exact R.disjoint j k hjk

variable [DecidableEq α]

omit [DecidableEq ι] in
/-- Unlinking a node of one ring leaves the pointers of the others. -/
theorem unlink_frame (R : Rings L head seq) (hx : x ∈ seq i) {j : ι} (hj : j ≠ i) {y : α} (hy : y ∈ head j :: seq j) :
    (L.unlink x).next y = L.next y ∧ (L.unlink x).prev y = L.prev y := by
  have hmem : x ∈ head i :: seq i := List.mem_cons_of_mem _ hx
  refine ⟨?_, ?_⟩
  · rw [Links.unlink_next, if_neg (R.ne_of_mem hj hy ((R.ring i).prev_mem hmem))]
  · rw [Links.unlink_prev, if_neg (R.ne_of_mem hj hy ((R.ring i).next_mem hmem))]

omit [DecidableEq ι] in
/-- So does inserting a node between two of one ring. -/
theorem insertBetween_frame (R : Rings L head seq) {p n : α} (hx : ∀ j, x ∉ head j :: seq j) (hp : p ∈ head i :: seq i)
    (hn : n ∈ head i :: seq i) {j : ι} (hj : j ≠ i) {y : α} (hy : y ∈ head j :: seq j) :
    (L.insertBetween x p n).next y = L.next y ∧ (L.insertBetween x p n).prev y = L.prev y := by
  have hyx : y ≠ x := fun heq => hx j (heq ▸ hy)
  refine ⟨?_, ?_⟩
  · rw [Links.insertBetween_next, if_neg (R.ne_of_mem hj hy hp), if_neg hyx]
  · rw [Links.insertBetween_prev, if_neg (R.ne_of_mem hj hy hn), if_neg hyx]

theorem unlink (R : Rings L head seq) (hx : x ∈ seq i) :
    Rings (L.unlink x) head (Function.update seq i ((seq i).erase x)) := by
  refine R.update ((R.ring i).unlink hx) (fun j hj y hy => ?_) (fun j hj y hy => (R.unlink_frame hx hj hy).1)
    fun j hj y hy => (R.unlink_frame hx hj hy).2
  exact R.disjoint i j hj.symm (List.mem_cons_of_mem _ (List.mem_of_mem_erase hy))

theorem insertHead (R : Rings L head seq) (hx : ∀ j, x ∉ head j :: seq j) :
    Rings (L.insertBetween x (head i) (L.next (head i))) head (Function.update seq i (x :: seq i)) := by
  have hhead : head i ∈ head i :: seq i := List.mem_cons_self ..
  have hframe : ∀ j, j ≠ i → ∀ y ∈ head j :: seq j, _ := fun j hj y hy =>
    R.insertBetween_frame hx hhead ((R.ring i).next_mem hhead) hj hy
  refine R.update ((R.ring i).insertHead (hx i)) (fun j hj y hy => ?_) (fun j hj y hy => (hframe j hj y hy).1)
    fun j hj y hy => (hframe j hj y hy).2
  obtain rfl | hy := List.mem_cons.mp hy
  · exact hx j
  · exact R.disjoint i j hj.symm (List.mem_cons_of_mem _ hy)

theorem insertTail (R : Rings L head seq) (hx : ∀ j, x ∉ head j :: seq j) :
    Rings (L.insertBetween x (L.prev (head i)) (head i)) head (Function.update seq i (seq i ++ [x])) := by
  have hhead : head i ∈ head i :: seq i := List.mem_cons_self ..
  have hframe : ∀ j, j ≠ i → ∀ y ∈ head j :: seq j, _ := fun j hj y hy =>
    R.insertBetween_frame hx ((R.ring i).prev_mem hhead) hhead hj hy
  refine R.update ((R.ring i).insertTail (hx i)) (fun j hj y hy => ?_) (fun j hj y hy => (hframe j hj y hy).1)
    fun j hj y hy => (hframe j hj y hy).2
  obtain hy | hy := List.mem_append.mp hy
  · exact R.disjoint i j hj.symm (List.mem_cons_of_mem _ hy)
  · rw [List.mem_singleton.mp hy]
    exact hx j

end Rings

end CircularList
