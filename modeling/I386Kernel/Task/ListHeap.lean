import I386Kernel.Base
import I386Kernel.Task.List

/-!
# Lists in memory

`list.h` on the words of memory: a `list_head` is the word of `prev` and, four bytes on, the word of `next`. As long as no two nodes overlap, what the operations do to the words is what they do to the pointers of the nodes, and with that the lists of one heap are sequences.
-/

namespace I386Kernel

open CircularList (Links Ring Rings)

/-- `&node->prev`, `&node->next` -/
def prevAddr (node : Word) : Word := node

def nextAddr (node : Word) : Word := node + 4

/-- The pointers of the nodes, as memory has them. -/
def nodeLinks (m : Mem) : Links Word := ⟨fun node => m (prevAddr node), fun node => m (nextAddr node)⟩

namespace ListHead

def listHeadInit (m : Mem) (head : Word) : Mem :=
  let m := Function.update m (prevAddr head) head
  Function.update m (nextAddr head) (m (prevAddr head))

def listEmpty (m : Mem) (head : Word) : Bool := m (nextAddr head) = head ∨ m (prevAddr head) = head

def listDel (m : Mem) (node : Word) : Mem :=
  let m := Function.update m (prevAddr (m (nextAddr node))) (m (prevAddr node))
  Function.update m (nextAddr (m (prevAddr node))) (m (nextAddr node))

def listPop (m : Mem) (head : Word) : Word × Mem :=
  let retNode := m (nextAddr head)
  (retNode, listDel m retNode)

/-- `__list_add`. -/
def listAddBetween (m : Mem) (node prev next : Word) : Mem :=
  let m := Function.update m (nextAddr node) next
  let m := Function.update m (prevAddr node) prev
  let m := Function.update m (nextAddr prev) node
  Function.update m (prevAddr next) node

def listAdd (m : Mem) (node head : Word) : Mem := listAddBetween m node head (m (nextAddr head))

def listAddTail (m : Mem) (node head : Word) : Mem := listAddBetween m node (m (prevAddr head)) head

/-- The structure whose member at `offset` is at `ptr`. -/
def containerOf (ptr offset : Word) : Word := ptr - offset

/-- `list_for_each_entry` from the cursor on, with a body that may change the state; `none` when `fuel` turns do not bring it to the end. -/
def forEachFrom {σ : Type} (mem : σ → Mem) (body : σ → Word → σ) (head offset : Word) : Nat → σ → Word → Option σ
  | 0, _, _ => none
  | fuel + 1, s, cursor =>
      if cursor + offset = head then some s
      else
        let s := body s cursor
        forEachFrom mem body head offset fuel s (containerOf (mem s (nextAddr (cursor + offset))) offset)

def listForEachEntry {σ : Type} (mem : σ → Mem) (body : σ → Word → σ) (head offset : Word) (fuel : Nat) (s : σ) : Option σ :=
  forEachFrom mem body head offset fuel s (containerOf (mem s (nextAddr head)) offset)

end ListHead

/-! ## Words and pointers -/

/-- No two of the nodes overlap. -/
def Apart (P : Word → Prop) : Prop := ∀ x y, P x → P y → prevAddr x ≠ nextAddr y

/-- Memory has the pointers of `L` in the nodes of `P`. -/
def HoldsLinks (P : Word → Prop) (m : Mem) (L : Links Word) : Prop :=
  ∀ y, P y → m (nextAddr y) = L.next y ∧ m (prevAddr y) = L.prev y

variable {P : Word → Prop} {m : Mem} {L : Links Word} {x v : Word}

theorem HoldsLinks.setPrev (h : HoldsLinks P m L) (hP : Apart P) (hx : P x) :
    HoldsLinks P (Function.update m (prevAddr x) v) (setPrev L x v) := by
  intro y hy
  refine ⟨?_, ?_⟩
  · rw [Function.update_of_ne (hP x y hx hy).symm]
    exact (h y hy).1
  · show Function.update m (prevAddr x) v (prevAddr y) = Function.update L.prev x v y
    rw [Function.update_apply, Function.update_apply, (h y hy).2]
    rfl

theorem HoldsLinks.setNext (h : HoldsLinks P m L) (hP : Apart P) (hx : P x) :
    HoldsLinks P (Function.update m (nextAddr x) v) (setNext L x v) := by
  intro y hy
  refine ⟨?_, ?_⟩
  · show Function.update m (nextAddr x) v (nextAddr y) = Function.update L.next x v y
    have hinj : nextAddr y = nextAddr x ↔ y = x := by
      rw [nextAddr, nextAddr]
      exact ⟨fun heq => by bv_omega, congrArg (· + 4)⟩
    rw [Function.update_apply, Function.update_apply, (h y hy).1]
    exact if_congr hinj rfl rfl
  · rw [Function.update_of_ne (hP y x hy hx)]
    exact (h y hy).2

theorem holdsLinks_nodeLinks (P : Word → Prop) (m : Mem) : HoldsLinks P m (nodeLinks m) := fun _ _ => ⟨rfl, rfl⟩

theorem holdsLinks_listDel (hP : Apart P) (hnode : P x) (hprev : P (m (prevAddr x))) (hnext : P (m (nextAddr x))) :
    HoldsLinks P (ListHead.listDel m x) (listDel (nodeLinks m) x) := by
  have hfirst : HoldsLinks P _ _ := (holdsLinks_nodeLinks P m).setPrev (v := m (prevAddr x)) hP hnext
  have hread := hfirst x hnode
  have hkept : (setPrev (nodeLinks m) (m (nextAddr x)) (m (prevAddr x))).prev x = m (prevAddr x) := by
    by_cases heq : x = m (nextAddr x)
    · rw [← heq]
      exact Function.update_self ..
    · exact Function.update_of_ne heq _ _
  have hsecond := hfirst.setNext (x := m (prevAddr x)) (v := m (nextAddr x)) hP hprev
  rw [ListHead.listDel, listDel]
  show HoldsLinks P (Function.update _ (nextAddr (Function.update m _ _ (prevAddr x))) (Function.update m _ _ (nextAddr x)))
    (setNext _ ((setPrev _ _ _).prev x) ((nodeLinks m).next x))
  rw [hread.2, hread.1]
  show HoldsLinks P _ (setNext (setPrev (nodeLinks m) (m (nextAddr x)) (m (prevAddr x)))
    ((setPrev (nodeLinks m) (m (nextAddr x)) (m (prevAddr x))).prev x) (m (nextAddr x)))
  rw [hkept]
  exact hsecond

theorem holdsLinks_listAddBetween (hP : Apart P) {prev next : Word} (hnode : P x) (hprev : P prev) (hnext : P next) :
    HoldsLinks P (ListHead.listAddBetween m x prev next) (listAddBetween (nodeLinks m) x prev next) :=
  ((((holdsLinks_nodeLinks P m).setNext hP hnode).setPrev hP hnode).setNext hP hprev).setPrev hP hnext

/-! ## Lists as sequences -/

section Heap

variable {ι : Type} {head : ι → Word} {seq : ι → List Word} {m' : Mem} {i : ι} {node : Word}

/-- The node is a head or an element of one of the lists. -/
def OnLists (head : ι → Word) (seq : ι → List Word) (node : Word) : Prop := ∃ i, node ∈ head i :: seq i

/-- Any number of well-formed lists that share no node, in one memory. -/
structure ListHeap (m : Mem) (head : ι → Word) (seq : ι → List Word) : Prop where
  rings : Rings (nodeLinks m) head seq
  apart : Apart (OnLists head seq)

/-- The node is on no list, and overlaps no node of one. -/
structure Unlinked (head : ι → Word) (seq : ι → List Word) (node : Word) : Prop where
  notMem : ¬ OnLists head seq node
  apart : Apart fun a => a = node ∨ OnLists head seq a

/-- The words of `next` of the nodes are as the pointers `L` have them. -/
def NextOn (nodes : List Word) (L : Links Word) (m : Mem) : Prop := ∀ x ∈ nodes, m (nextAddr x) = L.next x

/-- From the node `a` on the loop has the elements up to the head still to visit; the induction is on these, and the body may do anything but change the words of `next`. -/
theorem forEachFrom_eq {σ : Type} {mem : σ → Mem} {body : σ → Word → σ} {h a offset : Word} {xs nodes : List Word} {s : σ}
    (hseg : CircularList.Seg L a xs h) (hxs : h ∉ xs) (hnodes : ∀ x ∈ a :: xs, x ∈ nodes) (hs : NextOn nodes L (mem s))
    (hbody : ∀ s cursor, NextOn nodes L (mem s) → NextOn nodes L (mem (body s cursor))) {fuel : Nat} (hfuel : xs.length < fuel) :
    ListHead.forEachFrom mem body h offset fuel s (ListHead.containerOf (mem s (nextAddr a)) offset) =
      some ((xs.map (ListHead.containerOf · offset)).foldl body s) := by
  obtain ⟨fuel, rfl⟩ : ∃ n, fuel = n + 1 := ⟨fuel - 1, by omega⟩
  have hmember : ∀ ptr : Word, ListHead.containerOf ptr offset + offset = ptr := fun ptr => BitVec.sub_add_cancel ptr offset
  rw [ListHead.forEachFrom, hmember, hs a (hnodes a List.mem_cons_self)]
  induction xs generalizing a s fuel with
  | nil =>
      rw [if_pos hseg.1]
      rfl
  | cons x xs ih =>
      obtain ⟨⟨hnext, -⟩, hrest⟩ := hseg
      have hxh : x ≠ h := fun heq => hxs (heq ▸ List.mem_cons_self)
      obtain ⟨fuel, rfl⟩ : ∃ n, fuel = n + 1 := ⟨fuel - 1, by rw [List.length_cons] at hfuel; omega⟩
      have hs' := hbody s (ListHead.containerOf x offset) hs
      have hnodes' : ∀ y ∈ x :: xs, y ∈ nodes := fun y hy => hnodes y (List.mem_cons_of_mem a hy)
      rw [hnext, if_neg hxh, ListHead.forEachFrom, hmember, hs' x (hnodes' x List.mem_cons_self)]
      apply ih hrest (fun hmem => hxs (List.mem_cons_of_mem x hmem)) hnodes' hs'
      rw [List.length_cons] at hfuel
      omega

/-- A full turn of `list_for_each_entry` visits every element once, in order, and ends. -/
theorem ListHeap.listForEachEntry (hheap : ListHeap m head seq) {σ : Type} {mem : σ → Mem} {body : σ → Word → σ} {s : σ}
    (hs : mem s = m)
    (hbody : ∀ s cursor, NextOn (head i :: seq i) (nodeLinks m) (mem s) →
      NextOn (head i :: seq i) (nodeLinks m) (mem (body s cursor)))
    (offset : Word) {fuel : Nat} (hfuel : (seq i).length < fuel) :
    ListHead.listForEachEntry mem body (head i) offset fuel s =
      some (((seq i).map (ListHead.containerOf · offset)).foldl body s) := by
  have hring := hheap.rings.ring i
  refine forEachFrom_eq hring.seg hring.head_notMem (fun x hx => hx) (fun x _ => ?_) hbody hfuel
  rw [hs]
  rfl

theorem ListHeap.next_onLists (h : ListHeap m head seq) (hnode : node ∈ head i :: seq i) : OnLists head seq (m (nextAddr node)) :=
  ⟨i, (h.rings.ring i).next_mem hnode⟩

theorem ListHeap.prev_onLists (h : ListHeap m head seq) (hnode : node ∈ head i :: seq i) : OnLists head seq (m (prevAddr node)) :=
  ⟨i, (h.rings.ring i).prev_mem hnode⟩

theorem ListHeap.listEmpty (h : ListHeap m head seq) : ListHead.listEmpty m (head i) = true ↔ seq i = [] :=
  listEmpty_iff (h.rings.ring i)

variable [DecidableEq ι]

/-- From `m` to `m'` the list `i` becomes the sequence `ys`, and the words of the other lists are unchanged. -/
structure SeqTo (m m' : Mem) (head : ι → Word) (seq : ι → List Word) (i : ι) (ys : List Word) : Prop where
  heap : ListHeap m' head (Function.update seq i ys)
  others : ∀ j, j ≠ i → ∀ y ∈ head j :: seq j, m' (nextAddr y) = m (nextAddr y) ∧ m' (prevAddr y) = m (prevAddr y)

/-- It is enough to look at the pointers, and where the new nodes come from. -/
theorem SeqTo.of_holdsLinks {L' : Links Word} {ys : List Word} {P : Word → Prop} (hholds : HoldsLinks P m' L') (hP : Apart P)
    (hlists : ∀ y, OnLists head seq y → P y) (hys : ∀ y ∈ ys, P y) (hrings : Rings L' head (Function.update seq i ys))
    (hframe : ∀ j, j ≠ i → ∀ y ∈ head j :: seq j, L'.next y = (nodeLinks m).next y ∧ L'.prev y = (nodeLinks m).prev y) :
    SeqTo m m' head seq i ys where
  heap := by
    have hmem : ∀ j, ∀ y ∈ head j :: Function.update seq i ys j, P y := by
      intro j y hy
      obtain rfl | hy := List.mem_cons.mp hy
      · exact hlists _ ⟨j, List.mem_cons_self ..⟩
      · by_cases hj : j = i
        · subst hj
          rw [Function.update_self] at hy
          exact hys y hy
        · rw [Function.update_of_ne hj] at hy
          exact hlists y ⟨j, List.mem_cons_of_mem _ hy⟩
    refine ⟨hrings.congr fun j y hy => hholds y (hmem j y hy), fun x y hx hy => ?_⟩
    obtain ⟨j, hx⟩ := hx
    obtain ⟨k, hy⟩ := hy
    exact hP x y (hmem j x hx) (hmem k y hy)
  others := fun j hj y hy => by
    obtain ⟨hnext, hprev⟩ := hframe j hj y hy
    obtain ⟨hnext', hprev'⟩ := hholds y (hlists y ⟨j, hy⟩)
    exact ⟨hnext'.trans hnext, hprev'.trans hprev⟩

namespace ListHeap

theorem listAdd (h : ListHeap m head seq) (hnode : Unlinked head seq node) :
    SeqTo m (ListHead.listAdd m node (head i)) head seq i (node :: seq i) := by
  have hhead : head i ∈ head i :: seq i := List.mem_cons_self ..
  have hfresh : ∀ j, node ∉ head j :: seq j := fun j hj => hnode.notMem ⟨j, hj⟩
  refine SeqTo.of_holdsLinks (holdsLinks_listAddBetween hnode.apart (Or.inl rfl) (Or.inr ⟨i, hhead⟩)
    (Or.inr (h.next_onLists hhead))) hnode.apart (fun y hy => Or.inr hy) (fun y hy => ?_) (h.rings.insertHead hfresh)
    fun j hj y hy => h.rings.insertBetween_frame hfresh hhead ((h.rings.ring i).next_mem hhead) hj hy
  exact (List.mem_cons.mp hy).imp_right fun hy => ⟨i, List.mem_cons_of_mem _ hy⟩

theorem listAddTail (h : ListHeap m head seq) (hnode : Unlinked head seq node) :
    SeqTo m (ListHead.listAddTail m node (head i)) head seq i (seq i ++ [node]) := by
  have hhead : head i ∈ head i :: seq i := List.mem_cons_self ..
  have hfresh : ∀ j, node ∉ head j :: seq j := fun j hj => hnode.notMem ⟨j, hj⟩
  refine SeqTo.of_holdsLinks (holdsLinks_listAddBetween hnode.apart (Or.inl rfl) (Or.inr (h.prev_onLists hhead))
    (Or.inr ⟨i, hhead⟩)) hnode.apart (fun y hy => Or.inr hy) (fun y hy => ?_) (h.rings.insertTail hfresh)
    fun j hj y hy => h.rings.insertBetween_frame hfresh ((h.rings.ring i).prev_mem hhead) hhead hj hy
  obtain hy | hy := List.mem_append.mp hy
  · exact Or.inr ⟨i, List.mem_cons_of_mem _ hy⟩
  · exact Or.inl (List.mem_singleton.mp hy)

theorem listDel (h : ListHeap m head seq) (hnode : node ∈ seq i) :
    SeqTo m (ListHead.listDel m node) head seq i ((seq i).erase node) := by
  have hmem : node ∈ head i :: seq i := List.mem_cons_of_mem _ hnode
  have hholds := holdsLinks_listDel h.apart ⟨i, hmem⟩ (h.prev_onLists hmem) (h.next_onLists hmem)
  rw [listDel_eq] at hholds
  exact SeqTo.of_holdsLinks hholds h.apart (fun y hy => hy)
    (fun y hy => ⟨i, List.mem_cons_of_mem _ (List.mem_of_mem_erase hy)⟩) (h.rings.unlink hnode)
    fun j hj y hy => h.rings.unlink_frame hnode hj hy

theorem listPop (h : ListHeap m head seq) {x : Word} {xs : List Word} (hseq : seq i = x :: xs) :
    (ListHead.listPop m (head i)).1 = x ∧ SeqTo m (ListHead.listPop m (head i)).2 head seq i xs := by
  have hring := h.rings.ring i
  rw [hseq] at hring
  have hfirst : m (nextAddr (head i)) = x := hring.next_head_cons
  have hx : x ∈ seq i := by
    rw [hseq]
    exact List.mem_cons_self ..
  have hdel := h.listDel hx
  rw [hseq, List.erase_cons_head] at hdel
  refine ⟨hfirst, ?_⟩
  rw [ListHead.listPop, hfirst]
  exact hdel

end ListHeap

/-- Every operation of `list.h` on one of the lists of a memory is the operation on its sequence. -/
theorem lists_are_sequences (h : ListHeap m head seq) (i : ι) :
    (∀ node, Unlinked head seq node →
      SeqTo m (ListHead.listAdd m node (head i)) head seq i (node :: seq i) ∧
        SeqTo m (ListHead.listAddTail m node (head i)) head seq i (seq i ++ [node])) ∧
      (∀ node ∈ seq i, SeqTo m (ListHead.listDel m node) head seq i ((seq i).erase node)) ∧
      (∀ x xs, seq i = x :: xs →
        (ListHead.listPop m (head i)).1 = x ∧ SeqTo m (ListHead.listPop m (head i)).2 head seq i xs) ∧
      (ListHead.listEmpty m (head i) = true ↔ seq i = []) ∧
      (∀ y ∈ head i :: seq i, m (prevAddr (m (nextAddr y))) = y ∧ m (nextAddr (m (prevAddr y))) = y) ∧
      ∀ {σ : Type} (mem : σ → Mem) (body : σ → Word → σ) (s : σ), mem s = m →
        (∀ s cursor, NextOn (head i :: seq i) (nodeLinks m) (mem s) →
          NextOn (head i :: seq i) (nodeLinks m) (mem (body s cursor))) →
        ∀ offset fuel, (seq i).length < fuel → ListHead.listForEachEntry mem body (head i) offset fuel s =
          some (((seq i).map (ListHead.containerOf · offset)).foldl body s) := by
  refine ⟨fun node hnode => ⟨h.listAdd hnode, h.listAddTail hnode⟩, fun node hnode => h.listDel hnode,
    fun x xs hseq => h.listPop hseq, h.listEmpty, fun y hy => ?_,
    fun mem body s hs hbody offset fuel hfuel => h.listForEachEntry hs hbody offset hfuel⟩
  have hring := h.rings.ring i
  exact ⟨hring.prev_next hy, hring.next_prev hy⟩

/-- Two empty lists, and a node for the second. -/
theorem lists_are_sequences_add :
    SeqTo (ListHead.listHeadInit (ListHead.listHeadInit (fun _ => 0) 0x1000) 0x2000)
      (ListHead.listAdd (ListHead.listHeadInit (ListHead.listHeadInit (fun _ => 0) 0x1000) 0x2000) 0x3000 0x2000)
      (fun second : Bool => if second then 0x2000 else 0x1000) (fun _ => []) true [0x3000] := by
  have hnodes : ∀ a, OnLists (fun second : Bool => if second then 0x2000 else 0x1000) (fun _ => []) a →
      a = (0x1000 : Word) ∨ a = 0x2000 := by
    intro a ha
    obtain ⟨second, ha⟩ := ha
    rw [List.mem_singleton.mp ha]
    cases second <;> simp
  have hapart : Apart fun a => a = (0x3000 : Word) ∨ a = 0x1000 ∨ a = 0x2000 := by
    intro x y hx hy
    obtain rfl | rfl | rfl := hx <;> obtain rfl | rfl | rfl := hy <;> decide
  have hheap : ListHeap (ListHead.listHeadInit (ListHead.listHeadInit (fun _ => 0) 0x1000) 0x2000)
      (fun second : Bool => if second then 0x2000 else 0x1000) (fun _ => []) := by
    refine ⟨⟨fun second => ⟨?_, List.nodup_singleton _⟩, fun j k hjk => ?_⟩, fun x y hx hy => ?_⟩
    · cases second <;> exact ⟨by decide, by decide⟩
    · have hne : (if j then 0x2000 else 0x1000 : Word) ≠ if k then 0x2000 else 0x1000 := by
        cases j <;> cases k <;> first | exact absurd rfl hjk | decide
      exact fun a ha hb => hne ((List.mem_singleton.mp ha).symm.trans (List.mem_singleton.mp hb))
    · exact hapart x y (Or.inr (hnodes x hx)) (Or.inr (hnodes y hy))
  refine ((lists_are_sequences hheap true).1 0x3000 ⟨fun hon => ?_, fun x y hx hy => ?_⟩).1
  · exact absurd (hnodes _ hon) (by decide)
  · exact hapart x y (hx.imp_right (hnodes x)) (hy.imp_right (hnodes y))

end Heap

end I386Kernel
