import Mathlib.Data.List.TakeWhile
import I386Kernel.Block.Registry
import I386Kernel.Lib.Transition

/-!
# Looking up a block by its name

In every run of registrations and removals the list holds the registered blocks in order, and a lookup returns the first one `strcmp` takes for the name asked for.
-/

namespace I386Kernel

open CircularList (Links Ring Seg)

/-! ## Stored names -/

private theorem takeWhile_eq_iff {l q : List UInt8} {name : Nat → UInt8} (hl : ∀ i < l.length, l.getD i 0 = name i)
    (hnul : 0 ∈ l) (hq : 0 ∉ q) : l.takeWhile (· ≠ 0) = q ↔ SpelledAs q name := by
  induction l generalizing q name with
  | nil => cases hnul
  | cons c l ih =>
      have hc : c = name 0 := hl 0 (Nat.succ_pos _)
      by_cases hzero : c = 0
      · rw [List.takeWhile_cons_of_neg (by simp [hzero])]
        cases q with
        | nil => exact ⟨fun _ => ⟨fun j hj => absurd hj (Nat.not_lt_zero j), hc.symm.trans hzero⟩, fun _ => rfl⟩
        | cons c' q =>
            refine ⟨fun h => (by cases h), fun h => ?_⟩
            have hc' := (spelledAs_cons.mp h).1
            exact absurd (List.mem_cons.mpr (Or.inl (hzero.symm.trans (hc.trans hc'.symm)))) hq
      · have htail : ∀ i < l.length, l.getD i 0 = name (i + 1) := fun i hi => hl (i + 1) (Nat.succ_lt_succ hi)
        have hnul' : 0 ∈ l := (List.mem_cons.mp hnul).resolve_left (fun h => hzero h.symm)
        rw [List.takeWhile_cons_of_pos (by simp [hzero])]
        cases q with
        | nil =>
            refine ⟨fun h => (by cases h), fun h => ?_⟩
            exact absurd (hc.trans h.2) hzero
        | cons c' q =>
            have hq' : 0 ∉ q := fun h => hq (List.mem_cons_of_mem c' h)
            rw [spelledAs_cons, List.cons.injEq, ih htail hnul' hq', hc, eq_comm]

theorem Block.storedName_eq_iff {b : Block} (hnul : ∃ i, b.name i = 0) (q : CString) :
    b.storedName = q.chars ↔ SpelledAs q.chars b.bytes := by
  refine takeWhile_eq_iff (fun i hi => ?_) ?_ q.nonul
  · have hi' : i < 16 := by simpa using hi
    rw [List.getD_eq_getElem?_getD, List.getElem?_ofFn, dif_pos hi', bytes, dif_pos hi']
    rfl
  · obtain ⟨i, hi⟩ := hnul
    exact List.mem_ofFn.mpr ⟨i, hi⟩

section Register

variable (r : Registry) {blk : Word} (name : CString) (nrSectors ops params : Word)

private theorem name_blockRegister (hblk : blk ≠ 0) (i : Fin 16) :
    ((r.blockRegister blk (some name) nrSectors ops params).block blk).name i =
      strlcpy (r.block blk).bytes name.chars 16 i := by
  rw [Registry.blockRegister, if_neg hblk]
  change (Function.update r.block blk _ blk).name i = _
  rw [Function.update_self]

private theorem strlcpy_sixteen (dest : Nat → UInt8) (src : List UInt8) (i : Nat) :
    strlcpy dest src 16 i = if i < (src.take 15).length then (src.take 15).getD i 0
      else if i = (src.take 15).length then 0 else dest i := by
  have hlen : (if src.length < 16 - 1 then src.length else 16 - 1) = (src.take 15).length := by
    rw [List.length_take]
    split <;> omega
  rw [strlcpy, if_pos (by decide)]
  simp only [hlen]
  split
  · rename_i hi
    rw [List.length_take] at hi
    simp [show i < 15 by omega]
  · rfl

theorem terminated_blockRegister (hblk : blk ≠ 0) :
    ∃ i, ((r.blockRegister blk (some name) nrSectors ops params).block blk).name i = 0 := by
  have hlen : (name.chars.take 15).length < 16 := by
    rw [List.length_take]
    omega
  refine ⟨⟨_, hlen⟩, ?_⟩
  rw [name_blockRegister r name nrSectors ops params hblk, strlcpy_sixteen, if_neg (Nat.lt_irrefl _), if_pos rfl]

/-- A name is stored without what exceeds 15 characters. -/
theorem storedName_blockRegister (hblk : blk ≠ 0) :
    ((r.blockRegister blk (some name) nrSectors ops params).block blk).storedName = name.chars.take 15 := by
  have hlen : (name.chars.take 15).length < 16 := by
    rw [List.length_take]
    omega
  have hnonul : 0 ∉ name.chars.take 15 := fun h => name.nonul (List.mem_of_mem_take h)
  refine (Block.storedName_eq_iff (terminated_blockRegister r name nrSectors ops params hblk) ⟨_, hnonul⟩).mpr ⟨?_, ?_⟩
  · intro j hj
    have hj' : j < 16 := Nat.lt_trans hj hlen
    rw [Block.bytes, dif_pos hj', name_blockRegister r name nrSectors ops params hblk, strlcpy_sixteen, if_pos hj]
  · rw [Block.bytes, dif_pos hlen, name_blockRegister r name nrSectors ops params hblk, strlcpy_sixteen,
      if_neg (Nat.lt_irrefl _), if_pos rfl]

end Register

/-! ## Runs -/

inductive RegistryCall where
  | register (blk : Word) (name : Option CString) (nrSectors ops params : Word)
  | unregister (blk : Word)

namespace Registry

/-- A block is registered only while it is not, and removed only while it is. -/
def callStep (r : Registry) : RegistryCall → Option Registry
  | .register blk name nrSectors ops params =>
      if blk ∈ r.order then none else some (r.blockRegister blk name nrSectors ops params)
  | .unregister blk => if blk = 0 ∨ blk ∈ r.order then some (r.blockUnregister blk) else none

def registrySystem : TransitionSystem Registry RegistryCall :=
  .ofFn (fun r => ∃ r₀ : Registry, r = r₀.blockInit) callStep

structure Inv (r : Registry) : Prop where
  ring : Ring r.links none (r.order.map some)
  terminated : ∀ b ∈ r.order, ∃ i, (r.block b).name i = 0

theorem Inv.register {r : Registry} (h : r.Inv) {blk : Word} (hfresh : blk ∉ r.order) (name : Option CString)
    (nrSectors ops params : Word) : (r.blockRegister blk name nrSectors ops params).Inv := by
  cases name with
  | none => exact h
  | some name =>
      by_cases hblk : blk = 0
      · rw [blockRegister, if_pos hblk]
        exact h
      · have hnode : some blk ∉ none :: r.order.map some := by
          intro hmem
          obtain heq | hmem := List.mem_cons.mp hmem
          · cases heq
          · obtain ⟨b, hb, heq⟩ := List.mem_map.mp hmem
            cases heq
            exact hfresh hb
        have hring := h.ring.insertTail hnode
        have hnul := terminated_blockRegister r name nrSectors ops params hblk
        rw [blockRegister, if_neg hblk] at hnul ⊢
        refine ⟨?_, fun b hb => ?_⟩
        · rw [listAddTail_eq, List.map_append]
          exact hring
        · obtain hb | hb := List.mem_append.mp hb
          · obtain ⟨i, hi⟩ := h.terminated b hb
            refine ⟨i, ?_⟩
            have hne : b ≠ blk := fun heq => hfresh (heq ▸ hb)
            change (Function.update r.block blk _ b).name i = 0
            rw [Function.update_of_ne hne]
            exact hi
          · rw [List.mem_singleton.mp hb]
            exact hnul

private theorem map_some_erase (bs : List Word) (b : Word) :
    (bs.erase b).map some = @List.erase _ instBEqOfDecidableEq (bs.map some) (some b) := by
  have hbeq : (instBEqOfDecidableEq : BEq (Option Word)) = Option.instBEq := lawful_beq_subsingleton _ _
  rw [hbeq]
  exact List.map_erase (fun _ _ => Option.some.inj) bs

theorem Inv.unregister {r : Registry} (h : r.Inv) {blk : Word} (hmem : blk = 0 ∨ blk ∈ r.order) :
    (r.blockUnregister blk).Inv := by
  by_cases hblk : blk = 0
  · rw [blockUnregister, if_pos hblk]
    exact h
  · have hmem := hmem.resolve_left hblk
    have hring := h.ring.unlink (List.mem_map_of_mem hmem)
    rw [blockUnregister, if_neg hblk]
    rw [← map_some_erase, ← listDel_eq] at hring
    exact ⟨hring, fun b hb => h.terminated b (List.mem_of_mem_erase hb)⟩

theorem inv_reachable {r : Registry} (h : registrySystem.Reachable r) : r.Inv := by
  refine TransitionSystem.invariant _ ?_ (fun r call r' _ hinv hstep => ?_) h
  · rintro r ⟨r₀, rfl⟩
    exact ⟨Ring.makeHead r₀.links none, fun b hb => nomatch hb⟩
  · cases call with
    | register blk name nrSectors ops params =>
        obtain ⟨hfresh, heq⟩ := Option.ite_none_left_eq_some.mp hstep
        cases heq
        exact hinv.register hfresh name nrSectors ops params
    | unregister blk =>
        obtain ⟨hmem, heq⟩ := Option.ite_none_right_eq_some.mp hstep
        cases heq
        exact hinv.unregister hmem

/-! ## Lookups -/

/-- The loop goes through the list in order. -/
theorem lookupLoop_seg (r : Registry) (q : List UInt8) {a : Option Word} {bs : List Word}
    (h : Seg r.links a (bs.map some) none) {fuel : Nat} (hfuel : bs.length < fuel) :
    r.lookupLoop q fuel (r.links.next a) = some (bs.find? fun b => strcmp q (r.block b).bytes = 0) := by
  induction bs generalizing a fuel with
  | nil =>
      cases fuel with
      | zero => exact absurd hfuel (Nat.not_lt_zero _)
      | succ fuel =>
          have hend : r.links.next a = none := h.1
          rw [hend]
          rfl
  | cons b bs ih =>
      cases fuel with
      | zero => exact absurd hfuel (Nat.not_lt_zero _)
      | succ fuel =>
          have hnext : r.links.next a = some b := h.1.1
          rw [hnext, lookupLoop, ih h.2 (Nat.lt_of_succ_lt_succ hfuel)]
          by_cases hb : strcmp q (r.block b).bytes = 0
          · rw [if_pos hb, List.find?_cons_of_pos (by simp [hb])]
          · rw [if_neg hb, List.find?_cons_of_neg (by simp [hb])]

end Registry

/-- Two searches for the first element agree when the wider one finds nothing that the narrower one passes over. -/
private theorem find?_eq_iff {α : Type} {p p' : α → Bool} {l : List α}
    (himp : ∀ a ∈ l, p' a = true → p a = true) : l.find? p = l.find? p' ↔ ∀ a ∈ l.takeWhile (fun a => !p' a), p a = false := by
  induction l with
  | nil => simp
  | cons a l ih =>
      have ih := ih fun b hb => himp b (List.mem_cons_of_mem a hb)
      cases hp' : p' a with
      | true => simp [hp', himp a (List.mem_cons_self ..) hp']
      | false =>
          cases hp : p a with
          | true =>
              refine ⟨fun h => ?_, fun h => ?_⟩
              · rw [List.find?_cons_of_pos hp, List.find?_cons_of_neg (by simp [hp'])] at h
                have := List.find?_some h.symm
                rw [hp'] at this
                cases this
              · have := h a (by simp [hp'])
                rw [hp] at this
                cases this
          | false => simp [hp, hp', ih]

namespace Registry

/-- The block the registry is asked for: the first one registered under the name `q`. -/
def expected (r : Registry) (q : CString) : Option Word := r.order.find? fun b => (r.block b).storedName = q.chars

/-- `blcok_get_by_name` finds the first block of the name exactly when no block that stands before it is mistaken for it. -/
theorem blcokGetByName_iff {r : Registry} (h : registrySystem.Reachable r) (q : CString) {fuel : Nat}
    (hfuel : r.order.length < fuel) :
    r.blcokGetByName q.chars fuel = some (r.expected q) ↔
      ∀ b ∈ r.order.takeWhile (fun b => (r.block b).storedName ≠ q.chars), ¬ Mistaken q.chars (r.block b).bytes := by
  have hinv := inv_reachable h
  have hname : ∀ b ∈ r.order, ((r.block b).storedName = q.chars ↔ SpelledAs q.chars (r.block b).bytes) :=
    fun b hb => Block.storedName_eq_iff (hinv.terminated b hb) q
  rw [blcokGetByName, lookupLoop_seg r q.chars hinv.ring.seg hfuel, Option.some.injEq, expected, find?_eq_iff]
  · have hwhile : (r.order.takeWhile fun b => !decide ((r.block b).storedName = q.chars)) =
        r.order.takeWhile (fun b => (r.block b).storedName ≠ q.chars) := by
      congr 1
      funext b
      simp
    rw [hwhile]
    refine forall₂_congr fun b hb => ?_
    have hmem := List.takeWhile_subset _ hb
    have hne := List.mem_takeWhile_imp hb
    rw [decide_eq_true_iff, ne_eq, hname b hmem] at hne
    rw [decide_eq_false_iff_not, strcmp_eq_zero_iff, or_iff_right hne]
  · intro b hb heq
    rw [decide_eq_true_iff, hname b hb] at heq
    rw [decide_eq_true_iff, strcmp_eq_zero_iff]
    exact Or.inl heq

def hda : CString := ⟨"hda".toList.map ascii, by decide⟩

def hdb : CString := ⟨"hdb".toList.map ascii, by decide⟩

/-- Two disks of one channel. -/
private def twoDisks : List RegistryCall :=
  [.register 0xc0110000 hda 0x1000 0 0, .register 0xc0110024 hdb 0x2000 0 0]

private def emptyRegistry : Registry := ⟨⟨fun _ => none, fun _ => none⟩, fun _ => ⟨fun _ => 0, 0, 0, 0⟩, []⟩

private theorem reachable_twoDisks : ∃ r, registrySystem.Reachable r ∧ r.order = [0xc0110000, 0xc0110024] ∧
    r.blcokGetByName hda.chars 3 = some (some 0xc0110000) ∧ r.expected hda = some 0xc0110000 ∧
    r.blcokGetByName hdb.chars 3 = some (some 0xc0110000) ∧ r.expected hdb = some 0xc0110024 := by
  have hview : (TransitionSystem.exec callStep emptyRegistry.blockInit twoDisks).map (fun r =>
      (r.order, r.blcokGetByName hda.chars 3, r.expected hda, r.blcokGetByName hdb.chars 3, r.expected hdb)) =
      some ([0xc0110000, 0xc0110024], some (some 0xc0110000), some 0xc0110000, some (some 0xc0110000),
        some 0xc0110024) := by decide +kernel
  obtain ⟨r, hexec, hview⟩ := Option.map_eq_some_iff.mp hview
  simp only [Prod.mk.injEq] at hview
  have hinit : registrySystem.Reachable emptyRegistry.blockInit := .init ⟨emptyRegistry, rfl⟩
  exact ⟨r, TransitionSystem.reachable_exec twoDisks hinit hexec, hview⟩

theorem blcokGetByName_iff_hda : ∃ r, registrySystem.Reachable r ∧
    ∀ b ∈ r.order.takeWhile (fun b => (r.block b).storedName ≠ hda.chars), ¬ Mistaken hda.chars (r.block b).bytes := by
  obtain ⟨r, hr, horder, hfound, hexpected, -⟩ := reachable_twoDisks
  have hfuel : r.order.length < 3 := by
    rw [horder]
    decide
  refine ⟨r, hr, (blcokGetByName_iff hr hda hfuel).mp ?_⟩
  rw [hfound, hexpected]

/-- A lookup of `hdb` finds `hda`. -/
theorem not_blcokGetByName : ¬ ∀ r, registrySystem.Reachable r → ∀ (q : CString) (fuel : Nat), r.order.length < fuel →
    r.blcokGetByName q.chars fuel = some (r.expected q) := by
  intro h
  obtain ⟨r, hr, horder, -, -, hfound, hexpected⟩ := reachable_twoDisks
  have heq := h r hr hdb 3 (by rw [horder]; decide)
  rw [hfound, hexpected] at heq
  exact absurd heq (by decide)

end Registry

end I386Kernel
