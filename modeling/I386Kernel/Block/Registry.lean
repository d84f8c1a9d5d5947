import I386Kernel.Base
import I386Kernel.Task.List

/-!
# The block registry

`strlcpy` and `strcmp` of `lib/string.c` and the registry of `devices/block.c`. The name of a block is an array of 16 bytes; `strcmp` may look one byte past it, at the first byte of the next field.
-/

namespace I386Kernel

open CircularList (Links)

/-- The characters of a C string. -/
structure CString where
  chars : List UInt8
  nonul : 0 ∉ chars

/-! ## `lib/string.c` -/

/-- `char` is signed. -/
def charVal (c : UInt8) : Int := c.toBitVec.toInt

/-- The `size` bytes at `dest` after a copy of the string `src`; what follows the terminator stays. -/
def strlcpy (dest : Nat → UInt8) (src : List UInt8) (size : Nat) : Nat → UInt8 :=
  if size > 0 then
    let destLen := if src.length < size - 1 then src.length else size - 1
    fun i => if i < destLen then src.getD i 0 else if i = destLen then 0 else dest i
  else dest

/-- The characters at which the loop of `strcmp` stops; the increments are done also when the characters differ. -/
def strcmpStop : List UInt8 → (Nat → UInt8) → UInt8 × UInt8
  | [], str2 => (0, str2 0)
  | c :: str1, str2 =>
      if c = str2 0 then strcmpStop str1 (fun i => str2 (i + 1)) else (str1.headD 0, str2 1)

def strcmp (str1 : List UInt8) (str2 : Nat → UInt8) : Int :=
  let stop := strcmpStop str1 str2
  if charVal stop.1 < charVal stop.2 then -1 else if charVal stop.1 > charVal stop.2 then 1 else 0

/-! ## `devices/block.c` -/

structure Block where
  name : Fin 16 → UInt8
  nrSectors : Word
  ops : Word
  params : Word

/-- The bytes of a block from its name on, up to the end of `nr_sectors`. -/
def Block.bytes (b : Block) (i : Nat) : UInt8 :=
  if h : i < 16 then b.name ⟨i, h⟩ else UInt8.ofNat (b.nrSectors.toNat / 256 ^ (i - 16))

/-- The blocks, and the list they are registered on; its head is the node `none`. -/
structure Registry where
  links : Links (Option Word)
  block : Word → Block
  /-- The registered blocks in the order of their registration: a record that no function reads. -/
  order : List Word

namespace Registry

def blockInit (r : Registry) : Registry := { r with links := listHeadInit r.links none, order := [] }

def blockRegister (r : Registry) (blk : Word) (name : Option CString) (nrSectors ops params : Word) : Registry :=
  match name with
  | none => r
  | some name =>
      if blk = 0 then r
      else
        { links := listAddTail r.links (some blk) none
          block := Function.update r.block blk
            { name := fun i => strlcpy (r.block blk).bytes name.chars 16 i
              nrSectors := nrSectors
              ops := ops
              params := params }
          order := r.order ++ [blk] }

def blockUnregister (r : Registry) (blk : Word) : Registry :=
  if blk = 0 then r else { r with links := listDel r.links (some blk), order := r.order.erase blk }

/-- `list_for_each_entry`, with the number of rounds it may take. -/
def lookupLoop (r : Registry) (name : List UInt8) : Nat → Option Word → Option (Option Word)
  | 0, _ => none
  | _ + 1, none => some none
  | fuel + 1, some blk =>
      if strcmp name (r.block blk).bytes = 0 then some (some blk)
      else lookupLoop r name fuel (r.links.next (some blk))

/-- The block found or `NULL`; no result if the rounds do not suffice. -/
def blcokGetByName (r : Registry) (name : List UInt8) (fuel : Nat) : Option (Option Word) :=
  r.lookupLoop name fuel (r.links.next none)

end Registry

/-! ## Registered names -/

/-- The name a block is registered under: the bytes up to the terminator. -/
def Block.storedName (b : Block) : List UInt8 := (List.ofFn b.name).takeWhile (· ≠ 0)

theorem charVal_inj {a b : UInt8} (h : charVal a = charVal b) : a = b :=
  UInt8.toBitVec_inj.mp (BitVec.eq_of_toInt_eq h)

theorem strcmp_eq_zero (str1 : List UInt8) (str2 : Nat → UInt8) :
    strcmp str1 str2 = 0 ↔ (strcmpStop str1 str2).1 = (strcmpStop str1 str2).2 := by
  simp only [strcmp]
  constructor
  · intro h
    apply charVal_inj
    split at h
    · cases h
    · split at h
      · cases h
      · omega
  · intro h
    rw [h, if_neg (Int.lt_irrefl _), if_neg (Int.lt_irrefl _)]

/-- The names differ, but not at the position after the first difference. -/
def Mistaken (q : List UInt8) (name : Nat → UInt8) : Prop :=
  ∃ i, i < q.length ∧ (∀ j < i, q.getD j 0 = name j) ∧ q.getD i 0 ≠ name i ∧ q.getD (i + 1) 0 = name (i + 1)

/-- The terminated string at `name` is `q`. -/
def SpelledAs (q : List UInt8) (name : Nat → UInt8) : Prop :=
  (∀ j < q.length, q.getD j 0 = name j) ∧ name q.length = 0

theorem mistaken_cons {c : UInt8} {q : List UInt8} {name : Nat → UInt8} : Mistaken (c :: q) name ↔
    (c ≠ name 0 ∧ q.headD 0 = name 1) ∨ (c = name 0 ∧ Mistaken q fun i => name (i + 1)) := by
  constructor
  · rintro ⟨i, hi, hagree, hne, hnext⟩
    cases i with
    | zero =>
        refine Or.inl ⟨hne, ?_⟩
        cases q <;> exact hnext
    | succ i =>
        refine Or.inr ⟨hagree 0 (Nat.succ_pos i), i, Nat.lt_of_succ_lt_succ hi, fun j hj => ?_, hne, hnext⟩
        exact hagree (j + 1) (Nat.succ_lt_succ hj)
  · rintro (⟨hne, hnext⟩ | ⟨heq, i, hi, hagree, hne, hnext⟩)
    · refine ⟨0, Nat.succ_pos _, fun j hj => absurd hj (Nat.not_lt_zero j), hne, ?_⟩
      cases q <;> exact hnext
    · refine ⟨i + 1, Nat.succ_lt_succ hi, fun j hj => ?_, hne, hnext⟩
      cases j with
      | zero => exact heq
      | succ j => exact hagree j (Nat.lt_of_succ_lt_succ hj)

theorem spelledAs_cons {c : UInt8} {q : List UInt8} {name : Nat → UInt8} :
    SpelledAs (c :: q) name ↔ c = name 0 ∧ SpelledAs q fun i => name (i + 1) := by
  constructor
  · rintro ⟨hagree, hnul⟩
    exact ⟨hagree 0 (Nat.succ_pos _), fun j hj => hagree (j + 1) (Nat.succ_lt_succ hj), hnul⟩
  · rintro ⟨heq, hagree, hnul⟩
    refine ⟨fun j hj => ?_, hnul⟩
    cases j with
    | zero => exact heq
    | succ j => exact hagree j (Nat.lt_of_succ_lt_succ hj)

/-- What a `strcmp` of zero means. -/
theorem strcmp_eq_zero_iff (q : List UInt8) (name : Nat → UInt8) :
    strcmp q name = 0 ↔ SpelledAs q name ∨ Mistaken q name := by
  rw [strcmp_eq_zero]
  induction q generalizing name with
  | nil =>
      have hnot : ¬ Mistaken [] name := fun ⟨i, hi, _⟩ => absurd hi (Nat.not_lt_zero i)
      refine ⟨fun h => Or.inl ⟨fun j hj => absurd hj (Nat.not_lt_zero j), h.symm⟩, fun h => ?_⟩
      exact (h.resolve_right hnot).2.symm
  | cons c q ih =>
      rw [mistaken_cons, spelledAs_cons, strcmpStop]
      by_cases hc : c = name 0
      · rw [if_pos hc, ih]
        simp only [hc, true_and, ne_eq, not_true_eq_false, false_and, false_or]
      · rw [if_neg hc]
        simp only [hc, ne_eq, not_false_eq_true, true_and, false_and, false_or, or_false]

end I386Kernel
