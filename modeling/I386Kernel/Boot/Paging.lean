import I386Kernel.Boot.Loader
import I386Kernel.Memory.LinearMap

/-!
# The page tables of `boot/start.S`

Before it enters protected mode, `start` clears a page directory at 0xf000, points as many of its entries at the tables from 0x10000 on as memory has blocks of 4 MB, sixteen at most, once from address 0 and once from 3 GB, and fills all sixteen tables. The stores go through `es` in real mode, where a word that does not lie below 64 kB of the segment is a fault. The counter of the first loop is the number of blocks, so with less than 4 MB of memory it starts at zero and the loop does not end before that fault.

As in the walk of `kernel_pg_dir_init`, memory is indexed by the address at which the kernel sees a physical word.
-/

namespace I386Kernel.BootPaging

open Loader (phys)
open CountedLoop (Ends loop passes count)

/-- The registers of the loops. -/
structure Fill where
  mem : Mem
  eax : Word
  edi : Word

/-- A store of a word at `es:off`. -/
def storeEs (es : BitVec 16) (off val : Word) (m : Mem) : Except Mem Mem :=
  if off ≤ 0xfffc then .ok (Function.update m (ptov (phys es (off.setWidth 16))) val) else .error m

/-- `stosl` at the address size of the segment: the upper half of `edi` stays as it is. -/
def stosl (f : Fill) : Except Mem Fill := do
  let m ← storeEs 0xf00 ((f.edi.extractLsb' 0 16).setWidth 32) f.eax f.mem
  return ⟨m, f.eax, f.edi.extractLsb' 16 16 ++ (f.edi.extractLsb' 0 16 + 4)⟩

/-- One pass of the loop over the directory. -/
def addPde (f : Fill) : Except Mem Fill := do
  let m ← storeEs 0xf00 f.edi f.eax f.mem
  let m ← storeEs 0xf00 (f.edi + kernelVaddrBase >>> 20) f.eax m
  return ⟨m, f.eax + 0x1000, f.edi + 4⟩

/-- One pass of the loop over the tables. -/
def addPte (f : Fill) : Except Mem Fill := do
  let m ← storeEs 0x1000 f.edi f.eax f.mem
  return ⟨m, f.eax + 0x1000, f.edi + 4⟩

/-- The counter of the loop over the directory. -/
def pdeCount (initRamPages : Word) : BitVec 16 :=
  let ecx := initRamPages >>> 10
  (if ecx ≤ 0x10 then ecx else 0x10).setWidth 16

/-- Memory afterwards and the value loaded into `cr3`, or memory at the fault. -/
def bootTables (m : Mem) (initRamPages : Word) : Except Mem (Mem × Word) := do
  let f ← passes stosl 1024 ⟨m, 0, 0⟩
  let f ← loop addPde (pdeCount initRamPages) ⟨f.mem, 0x10007, 0⟩
  let f ← loop addPte (0x4000 : BitVec 16) ⟨f.mem, 7, 0⟩
  return (f.mem, 0xf000)

/-! ## Words of a range -/

/-- Word `x` from physical address `base` on. -/
def slot (base : Word) (x : Nat) : Word := wordAt (ptov base) (BitVec.ofNat 32 x)

theorem vtop_slot (base : Word) (x : Nat) : vtop (slot base x) = base + BitVec.ofNat 32 (4 * x) := by
  simp only [slot, wordAt, vtop, ptov, BitVec.ofNat_mul]
  bv_omega

theorem toNat_vtop_slot {base : Word} {x : Nat} (h : base.toNat + 4 * x < 2 ^ 32) :
    (vtop (slot base x)).toNat = base.toNat + 4 * x := by
  rw [vtop_slot, BitVec.toNat_add, BitVec.toNat_ofNat]
  omega

theorem slot_inj {base : Word} {x y : Nat} (hx : base.toNat + 4 * x < 2 ^ 32) (hy : base.toNat + 4 * y < 2 ^ 32)
    (h : slot base x = slot base y) : x = y := by
  have hnat := congrArg (fun a => (vtop a).toNat) h
  simp only [toNat_vtop_slot hx, toNat_vtop_slot hy] at hnat
  omega

/-- The `n` words from `base` on hold the values of `f`, and the rest of memory is that of `m`. -/
structure Filled (m m' : Mem) (base : Word) (n : Nat) (f : Nat → Word) : Prop where
  entry : ∀ x, x < n → m' (slot base x) = f x
  frame : ∀ a, (∀ x, x < n → a ≠ slot base x) → m' a = m a

namespace Filled

variable {m m' : Mem} {base : Word} {n : Nat} {f g : Nat → Word}

theorem zero (m : Mem) (base : Word) (f : Nat → Word) : Filled m m base 0 f := by
  constructor
  · intro x hx
    exact absurd hx (Nat.not_lt_zero x)
  · intro a _
    rfl

theorem congr (h : Filled m m' base n f) (hfg : ∀ x, x < n → f x = g x) : Filled m m' base n g :=
  ⟨fun x hx => (h.entry x hx).trans (hfg x hx), h.frame⟩

/-- A store to the word behind the range. -/
theorem push (h : Filled m m' base n f) (hn : base.toNat + 4 * n < 2 ^ 32) :
    Filled m (Function.update m' (slot base n) (f n)) base (n + 1) f := by
  constructor
  · intro x hx
    rcases Nat.lt_succ_iff_lt_or_eq.mp hx with hlt | rfl
    · have hne : slot base x ≠ slot base n := fun heq =>
        Nat.ne_of_lt hlt (slot_inj (Nat.lt_trans (by omega) hn) hn heq)
      rw [Function.update_of_ne hne]
      exact h.entry x hlt
    · exact Function.update_self _ _ _
  · intro a ha
    rw [Function.update_of_ne (ha n (Nat.lt_succ_self n))]
    exact h.frame a fun x hx => ha x (Nat.lt_succ_of_lt hx)

/-- A store to a word of the range. -/
theorem set (h : Filled m m' base n f) (hn : base.toNat + 4 * n ≤ 2 ^ 32) {x : Nat} (hx : x < n) (val : Word) :
    Filled m (Function.update m' (slot base x) val) base n (Function.update f x val) := by
  constructor
  · intro y hy
    by_cases hyx : y = x
    · subst hyx
      rw [Function.update_self, Function.update_self]
    · have hne : slot base y ≠ slot base x := fun heq => hyx (slot_inj (by omega) (by omega) heq)
      rw [Function.update_of_ne hne, Function.update_of_ne hyx]
      exact h.entry y hy
  · intro a ha
    rw [Function.update_of_ne (ha x hx)]
    exact h.frame a ha

end Filled

/-! ## The stores -/

theorem storeEs_slot (es : BitVec 16) {x : Nat} (hx : x < 0x4000) (val : Word) (m : Mem) :
    storeEs es (BitVec.ofNat 32 (4 * x)) val m = pure (Function.update m (slot (phys es 0) x) val) := by
  have hoff : (BitVec.ofNat 32 (4 * x)).toNat = 4 * x := Nat.mod_eq_of_lt (by omega)
  have hle : BitVec.ofNat 32 (4 * x) ≤ 0xfffc := by
    rw [BitVec.le_def, hoff]
    change 4 * x ≤ 0xfffc
    omega
  have hwidth : ((BitVec.ofNat 32 (4 * x)).setWidth 16).setWidth 32 = BitVec.ofNat 32 (4 * x) := by
    apply BitVec.eq_of_toNat_eq
    rw [BitVec.toNat_setWidth, BitVec.toNat_setWidth, hoff]
    omega
  have haddr : ptov (phys es ((BitVec.ofNat 32 (4 * x)).setWidth 16)) = slot (phys es 0) x := by
    have hzero : phys es 0 = es.setWidth 32 * 16 := BitVec.add_zero _
    rw [slot, wordAt, hzero, phys, hwidth, BitVec.ofNat_mul, ptov, ptov, add_right_comm]
    rfl
  rw [storeEs, if_pos hle, haddr]
  rfl

theorem storeEs_fault (es : BitVec 16) {off : Word} (hoff : 0xfffc < off.toNat) (val : Word) (m : Mem) :
    storeEs es off val m = .error m := by
  rw [storeEs, if_neg]
  rw [BitVec.le_def]
  exact Nat.not_le_of_gt hoff

/-! ## The loops -/

/-- The entry for the page at physical address `p`: present, writable and open to user code. -/
def bootEntry (p : Nat) : Word := BitVec.ofNat 32 (p + 7)

/-- Where an entry of the directory points after `k` passes: both copies count from zero. -/
def pdeAfter (k x : Nat) : Word := if x % 768 < k then bootEntry (0x10000 + 0x1000 * (x % 768)) else 0

def pteOf (x : Nat) : Word := bootEntry (0x1000 * x)

/-- Where a loop stands after `i` passes that started with `eax` at `p + 7`. -/
structure Filling (m : Mem) (base : Word) (n : Nat) (f : Nat → Word) (p i : Nat) (s : Fill) : Prop where
  mem : Filled m s.mem base n f
  eax : s.eax = bootEntry (p + 0x1000 * i)
  edi : s.edi = BitVec.ofNat 32 (4 * i)

theorem ofNat_next (i : Nat) : BitVec.ofNat 32 (4 * i) + 4 = BitVec.ofNat 32 (4 * (i + 1)) := by
  rw [Nat.mul_succ, BitVec.ofNat_add]
  rfl

theorem bootEntry_next (p i : Nat) : bootEntry (p + 0x1000 * i) + 0x1000 = bootEntry (p + 0x1000 * (i + 1)) := by
  rw [bootEntry, bootEntry, Nat.mul_succ, ← Nat.add_assoc, Nat.add_right_comm _ 0x1000 7, BitVec.ofNat_add _ 0x1000]
  rfl

theorem phys_directory : phys 0xf00 0 = 0xf000 := by decide

theorem phys_tables : phys 0x1000 0 = 0x10000 := by decide

theorem addPte_ends {m : Mem} {i : Nat} (hi : i < 0x4000) {s : Fill} (h : Filling m 0x10000 i pteOf 0 i s) :
    Ends (Filling m 0x10000 (i + 1) pteOf 0 (i + 1)) (fun _ => False) (addPte s) := by
  rw [addPte, h.edi, storeEs_slot _ hi, pure_bind, phys_tables]
  refine ⟨?_, ?_, ofNat_next i⟩
  · have hpush := h.mem.push (by change 0x10000 + _ < _; omega)
    rw [show pteOf i = s.eax by rw [h.eax, pteOf, Nat.zero_add]] at hpush
    exact hpush
  · rw [← bootEntry_next, ← h.eax]

theorem pdeAfter_succ {k : Nat} (hk : k < 0x10) {x : Nat} (hx : x < 1024) :
    Function.update (Function.update (pdeAfter k) k (bootEntry (0x10000 + 0x1000 * k))) (k + 768)
      (bootEntry (0x10000 + 0x1000 * k)) x = pdeAfter (k + 1) x := by
  by_cases hhigh : x = k + 768
  · subst hhigh
    rw [Function.update_self, pdeAfter, Nat.add_mod_right, Nat.mod_eq_of_lt (by omega), if_pos (Nat.lt_succ_self k)]
  · rw [Function.update_of_ne hhigh]
    by_cases hlow : x = k
    · subst hlow
      rw [Function.update_self, pdeAfter, Nat.mod_eq_of_lt (by omega), if_pos (Nat.lt_succ_self x)]
    · rw [Function.update_of_ne hlow, pdeAfter, pdeAfter]
      have hiff : x % 768 < k ↔ x % 768 < k + 1 := by omega
      exact if_congr hiff rfl rfl

theorem addPde_ends {m : Mem} {i : Nat} (hi : i < 0x10) {s : Fill} (h : Filling m 0xf000 1024 (pdeAfter i) 0x10000 i s) :
    Ends (Filling m 0xf000 1024 (pdeAfter (i + 1)) 0x10000 (i + 1)) (fun _ => False) (addPde s) := by
  have hcopy : BitVec.ofNat 32 (4 * i) + kernelVaddrBase >>> 20 = BitVec.ofNat 32 (4 * (i + 768)) := by
    rw [Nat.mul_add, BitVec.ofNat_add]
    rfl
  rw [addPde, h.edi, storeEs_slot _ (by omega), pure_bind, hcopy, storeEs_slot _ (by omega), pure_bind,
    phys_directory]
  refine ⟨?_, ?_, ofNat_next i⟩
  · rw [h.eax]
    have hbase : (0xf000 : Word).toNat + 4 * 1024 ≤ 2 ^ 32 := by decide
    have hset := (h.mem.set hbase (show i < 1024 by omega) (bootEntry (0x10000 + 0x1000 * i))).set hbase
      (show i + 768 < 1024 by omega) (bootEntry (0x10000 + 0x1000 * i))
    exact hset.congr fun x hx => pdeAfter_succ hi hx
  · rw [← bootEntry_next, ← h.eax]

/-- Where the directory is cleared up to entry `i`. -/
structure Clearing (m : Mem) (i : Nat) (s : Fill) : Prop where
  mem : Filled m s.mem 0xf000 i (fun _ => 0)
  eax : s.eax = 0
  edi : s.edi = BitVec.ofNat 32 (4 * i)

theorem stosl_ends {m : Mem} {i : Nat} (hi : i < 1024) {s : Fill} (h : Clearing m i s) :
    Ends (Clearing m (i + 1)) (fun _ => False) (stosl s) := by
  have hedi : (BitVec.ofNat 32 (4 * i)).toNat = 4 * i := Nat.mod_eq_of_lt (by omega)
  have hlow : ((BitVec.ofNat 32 (4 * i)).extractLsb' 0 16).toNat = 4 * i := by
    rw [BitVec.extractLsb'_toNat, hedi, Nat.shiftRight_zero]
    omega
  have hdi : ((BitVec.ofNat 32 (4 * i)).extractLsb' 0 16).setWidth 32 = BitVec.ofNat 32 (4 * i) := by
    apply BitVec.eq_of_toNat_eq
    rw [BitVec.toNat_setWidth, hlow, hedi]
    omega
  rw [stosl, h.edi, h.eax, hdi, storeEs_slot _ (by omega), pure_bind, phys_directory]
  refine ⟨h.mem.push (by change 0xf000 + _ < _; omega), rfl, ?_⟩
  apply BitVec.eq_of_toNat_eq
  have hnext : ((BitVec.ofNat 32 (4 * i)).extractLsb' 0 16 + 4).toNat = 4 * i + 4 := by
    rw [BitVec.toNat_add, hlow]
    exact Nat.mod_eq_of_lt (by change 4 * i + 4 < 2 ^ 16; omega)
  have hhigh : ((BitVec.ofNat 32 (4 * i)).extractLsb' 16 16).toNat = 0 := by
    rw [BitVec.extractLsb'_toNat, hedi, Nat.shiftRight_eq_div_pow]
    omega
  rw [BitVec.toNat_append, hnext, hhigh, Nat.zero_shiftLeft, Nat.zero_or, BitVec.toNat_ofNat]
  omega

/-- The second store of a pass reaches the limit of the segment. -/
theorem addPde_edi {i : Nat} (hi : i ≤ 0x3d00) {s : Fill} (hedi : s.edi = BitVec.ofNat 32 (4 * i)) :
    Ends (fun s' => s'.edi = BitVec.ofNat 32 (4 * (i + 1)) ∧ i + 1 ≤ 0x3d00) (fun _ => True) (addPde s) := by
  have hcopy : BitVec.ofNat 32 (4 * i) + kernelVaddrBase >>> 20 = BitVec.ofNat 32 (4 * (i + 768)) := by
    rw [Nat.mul_add, BitVec.ofNat_add]
    rfl
  rcases Nat.lt_or_ge i 0x3d00 with hlt | hge
  · rw [addPde, hedi, storeEs_slot _ (by omega), pure_bind, hcopy, storeEs_slot _ (by omega), pure_bind]
    exact ⟨ofNat_next i, hlt⟩
  · have hlimit : 0xfffc < (BitVec.ofNat 32 (4 * (i + 768))).toNat := by
      rw [BitVec.toNat_ofNat]
      omega
    rw [addPde, hedi, storeEs_slot _ (by omega), pure_bind, hcopy, storeEs_fault _ hlimit]
    trivial

/-- A counter that starts at zero does not come down to zero before that. -/
theorem loop_addPde_faults {s : Fill} (hedi : s.edi = 0) : ∃ e, loop addPde (0 : BitVec 16) s = .error e := by
  have hend := CountedLoop.loop_ends (c := (0 : BitVec 16)) 
    (P := fun i (s : Fill) => s.edi = BitVec.ofNat 32 (4 * i) ∧ i ≤ 0x3d00) (Q := fun _ _ => True) ⟨hedi, Nat.zero_le _⟩ fun i s _ h => addPde_edi h.2 h.1
  cases hloop : loop addPde (0 : BitVec 16) s with
  | error e => exact ⟨e, rfl⟩
  | ok s =>
      rw [hloop, CountedLoop.count_zero] at hend
      exact absurd hend.2 (by decide)

/-! ## The tables -/

/-- The directory with so many blocks of 4 MB mapped, and the tables. -/
structure BootTables (blocks : Nat) (m : Mem) : Prop where
  pde : ∀ x, x < 1024 → m (slot 0xf000 x) = pdeAfter blocks x
  pte : ∀ x, x < 0x4000 → m (slot 0x10000 x) = pteOf x

/-- How many blocks are mapped. -/
def bootBlocks (initRamPages : Word) : Nat := min (initRamPages.toNat / 1024) 16

/-- The address lies in the directory or in a table. -/
def InBootTables (a : Word) : Prop := 0xf000 ≤ (vtop a).toNat ∧ (vtop a).toNat < 0x20000

theorem toNat_pdeCount (initRamPages : Word) : (pdeCount initRamPages).toNat = bootBlocks initRamPages := by
  have hshift : (initRamPages >>> 10).toNat = initRamPages.toNat / 1024 := by
    rw [BitVec.toNat_ushiftRight, Nat.shiftRight_eq_div_pow]
  rw [pdeCount, BitVec.toNat_setWidth, bootBlocks, ← hshift]
  by_cases hle : initRamPages >>> 10 ≤ 0x10
  · have hle' : (initRamPages >>> 10).toNat ≤ 16 := hle
    rw [if_pos hle, Nat.min_eq_left hle', Nat.mod_eq_of_lt (by omega)]
  · have hle' : ¬ (initRamPages >>> 10).toNat ≤ 16 := hle
    rw [if_neg hle, Nat.min_eq_right (by omega)]
    rfl

theorem toNat_directory {x : Nat} (hx : x < 1024) : (vtop (slot 0xf000 x)).toNat = 0xf000 + 4 * x :=
  toNat_vtop_slot (by change 0xf000 + _ < _; omega)

theorem toNat_tables {x : Nat} (hx : x < 0x4000) : (vtop (slot 0x10000 x)).toNat = 0x10000 + 4 * x :=
  toNat_vtop_slot (by change 0x10000 + _ < _; omega)

theorem inBootTables_directory {x : Nat} (hx : x < 1024) : InBootTables (slot 0xf000 x) := by
  rw [InBootTables, toNat_directory hx]
  omega

theorem inBootTables_tables {x : Nat} (hx : x < 0x4000) : InBootTables (slot 0x10000 x) := by
  rw [InBootTables, toNat_tables hx]
  omega

theorem BootTables.congr {blocks : Nat} {m m' : Mem} (h : BootTables blocks m) (heq : ∀ a, InBootTables a → m' a = m a) :
    BootTables blocks m' := by
  constructor
  · intro x hx
    rw [heq _ (inBootTables_directory hx)]
    exact h.pde x hx
  · intro x hx
    rw [heq _ (inBootTables_tables hx)]
    exact h.pte x hx

/-- What the code leaves: with 4 MB of memory or more the tables, and otherwise a fault. -/
structure Tabled (m : Mem) (initRamPages : Word) (r : Mem × Word) : Prop where
  large : 1024 ≤ initRamPages.toNat
  cr3 : r.2 = 0xf000
  tables : BootTables (bootBlocks initRamPages) r.1
  frame : ∀ a, ¬ InBootTables a → r.1 a = m a

theorem bootTables_ends (m : Mem) (initRamPages : Word) :
    Ends (Tabled m initRamPages) (fun _ => initRamPages.toNat < 1024) (bootTables m initRamPages) := by
  have hclear := CountedLoop.passes_ends (n := 1024) (P := Clearing m) (Q := fun _ _ => False) (s := ⟨m, 0, 0⟩)
    ⟨Filled.zero m _ _, rfl, rfl⟩ fun i s hi h => stosl_ends hi h
  refine hclear.bind (by simp) fun f₁ h₁ => ?_
  have hcount := toNat_pdeCount initRamPages
  by_cases hzero : pdeCount initRamPages = 0
  · obtain ⟨e, he⟩ := loop_addPde_faults (s := ⟨f₁.mem, 0x10007, 0⟩) rfl
    rw [hzero] at hcount ⊢
    rw [he]
    change initRamPages.toNat < 1024
    change 0 = min _ _ at hcount
    omega
  · have hblocks : count (pdeCount initRamPages) = bootBlocks initRamPages :=
      (CountedLoop.count_of_ne hzero).trans hcount
    have hle : bootBlocks initRamPages ≤ 16 := Nat.min_le_right _ _
    have hpos : 0 < bootBlocks initRamPages := by
      rw [← hblocks]
      exact CountedLoop.count_pos _
    have hstart : Filled m f₁.mem 0xf000 1024 (pdeAfter 0) :=
      h₁.mem.congr fun x _ => (if_neg (Nat.not_lt_zero _)).symm
    have hdir := CountedLoop.loop_ends (c := pdeCount initRamPages) (Q := fun _ _ => False)
      (P := fun i s => Filling m 0xf000 1024 (pdeAfter i) 0x10000 i s) (s := ⟨f₁.mem, 0x10007, 0⟩) ⟨hstart, rfl, rfl⟩
      fun i s hi h => addPde_ends (by omega) h
    refine hdir.bind (by simp) fun f₂ h₂ => ?_
    have htab := CountedLoop.loop_ends (c := (0x4000 : BitVec 16)) (Q := fun _ _ => False)
      (P := fun i s => Filling f₂.mem 0x10000 i pteOf 0 i s) (s := ⟨f₂.mem, 7, 0⟩) ⟨Filled.zero _ _ _, rfl, rfl⟩
      fun i s hi h => addPte_ends hi h
    refine htab.bind (by simp) fun f₃ h₃ => ?_
    have hcount₃ : count (0x4000 : BitVec 16) = 0x4000 := CountedLoop.count_of_ne (by decide)
    rw [hcount₃] at h₃
    rw [hblocks] at h₂
    have hne : ∀ x y, x < 1024 → y < 0x4000 → slot 0xf000 x ≠ slot 0x10000 y := by
      intro x y hx hy heq
      have haddr := toNat_directory hx
      rw [heq, toNat_tables hy] at haddr
      omega
    refine ⟨?_, rfl, ⟨fun x hx => ?_, h₃.mem.entry⟩, fun a ha => ?_⟩
    · rw [bootBlocks] at hpos
      omega
    · exact (h₃.mem.frame _ fun y hy => hne x y hx hy).trans (h₂.mem.entry x hx)
    · have hold := h₂.mem.frame a fun x hx heq => ha (heq ▸ inBootTables_directory hx)
      exact (h₃.mem.frame a fun x hx heq => ha (heq ▸ inBootTables_tables hx)).trans hold

/-! ## The walk -/

/-- Both copies of the first blocks are mapped to the frames of their physical addresses. -/
def bootTranslation (blocks : Nat) (v : Word) : Option Translation :=
  if v.toNat < 0x400000 * blocks then some ⟨pgNo v, true, true⟩
  else if (vtop v).toNat < 0x400000 * blocks then some ⟨pgNo (vtop v), true, true⟩
  else none

theorem bootEntry_eq {p : Nat} (hp : p % 0x1000 = 0) (hlt : p < 2 ^ 32) : bootEntry p = mkPde (BitVec.ofNat 32 p) 7 := by
  have hmod : (BitVec.ofNat 32 p).toNat % 0x1000 = 0 := by
    rw [BitVec.toNat_ofNat, Nat.mod_eq_of_lt hlt]
    exact hp
  have hphys := and_phy_of_aligned hmod
  have hlow : BitVec.ofNat 32 p &&& 7 = 0 := by
    rw [← hphys, BitVec.and_assoc]
    exact BitVec.and_zero
  rw [mkPde]
  change _ = (BitVec.ofNat 32 p &&& 0xfffff000) ||| 7
  rw [hphys, bootEntry, BitVec.ofNat_add]
  exact BitVec.add_eq_or_of_and_eq_zero _ _ hlow

theorem getLsbD_bootEntry {p i : Nat} (hp : p % 0x1000 = 0) (hlt : p < 2 ^ 32) (hi : i < 3) :
    (bootEntry p).getLsbD i = true := by
  have hbit : ∀ i : Fin 3, (7 : Word).getLsbD i.val = true := by decide
  rw [bootEntry_eq hp hlt, getLsbD_mkPde _ _ (by omega), if_pos (by omega)]
  exact hbit ⟨i, hi⟩

theorem bootEntry_phy {p : Nat} (hp : p % 0x1000 = 0) (hlt : p < 2 ^ 32) : bootEntry p &&& 0xfffff000 = BitVec.ofNat 32 p := by
  rw [bootEntry_eq hp hlt, mkPde_phy]
  apply and_phy_of_aligned
  rw [BitVec.toNat_ofNat, Nat.mod_eq_of_lt hlt]
  exact hp

theorem bootEntry_frame {x : Nat} (hx : x < 2 ^ 20) : bootEntry (0x1000 * x) >>> 12 = BitVec.ofNat 32 x := by
  rw [bootEntry_eq (Nat.mul_mod_right _ _) (by omega), mkPde_frame]
  apply BitVec.eq_of_toNat_eq
  rw [BitVec.toNat_ushiftRight, BitVec.toNat_ofNat, Nat.shiftRight_eq_div_pow, BitVec.toNat_ofNat]
  omega

/-- The entry of a table that the directory points at, as a word of all the tables together. -/
theorem slot_table (d r : Nat) :
    wordAt (ptov (BitVec.ofNat 32 (0x10000 + 0x1000 * d))) (BitVec.ofNat 32 r) = slot 0x10000 (1024 * d + r) := by
  have hsplit : (4 : Word) * BitVec.ofNat 32 (1024 * d + r) = BitVec.ofNat 32 (0x1000 * d) + 4 * BitVec.ofNat 32 r := by
    have hmul : 0x1000 * d = 4 * (1024 * d) := by omega
    rw [BitVec.ofNat_add, BitVec.mul_add, hmul, BitVec.ofNat_mul 4]
    rfl
  rw [slot, wordAt, wordAt, hsplit, BitVec.ofNat_add, ptov, ptov, ← add_assoc, add_right_comm (BitVec.ofNat 32 0x10000)]
  rfl

theorem BootTables.walk {blocks : Nat} {m : Mem} (h : BootTables blocks m) (hle : blocks ≤ 16) (v : Word) :
    walk m 0xf000 v = bootTranslation blocks v := by
  have hv := v.isLt
  -- `d` is the block and `r` the page in it
  have hdir : v >>> 22 = BitVec.ofNat 32 (v.toNat / 0x400000) := by
    apply BitVec.eq_of_toNat_eq
    rw [BitVec.toNat_ushiftRight, Nat.shiftRight_eq_div_pow, BitVec.toNat_ofNat]
    omega
  have htab : v >>> 12 &&& 0x3ff = BitVec.ofNat 32 (v.toNat / 0x1000 % 1024) := by
    apply BitVec.eq_of_toNat_eq
    rw [← virtToPtIdx_eq, toNat_virtToPtIdx, BitVec.toNat_ofNat]
    omega
  have hvtop : (vtop v).toNat = (v.toNat + 0x40000000) % 2 ^ 32 := by
    rw [vtop, BitVec.toNat_sub, Nat.add_comm]
    rfl
  have hpde : m (wordAt (ptov (0xf000 &&& 0xfffff000)) (v >>> 22)) = pdeAfter blocks (v.toNat / 0x400000) := by
    rw [hdir]
    exact h.pde _ (by omega)
  rw [I386Kernel.walk, bootTranslation]
  simp only [hpde, htab, pdeAfter]
  generalize hd : v.toNat / 0x400000 % 768 = d
  generalize hr : v.toNat / 0x1000 % 1024 = r
  by_cases hblock : d < blocks
  · have hpte := h.pte (1024 * d + r) (by omega)
    have hp : (0x10000 + 0x1000 * d) % 0x1000 = 0 := by omega
    have hq : 0x1000 * (1024 * d + r) % 0x1000 = 0 := Nat.mul_mod_right _ _
    have hpbit := fun i (hi : i < 3) => getLsbD_bootEntry hp (by omega) hi
    have hqbit := fun i (hi : i < 3) => getLsbD_bootEntry hq (by omega) hi
    have hframe : bootEntry (0x1000 * (1024 * d + r)) >>> 12 = BitVec.ofNat 32 (1024 * d + r) := bootEntry_frame (by omega)
    rw [pteOf] at hpte
    simp only [if_pos hblock, bootEntry_phy hp (show 0x10000 + 0x1000 * d < 2 ^ 32 by omega), slot_table, hpte,
      hpbit 0 (by decide), hpbit 1 (by decide), hpbit 2 (by decide), hqbit 0 (by decide), hqbit 1 (by decide),
      hqbit 2 (by decide), hframe, if_true, Bool.and_self]
    have hpage : ∀ a : Word, a.toNat / 0x1000 = 1024 * d + r → BitVec.ofNat 32 (1024 * d + r) = pgNo a := by
      intro a ha
      apply BitVec.eq_of_toNat_eq
      rw [toNat_pgNo, ha, BitVec.toNat_ofNat]
      omega
    by_cases hlow : v.toNat < 0x400000 * blocks
    · rw [if_pos hlow, hpage v (by omega)]
    · rw [if_neg hlow, if_pos (by omega), hpage (vtop v) (by omega)]
  · have hlow : ¬ v.toNat < 0x400000 * blocks := by omega
    have hhigh : ¬ (vtop v).toNat < 0x400000 * blocks := by omega
    simp [if_neg hblock, hlow, hhigh]

/-- Memory is mapped at its physical addresses and once more from 3 GB on, and only the directory and the tables have been written. -/
structure BootMapped (m : Mem) (initRamPages : Word) (r : Mem × Word) : Prop where
  large : 1024 ≤ initRamPages.toNat
  walk : ∀ v, walk r.1 r.2 v = bootTranslation (bootBlocks initRamPages) v
  frame : ∀ a, ¬ InBootTables a → r.1 a = m a

/-- With 4 MB of memory or more the tables map its first blocks twice, and with less the code does not get past the first loop. -/
theorem bootTables_map (m : Mem) (initRamPages : Word) :
    Ends (BootMapped m initRamPages) (fun _ => initRamPages.toNat < 1024) (bootTables m initRamPages) := by
  have hends := bootTables_ends m initRamPages
  cases hrun : bootTables m initRamPages with
  | error e =>
      rw [hrun] at hends
      exact hends
  | ok r =>
      rw [hrun] at hends
      refine ⟨hends.large, fun v => ?_, hends.frame⟩
      rw [hends.cr3]
      exact hends.tables.walk (Nat.min_le_right _ _) v

end I386Kernel.BootPaging
