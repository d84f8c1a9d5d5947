import I386Kernel.Memory.BitmapSet

/-!
# What the bitmap functions access

The functions of `lib/kernel/bitmap.c` with a record of every word they read or write and every index they test. Without the record they are the functions of the bitmap module; with it, no access of a bitmap leaves the words that hold its bits, whatever the arguments.
-/

namespace I386Kernel

inductive Access where
  | read (addr : Word)
  | write (addr : Word)
  /-- A call of `bitmap_test_bit`. -/
  | test (idx : Word)

/-- Memory, and the accesses so far. -/
structure Traced where
  mem : Mem
  log : List Access

namespace Traced

def note (s : Traced) (e : Access) : Traced := { s with log := s.log ++ [e] }

abbrev load (s : Traced) (addr : Word) : Word × Traced := (s.mem addr, s.note (.read addr))

def store (s : Traced) (addr v : Word) : Traced := { s.note (.write addr) with mem := Function.update s.mem addr v }

def createInBuf (s : Traced) (bitCount buf bufSize : Word) : Option Traced :=
  if bufSize - 4 < bitmapRequiredBufSize bitCount then none else some (s.store buf bitCount)

def configBit (s : Traced) (bm idx : Word) (val : Bool) : Traced :=
  let addr := bitsAddr bm (idx / 32)
  let bitMask := (1 : Word) <<< (idx % 32)
  let (bitCount, s) := s.load bm
  if bitCount ≤ idx then s
  else
    let (word, s) := s.load addr
    if val then s.store addr (word ||| bitMask) else s.store addr (word &&& ~~~bitMask)

def configAll (s : Traced) (bm : Word) (val : Bool) : Traced :=
  let v : Word := if val then -1 else 0
  let (bitCount, s) := s.load bm
  let u32Bound := bitCount / 32
  let (bitCount, s) := s.load bm
  let u32Res := bitCount % 32
  let words := (List.range u32Bound.toNat).foldl (fun s i => s.store (bitsAddr bm (BitVec.ofNat 32 i)) v) s
  (List.range u32Res.toNat).foldl (fun s i => s.configBit bm (u32Bound * 32 + BitVec.ofNat 32 i) val) words

def testBit (s : Traced) (bm idx : Word) (val : Bool) : Bool × Traced :=
  let bitMask := (1 : Word) <<< (idx % 32)
  let (word, s) := (s.note (.test idx)).load (bitsAddr bm (idx / 32))
  (if val then word &&& bitMask != 0 else ~~~word &&& bitMask != 0, s)

/-- The loop of `bitmap_find_first_bits_group`. -/
def findGroupLoop (bm bitCount : Word) (val : Bool) (idxCur idxLast : Word) (s : Traced) : Word × Traced :=
  let bound := s.load bm
  if bound.1 < idxLast then (bitmapErr, bound.2)
  else
    let bound := bound.2.load bm
    if h : bound.1 ≤ idxCur then (bitmapErr, bound.2)
    else
      let testFlag := bound.2.testBit bm idxCur val
      if testFlag.1 then
        if idxCur + 1 = idxLast then (idxCur + 1 - bitCount, testFlag.2)
        else findGroupLoop bm bitCount val (idxCur + 1) idxLast testFlag.2
      else findGroupLoop bm bitCount val (idxCur + 1) (idxCur + 1 + bitCount) testFlag.2
termination_by (s.mem bm).toNat - idxCur.toNat
decreasing_by
  all_goals
    change ¬ s.mem bm ≤ idxCur at h
    change (s.mem bm).toNat - _ < _
    bv_omega

def findFirstBitsGroup (s : Traced) (bm idxStart bitCount : Word) (val : Bool) : Word × Traced :=
  findGroupLoop bm bitCount val idxStart (idxStart + bitCount) s

/-- The common body of `bitmap_set_multi_bits` and `bitmap_reset_multi_bits`. -/
def configMultiBits (s : Traced) (bm idxStart bitCount : Word) (val : Bool) : Traced :=
  let idxLast := idxStart + bitCount
  let (bound, s) := s.load bm
  if bound < idxLast then s
  else (List.range (idxLast.toNat - idxStart.toNat)).foldl
    (fun s i => s.configBit bm (idxStart + BitVec.ofNat 32 i) val) s

/-! ## The same functions -/

@[simp] theorem mem_store (s : Traced) (addr v : Word) : (s.store addr v).mem = Function.update s.mem addr v := rfl

theorem mem_createInBuf (s : Traced) (bitCount buf bufSize : Word) :
    (s.createInBuf bitCount buf bufSize).map Traced.mem = bitmapCreateInBuf s.mem bitCount buf bufSize := by
  rw [createInBuf, bitmapCreateInBuf]
  split <;> rfl

@[simp] theorem mem_configBit (s : Traced) (bm idx : Word) (val : Bool) :
    (s.configBit bm idx val).mem = bitmapConfigBit s.mem bm idx val := by
  simp only [configBit, bitmapConfigBit, apply_ite Traced.mem, mem_store]
  rfl

theorem mem_foldl {f : Traced → Nat → Traced} {g : Mem → Nat → Mem} (h : ∀ s i, (f s i).mem = g s.mem i)
    (l : List Nat) (s : Traced) : (l.foldl f s).mem = l.foldl g s.mem := by
  induction l generalizing s with
  | nil => rfl
  | cons i l ih => rw [List.foldl_cons, List.foldl_cons, ih, h]

@[simp] theorem mem_configAll (s : Traced) (bm : Word) (val : Bool) :
    (s.configAll bm val).mem = bitmapConfigAll s.mem bm val := by
  simp only [configAll, bitmapConfigAll]
  rw [mem_foldl (g := fun m i => bitmapConfigBit m bm (s.mem bm / 32 * 32 + BitVec.ofNat 32 i) val)
      fun s i => mem_configBit s bm _ val,
    mem_foldl (g := fun m i => Function.update m (bitsAddr bm (BitVec.ofNat 32 i)) (if val then -1 else 0))
      fun s i => mem_store s _ _]
  rfl

@[simp] theorem mem_configMultiBits (s : Traced) (bm idxStart bitCount : Word) (val : Bool) :
    (s.configMultiBits bm idxStart bitCount val).mem = bitmapConfigMultiBits s.mem bm idxStart bitCount val := by
  simp only [configMultiBits, bitmapConfigMultiBits, apply_ite Traced.mem]
  rw [mem_foldl (g := fun m i => bitmapConfigBit m bm (idxStart + BitVec.ofNat 32 i) val)
    fun s i => mem_configBit s bm _ val]
  rfl

theorem findGroupLoop_eq (bm bitCount : Word) (val : Bool) (idxCur idxLast : Word) (s : Traced) :
    (findGroupLoop bm bitCount val idxCur idxLast s).1 = I386Kernel.findGroupLoop s.mem bm bitCount val idxCur idxLast ∧
      (findGroupLoop bm bitCount val idxCur idxLast s).2.mem = s.mem := by
  fun_induction findGroupLoop bm bitCount val idxCur idxLast s with
  | case1 idxCur idxLast s bound h =>
      rw [I386Kernel.findGroupLoop, dif_neg fun hin => BitVec.not_le.mpr h hin.1]
      exact ⟨rfl, rfl⟩
  | case2 idxCur idxLast s bound hle bound' h =>
      rw [I386Kernel.findGroupLoop, dif_neg fun hin => BitVec.not_lt.mpr h hin.2]
      exact ⟨rfl, rfl⟩
  | case3 idxCur s bound bound' h testFlag htest hle =>
      have htest' : bitmapTestBit s.mem bm idxCur val = true := htest
      rw [I386Kernel.findGroupLoop, dif_pos ⟨BitVec.not_lt.mp hle, BitVec.not_le.mp h⟩, if_pos htest', if_pos rfl]
      exact ⟨rfl, rfl⟩
  | case4 idxCur idxLast s bound hle bound' h testFlag htest hne ih =>
      have htest' : bitmapTestBit s.mem bm idxCur val = true := htest
      rw [I386Kernel.findGroupLoop, dif_pos ⟨BitVec.not_lt.mp hle, BitVec.not_le.mp h⟩, if_pos htest', if_neg hne]
      exact ih
  | case5 idxCur idxLast s bound hle bound' h testFlag htest ih =>
      have htest' : ¬ bitmapTestBit s.mem bm idxCur val = true := htest
      rw [I386Kernel.findGroupLoop, dif_pos ⟨BitVec.not_lt.mp hle, BitVec.not_le.mp h⟩, if_neg htest']
      exact ih

theorem findFirstBitsGroup_eq (s : Traced) (bm idxStart bitCount : Word) (val : Bool) :
    (s.findFirstBitsGroup bm idxStart bitCount val).1 = bitmapFindFirstBitsGroup s.mem bm idxStart bitCount val ∧
      (s.findFirstBitsGroup bm idxStart bitCount val).2.mem = s.mem :=
  findGroupLoop_eq ..

end Traced

/-! ## Where the accesses are -/

/-- An access of the header or of a word that holds one of `bound` bits, or a test of one of these. -/
def Access.On (bm : Word) (bound : Nat) : Access → Prop
  | read addr | write addr => addr = bm ∨ ∃ i, i < bound ∧ addr = bitWord bm i
  | test idx => idx.toNat < bound

namespace Traced

/-- What comes into the record from `s` to `s'` satisfies `P`. -/
def Adds (s s' : Traced) (P : Access → Prop) : Prop := ∃ l, s'.log = s.log ++ l ∧ ∀ e ∈ l, P e

variable {s s' s'' : Traced} {P : Access → Prop}

theorem Adds.refl (s : Traced) (P : Access → Prop) : Adds s s P := ⟨[], (List.append_nil _).symm, nofun⟩

theorem Adds.trans (h : Adds s s' P) (h' : Adds s' s'' P) : Adds s s'' P := by
  obtain ⟨l, hl, hP⟩ := h
  obtain ⟨l', hl', hP'⟩ := h'
  refine ⟨l ++ l', by rw [hl', hl, List.append_assoc], fun e he => ?_⟩
  exact (List.mem_append.mp he).elim (hP e) (hP' e)

theorem Adds.note {e : Access} (h : Adds s s' P) (he : P e) : Adds s (s'.note e) P := by
  apply h.trans
  exact ⟨[e], rfl, fun e' he' => List.mem_singleton.mp he' ▸ he⟩

theorem Adds.store {addr : Word} (h : Adds s s' P) (he : P (.write addr)) (v : Word) : Adds s (s'.store addr v) P := by
  obtain ⟨l, hl, hP⟩ := h.note he
  exact ⟨l, hl, hP⟩

theorem Adds.mem {e : Access} (h : Adds s s' P) (he : e ∈ s'.log) : e ∈ s.log ∨ P e := by
  obtain ⟨l, hl, hP⟩ := h
  rw [hl, List.mem_append] at he
  exact he.imp_right (hP e)

theorem Adds.subset {e : Access} (h : Adds s s' P) (he : e ∈ s.log) : e ∈ s'.log := by
  obtain ⟨l, hl, -⟩ := h
  rw [hl]
  exact List.mem_append_left l he

/-- A loop adds what its steps add, as long as the steps keep `Q`. -/
theorem Adds.foldl {f : Traced → Nat → Traced} {Q : Traced → Prop} {l : List Nat}
    (hf : ∀ s i, i ∈ l → Q s → Adds s (f s i) P ∧ Q (f s i)) (hQ : Q s) : Adds s (l.foldl f s) P ∧ Q (l.foldl f s) := by
  induction l generalizing s with
  | nil => exact ⟨Adds.refl s P, hQ⟩
  | cons i l ih =>
      obtain ⟨hadds, hQ'⟩ := hf s i List.mem_cons_self hQ
      obtain ⟨hrest, hQ''⟩ := ih (fun s j hj => hf s j (List.mem_cons_of_mem i hj)) hQ'
      exact ⟨hadds.trans hrest, hQ''⟩

/-- A loop adds what the step of one of its indices is sure to add. -/
theorem mem_log_foldl {f : Traced → Nat → Traced} {Q : Traced → Prop} {l : List Nat} {i : Nat} {e : Access} (hi : i ∈ l)
    (hf : ∀ s i, i ∈ l → Q s → Adds s (f s i) P ∧ Q (f s i)) (he : ∀ s, Q s → e ∈ (f s i).log) (hQ : Q s) :
    e ∈ (l.foldl f s).log := by
  obtain ⟨l₁, l₂, rfl⟩ := List.append_of_mem hi
  rw [List.foldl_append, List.foldl_cons]
  have hbefore := Adds.foldl (fun s j hj => hf s j (List.mem_append_left _ hj)) hQ
  have hstep := hf _ i (List.mem_append_right _ List.mem_cons_self) hbefore.2
  have hafter := Adds.foldl
    (fun s j hj => hf s j (List.mem_append_right _ (List.mem_cons_of_mem i hj))) hstep.2
  exact hafter.1.subset (he _ hbefore.2)

theorem bitsAddr_div (bm idx : Word) : bitsAddr bm (idx / 32) = bitWord bm idx.toNat := by
  have hdiv : BitVec.ofNat 32 (idx.toNat / 32) = idx / 32 := BitVec.eq_of_toNat_eq (by
    have hlt := idx.isLt
    change idx.toNat / 32 % 2 ^ 32 = idx.toNat / 32
    omega)
  rw [bitWord, hdiv]

theorem adds_configBit (s : Traced) (bm idx : Word) (val : Bool) :
    Adds s (s.configBit bm idx val) (Access.On bm (s.mem bm).toNat) := by
  have hheader : Adds s (s.note (.read bm)) (Access.On bm (s.mem bm).toNat) := (Adds.refl s _).note (Or.inl rfl)
  by_cases hidx : s.mem bm ≤ idx
  · simp only [configBit, if_pos hidx]
    exact hheader
  · have hword : (s.mem bm).toNat > idx.toNat := by bv_omega
    have hon : ∃ i, i < (s.mem bm).toNat ∧ bitsAddr bm (idx / 32) = bitWord bm i := ⟨idx.toNat, hword, bitsAddr_div bm idx⟩
    have hread := hheader.note (e := .read (bitsAddr bm (idx / 32))) (Or.inr hon)
    simp only [configBit, if_neg hidx]
    cases val
    · exact hread.store (Or.inr hon) _
    · exact hread.store (Or.inr hon) _

/-- A step of a loop of `bitmap_config_bit`. -/
theorem adds_configStep {bm idx : Word} {s₀ : Traced} (s : Traced) (val : Bool) (hheader : s.mem bm = s₀.mem bm) :
    Adds s (s.configBit bm idx val) (Access.On bm (s₀.mem bm).toNat) ∧ (s.configBit bm idx val).mem bm = s₀.mem bm := by
  refine ⟨hheader ▸ adds_configBit s bm idx val, ?_⟩
  rw [mem_configBit, bitmapConfigBit_header, hheader]

/-- A step of the whole-word loop of `bitmap_config_all`. -/
theorem adds_fillStep {bm v : Word} {s₀ : Traced} (s : Traced) {i : Nat} (hi : i < (s₀.mem bm).toNat / 32)
    (hheader : s.mem bm = s₀.mem bm) :
    Adds s (s.store (bitsAddr bm (BitVec.ofNat 32 i)) v) (Access.On bm (s₀.mem bm).toNat) ∧
      (s.store (bitsAddr bm (BitVec.ofNat 32 i)) v).mem bm = s₀.mem bm := by
  have hcount := (s₀.mem bm).isLt
  have hword : bitsAddr bm (BitVec.ofNat 32 i) = bitWord bm (32 * i) := by
    rw [bitWord, Nat.mul_div_cancel_left i (by decide)]
  refine ⟨(Adds.refl s _).store (Or.inr ⟨32 * i, by omega, hword⟩) _, ?_⟩
  rw [mem_store, hword, Function.update_of_ne (bitWord_ne_header bm (by omega)).symm]
  exact hheader

/-- The header is read twice before the loops of `bitmap_config_all`. -/
theorem adds_header (s : Traced) (bm : Word) (bound : Nat) :
    Adds s (s.note (.read bm)) (Access.On bm bound) ∧
      Adds s ((s.note (.read bm)).note (.read bm)) (Access.On bm bound) := by
  have hread : Access.On bm bound (.read bm) := Or.inl rfl
  have hone := (Adds.refl s _).note hread
  exact ⟨hone, hone.note hread⟩

theorem write_mem_configBit (s : Traced) {bm idx : Word} (val : Bool) (hidx : idx < s.mem bm) :
    .write (bitWord bm idx.toNat) ∈ (s.configBit bm idx val).log := by
  rw [← bitsAddr_div]
  simp only [configBit, if_neg (BitVec.not_le.mpr hidx)]
  cases val
  · exact List.mem_append_right _ (List.mem_singleton.mpr rfl)
  · exact List.mem_append_right _ (List.mem_singleton.mpr rfl)

/-- `bitmap_config_all` stays on the bitmap and writes the word of every bit. -/
theorem adds_configAll (s : Traced) (bm : Word) (val : Bool) :
    Adds s (s.configAll bm val) (Access.On bm (s.mem bm).toNat) ∧
      ∀ i, i < (s.mem bm).toNat → .write (bitWord bm i) ∈ (s.configAll bm val).log := by
  have hcount := (s.mem bm).isLt
  have hbound : (s.mem bm / 32).toNat = (s.mem bm).toNat / 32 := rfl
  have hres : (s.mem bm % 32).toNat = (s.mem bm).toNat % 32 := rfl
  have hfillStep : ∀ s' i, i ∈ List.range (s.mem bm / 32).toNat → s'.mem bm = s.mem bm →
      Adds s' (s'.store (bitsAddr bm (BitVec.ofNat 32 i)) (if val then -1 else 0)) (Access.On bm (s.mem bm).toNat) ∧
        (s'.store (bitsAddr bm (BitVec.ofNat 32 i)) (if val then -1 else 0)).mem bm = s.mem bm :=
    fun s' i hi => adds_fillStep s' (List.mem_range.mp hi)
  have hrestStep : ∀ s' i, i ∈ List.range (s.mem bm % 32).toNat → s'.mem bm = s.mem bm →
      Adds s' (s'.configBit bm (s.mem bm / 32 * 32 + BitVec.ofNat 32 i) val) (Access.On bm (s.mem bm).toNat) ∧
        (s'.configBit bm (s.mem bm / 32 * 32 + BitVec.ofNat 32 i) val).mem bm = s.mem bm :=
    fun s' i _ => adds_configStep s' val
  have hfill := Adds.foldl (s := ((s.load bm).2.load bm).2) hfillStep rfl
  have hrest := Adds.foldl hrestStep hfill.2
  refine ⟨((adds_header s bm _).2.trans hfill.1).trans hrest.1, fun i hi => ?_⟩
  by_cases hword : i / 32 < (s.mem bm).toNat / 32
  · -- one of the whole words
    apply hrest.1.subset
    apply mem_log_foldl (s := ((s.load bm).2.load bm).2) (List.mem_range.mpr (hbound ▸ hword)) hfillStep _ rfl
    intro s' _
    exact List.mem_append_right _ (List.mem_singleton.mpr rfl)
  · -- the residual word
    have hidx : (s.mem bm / 32 * 32 + BitVec.ofNat 32 (i % 32)).toNat = i := by
      rw [BitVec.toNat_add, BitVec.toNat_mul, hbound, BitVec.toNat_ofNat]
      change ((s.mem bm).toNat / 32 * 32 % 2 ^ 32 + i % 32 % 2 ^ 32) % 2 ^ 32 = i
      omega
    apply mem_log_foldl (i := i % 32) (List.mem_range.mpr (by omega)) hrestStep _ hfill.2
    intro s' hheader
    have hlt : s.mem bm / 32 * 32 + BitVec.ofNat 32 (i % 32) < s'.mem bm := by
      rw [hheader, BitVec.lt_def, hidx]
      exact hi
    have hwrite := write_mem_configBit s' val hlt
    rw [hidx] at hwrite
    exact hwrite

theorem adds_testBit (s : Traced) (bm idx : Word) (val : Bool) {bound : Nat} (hidx : idx.toNat < bound) :
    Adds s (s.testBit bm idx val).2 (Access.On bm bound) :=
  ((Adds.refl s _).note (e := .test idx) hidx).note (e := .read (bitsAddr bm (idx / 32)))
    (Or.inr ⟨idx.toNat, hidx, bitsAddr_div bm idx⟩)

theorem adds_findGroupLoop (bm bitCount : Word) (val : Bool) (idxCur idxLast : Word) (s : Traced) :
    Adds s (findGroupLoop bm bitCount val idxCur idxLast s).2 (Access.On bm (s.mem bm).toNat) := by
  have htests : ∀ (s : Traced) (idxCur : Word), ¬ s.mem bm ≤ idxCur →
      Adds s (((s.note (.read bm)).note (.read bm)).testBit bm idxCur val).2 (Access.On bm (s.mem bm).toNat) :=
    fun s idxCur h => (adds_header s bm _).2.trans (adds_testBit _ bm idxCur val (BitVec.lt_def.mp (BitVec.not_le.mp h)))
  fun_induction findGroupLoop bm bitCount val idxCur idxLast s with
  | case1 idxCur idxLast s bound h => exact (adds_header s bm _).1
  | case2 idxCur idxLast s bound hle bound' h => exact (adds_header s bm _).2
  | case3 idxCur s bound bound' h testFlag htest hle => exact htests s idxCur h
  | case4 idxCur idxLast s bound hle bound' h testFlag htest hne ih => exact (htests s idxCur h).trans ih
  | case5 idxCur idxLast s bound hle bound' h testFlag htest ih => exact (htests s idxCur h).trans ih

theorem adds_configMultiBits (s : Traced) (bm idxStart bitCount : Word) (val : Bool) :
    Adds s (s.configMultiBits bm idxStart bitCount val) (Access.On bm (s.mem bm).toNat) := by
  simp only [configMultiBits]
  split
  · exact (adds_header s bm _).1
  · have hstep : ∀ s' i, i ∈ List.range ((idxStart + bitCount).toNat - idxStart.toNat) → s'.mem bm = s.mem bm →
        Adds s' (s'.configBit bm (idxStart + BitVec.ofNat 32 i) val) (Access.On bm (s.mem bm).toNat) ∧
          (s'.configBit bm (idxStart + BitVec.ofNat 32 i) val).mem bm = s.mem bm :=
      fun s' _ _ => adds_configStep s' val
    exact (adds_header s bm _).1.trans (Adds.foldl (s := (s.load bm).2) hstep rfl).1

end Traced

/-! ## Accesses of every call -/

/-- The calls that a bitmap serves once it is built. -/
inductive BitmapCall where
  | update (op : BitmapOp)
  | testBit (idx : Word) (val : Bool)
  | findFirstBitsGroup (idxStart bitCount : Word) (val : Bool)

namespace Traced

def update (s : Traced) (bm : Word) : BitmapOp → Traced
  | .configAll val => s.configAll bm val
  | .configBit idx val => s.configBit bm idx val
  | .setBit idx => s.configBit bm idx true
  | .resetBit idx => s.configBit bm idx false
  | .setMultiBits idxStart bitCount => s.configMultiBits bm idxStart bitCount true
  | .resetMultiBits idxStart bitCount => s.configMultiBits bm idxStart bitCount false

def call (bm : Word) (s : Traced) : BitmapCall → Traced
  | .update op => s.update bm op
  | .testBit idx val => (s.testBit bm idx val).2
  | .findFirstBitsGroup idxStart bitCount val => (s.findFirstBitsGroup bm idxStart bitCount val).2

theorem mem_update (s : Traced) (bm : Word) (op : BitmapOp) : (s.update bm op).mem = op.run bm s.mem := by
  cases op with
  | configAll val => exact mem_configAll s bm val
  | configBit idx val => exact mem_configBit s bm idx val
  | setBit idx => exact mem_configBit s bm idx true
  | resetBit idx => exact mem_configBit s bm idx false
  | setMultiBits start n => exact mem_configMultiBits s bm start n true
  | resetMultiBits start n => exact mem_configMultiBits s bm start n false

theorem header_call (s : Traced) (bm : Word) (c : BitmapCall) : (s.call bm c).mem bm = s.mem bm := by
  cases c with
  | update op =>
      rw [call, mem_update]
      exact (op.setTo fun _ _ => Iff.rfl).header
  | testBit idx val => rfl
  | findFirstBitsGroup start n val => rw [call, (findFirstBitsGroup_eq s bm start n val).2]

/-- `bitmap_test_bit` does not check its index; its callers do. -/
theorem adds_call (s : Traced) {bm : Word} (c : BitmapCall) (hc : ∀ idx val, c = .testBit idx val → idx < s.mem bm) :
    Adds s (s.call bm c) (Access.On bm (s.mem bm).toNat) := by
  cases c with
  | update op =>
      cases op with
      | configAll val => exact (adds_configAll s bm val).1
      | configBit idx val => exact adds_configBit s bm idx val
      | setBit idx => exact adds_configBit s bm idx true
      | resetBit idx => exact adds_configBit s bm idx false
      | setMultiBits start n => exact adds_configMultiBits s bm start n true
      | resetMultiBits start n => exact adds_configMultiBits s bm start n false
  | testBit idx val => exact adds_testBit s bm idx val (BitVec.lt_def.mp (hc idx val rfl))
  | findFirstBitsGroup start n val => exact adds_findGroupLoop bm n val start (start + n) s

theorem adds_calls (s : Traced) {bm : Word} (calls : List BitmapCall)
    (hcalls : ∀ idx val, .testBit idx val ∈ calls → idx < s.mem bm) :
    Adds s (calls.foldl (call bm) s) (Access.On bm (s.mem bm).toNat) := by
  induction calls generalizing s with
  | nil => exact Adds.refl s _
  | cons c calls ih =>
      have hheader := header_call s bm c
      have hfirst := s.adds_call c fun idx val heq => hcalls idx val (heq ▸ List.mem_cons_self)
      have hrest := ih (s.call bm c) fun idx val hmem => hheader ▸ hcalls idx val (List.mem_cons_of_mem c hmem)
      exact hfirst.trans (hheader ▸ hrest)

end Traced

/-! ## First-fit search -/

/-- The search tests no bit beyond the bitmap, and it finds the least group from `idx_start` on, or fails when there is none. -/
theorem bitmapFindFirstBitsGroup_exact (m : Mem) (bm idxStart bitCount : Word) (val : Bool) (hpos : 1 ≤ bitCount) :
    let r := bitmapFindFirstBitsGroup m bm idxStart bitCount val
    let traced := Traced.findFirstBitsGroup ⟨m, []⟩ bm idxStart bitCount val
    let Fits : Nat → Prop := FirstFit.Run (fun j => bit m bm j = val) (m bm).toNat bitCount.toNat
    (r = bitmapErr ↔ ¬ ∃ i, idxStart.toNat ≤ i ∧ Fits i) ∧
      (r ≠ bitmapErr → idxStart.toNat ≤ r.toNat ∧ Fits r.toNat ∧ ∀ i, idxStart.toNat ≤ i → Fits i → r.toNat ≤ i) ∧
      traced.1 = r ∧ ∀ idx, .test idx ∈ traced.2.log → idx < m bm := by
  intro r traced Fits
  have hpos' : 0 < bitCount.toNat := by bv_omega
  refine ⟨?_, ?_, (Traced.findFirstBitsGroup_eq ..).1, fun idx htest => ?_⟩
  · obtain ⟨herr, hnone⟩ | hfirst := bitmapFindFirstBitsGroup_spec m bm idxStart bitCount val hpos'
    · exact iff_of_true herr fun ⟨i, hi, hfits⟩ => hnone i hi hfits
    · exact iff_of_false (ne_bitmapErr_of_isFirst hpos' hfirst) fun hnone => hnone ⟨_, hfirst.le, hfirst.run⟩
  · intro hne
    obtain ⟨herr, -⟩ | hfirst := bitmapFindFirstBitsGroup_spec m bm idxStart bitCount val hpos'
    · exact absurd herr hne
    · refine ⟨hfirst.le, hfirst.run, fun i hi hfits => ?_⟩
      by_contra hlt
      exact hfirst.least i hi (Nat.lt_of_not_le hlt) hfits
  · obtain hnil | hon := (Traced.adds_findGroupLoop bm bitCount val idxStart (idxStart + bitCount) ⟨m, []⟩).mem htest
    · cases hnil
    · exact BitVec.lt_def.mpr hon

theorem bitmapFindFirstBitsGroup_exact_wrapped :
    bitmapFindFirstBitsGroup (fun _ => 40) 0x1000 8 0xffffffff false = bitmapErr := by
  apply (bitmapFindFirstBitsGroup_exact (fun _ => 40) 0x1000 8 0xffffffff false (by decide)).1.mpr
  intro ⟨i, _, hlast, _⟩
  exact absurd hlast (by change ¬ i + 4294967295 ≤ 40; omega)

/-! ## Buffers -/

/-- The word lies within `bufSize` bytes of `buf`. -/
def Access.Within (buf bufSize : Word) : Access → Prop
  | read addr | write addr => (addr - buf).toNat + 4 ≤ bufSize.toNat
  | test _ => True

/-- A buffer is rejected, or no access of the bitmap that is built in it, by whatever calls, leaves it. -/
def BufferSafe (bitCount buf bufSize : Word) : Prop :=
  ∀ m s, Traced.createInBuf ⟨m, []⟩ bitCount buf bufSize = some s →
    ∀ calls : List BitmapCall, (∀ idx val, .testBit idx val ∈ calls → idx < bitCount) →
      ∀ e ∈ (calls.foldl (Traced.call buf) s).log, e.Within buf bufSize

theorem toNat_bitWord_sub (buf : Word) {i : Nat} (hi : i < 2 ^ 32) : (bitWord buf i - buf).toNat = 4 + 4 * (i / 32) := by
  have hoff : (4 + 4 * BitVec.ofNat 32 (i / 32) : Word).toNat = 4 + 4 * (i / 32) := by
    rw [BitVec.toNat_add, BitVec.toNat_mul, BitVec.toNat_ofNat]
    change (4 + 4 * (i / 32 % 2 ^ 32) % 2 ^ 32) % 2 ^ 32 = _
    omega
  have hsub : bitWord buf i - buf = 4 + 4 * BitVec.ofNat 32 (i / 32) := by
    rw [bitWord, bitsAddr]
    bv_omega
  rw [hsub, hoff]

theorem toNat_bitmapRequiredBufSize (bitCount : Word) :
    (bitmapRequiredBufSize bitCount).toNat = (bitCount.toNat + 7) % 2 ^ 32 / 8 := by
  have hsum : (bitCount + 8 - 1).toNat = (bitCount.toNat + 7) % 2 ^ 32 := by bv_omega
  rw [bitmapRequiredBufSize, divRoundUp, BitVec.toNat_udiv, hsum]
  rfl

/-- The buffer is accepted when it is smaller than the header, when the round-up wraps, or when the bytes suffice. -/
theorem createInBuf_eq_some_iff {s s' : Traced} {bitCount buf bufSize : Word} :
    s.createInBuf bitCount buf bufSize = some s' ↔
      (bufSize.toNat < 4 ∨ 2 ^ 32 ≤ bitCount.toNat + 7 ∨ 4 + (bitCount.toNat + 7) / 8 ≤ bufSize.toNat) ∧
        s' = s.store buf bitCount := by
  have hcount := bitCount.isLt
  have hsize := bufSize.isLt
  have hroom : bufSize - 4 < bitmapRequiredBufSize bitCount ↔
      ¬ (bufSize.toNat < 4 ∨ 2 ^ 32 ≤ bitCount.toNat + 7 ∨ 4 + (bitCount.toNat + 7) / 8 ≤ bufSize.toNat) := by
    have hsub : (bufSize - 4).toNat = if bufSize.toNat < 4 then bufSize.toNat + 2 ^ 32 - 4 else bufSize.toNat - 4 := by
      split <;> bv_omega
    rw [BitVec.lt_def, toNat_bitmapRequiredBufSize, hsub]
    split <;> omega
  rw [Traced.createInBuf]
  by_cases hreject : bufSize - 4 < bitmapRequiredBufSize bitCount
  · rw [if_pos hreject]
    exact iff_of_false nofun fun h => hroom.mp hreject h.1
  · rw [if_neg hreject, Option.some.injEq, eq_comm]
    exact ⟨fun h => ⟨Decidable.not_not.mp fun hno => hreject (hroom.mpr hno), h⟩, fun h => h.2⟩

/-- The buffers for which the check of `bitmap_create_in_buf` is right: those it must reject and does, and those that have room for the header and every whole word. -/
theorem bufferSafe_iff (bitCount buf bufSize : Word) : BufferSafe bitCount buf bufSize ↔
    4 ≤ bufSize.toNat ∧ ((bitCount.toNat + 7 < 2 ^ 32 ∧ bufSize.toNat < 4 + (bitCount.toNat + 7) / 8) ∨
      4 + 4 * ((bitCount.toNat + 31) / 32) ≤ bufSize.toNat) := by
  have hcount := bitCount.isLt
  have hself : (buf - buf).toNat = 0 := by rw [BitVec.sub_self]; rfl
  constructor
  · intro hsafe
    by_cases haccept : bufSize.toNat < 4 ∨ 2 ^ 32 ≤ bitCount.toNat + 7 ∨ 4 + (bitCount.toNat + 7) / 8 ≤ bufSize.toNat
    · have hall := hsafe (fun _ => 0) _ (createInBuf_eq_some_iff.mpr ⟨haccept, rfl⟩)
      have hheader : (buf - buf).toNat + 4 ≤ bufSize.toNat :=
        hall [] nofun (.write buf) (List.mem_singleton.mpr rfl)
      refine ⟨by omega, Or.inr ?_⟩
      by_cases hzero : bitCount.toNat = 0
      · omega
      · -- `bitmap_config_all` writes the last word
        have hstored : (Traced.store ⟨fun _ => 0, []⟩ buf bitCount).mem buf = bitCount := Function.update_self ..
        have hwrite := (Traced.adds_configAll (Traced.store ⟨fun _ => 0, []⟩ buf bitCount) buf true).2
          (bitCount.toNat - 1) (by rw [hstored]; omega)
        have hlast : (bitWord buf (bitCount.toNat - 1) - buf).toNat + 4 ≤ bufSize.toNat :=
          hall [.update (.configAll true)] (by simp) _ hwrite
        rw [toNat_bitWord_sub buf (by omega)] at hlast
        omega
    · omega
  · intro ⟨hheader, hfits⟩ m s hs calls hcalls e he
    obtain ⟨haccept, rfl⟩ := createInBuf_eq_some_iff.mp hs
    have hstored : (Traced.store ⟨m, []⟩ buf bitCount).mem buf = bitCount := Function.update_self ..
    have hadds : Traced.Adds _ _ (Access.On buf _) :=
      Traced.adds_calls (Traced.store ⟨m, []⟩ buf bitCount) calls (by rw [hstored]; exact hcalls)
    rw [hstored] at hadds
    have hbuf : ∀ addr, (addr = buf ∨ ∃ i, i < bitCount.toNat ∧ addr = bitWord buf i) →
        (addr - buf).toNat + 4 ≤ bufSize.toNat := by
      intro addr haddr
      obtain rfl | ⟨i, hi, rfl⟩ := haddr
      · omega
      · rw [toNat_bitWord_sub buf (by omega)]
        omega
    obtain hlog | hon := hadds.mem he
    · rw [List.mem_singleton.mp hlog]
      exact hbuf buf (Or.inl rfl)
    · cases e with
      | read addr => exact hbuf addr hon
      | write addr => exact hbuf addr hon
      | test idx => trivial

/-- A buffer of 5 bytes is accepted for one bit, and the word that holds the bit ends at byte 8. -/
theorem not_bufferSafe : ¬ ∀ bitCount buf bufSize : Word, BufferSafe bitCount buf bufSize := by
  intro h
  have hsafe := h 1 0x1000 5 (fun _ => 0) (Traced.store ⟨fun _ => 0, []⟩ 0x1000 1) rfl [.update (.configAll true)] (by simp)
  have hword : (bitWord 0x1000 0 - 0x1000 : Word).toNat + 4 ≤ (5 : Word).toNat :=
    hsafe _ ((Traced.adds_configAll (Traced.store ⟨fun _ => 0, []⟩ 0x1000 1) 0x1000 true).2 0 (by decide))
  exact absurd hword (by decide)

end I386Kernel
