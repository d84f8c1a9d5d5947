import I386Kernel.Base
import I386Kernel.Lib.FirstFit

/-!
# The bitmap of `lib/kernel/bitmap.c`

A bitmap is a header word `bit_count` at its address followed by the words `bits[]`. Every function here reads and writes those words through memory, with the wrapping 32-bit arithmetic of `size_t`. The rest of the development reaches the bits through `bit`, the value stored for an index.
-/

namespace I386Kernel

def bitmapErr : Word := 0xffffffff

/-- `&bm->bits[idx_buf]`. -/
def bitsAddr (bm idxBuf : Word) : Word := bm + 4 + 4 * idxBuf

/-- Required byte counts to store `bit_count` bits. -/
def bitmapRequiredBufSize (bitCount : Word) : Word := divRoundUp bitCount 8

/-- The header is one word, so `sizeof(bitmap)` is 4. -/
def bitmapCreateInBuf (m : Mem) (bitCount buf bufSize : Word) : Option Mem :=
  if bufSize - 4 < bitmapRequiredBufSize bitCount then none
  else some (Function.update m buf bitCount)

def bitmapGetBitsCount (m : Mem) (bm : Word) : Word := m bm

def bitmapConfigBit (m : Mem) (bm idx : Word) (val : Bool) : Mem :=
  let addr := bitsAddr bm (idx / 32)
  let bitMask := (1 : Word) <<< (idx % 32)
  if m bm ≤ idx then m
  else if val then Function.update m addr (m addr ||| bitMask)
  else Function.update m addr (m addr &&& ~~~bitMask)

def bitmapConfigAll (m : Mem) (bm : Word) (val : Bool) : Mem :=
  let v : Word := if val then -1 else 0
  let u32Bound := m bm / 32
  let u32Res := m bm % 32
  let words := (List.range u32Bound.toNat).foldl
    (fun m i => Function.update m (bitsAddr bm (BitVec.ofNat 32 i)) v) m
  (List.range u32Res.toNat).foldl
    (fun m i => bitmapConfigBit m bm (u32Bound * 32 + BitVec.ofNat 32 i) val) words

def bitmapTestBit (m : Mem) (bm idx : Word) (val : Bool) : Bool :=
  let word := m (bitsAddr bm (idx / 32))
  let bitMask := (1 : Word) <<< (idx % 32)
  if val then word &&& bitMask != 0 else ~~~word &&& bitMask != 0

/-- The loop of `bitmap_find_first_bits_group`. -/
def findGroupLoop (m : Mem) (bm bitCount : Word) (val : Bool) (idxCur idxLast : Word) : Word :=
  if h : idxLast ≤ m bm ∧ idxCur < m bm then
    if bitmapTestBit m bm idxCur val then
      if idxCur + 1 = idxLast then idxCur + 1 - bitCount
      else findGroupLoop m bm bitCount val (idxCur + 1) idxLast
    else findGroupLoop m bm bitCount val (idxCur + 1) (idxCur + 1 + bitCount)
  else bitmapErr
termination_by (m bm).toNat - idxCur.toNat
decreasing_by all_goals obtain ⟨_, h⟩ := h; bv_omega

def bitmapFindFirstBitsGroup (m : Mem) (bm idxStart bitCount : Word) (val : Bool) : Word :=
  findGroupLoop m bm bitCount val idxStart (idxStart + bitCount)

/-- Set specific bit to 1. -/
def bitmapSetBit (m : Mem) (bm idx : Word) : Mem := bitmapConfigBit m bm idx true

/-- Set specific bit to 0. -/
def bitmapResetBit (m : Mem) (bm idx : Word) : Mem := bitmapConfigBit m bm idx false

/-- The common body of `bitmap_set_multi_bits` and `bitmap_reset_multi_bits`. -/
def bitmapConfigMultiBits (m : Mem) (bm idxStart bitCount : Word) (val : Bool) : Mem :=
  let idxLast := idxStart + bitCount
  if m bm < idxLast then m
  else (List.range (idxLast.toNat - idxStart.toNat)).foldl
    (fun m i => bitmapConfigBit m bm (idxStart + BitVec.ofNat 32 i) val) m

def bitmapSetMultiBits (m : Mem) (bm idxStart bitCount : Word) : Mem :=
  bitmapConfigMultiBits m bm idxStart bitCount true

def bitmapResetMultiBits (m : Mem) (bm idxStart bitCount : Word) : Mem :=
  bitmapConfigMultiBits m bm idxStart bitCount false

/-! ## The stored bits -/

/-- The bit stored for index `i`. -/
def bit (m : Mem) (bm : Word) (i : Nat) : Bool :=
  (m (bitsAddr bm (BitVec.ofNat 32 (i / 32)))).getLsbD (i % 32)

/-- The word address that holds the bit of index `i`. -/
def bitWord (bm : Word) (i : Nat) : Word := bitsAddr bm (BitVec.ofNat 32 (i / 32))

theorem bit_eq_of_word_eq {m m' : Mem} {bm : Word} {i : Nat} (h : m' (bitWord bm i) = m (bitWord bm i)) :
    bit m' bm i = bit m bm i := by
  simp only [bit, bitWord] at h ⊢
  rw [h]

theorem bitWord_ne_header (bm : Word) {i : Nat} (hi : i < 2 ^ 32) : bitWord bm i ≠ bm := by
  have hidx : i / 32 < 2 ^ 27 := by omega
  simp only [bitWord, bitsAddr]
  generalize hk : i / 32 = k at hidx
  intro h
  have : (BitVec.ofNat 32 k).toNat = k := by simp; omega
  bv_omega

theorem bitWord_inj {bm : Word} {i j : Nat} (hi : i < 2 ^ 32) (hj : j < 2 ^ 32)
    (h : bitWord bm i = bitWord bm j) : i / 32 = j / 32 := by
  have hi' : i / 32 < 2 ^ 27 := by omega
  have hj' : j / 32 < 2 ^ 27 := by omega
  simp only [bitWord, bitsAddr] at h
  generalize i / 32 = a at *
  generalize j / 32 = b at *
  have ha : (BitVec.ofNat 32 a).toNat = a := by simp; omega
  have hb : (BitVec.ofNat 32 b).toNat = b := by simp; omega
  bv_omega

private theorem getLsbD_mask (k : Word) (hk : k.toNat < 32) (i : Nat) :
    ((1 : Word) <<< k).getLsbD i = decide (i = k.toNat) := by
  rw [BitVec.shiftLeft_eq', BitVec.getLsbD_shiftLeft]
  by_cases hi : i = k.toNat
  · subst hi
    simp [hk]
  · by_cases hlt : i < k.toNat
    · simp [hlt, hi]
    · have hpos : i - k.toNat ≠ 0 := by omega
      simp [hi, hlt, BitVec.getLsbD_one, hpos]

private theorem and_mask_ne_zero (w k : Word) (hk : k.toNat < 32) :
    (w &&& (1 : Word) <<< k != 0) = w.getLsbD k.toNat := by
  rw [Bool.eq_iff_iff, bne_iff_ne]
  constructor
  · intro h
    by_contra hbit
    refine h (BitVec.eq_of_getLsbD_eq fun i hi => ?_)
    rw [BitVec.getLsbD_and, getLsbD_mask k hk]
    by_cases heq : i = k.toNat
    · subst heq
      rw [Bool.not_eq_true] at hbit
      rw [hbit]
      simp
    · simp [heq]
  · intro hbit hzero
    have h := congrArg (fun x => BitVec.getLsbD x k.toNat) hzero
    simp only [BitVec.getLsbD_and, getLsbD_mask k hk, hbit] at h
    simp at h

private theorem toNat_idx (idx : Word) :
    BitVec.ofNat 32 (idx.toNat / 32) = idx / 32 ∧ (idx % 32).toNat = idx.toNat % 32 := by
  refine ⟨BitVec.eq_of_toNat_eq ?_, rfl⟩
  have := idx.isLt
  change idx.toNat / 32 % 2 ^ 32 = idx.toNat / 32
  omega

theorem bitmapTestBit_eq (m : Mem) (bm idx : Word) (val : Bool) :
    bitmapTestBit m bm idx val = (bit m bm idx.toNat == val) := by
  obtain ⟨hdiv, hmod⟩ := toNat_idx idx
  have hlt : (idx % 32).toNat < 32 := by rw [hmod]; omega
  cases val
  · simp only [bitmapTestBit, Bool.false_eq_true, if_false, and_mask_ne_zero _ _ hlt, bit, hdiv, hmod]
    rw [BitVec.getLsbD_not]
    cases (m (bitsAddr bm (idx / 32))).getLsbD (idx.toNat % 32) <;> simp; omega
  · simp only [bitmapTestBit, if_true, and_mask_ne_zero _ _ hlt, bit, hdiv, hmod]
    cases (m (bitsAddr bm (idx / 32))).getLsbD (idx.toNat % 32) <;> rfl

/-- The only word `bitmap_config_bit` may change is the one that holds the bit. -/
theorem bitmapConfigBit_frame (m : Mem) (bm idx : Word) (val : Bool) {a : Word}
    (ha : a ≠ bitWord bm idx.toNat) : bitmapConfigBit m bm idx val a = m a := by
  rw [bitWord, (toNat_idx idx).1] at ha
  simp only [bitmapConfigBit]
  split
  · rfl
  · split <;> exact Function.update_of_ne ha _ _

@[simp] theorem bitmapConfigBit_header (m : Mem) (bm idx : Word) (val : Bool) :
    bitmapConfigBit m bm idx val bm = m bm :=
  bitmapConfigBit_frame m bm idx val (bitWord_ne_header bm idx.isLt).symm

theorem bit_bitmapConfigBit (m : Mem) (bm idx : Word) (val : Bool) (hidx : idx < m bm) {j : Nat}
    (hj : j < 2 ^ 32) :
    bit (bitmapConfigBit m bm idx val) bm j = if j = idx.toNat then val else bit m bm j := by
  obtain ⟨hdiv, hmod⟩ := toNat_idx idx
  have hlt : (idx % 32).toNat < 32 := by rw [hmod]; omega
  have hnle : ¬ m bm ≤ idx := by bv_omega
  by_cases hword : j / 32 = idx.toNat / 32
  · -- the word of `j` is the word written, so only the mask separates the two indices
    have hj' : j = idx.toNat ↔ j % 32 = idx.toNat % 32 := by omega
    have hj32 : j % 32 < 32 := by omega
    simp only [bit, bitmapConfigBit, hword, hdiv, hnle, if_false]
    cases val
    · simp only [Bool.false_eq_true, if_false, Function.update_self, BitVec.getLsbD_and,
        BitVec.getLsbD_not, getLsbD_mask _ hlt, hmod, hj']
      by_cases heq : j % 32 = idx.toNat % 32 <;> simp [heq, hj32]
    · simp only [if_true, Function.update_self, BitVec.getLsbD_or, getLsbD_mask _ hlt, hmod, hj']
      by_cases heq : j % 32 = idx.toNat % 32 <;> simp [heq]
  · have hne : bitWord bm j ≠ bitWord bm idx.toNat := fun h => hword (bitWord_inj hj idx.isLt h)
    rw [if_neg (by omega)]
    exact bit_eq_of_word_eq (bitmapConfigBit_frame m bm idx val hne)

/-! ## What each operation does to the bits -/

/-- Going from `m` to `m'` gives the bitmap at `bm` the bits `f` and changes nothing but words that hold bits below `bit_count`. -/
structure BitsTo (m m' : Mem) (bm : Word) (f : Nat → Bool) : Prop where
  header : m' bm = m bm
  bits : ∀ j, j < 2 ^ 32 → bit m' bm j = f j
  frame : ∀ a, (∀ i, i < (m bm).toNat → a ≠ bitWord bm i) → m' a = m a

theorem BitsTo.refl (m : Mem) (bm : Word) : BitsTo m m bm (bit m bm) :=
  ⟨rfl, fun _ _ => rfl, fun _ _ => rfl⟩

theorem BitsTo.trans {m m' m'' : Mem} {bm : Word} {f g : Nat → Bool} (h : BitsTo m m' bm f)
    (h' : BitsTo m' m'' bm g) : BitsTo m m'' bm g where
  header := h'.header.trans h.header
  bits := h'.bits
  frame := fun a ha => by
    rw [h'.frame a (by rw [h.header]; exact ha), h.frame a ha]

theorem BitsTo.congr {m m' : Mem} {bm : Word} {f g : Nat → Bool} (h : BitsTo m m' bm f)
    (hfg : ∀ j, j < 2 ^ 32 → f j = g j) : BitsTo m m' bm g :=
  ⟨h.header, fun j hj => (h.bits j hj).trans (hfg j hj), h.frame⟩

theorem bitsTo_bitmapConfigBit {m : Mem} {bm idx : Word} (val : Bool) (hidx : idx < m bm) :
    BitsTo m (bitmapConfigBit m bm idx val) bm (Function.update (bit m bm) idx.toNat val) where
  header := bitmapConfigBit_header m bm idx val
  bits := fun j hj => by
    rw [bit_bitmapConfigBit m bm idx val hidx hj, Function.update_apply]
  frame := fun a ha => bitmapConfigBit_frame m bm idx val (ha idx.toNat (by bv_omega))

/-- The loop over consecutive indices that both `bitmap_config_all` and the multi-bit operations run. -/
theorem bitsTo_configLoop {m : Mem} {bm start : Word} (val : Bool) (n : Nat)
    (hn : start.toNat + n ≤ (m bm).toNat) :
    BitsTo m ((List.range n).foldl
      (fun m i => bitmapConfigBit m bm (start + BitVec.ofNat 32 i) val) m) bm
      (fun j => if start.toNat ≤ j ∧ j < start.toNat + n then val else bit m bm j) := by
  induction n with
  | zero =>
      refine (BitsTo.refl m bm).congr fun j _ => ?_
      rw [if_neg (by omega)]
  | succ n ih =>
      have hprev := ih (by omega)
      have hcount := (m bm).isLt
      have hidx : (start + BitVec.ofNat 32 n).toNat = start.toNat + n := by
        simp only [BitVec.toNat_add, BitVec.toNat_ofNat]
        omega
      rw [List.range_succ, List.foldl_append]
      refine (hprev.trans (bitsTo_bitmapConfigBit val ?_)).congr fun j hj => ?_
      · rw [hprev.header, BitVec.lt_def, hidx]
        omega
      · rw [Function.update_apply, hidx, hprev.bits j hj]
        by_cases hj' : j = start.toNat + n
        · rw [if_pos hj', if_pos (by omega)]
        · rw [if_neg hj']
          exact if_congr (by omega) rfl rfl

theorem bitsTo_bitmapConfigMultiBits (m : Mem) (bm idxStart bitCount : Word) (val : Bool)
    (h : idxStart.toNat + bitCount.toNat ≤ (m bm).toNat) :
    BitsTo m (bitmapConfigMultiBits m bm idxStart bitCount val) bm
      (fun j => if idxStart.toNat ≤ j ∧ j < idxStart.toNat + bitCount.toNat then val else bit m bm j) := by
  have hcount := (m bm).isLt
  have hlast : (idxStart + bitCount).toNat = idxStart.toNat + bitCount.toNat := by bv_omega
  have hle : ¬ m bm < idxStart + bitCount := by bv_omega
  simp only [bitmapConfigMultiBits, hle, if_false, hlast, Nat.add_sub_cancel_left]
  exact bitsTo_configLoop val _ h

/-- Where the group does not fit, the sum is past `bit_count`, or it wraps and the loop has no index. -/
theorem bitmapConfigMultiBits_of_lt {m : Mem} {bm idxStart bitCount : Word} (val : Bool)
    (h : (m bm).toNat < idxStart.toNat + bitCount.toNat) : bitmapConfigMultiBits m bm idxStart bitCount val = m := by
  have hsum : (idxStart + bitCount).toNat = (idxStart.toNat + bitCount.toNat) % 2 ^ 32 := BitVec.toNat_add ..
  have hstart := idxStart.isLt
  have hcount := bitCount.isLt
  simp only [bitmapConfigMultiBits]
  by_cases hlast : m bm < idxStart + bitCount
  · rw [if_pos hlast]
  · have hempty : (idxStart + bitCount).toNat - idxStart.toNat = 0 := by
      rw [BitVec.lt_def, hsum] at hlast
      omega
    rw [if_neg hlast, hempty]
    rfl

private theorem getLsbD_fill (val : Bool) {i : Nat} (hi : i < 32) :
    (if val then -1 else 0 : Word).getLsbD i = val := by
  cases val
  · simp
  · change (BitVec.allOnes 32).getLsbD i = true
    rw [BitVec.getLsbD_allOnes, decide_eq_true hi]

/-- The whole-word loop of `bitmap_config_all`. -/
private theorem bitsTo_configWords (m : Mem) (bm : Word) (val : Bool) (n : Nat)
    (hn : 32 * n ≤ (m bm).toNat) :
    BitsTo m ((List.range n).foldl (fun m i => Function.update m (bitsAddr bm (BitVec.ofNat 32 i))
      (if val then -1 else 0)) m) bm (fun j => if j < 32 * n then val else bit m bm j) := by
  have hcount := (m bm).isLt
  induction n with
  | zero => exact (BitsTo.refl m bm).congr fun j _ => by simp
  | succ n ih =>
      have hprev := ih (by omega)
      have hword : bitsAddr bm (BitVec.ofNat 32 n) = bitWord bm (32 * n) := by
        rw [bitWord, Nat.mul_div_cancel_left n (by decide)]
      rw [List.range_succ, List.foldl_append]
      simp only [List.foldl_cons, List.foldl_nil, hword]
      refine hprev.trans ⟨?_, fun j hj => ?_, fun a ha => ?_⟩
      · exact Function.update_of_ne (bitWord_ne_header bm (by omega)).symm _ _
      · by_cases hj' : j / 32 = n
        · have hmod : j % 32 < 32 := by omega
          have hsame : bitWord bm j = bitWord bm (32 * n) := by
            rw [bitWord, hj', ← hword]
          have hlt : j < 32 * (n + 1) := by omega
          simp only [hlt, if_true]
          rw [bit, ← bitWord, hsame, Function.update_self]
          exact getLsbD_fill val hmod
        · have hne : bitWord bm j ≠ bitWord bm (32 * n) := fun h => hj' (by
            have := bitWord_inj hj (by omega) h
            omega)
          rw [bit_eq_of_word_eq (Function.update_of_ne hne _ _), hprev.bits j hj]
          exact if_congr (by omega) rfl rfl
      · exact Function.update_of_ne (ha (32 * n) (by rw [hprev.header]; omega)) _ _

theorem bitsTo_bitmapConfigAll (m : Mem) (bm : Word) (val : Bool) :
    BitsTo m (bitmapConfigAll m bm val) bm
      (fun j => if j < (m bm).toNat then val else bit m bm j) := by
  have hcount := (m bm).isLt
  have hbound : (m bm / 32).toNat = (m bm).toNat / 32 := rfl
  have hres : (m bm % 32).toNat = (m bm).toNat % 32 := rfl
  have hstart : (m bm / 32 * 32).toNat = 32 * ((m bm).toNat / 32) := by
    rw [BitVec.toNat_mul, hbound]
    change (m bm).toNat / 32 * 32 % 2 ^ 32 = _
    omega
  have hwords := bitsTo_configWords m bm val ((m bm).toNat / 32) (by omega)
  simp only [bitmapConfigAll, hbound, hres]
  refine (hwords.trans (bitsTo_configLoop val _ ?_)).congr fun j hj => ?_
  · rw [hstart, hwords.header]
    omega
  · rw [hstart, hwords.bits j hj]
    by_cases hj' : j < (m bm).toNat
    · by_cases hlow : j < 32 * ((m bm).toNat / 32)
      · rw [if_neg (by omega), if_pos hlow, if_pos hj']
      · rw [if_pos (by omega), if_pos hj']
    · rw [if_neg (by omega), if_neg (by omega), if_neg hj']

/-! ## First-fit search -/

/-- What the search loop returns from any point of the scan. Where `idx_last` has wrapped it stays below the candidate, and the loop runs out. -/
private theorem findGroupLoop_spec (m : Mem) (bm bitCount : Word) (val : Bool) (idxCur idxLast : Word)
    (start first : Nat) (hlast : idxLast.toNat = (first + bitCount.toNat) % 2 ^ 32)
    (hscan : FirstFit.Scanning (fun j => bit m bm j = val) (m bm).toNat bitCount.toNat start first
      idxCur.toNat) :
    (findGroupLoop m bm bitCount val idxCur idxLast = bitmapErr ∧
        ∀ i, start ≤ i → ¬ FirstFit.Run (fun j => bit m bm j = val) (m bm).toNat bitCount.toNat i) ∨
      FirstFit.IsFirst (fun j => bit m bm j = val) (m bm).toNat bitCount.toNat start
        (findGroupLoop m bm bitCount val idxCur idxLast).toNat := by
  have hcount := (m bm).isLt
  have hfirst := hscan.first_le
  have hcurlt := hscan.cur_lt
  fun_induction findGroupLoop m bm bitCount val idxCur idxLast generalizing first with
  | case1 idxCur htest h =>
      have hp : bit m bm idxCur.toNat = val := by simpa [bitmapTestBit_eq] using htest
      right
      have hcur : (idxCur + 1).toNat = idxCur.toNat + 1 := by bv_omega
      have hret : (idxCur + 1 - bitCount).toNat = first := by bv_omega
      rw [hret]
      exact hscan.found hp (by omega) (by bv_omega)
  | case2 idxCur idxLast h htest hne ih =>
      have hp : bit m bm idxCur.toNat = val := by simpa [bitmapTestBit_eq] using htest
      have hcur : (idxCur + 1).toNat = idxCur.toNat + 1 := by bv_omega
      have hlt : idxCur.toNat + 1 < first + bitCount.toNat := by bv_omega
      exact ih first hlast (hcur ▸ hscan.hit hp hlt) (by omega) (by omega)
  | case3 idxCur idxLast h htest ih =>
      have hp : ¬ bit m bm idxCur.toNat = val := by simpa [bitmapTestBit_eq] using htest
      have hcur : (idxCur + 1).toNat = idxCur.toNat + 1 := by bv_omega
      have hlast' : (idxCur + 1 + bitCount).toNat = (idxCur.toNat + 1 + bitCount.toNat) % 2 ^ 32 := by
        rw [BitVec.toNat_add, hcur]
      exact ih (idxCur.toNat + 1) hlast' (hcur ▸ hscan.miss hp) (by omega) (by omega)
  | case4 idxCur idxLast h =>
      left
      refine ⟨rfl, hscan.exhausted ?_⟩
      by_contra hle
      exact h ⟨by bv_omega, by bv_omega⟩

theorem bitmapFindFirstBitsGroup_spec (m : Mem) (bm idxStart bitCount : Word) (val : Bool)
    (hpos : 0 < bitCount.toNat) :
    (bitmapFindFirstBitsGroup m bm idxStart bitCount val = bitmapErr ∧
        ∀ i, idxStart.toNat ≤ i →
          ¬ FirstFit.Run (fun j => bit m bm j = val) (m bm).toNat bitCount.toNat i) ∨
      FirstFit.IsFirst (fun j => bit m bm j = val) (m bm).toNat bitCount.toNat idxStart.toNat
        (bitmapFindFirstBitsGroup m bm idxStart bitCount val).toNat :=
  findGroupLoop_spec m bm bitCount val _ _ _ _ (BitVec.toNat_add ..) (FirstFit.scanning_start hpos)

/-- A group that fits the bitmap starts below the error value. -/
theorem ne_bitmapErr_of_isFirst {m : Mem} {bm bitCount r : Word} {p : Nat → Prop} {start : Nat}
    (hpos : 0 < bitCount.toNat) (h : FirstFit.IsFirst p (m bm).toNat bitCount.toNat start r.toNat) : r ≠ bitmapErr := by
  rintro rfl
  have hcount := (m bm).isLt
  have hrun := h.run.1
  have herr : bitmapErr.toNat = 2 ^ 32 - 1 := rfl
  omega

end I386Kernel
