import I386Kernel.Base

/-!
# The strings of the IDENTIFY data

`manipulate_info_string` of `devices/ide.c`: the two bytes of every word are exchanged, then the padding at the end is cut off by a terminator. The terminator overwrites the last character that is no padding instead of following it.
-/

namespace I386Kernel.InfoString

/-- Bytes of memory, and the addresses of all loads and stores so far. -/
structure Ram where
  byte : Word → UInt8
  touched : List Word

namespace Ram

def load (s : Ram) (a : Word) : UInt8 × Ram := (s.byte a, { s with touched := a :: s.touched })

def store (s : Ram) (a : Word) (b : UInt8) : Ram := ⟨Function.update s.byte a b, a :: s.touched⟩

end Ram

/-- `&orig[i]` -/
def elem (orig : Word) (i : Nat) : Word := orig + BitVec.ofNat 32 i

def exchange (s : Ram) (orig : Word) (i : Nat) : Ram :=
  let tmp := s.load (elem orig (i + 1))
  let low := tmp.2.load (elem orig i)
  (low.2.store (elem orig (i + 1)) low.1).store (elem orig i) tmp.1

/-- The first loop from `i` on. -/
def exchangeLoop (orig : Word) (size i : Nat) (s : Ram) : Ram :=
  if i < size - 1 then exchangeLoop orig size (i + 2) (exchange s orig i) else s
termination_by size - i

/-- The second loop from `i` on: where it stops. -/
def trimLoop (orig : Word) : Nat → Ram → Nat × Ram
  | 0, s => (0, s)
  | i + 1, s =>
      let tmp := s.load (elem orig (i + 1))
      if tmp.1 ≠ 0 then (i + 1, tmp.2) else trimLoop orig i tmp.2

/-- The size is not 0, so that `size - 1` does not wrap. -/
def manipulateInfoString (s : Ram) (orig : Word) (size : Nat) : Ram :=
  let stop := trimLoop orig (size - 1) (exchangeLoop orig size 0 s)
  stop.2.store (elem orig stop.1) 0

/-! ## What the string should be -/

/-- The bytes of every word exchanged. -/
def exchanged (buf : Nat → UInt8) (j : Nat) : UInt8 := if j % 2 = 0 then buf (j + 1) else buf (j - 1)

/-- The number of bytes up to and with the last that is not NUL, among the first `n`. -/
def textLength (buf : Nat → UInt8) : Nat → Nat
  | 0 => 0
  | n + 1 => if buf n ≠ 0 then n + 1 else textLength buf n

def InBuffer (orig : Word) (size : Nat) (a : Word) : Prop := (a - orig).toNat < size

/-- `s'` is `s` with nothing touched outside the buffer. -/
structure Within (orig : Word) (size : Nat) (s s' : Ram) : Prop where
  byte : ∀ a, ¬ InBuffer orig size a → s'.byte a = s.byte a
  touched : ∀ a ∈ s'.touched, a ∈ s.touched ∨ InBuffer orig size a

/-- No character of the string `str` is lost, but for the last one of a string that fills the buffer. -/
structure LosesNothing (str buf : Nat → UInt8) (size : Nat) : Prop where
  text : textLength str size < size → (∀ j < textLength str size, buf j = str j) ∧ buf (textLength str size) = 0
  full : textLength str size = size → (∀ j < size - 1, buf j = str j) ∧ buf (size - 1) = 0

/-! ## Loads and stores in the buffer -/

variable {orig : Word} {size : Nat}

theorem inBuffer_elem {i : Nat} (hi : i < size) (hsize : size < 2 ^ 32) : InBuffer orig size (elem orig i) := by
  have hsub : elem orig i - orig = BitVec.ofNat 32 i := by
    rw [elem, BitVec.add_comm, BitVec.add_sub_cancel]
  rw [InBuffer, hsub, BitVec.toNat_ofNat, Nat.mod_eq_of_lt (by omega)]
  exact hi

theorem elem_inj {i j : Nat} (hi : i < 2 ^ 32) (hj : j < 2 ^ 32) (h : elem orig i = elem orig j) : i = j := by
  have heq := congrArg BitVec.toNat (BitVec.add_right_inj orig |>.mp h)
  rwa [BitVec.toNat_ofNat, BitVec.toNat_ofNat, Nat.mod_eq_of_lt hi, Nat.mod_eq_of_lt hj] at heq

namespace Within

theorem refl (orig : Word) (size : Nat) (s : Ram) : Within orig size s s := ⟨fun _ _ => rfl, fun _ ha => Or.inl ha⟩

theorem load {s s' : Ram} (h : Within orig size s s') {a : Word} (ha : InBuffer orig size a) :
    Within orig size s (s'.load a).2 := by
  refine ⟨h.byte, fun b hb => ?_⟩
  obtain rfl | hb := List.mem_cons.mp hb
  · exact Or.inr ha
  · exact h.touched b hb

theorem store {s s' : Ram} (h : Within orig size s s') {a : Word} (ha : InBuffer orig size a) (v : UInt8) :
    Within orig size s (s'.store a v) := by
  constructor
  · intro b hb
    have hne : b ≠ a := fun heq => hb (heq ▸ ha)
    exact (Function.update_of_ne hne _ _).trans (h.byte b hb)
  · intro b hb
    obtain rfl | hb := List.mem_cons.mp hb
    · exact Or.inr ha
    · exact h.touched b hb

end Within

/-- The buffer. -/
def contents (s : Ram) (orig : Word) (j : Nat) : UInt8 := s.byte (elem orig j)

theorem contents_store (s : Ram) {i j : Nat} (hi : i < 2 ^ 32) (hj : j < 2 ^ 32) (v : UInt8) :
    contents (s.store (elem orig i) v) orig j = if j = i then v else contents s orig j := by
  show Function.update s.byte (elem orig i) v (elem orig j) = _
  by_cases hji : j = i
  · rw [if_pos hji, hji, Function.update_self]
  · rw [if_neg hji, Function.update_of_ne fun h => hji (elem_inj hj hi h)]
    rfl

/-! ## The loops -/

theorem contents_exchange (s : Ram) {i j : Nat} (hi : i + 1 < 2 ^ 32) (hj : j < 2 ^ 32) :
    contents (exchange s orig i) orig j =
      if j = i then contents s orig (i + 1) else if j = i + 1 then contents s orig i else contents s orig j := by
  rw [exchange, contents_store _ (by omega) hj, contents_store _ hi hj]
  rfl

theorem Within.exchange {s s' : Ram} (h : Within orig size s s') {i : Nat} (hi : i + 1 < size) (hsize : size < 2 ^ 32) :
    Within orig size s (exchange s' orig i) := by
  have hlow : InBuffer orig size (elem orig i) := inBuffer_elem (by omega) hsize
  have hhigh : InBuffer orig size (elem orig (i + 1)) := inBuffer_elem hi hsize
  exact (((h.load hhigh).load hlow).store hhigh _).store hlow _

/-- The words before `i` are exchanged already. -/
theorem exchangeLoop_spec (heven : size % 2 = 0) (hsize : size < 2 ^ 32) (s₀ : Ram) (i : Nat) (hi : i % 2 = 0) (s : Ram)
    (hwithin : Within orig size s₀ s)
    (hcontents : ∀ j < size, contents s orig j = if j < i then exchanged (contents s₀ orig) j else contents s₀ orig j) :
    Within orig size s₀ (exchangeLoop orig size i s) ∧
      ∀ j < size, contents (exchangeLoop orig size i s) orig j = exchanged (contents s₀ orig) j := by
  fun_induction exchangeLoop orig size i s with
  | case1 i s hlt ih =>
      refine ih (by omega) (hwithin.exchange (by omega) hsize) fun j hj => ?_
      rw [contents_exchange s (by omega) (by omega)]
      by_cases hji : j = i
      · rw [if_pos hji, hcontents _ (by omega), if_neg (by omega), if_pos (by omega), exchanged, if_pos (by omega), hji]
      rw [if_neg hji]
      by_cases hji' : j = i + 1
      · rw [if_pos hji', hcontents _ (by omega), if_neg (by omega), if_pos (by omega), exchanged, if_neg (by omega), hji',
          Nat.add_sub_cancel]
      rw [if_neg hji', hcontents j hj]
      by_cases hlow : j < i
      · rw [if_pos hlow, if_pos (by omega)]
      · rw [if_neg hlow, if_neg (by omega)]
  | case2 i s hge =>
      refine ⟨hwithin, fun j hj => ?_⟩
      rw [hcontents j hj, if_pos (by omega)]

/-- Where the second loop stops: at the last byte that is not NUL, or at the first byte of all. -/
theorem trimLoop_spec (s₀ : Ram) (hsize : size < 2 ^ 32) (i : Nat) (hi : i < size) (s : Ram) (hwithin : Within orig size s₀ s) :
    (trimLoop orig i s).1 = textLength (contents s orig) (i + 1) - 1 ∧ (trimLoop orig i s).2.byte = s.byte ∧
      Within orig size s₀ (trimLoop orig i s).2 := by
  induction i generalizing s with
  | zero =>
      refine ⟨?_, rfl, hwithin⟩
      show 0 = (if contents s orig 0 ≠ 0 then 1 else 0) - 1
      split <;> rfl
  | succ i ih =>
      have hload := hwithin.load (inBuffer_elem hi hsize : InBuffer orig size (elem orig (i + 1)))
      have hbyte : (s.load (elem orig (i + 1))).1 = contents s orig (i + 1) := rfl
      rw [trimLoop, textLength]
      simp only [hbyte]
      by_cases hnul : contents s orig (i + 1) ≠ 0
      · rw [if_pos hnul, if_pos hnul]
        exact ⟨rfl, rfl, hload⟩
      · rw [if_neg hnul, if_neg hnul]
        exact ih (by omega) _ hload

/-! ## The length of the text -/

theorem textLength_le (buf : Nat → UInt8) (n : Nat) : textLength buf n ≤ n := by
  induction n with
  | zero => exact Nat.le_refl _
  | succ n ih =>
      rw [textLength]
      split
      · exact Nat.le_refl _
      · exact Nat.le_succ_of_le ih

theorem textLength_congr {buf buf' : Nat → UInt8} {n : Nat} (h : ∀ j < n, buf j = buf' j) :
    textLength buf n = textLength buf' n := by
  induction n with
  | zero => rfl
  | succ n ih => rw [textLength, textLength, h n (Nat.lt_succ_self n), ih fun j hj => h j (Nat.lt_succ_of_lt hj)]

/-- The last byte of the text is not NUL. -/
theorem textLength_last (buf : Nat → UInt8) {n : Nat} (h : 0 < textLength buf n) : buf (textLength buf n - 1) ≠ 0 := by
  induction n with
  | zero => exact absurd h (Nat.lt_irrefl 0)
  | succ n ih =>
      rw [textLength] at h ⊢
      by_cases hnul : buf n ≠ 0
      · rw [if_pos hnul]
        exact hnul
      · rw [if_neg hnul] at h ⊢
        exact ih h

theorem textLength_eq_zero_iff (buf : Nat → UInt8) (n : Nat) : textLength buf n = 0 ↔ ∀ j < n, buf j = 0 := by
  induction n with
  | zero => exact iff_of_true rfl fun j hj => absurd hj (Nat.not_lt_zero j)
  | succ n ih =>
      rw [textLength]
      by_cases hnul : buf n ≠ 0
      · rw [if_pos hnul]
        exact iff_of_false (Nat.succ_ne_zero n) fun h => hnul (h n (Nat.lt_succ_self n))
      · rw [if_neg hnul, ih]
        refine ⟨fun h j hj => ?_, fun h j hj => h j (Nat.lt_succ_of_lt hj)⟩
        obtain hj | rfl := Nat.lt_succ_iff_lt_or_eq.mp hj
        · exact h j hj
        · exact not_not.mp hnul

theorem textLength_eq_self_iff (buf : Nat → UInt8) (n : Nat) : textLength buf (n + 1) = n + 1 ↔ buf n ≠ 0 := by
  rw [textLength]
  by_cases hnul : buf n ≠ 0
  · rw [if_pos hnul]
    exact iff_of_true rfl hnul
  · rw [if_neg hnul]
    have hle := textLength_le buf n
    exact iff_of_false (by omega) hnul

theorem exchanged_nul_iff (heven : size % 2 = 0) (buf : Nat → UInt8) :
    (∀ j < size, exchanged buf j = 0) ↔ ∀ j < size, buf j = 0 := by
  constructor
  · intro h j hj
    by_cases hlow : j % 2 = 0
    · have hpair := h (j + 1) (by omega)
      rwa [exchanged, if_neg (by omega)] at hpair
    · have hpair := h (j - 1) (by omega)
      rwa [exchanged, if_pos (by omega), Nat.sub_add_cancel (by omega)] at hpair
  · intro h j hj
    rw [exchanged]
    by_cases hlow : j % 2 = 0
    · rw [if_pos hlow]
      exact h (j + 1) (by omega)
    · rw [if_neg hlow]
      exact h (j - 1) (by omega)

/-! ## The whole function -/

/-- The exchanged string with a terminator on its last character. -/
theorem manipulateInfoString_spec (s : Ram) (orig : Word) (hpos : 0 < size) (heven : size % 2 = 0) (hsize : size < 2 ^ 32) :
    Within orig size s (manipulateInfoString s orig size) ∧
      ∀ j < size, contents (manipulateInfoString s orig size) orig j =
        if j = textLength (exchanged (contents s orig)) size - 1 then 0 else exchanged (contents s orig) j := by
  obtain ⟨hwithin, hexchanged⟩ := exchangeLoop_spec heven hsize s 0 rfl s (Within.refl orig size s) fun j _ =>
    (if_neg (Nat.not_lt_zero j)).symm
  obtain ⟨hstop, hbyte, hwithin'⟩ := trimLoop_spec s hsize (size - 1) (by omega) _ hwithin
  rw [Nat.sub_add_cancel hpos, textLength_congr hexchanged] at hstop
  have hlt : textLength (exchanged (contents s orig)) size - 1 < size := by
    have hle := textLength_le (exchanged (contents s orig)) size
    omega
  rw [manipulateInfoString]
  simp only [hstop]
  refine ⟨hwithin'.store (inBuffer_elem hlt hsize) 0, fun j hj => ?_⟩
  rw [contents_store _ (by omega) (by omega)]
  by_cases hj' : j = textLength (exchanged (contents s orig)) size - 1
  · rw [if_pos hj', if_pos hj']
  · rw [if_neg hj', if_neg hj', ← hexchanged j hj, contents, hbyte]
    rfl

/-- Nothing is lost exactly when there is no text, or the text fills the buffer; nothing outside is touched in any case. -/
theorem manipulateInfoString_iff (s : Ram) (orig : Word) (size : Nat) (htwo : 2 ≤ size) (heven : size % 2 = 0)
    (hsize : size < 2 ^ 32) :
    let s' := manipulateInfoString s orig size
    (LosesNothing (exchanged (contents s orig)) (contents s' orig) size ∧ Within orig size s s') ↔
      (∀ j < size, contents s orig j = 0) ∨ contents s orig (size - 2) ≠ 0 := by
  obtain ⟨hwithin, hcontents⟩ := manipulateInfoString_spec s orig (by omega) heven hsize
  have hempty : (∀ j < size, contents s orig j = 0) ↔ textLength (exchanged (contents s orig)) size = 0 := by
    rw [textLength_eq_zero_iff, exchanged_nul_iff heven]
  have hfull : contents s orig (size - 2) ≠ 0 ↔ textLength (exchanged (contents s orig)) size = size := by
    have hlast : exchanged (contents s orig) (size - 1) = contents s orig (size - 2) := if_neg (by omega)
    rw [← hlast, ← textLength_eq_self_iff, Nat.sub_add_cancel (by omega)]
  have hle := textLength_le (exchanged (contents s orig)) size
  show _ ∧ _ ↔ _
  rw [hempty, hfull, and_iff_left hwithin]
  constructor
  · intro h
    by_contra hneither
    obtain ⟨hpos, hne⟩ := not_or.mp hneither
    have hkept := (h.text (by omega)).1 (textLength (exchanged (contents s orig)) size - 1) (by omega)
    rw [hcontents _ (by omega), if_pos rfl] at hkept
    exact textLength_last _ (by omega) hkept.symm
  · rintro (hzero | hall)
    · refine ⟨fun _ => ⟨fun j hj => absurd hj (by omega), ?_⟩, fun hall => absurd hall (by omega)⟩
      rw [hcontents _ (by omega), if_pos (by omega)]
    · refine ⟨fun hlt => absurd hlt (by omega), fun _ => ⟨fun j hj => ?_, ?_⟩⟩
      · rw [hcontents j (by omega), if_neg (by omega)]
      · rw [hcontents _ (by omega), if_pos (by omega)]

/-- A string that fills its buffer. -/
theorem manipulateInfoString_abcd :
    let s : Ram := ⟨fun a => if a = 0 then 0x62 else if a = 1 then 0x61 else if a = 2 then 0x64 else 0x63, []⟩
    LosesNothing (exchanged (contents s 0)) (contents (manipulateInfoString s 0 4) 0) 4 :=
  ((manipulateInfoString_iff _ 0 4 (by decide) (by decide) (by decide)).mpr (Or.inr (by decide))).1

/-- Of "ab" before two bytes of padding only "a" is left. -/
theorem not_losesNothing : ¬ ∀ (s : Ram) (orig : Word) (size : Nat), 2 ≤ size → size % 2 = 0 → size < 2 ^ 32 →
    LosesNothing (exchanged (contents s orig)) (contents (manipulateInfoString s orig size) orig) size := by
  intro h
  let s : Ram := ⟨fun a => if a = 0 then 0x62 else if a = 1 then 0x61 else 0, []⟩
  have hkept := ((h s 0 4 (by decide) (by decide) (by decide)).text (by decide)).1 1 (by decide)
  have hlost := (manipulateInfoString_spec s 0 (by decide : 0 < 4) (by decide) (by decide)).2 1 (by decide)
  rw [hkept] at hlost
  revert hlost
  decide

end I386Kernel.InfoString
