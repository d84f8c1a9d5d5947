import I386Kernel.Text.ByteRanges
import Mathlib.Data.List.GetD

/-!
# The order of strings

`strcmp` on the bytes of memory, with the addresses it reads through each pointer. Its loop advances both pointers also when the characters differ, so what it compares then are the characters after those.
-/

namespace I386Kernel

/-! ## `strcmp` -/

/-- What `strcmp` returns, and what it has read through `str1` and `str2`. -/
structure Comparison where
  value : Int
  reads1 : List Word
  reads2 : List Word

/-- A round that reads through both pointers comes before. -/
def Comparison.after (c : Comparison) (str1 str2 : Word) : Comparison :=
  { c with reads1 := str1 :: c.reads1, reads2 := str2 :: c.reads2 }

namespace Bytes

variable (m : Bytes)

/-- `*str1 < *str2 ? -1 : *str1 > *str2` -/
def compareAt (str1 str2 : Word) : Comparison where
  value := charOrder (m str1) (m str2)
  reads1 := [str1]
  reads2 := [str2]

/-- `strcmp`, with the number of rounds its loop may take. -/
def strcmp : Nat → Word → Word → Option Comparison
  | 0, _, _ => none
  | fuel + 1, str1, str2 =>
      if m str1 = 0 then some (m.compareAt str1 str2)
      else if m str1 = m str2 then (strcmp fuel (str1 + 1) (str2 + 1)).map (·.after str1 str2)
      else some ((m.compareAt (str1 + 1) (str2 + 1)).after str1 str2)

end Bytes

/-! ## Where it stops -/

/-- `strcmp` stops `k` characters on: at the end of the first string, or one after the first difference. -/
inductive StopsAt (m : Bytes) : Word → Word → Nat → Prop
  | terminator {p q : Word} (hnul : m p = 0) : StopsAt m p q 0
  | mismatch {p q : Word} (hchar : m p ≠ 0) (hne : m p ≠ m q) : StopsAt m p q 1
  | next {p q : Word} {k : Nat} (hchar : m p ≠ 0) (heq : m p = m q) (h : StopsAt m (p + 1) (q + 1) k) : StopsAt m p q (k + 1)

theorem Bytes.byte_succ (m : Bytes) (p : Word) (i : Nat) : m.byte (p + 1) i = m.byte p (i + 1) := by
  rw [Bytes.byte, Bytes.byte, succ_add_ofNat]

/-- The first `n` addresses from `p` on. -/
def addresses (p : Word) (n : Nat) : List Word := (List.range n).map fun i => p + BitVec.ofNat 32 i

theorem addresses_succ (p : Word) (n : Nat) : addresses p (n + 1) = p :: addresses (p + 1) n := by
  rw [addresses, addresses, List.range_succ_eq_map, List.map_cons, List.map_map, BitVec.add_zero]
  congr 1
  apply List.map_congr_left
  intro i _
  exact (succ_add_ofNat p i).symm

theorem mem_addresses {p a : Word} {n : Nat} : a ∈ addresses p n ↔ ∃ i < n, a = p + BitVec.ofNat 32 i := by
  simp only [addresses, List.mem_map, List.mem_range, eq_comm (a := a)]

namespace StopsAt

variable {m : Bytes} {p q : Word} {i k : Nat}

theorem strcmp (h : StopsAt m p q k) {fuel : Nat} (hfuel : k < fuel) : m.strcmp fuel p q =
    some ⟨charOrder (m.byte p k) (m.byte q k), addresses p (k + 1), addresses q (k + 1)⟩ := by
  induction h generalizing fuel with
  | @terminator p q hnul =>
      obtain ⟨fuel, rfl⟩ := Nat.exists_eq_succ_of_ne_zero (Nat.ne_of_gt hfuel)
      rw [Bytes.strcmp, if_pos hnul, m.byte_zero, m.byte_zero, addresses_succ, addresses_succ]
      rfl
  | @mismatch p q hchar hne =>
      obtain ⟨fuel, rfl⟩ := Nat.exists_eq_succ_of_ne_zero (Nat.ne_of_gt (Nat.zero_lt_of_lt hfuel))
      simp only [Bytes.strcmp, if_neg hchar, if_neg hne, addresses_succ]
      rfl
  | @next p q k hchar heq h ih =>
      obtain ⟨fuel, rfl⟩ := Nat.exists_eq_succ_of_ne_zero (Nat.ne_of_gt (Nat.zero_lt_of_lt hfuel))
      rw [Bytes.strcmp, if_neg hchar, if_pos heq, ih (Nat.lt_of_succ_lt_succ hfuel), m.byte_succ, m.byte_succ,
        addresses_succ p, addresses_succ q]
      rfl

theorem of_terminator (hsame : ∀ j < k, m.byte p j ≠ 0 ∧ m.byte p j = m.byte q j) (hnul : m.byte p k = 0) :
    StopsAt m p q k := by
  induction k generalizing p q with
  | zero =>
      rw [m.byte_zero] at hnul
      exact .terminator hnul
  | succ k ih =>
      obtain ⟨hchar, heq⟩ := hsame 0 (Nat.succ_pos k)
      simp only [m.byte_zero] at hchar heq
      refine .next hchar heq (ih (fun j hj => ?_) ?_)
      · rw [m.byte_succ, m.byte_succ]
        exact hsame (j + 1) (Nat.succ_lt_succ hj)
      · rw [m.byte_succ]
        exact hnul

theorem of_mismatch (hsame : ∀ j < i, m.byte p j ≠ 0 ∧ m.byte p j = m.byte q j) (hchar : m.byte p i ≠ 0)
    (hne : m.byte p i ≠ m.byte q i) : StopsAt m p q (i + 1) := by
  induction i generalizing p q with
  | zero =>
      simp only [m.byte_zero] at hchar hne
      exact .mismatch hchar hne
  | succ i ih =>
      obtain ⟨hfirst, heq⟩ := hsame 0 (Nat.succ_pos i)
      simp only [m.byte_zero] at hfirst heq
      refine .next hfirst heq (ih (fun j hj => ?_) ?_ ?_)
      · rw [m.byte_succ, m.byte_succ]
        exact hsame (j + 1) (Nat.succ_lt_succ hj)
      · rw [m.byte_succ]
        exact hchar
      · rw [m.byte_succ, m.byte_succ]
        exact hne

end StopsAt

/-! ## Strings in memory -/

/-- The characters of a string, and zeros after them. -/
def CString.char (s : CString) (i : Nat) : UInt8 := s.chars.getD i 0

namespace CString

variable (a b : CString) {i : Nat}

theorem char_ne_zero (hi : i < a.chars.length) : a.char i ≠ 0 := by
  rw [char, List.getD_eq_getElem _ _ hi]
  exact fun h => a.nonul (h ▸ List.getElem_mem hi)

theorem char_eq_zero (hi : a.chars.length ≤ i) : a.char i = 0 :=
  List.getD_eq_default _ _ hi

variable {a b}

theorem le_of_firstDifference (h : FirstDifference a.char b.char i) : i ≤ a.chars.length := by
  by_contra hlt
  have hend := h.agree a.chars.length (Nat.lt_of_not_le hlt)
  rw [a.char_eq_zero (Nat.le_refl _)] at hend
  have hb : b.chars.length ≤ a.chars.length := Nat.le_of_not_lt fun hb => b.char_ne_zero hb hend.symm
  exact h.differ ((a.char_eq_zero (by omega)).trans (b.char_eq_zero (by omega)).symm)

theorem eq_or_firstDifference (a b : CString) : a.chars = b.chars ∨ ∃ i, FirstDifference a.char b.char i := by
  obtain hagree | ⟨i, -, hi⟩ := FirstDifference.agree_or_exists a.char b.char (max a.chars.length b.chars.length + 1)
  · left
    have hlength : a.chars.length = b.chars.length := by
      obtain hlt | heq | hlt := Nat.lt_trichotomy a.chars.length b.chars.length
      · have hend := hagree a.chars.length (by omega)
        rw [a.char_eq_zero (Nat.le_refl _)] at hend
        exact absurd hend.symm (b.char_ne_zero hlt)
      · exact heq
      · have hend := hagree b.chars.length (by omega)
        rw [b.char_eq_zero (Nat.le_refl _)] at hend
        exact absurd hend (a.char_ne_zero hlt)
    refine List.ext_getElem hlength fun i hi hi' => ?_
    have hchar := hagree i (by omega)
    rwa [char, char, List.getD_eq_getElem _ _ hi, List.getD_eq_getElem _ _ hi'] at hchar
  · exact Or.inr ⟨i, hi⟩

theorem not_firstDifference (h : a.chars = b.chars) : ¬ FirstDifference a.char b.char i := by
  intro hi
  apply hi.differ
  rw [char, char, h]

end CString

theorem SpelledAs.byte_eq {m : Bytes} {p : Word} {a : CString} (h : SpelledAs a.chars (m.byte p)) {i : Nat}
    (hi : i ≤ a.chars.length) : m.byte p i = a.char i := by
  obtain hlt | rfl := Nat.lt_or_eq_of_le hi
  · exact (h.1 i hlt).symm
  · exact h.2.trans (a.char_eq_zero (Nat.le_refl _)).symm

/-- A string that filled the address space would meet its first character where its terminator should be. -/
theorem SpelledAs.length_lt {m : Bytes} {p : Word} {a : CString} (h : SpelledAs a.chars (m.byte p)) :
    a.chars.length < 2 ^ 32 := by
  by_contra hge
  have hwrap : m.byte p (a.chars.length % 2 ^ 32) = 0 := by
    have heq : BitVec.ofNat 32 (a.chars.length % 2 ^ 32) = BitVec.ofNat 32 a.chars.length :=
      BitVec.eq_of_toNat_eq (Nat.mod_mod ..)
    rw [← h.2, Bytes.byte, Bytes.byte, heq]
  have hlt : a.chars.length % 2 ^ 32 < a.chars.length := by
    have := Nat.mod_lt a.chars.length (by decide : 0 < 2 ^ 32)
    omega
  rw [h.byte_eq (Nat.le_of_lt hlt)] at hwrap
  exact a.char_ne_zero hlt hwrap

/-! ## What it returns -/

section
variable {m : Bytes} {p q : Word} {a b : CString} {i : Nat} (ha : SpelledAs a.chars (m.byte p))
  (hb : SpelledAs b.chars (m.byte q))
include ha hb

theorem stopsAt_of_eq (h : a.chars = b.chars) : StopsAt m p q a.chars.length := by
  refine StopsAt.of_terminator (fun j hj => ?_) ha.2
  have hlength := congrArg List.length h
  rw [ha.byte_eq (Nat.le_of_lt hj), hb.byte_eq (by omega), CString.char, CString.char, h]
  exact ⟨h ▸ a.char_ne_zero hj, rfl⟩

/-- Before their first difference both strings have the same characters. -/
theorem same_before (hi : FirstDifference a.char b.char i) :
    ∀ j < i, m.byte p j ≠ 0 ∧ m.byte p j = m.byte q j := by
  intro j hj
  have hle := CString.le_of_firstDifference hi
  have hle' := CString.le_of_firstDifference hi.symm
  rw [ha.byte_eq (by omega), hb.byte_eq (by omega)]
  exact ⟨a.char_ne_zero (by omega), hi.agree j hj⟩

theorem stopsAt_of_char (hi : FirstDifference a.char b.char i) (hchar : a.char i ≠ 0) : StopsAt m p q (i + 1) := by
  have hle := CString.le_of_firstDifference hi
  have hle' := CString.le_of_firstDifference hi.symm
  have hdiffer := hi.differ
  rw [← ha.byte_eq hle] at hchar
  rw [← ha.byte_eq hle, ← hb.byte_eq hle'] at hdiffer
  exact StopsAt.of_mismatch (same_before ha hb hi) hchar hdiffer

theorem stopsAt_of_end (hi : FirstDifference a.char b.char i) (hend : a.char i = 0) : StopsAt m p q i :=
  StopsAt.of_terminator (same_before ha hb hi) ((ha.byte_eq (CString.le_of_firstDifference hi)).trans hend)

end

/-- `r` and `r'` are what `strcmp` tells of two strings at `p` and `q`, taken in the two orders. -/
structure Comparison.Orders (p q : Word) (a b : CString) (r r' : Comparison) : Prop where
  reads1 : ∀ x ∈ r.reads1, ∃ i ≤ a.chars.length, x = p + BitVec.ofNat 32 i
  reads2 : ∀ x ∈ r.reads2, ∃ i ≤ b.chars.length, x = q + BitVec.ofNat 32 i
  zero_iff : r.value = 0 ↔ a.chars = b.chars
  order : ∀ i, FirstDifference a.char b.char i → r.value = charOrder (a.char i) (b.char i)
  antisymm : r.value = -r'.value

/-- `strcmp` comes to an end on the two strings, reads nothing beyond their terminators and tells their order. -/
def StrcmpOrders (m : Bytes) (p q : Word) (a b : CString) : Prop :=
  ∃ r r', (∀ fuel, a.chars.length < fuel → m.strcmp fuel p q = some r) ∧
    (∀ fuel, b.chars.length < fuel → m.strcmp fuel q p = some r') ∧ Comparison.Orders p q a b r r'

/-- The two calls seen from where they stop. -/
theorem strcmpOrders_iff_of_stopsAt {m : Bytes} {p q : Word} {a b : CString} (ha : SpelledAs a.chars (m.byte p))
    (hb : SpelledAs b.chars (m.byte q)) {k k' : Nat} (h : StopsAt m p q k) (hk : k ≤ a.chars.length)
    (h' : StopsAt m q p k') (hk' : k' ≤ b.chars.length) : StrcmpOrders m p q a b ↔
      k ≤ b.chars.length ∧ (charOrder (m.byte p k) (m.byte q k) = 0 ↔ a.chars = b.chars) ∧
        (∀ i, FirstDifference a.char b.char i → charOrder (m.byte p k) (m.byte q k) = charOrder (a.char i) (b.char i)) ∧
        charOrder (m.byte p k) (m.byte q k) = -charOrder (m.byte q k') (m.byte p k') := by
  constructor
  · rintro ⟨r, r', hr, hr', horders⟩
    have hr := (hr _ (Nat.lt_succ_self _)).symm.trans (h.strcmp (Nat.lt_succ_of_le hk))
    have hr' := (hr' _ (Nat.lt_succ_self _)).symm.trans (h'.strcmp (Nat.lt_succ_of_le hk'))
    cases hr
    cases hr'
    obtain ⟨j, hj, heq⟩ := horders.reads2 _ (mem_addresses.mpr ⟨k, Nat.lt_succ_self k, rfl⟩)
    have hlength := ha.length_lt
    have hlength' := hb.length_lt
    have hkj : k = j := by bv_omega
    exact ⟨hkj ▸ hj, horders.zero_iff, horders.order, horders.antisymm⟩
  · rintro ⟨hkb, hzero, horder, hantisymm⟩
    refine ⟨_, _, fun fuel hfuel => h.strcmp (Nat.lt_of_le_of_lt hk hfuel),
      fun fuel hfuel => h'.strcmp (Nat.lt_of_le_of_lt hk' hfuel), fun x hx => ?_, fun x hx => ?_, hzero, horder, hantisymm⟩
    · obtain ⟨i, hi, heq⟩ := mem_addresses.mp hx
      exact ⟨i, by omega, heq⟩
    · obtain ⟨i, hi, heq⟩ := mem_addresses.mp hx
      exact ⟨i, by omega, heq⟩

/-- `strcmp` is right on equal strings, and where at the first difference the second string has a character and the bytes that follow in memory compare as the two at the difference do. -/
theorem strcmpOrders_iff {m : Bytes} {p q : Word} {a b : CString} (ha : SpelledAs a.chars (m.byte p))
    (hb : SpelledAs b.chars (m.byte q)) : StrcmpOrders m p q a b ↔
      a.chars = b.chars ∨ ∃ i, FirstDifference a.char b.char i ∧ b.char i ≠ 0 ∧
        charOrder (m.byte p (i + 1)) (m.byte q (i + 1)) = charOrder (a.char i) (b.char i) := by
  obtain heq | ⟨i, hi⟩ := CString.eq_or_firstDifference a b
  · have hlength := congrArg List.length heq
    have hzero : charOrder (m.byte p a.chars.length) (m.byte q a.chars.length) = 0 := by
      rw [ha.2, hlength, hb.2]
      rfl
    rw [strcmpOrders_iff_of_stopsAt ha hb (stopsAt_of_eq ha hb heq) (Nat.le_refl _) (stopsAt_of_eq hb ha heq.symm)
      (Nat.le_refl _), ← hlength]
    refine iff_of_true ⟨Nat.le_refl _, iff_of_true hzero heq, ?_, ?_⟩ (Or.inl heq)
    · exact fun i hi => absurd hi (CString.not_firstDifference heq)
    · exact charOrder_swap _ _
  · have hne : a.chars ≠ b.chars := fun heq => CString.not_firstDifference heq hi
    have hle := CString.le_of_firstDifference hi
    have hle' := CString.le_of_firstDifference hi.symm
    have hdiffer : charOrder (a.char i) (b.char i) ≠ 0 := fun h => hi.differ (charOrder_eq_zero.mp h)
    have hcond : (a.chars = b.chars ∨ ∃ i, FirstDifference a.char b.char i ∧ b.char i ≠ 0 ∧
        charOrder (m.byte p (i + 1)) (m.byte q (i + 1)) = charOrder (a.char i) (b.char i)) ↔
        b.char i ≠ 0 ∧ charOrder (m.byte p (i + 1)) (m.byte q (i + 1)) = charOrder (a.char i) (b.char i) := by
      refine ⟨fun h => ?_, fun h => Or.inr ⟨i, hi, h⟩⟩
      obtain ⟨j, hj, h⟩ := h.resolve_left hne
      exact hj.unique hi ▸ h
    have hall : ∀ v, (∀ j, FirstDifference a.char b.char j → v = charOrder (a.char j) (b.char j)) ↔
        v = charOrder (a.char i) (b.char i) := fun v =>
      ⟨fun h => h i hi, fun h j hj => hj.unique hi ▸ h⟩
    rw [hcond]
    by_cases hendA : a.char i = 0
    · -- the first string ends at the difference; only the second call goes on past it
      have hcharB : b.char i ≠ 0 := fun h => hi.differ (hendA.trans h.symm)
      have hlt : i < b.chars.length := Nat.lt_of_not_le fun h => hcharB (b.char_eq_zero h)
      rw [strcmpOrders_iff_of_stopsAt ha hb (stopsAt_of_end ha hb hi hendA) hle (stopsAt_of_char hb ha hi.symm hcharB) hlt,
        hall, ha.byte_eq hle, hb.byte_eq hle', charOrder_swap (m.byte p (i + 1)), neg_neg]
      constructor
      · rintro ⟨-, -, -, hanti⟩
        exact ⟨hcharB, hanti.symm⟩
      · rintro ⟨-, hnext⟩
        exact ⟨hle', iff_of_false hdiffer hne, rfl, hnext.symm⟩
    · have hltA : i < a.chars.length := Nat.lt_of_not_le fun h => hendA (a.char_eq_zero h)
      have hstop := stopsAt_of_char ha hb hi hendA
      by_cases hendB : b.char i = 0
      · rw [strcmpOrders_iff_of_stopsAt ha hb hstop hltA (stopsAt_of_end hb ha hi.symm hendB) hle']
        -- the byte after the second terminator is read
        have hge : b.chars.length ≤ i := Nat.le_of_not_lt fun h => b.char_ne_zero h hendB
        exact iff_of_false (fun h => absurd h.1 (by omega)) fun h => h.1 hendB
      · have hltB : i < b.chars.length := Nat.lt_of_not_le fun h => hendB (b.char_eq_zero h)
        rw [strcmpOrders_iff_of_stopsAt ha hb hstop hltA (stopsAt_of_char hb ha hi.symm hendB) hltB, hall]
        constructor
        · rintro ⟨-, -, hnext, -⟩
          exact ⟨hendB, hnext⟩
        · rintro ⟨-, hnext⟩
          refine ⟨hltB, iff_of_false (hnext ▸ hdiffer) hne, hnext, charOrder_swap _ _⟩

/-- Bytes of memory with two strings in it. -/
private def twoStrings (a b : List Char) : Bytes := fun x =>
  if x < 0x2000 then (a.map ascii).getD (x - 0x1000).toNat 0 else (b.map ascii).getD (x - 0x2000).toNat 0

theorem strcmpOrders_iff_ad_be : StrcmpOrders (twoStrings ['a', 'd'] ['b', 'e']) 0x1000 0x2000
    ⟨[ascii 'a', ascii 'd'], by decide⟩ ⟨[ascii 'b', ascii 'e'], by decide⟩ :=
  (strcmpOrders_iff (by unfold SpelledAs; decide) (by unfold SpelledAs; decide)).mpr
    (Or.inr ⟨0, ⟨fun j hj => absurd hj (Nat.not_lt_zero j), by decide⟩, by decide, by decide⟩)

/-- `strcmp` takes the names "hda" and "hdb" for equal. -/
theorem not_strcmpOrders : ¬ ∀ (m : Bytes) (p q : Word) (a b : CString), SpelledAs a.chars (m.byte p) →
    SpelledAs b.chars (m.byte q) → StrcmpOrders m p q a b := by
  intro h
  have hnames := h (twoStrings ['h', 'd', 'a'] ['h', 'd', 'b']) 0x1000 0x2000
    ⟨[ascii 'h', ascii 'd', ascii 'a'], by decide⟩ ⟨[ascii 'h', ascii 'd', ascii 'b'], by decide⟩
    (by unfold SpelledAs; decide) (by unfold SpelledAs; decide)
  obtain ⟨r, r', hr, -, horders⟩ := hnames
  have hzero : r.value = 0 := by
    have hrun := (hr 4 (by decide)).symm
    cases hrun
    decide
  exact absurd (horders.zero_iff.mp hzero) (by decide)

/-! ## The registry -/

theorem exists_stopsAt {m : Bytes} {p : Word} {chars : List UInt8} (h : SpelledAs chars (m.byte p))
    (hnonul : 0 ∉ chars) (q : Word) :
    ∃ k ≤ chars.length, StopsAt m p q k ∧ strcmpStop chars (m.byte q) = (m.byte p k, m.byte q k) := by
  induction chars generalizing p q with
  | nil =>
      have hnul : m.byte p 0 = 0 := h.2
      refine ⟨0, Nat.le_refl _, .terminator (m.byte_zero p ▸ hnul), ?_⟩
      rw [strcmpStop, hnul]
  | cons c chars ih =>
      obtain ⟨hc, hrest⟩ := spelledAs_cons.mp h
      have hchar : m p ≠ 0 := by
        rw [← m.byte_zero, ← hc]
        exact fun h => hnonul (h ▸ List.mem_cons_self ..)
      have hnonul : 0 ∉ chars := fun h => hnonul (List.mem_cons_of_mem _ h)
      rw [strcmpStop]
      by_cases heq : c = m.byte q 0
      · have hmatch : m p = m q := by rw [← m.byte_zero p, ← hc, heq, m.byte_zero]
        have hrest : SpelledAs chars (m.byte (p + 1)) := by
          rw [funext (m.byte_succ p)]
          exact hrest
        obtain ⟨k, hk, hstop, heqStop⟩ := ih hrest hnonul (q + 1)
        refine ⟨k + 1, Nat.succ_le_succ hk, .next hchar hmatch hstop, ?_⟩
        rw [if_pos heq, ← m.byte_succ, ← m.byte_succ, ← heqStop, funext (m.byte_succ q)]
      · have hmismatch : m p ≠ m q := by
          rw [← m.byte_zero p, ← hc, ← m.byte_zero q]
          exact heq
        refine ⟨1, Nat.succ_le_succ (Nat.zero_le _), .mismatch hchar hmismatch, ?_⟩
        rw [if_neg heq]
        cases chars with
        | nil => exact congrArg (·, _) hrest.2.symm
        | cons d chars => exact congrArg (·, _) (hrest.1 0 (Nat.succ_pos _))

/-- The registry's lookup uses the value `strcmp` has in memory. -/
theorem Bytes.strcmp_value {m : Bytes} {p : Word} {a : CString} (ha : SpelledAs a.chars (m.byte p)) (q : Word)
    {fuel : Nat} (hfuel : a.chars.length < fuel) :
    (m.strcmp fuel p q).map Comparison.value = some (I386Kernel.strcmp a.chars (m.byte q)) := by
  obtain ⟨k, hk, hstop, heq⟩ := exists_stopsAt ha a.nonul q
  rw [hstop.strcmp (Nat.lt_of_le_of_lt hk hfuel), I386Kernel.strcmp, heq]
  rfl

end I386Kernel
