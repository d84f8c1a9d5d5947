import I386Kernel.Text.Formats
import Mathlib.Data.Nat.Digits.Lemmas

/-!
# Numbers in texts

A number directive prints a numeral: read back digit by digit, its text has the value of the argument, with as many digits as the value needs or as the `0` flag asks for.
-/

namespace I386Kernel

/-! ## Numerals -/

/-- The value of a digit; letters count in one case only. -/
def digitOf (upper : Bool) (c : UInt8) : Option Nat :=
  if 48 ≤ c.toNat ∧ c.toNat ≤ 57 then some (c.toNat - 48)
  else if upper = true ∧ 65 ≤ c.toNat ∧ c.toNat ≤ 70 then some (c.toNat - 55)
  else if upper = false ∧ 97 ≤ c.toNat ∧ c.toNat ≤ 102 then some (c.toNat - 87)
  else none

/-- The value of a text that consists of digits of the base. -/
def numeralValue (base : Nat) (upper : Bool) (text : List UInt8) : Option Nat :=
  text.foldl (fun res c => res.bind fun r => (digitOf upper c).bind fun n => if n < base then some (r * base + n) else none)
    (some 0)

/-- The least number of digits, one for zero. -/
def minimalDigits (base n : Nat) : Nat := Nat.log base n + 1

/-- The number of the width. -/
def Directive.widthValue (d : Directive) : Nat := d.width.foldl (fun res n => res * 10 + n.val) 0

namespace Conv

/-- The conversions that print a number of the width the directive gives. -/
def IsNumber (conv : Conv) : Prop := conv = .d ∨ conv = .i ∨ conv = .u ∨ conv = .o ∨ conv = .x ∨ conv = .X

def signed (conv : Conv) : Bool := conv = .d ∨ conv = .i

def base : Conv → Nat
  | .o => 8
  | .x | .X | .p => 16
  | _ => 10

/-- The sign of an argument. -/
def sign (conv : Conv) (v : Word) : List UInt8 := if conv.signed ∧ v.toInt < 0 then [ascii '-'] else []

/-- The absolute value of an argument, which is signed for `d` and `i`. -/
def magnitude (conv : Conv) (v : Word) : Nat := if conv.signed then v.toInt.natAbs else v.toNat

/-- The word passed to `itoa_base`. -/
def numeral (conv : Conv) (v : Word) : Word := if conv.signed ∧ v.toInt < 0 then -v else v

end Conv

/-! ## The digits -/

theorem digitsLoop_eq {base : Nat} (hbase : 1 < base) (num : Nat) : digitsLoop base num = Nat.digits base num := by
  fun_induction digitsLoop base num with
  | case1 num hstop =>
      obtain rfl : num = 0 := by omega
      exact (Nat.digits_zero base).symm
  | case2 num hgo ih => rw [Nat.digits_def' hbase (n := num) (by omega), ih]

theorem tempBuf_spec {base : Nat} (hbase : 1 < base) (num : Word) :
    (tempBuf num base).length = minimalDigits base num.toNat ∧ (∀ n ∈ tempBuf num base, n < base) ∧
      Nat.ofDigits base (tempBuf num base) = num.toNat := by
  rw [tempBuf, minimalDigits]
  by_cases hzero : num = 0
  · subst hzero
    rw [if_pos rfl]
    refine ⟨?_, fun n hn => ?_, ?_⟩
    · show 1 = Nat.log base 0 + 1
      rw [Nat.log_zero_right]
    · rw [List.mem_singleton.mp hn]
      omega
    · rw [Nat.ofDigits_singleton]
      rfl
  · have hpos : num.toNat ≠ 0 := fun h => hzero (BitVec.eq_of_toNat_eq h)
    rw [if_neg hzero, digitsLoop_eq hbase]
    exact ⟨Nat.length_digits base _ hbase hpos, fun n hn => Nat.digits_lt_base hbase hn, Nat.ofDigits_digits base _⟩

/-- `temp_buf` has room for the digits in every base. -/
theorem length_tempBuf_le {base : Nat} (hbase : 1 < base) (num : Word) : (tempBuf num base).length ≤ 32 := by
  rw [(tempBuf_spec hbase num).1, minimalDigits]
  apply Nat.log_lt_of_lt_pow' (by decide)
  calc num.toNat < 2 ^ 32 := num.isLt
    _ ≤ base ^ 32 := Nat.pow_le_pow_left hbase 32

theorem digitOf_digitChar (flags : Flags) {n : Nat} (hn : n < 16) : digitOf (!flags.lowercase) (digitChar flags n) = some n := by
  obtain ⟨z, l⟩ := flags
  have hall : ∀ l : Bool, ∀ n < 16, digitOf (!l)
      (((if l then "0123456789abcdef" else "0123456789ABCDEF").toList.map ascii).getD n 0) = some n := by decide +kernel
  exact hall l n hn

/-! ## Texts -/

/-- The text is the padding and the digits, each as a character. -/
theorem itoaBase_eq_map (num : Word) (base : Nat) (width : Int) (flags : Flags) : itoaBase num base width flags =
    (List.replicate (if flags.zeropad then padding num base width else 0) 0 ++ (tempBuf num base).reverse).map
      (digitChar flags) := by
  have hzero : digitChar flags 0 = ascii '0' := by
    rw [digitChar, digitChars]
    cases flags.lowercase <;> decide
  rw [itoaBase, List.map_append, List.map_replicate, hzero]

/-- Reading digits back, from `res` on. -/
theorem foldl_digitChar (flags : Flags) {base : Nat} (hbase : base ≤ 16) {ds : List Nat} (hds : ∀ n ∈ ds, n < base) (res : Nat) :
    (ds.map (digitChar flags)).foldl (fun res c => res.bind fun r => (digitOf (!flags.lowercase) c).bind fun n =>
      if n < base then some (r * base + n) else none) (some res) = some (ds.foldl (fun r n => r * base + n) res) := by
  induction ds generalizing res with
  | nil => rfl
  | cons n ds ih =>
      have hn := hds n List.mem_cons_self
      rw [List.map_cons, List.foldl_cons, List.foldl_cons, digitOf_digitChar flags (Nat.lt_of_lt_of_le hn hbase),
        Option.bind_some, Option.bind_some, if_pos hn]
      exact ih (fun n' hn' => hds n' (List.mem_cons_of_mem n hn')) _

theorem foldl_zeros (base k : Nat) : (List.replicate k 0).foldl (fun r n => r * base + n) 0 = 0 := by
  induction k with
  | zero => rfl
  | succ k ih => rw [List.replicate_succ, List.foldl_cons, Nat.zero_mul, ih]

/-- What is read back is the number. -/
theorem numeralValue_itoaBase (num : Word) {base : Nat} (hlow : 1 < base) (hhigh : base ≤ 16) (width : Int) (flags : Flags) :
    numeralValue base (!flags.lowercase) (itoaBase num base width flags) = some num.toNat := by
  obtain ⟨-, hlt, hvalue⟩ := tempBuf_spec hlow num
  have hds : ∀ n ∈ List.replicate (if flags.zeropad then padding num base width else 0) 0 ++ (tempBuf num base).reverse,
      n < base := by
    intro n hn
    obtain hn | hn := List.mem_append.mp hn
    · rw [List.eq_of_mem_replicate hn]
      omega
    · exact hlt n (List.mem_reverse.mp hn)
  have hdigits : (tempBuf num base).reverse.foldl (fun r n => r * base + n) 0 = num.toNat := by
    rw [List.foldl_reverse, ← hvalue, Nat.ofDigits_eq_foldr]
    congr 1
    funext n r
    rw [Nat.mul_comm, Nat.add_comm]
    rfl
  rw [numeralValue, itoaBase_eq_map, foldl_digitChar flags hhigh hds, List.foldl_append, foldl_zeros, hdigits]

/-! ## Directives -/

private theorem int32_of_small {n : Int} (hlow : -2 ^ 31 ≤ n) (hhigh : n < 2 ^ 31) : int32 n = n := by
  rw [int32]
  omega

private theorem le_foldl_width (width : List (Fin 10)) (res : Nat) :
    res ≤ width.foldl (fun res n => res * 10 + n.val) res := by
  induction width generalizing res with
  | nil => exact Nat.le_refl res
  | cons n width ih => exact Nat.le_trans (by omega) (ih (res * 10 + n.val))

/-- No step of `atoi_mod` wraps when the result is below 2³¹. -/
private theorem foldl_width (width : List (Fin 10)) {res : Nat} (h : width.foldl (fun res n => res * 10 + n.val) res < 2 ^ 31) :
    width.foldl (fun (res : Int) n => int32 (res * 10 + n.val)) res = width.foldl (fun res n => res * 10 + n.val) res := by
  induction width generalizing res with
  | nil => rfl
  | cons n width ih =>
      rw [List.foldl_cons] at h
      have hstep := le_foldl_width width (res * 10 + n.val)
      have hsmall : int32 ((res : Int) * 10 + n.val) = ((res * 10 + n.val : Nat) : Int) := by
        rw [int32_of_small (by omega) (by omega)]
        push_cast
        rfl
      rw [List.foldl_cons, List.foldl_cons, hsmall, ih h]

theorem fieldWidth_eq {d : Directive} (h : d.widthValue < 2 ^ 31) : d.fieldWidth = d.widthValue := foldl_width d.width h

/-- The `0` flag fills up to the width. -/
theorem padding_add_length {num : Word} {base width : Nat} (hbase : 1 < base) (hwidth : width < 2 ^ 31) :
    padding num base width + (tempBuf num base).length = max width (minimalDigits base num.toNat) := by
  have hlength := length_tempBuf_le hbase num
  rw [padding, int32_of_small (by omega) (by omega), ← (tempBuf_spec hbase num).1]
  omega

theorem toNat_numeral (conv : Conv) (v : Word) : (conv.numeral v).toNat = conv.magnitude v := by
  have hv := v.isLt
  have hint : v.toInt = if 2 * v.toNat < 2 ^ 32 then (v.toNat : Int) else v.toNat - 2 ^ 32 := BitVec.toInt_eq_toNat_cond v
  rw [Conv.numeral, Conv.magnitude]
  cases conv.signed with
  | false => rfl
  | true =>
      by_cases hneg : v.toInt < 0
      · rw [if_pos ⟨rfl, hneg⟩, if_pos rfl, BitVec.toNat_neg]
        split at hint <;> omega
      · rw [if_neg fun h => hneg h.2, if_pos rfl]
        split at hint <;> omega

theorem number_of_isNumber {conv : Conv} (h : conv.IsNumber) (width : Int) (v : Word) :
    conv.number width v = some (conv.sign v, conv.numeral v, conv.base, width) := by
  obtain rfl | rfl | rfl | rfl | rfl | rfl := h
  · by_cases hneg : v.toInt < 0 <;> simp [Conv.number, Conv.sign, Conv.numeral, Conv.signed, Conv.base, hneg]
  · by_cases hneg : v.toInt < 0 <;> simp [Conv.number, Conv.sign, Conv.numeral, Conv.signed, Conv.base, hneg]
  all_goals rfl

theorem vsprintfLoop_plain {pre : List UInt8} (hpre : ∀ c ∈ pre, c ≠ 0 ∧ c ≠ ascii '%') (fmt : List UInt8) (flags : Flags)
    (args : List Arg) : vsprintfLoop (pre ++ fmt) flags args = pre ++ vsprintfLoop fmt flags args := by
  induction pre with
  | nil => rfl
  | cons c pre ih =>
      rw [List.cons_append, vsprintfLoop_lit (hpre c List.mem_cons_self), ih fun c' hc' => hpre c' (List.mem_cons_of_mem c hc')]
      rfl

/-- The first directive of a format prints the sign and a numeral of its argument. -/
theorem vsprintf_number (pre : List UInt8) (hpre : ∀ c ∈ pre, c ≠ 0 ∧ c ≠ ascii '%') (d : Directive)
    (hconv : d.conv.IsNumber) (hwidth : d.widthValue < 2 ^ 31) (rest : List UInt8) (v : Word) (bytes : List UInt8)
    (args : List Arg) : ∃ digits : List UInt8,
      (vsprintf (pre ++ (d.bytes ++ rest)) (⟨v, bytes⟩ :: args)).1 =
          pre ++ (d.conv.sign v ++ digits ++ vsprintfLoop rest d.flags args) ∧
        numeralValue d.conv.base (d.conv ≠ .x) digits = some (d.conv.magnitude v) ∧
        digits.length = (if d.flags.zeropad then max d.widthValue (minimalDigits d.conv.base (d.conv.magnitude v))
          else minimalDigits d.conv.base (d.conv.magnitude v)) ∧
        (tempBuf (d.conv.numeral v) d.conv.base).length ≤ 32 := by
  have hbase : 1 < d.conv.base ∧ d.conv.base ≤ 16 := by
    cases d.conv <;> decide
  have hupper : (!d.flags.lowercase) = decide (d.conv ≠ .x) := (decide_not).symm
  refine ⟨itoaBase (d.conv.numeral v) d.conv.base d.fieldWidth d.flags, ?_, ?_, ?_, length_tempBuf_le hbase.1 _⟩
  · have hloop := vsprintfLoop_directive d rest .none (⟨v, bytes⟩ :: args)
    rw [Flags.none_or, Directive.text, number_of_isNumber hconv] at hloop
    exact (vsprintfLoop_plain hpre _ _ _).trans (congrArg (pre ++ ·) hloop)
  · rw [← toNat_numeral, ← hupper]
    exact numeralValue_itoaBase _ hbase.1 hbase.2 _ _
  · rw [length_itoaBase, fieldWidth_eq hwidth, ← toNat_numeral]
    cases d.flags.zeropad with
    | true => exact padding_add_length hbase.1 hwidth
    | false =>
        rw [← (tempBuf_spec hbase.1 _).1]
        exact Nat.zero_add _

/-- `"%012d"` of the least 32-bit number. -/
theorem vsprintf_number_min : ∃ digits : List UInt8,
    (vsprintf ([] ++ ((⟨true, [1, 2], none, .d⟩ : Directive).bytes ++ [])) [⟨0x80000000, []⟩]).1 =
        [] ++ (Conv.d.sign 0x80000000 ++ digits ++ vsprintfLoop [] ⟨true, false⟩ []) ∧
      numeralValue 10 true digits = some (Conv.d.magnitude 0x80000000) ∧ digits.length = max 12 (minimalDigits 10 (Conv.d.magnitude 0x80000000)) ∧
      (tempBuf (Conv.d.numeral 0x80000000) 10).length ≤ 32 :=
  vsprintf_number [] nofun ⟨true, [1, 2], none, .d⟩ (Or.inl rfl) (by decide) [] 0x80000000 [] []

end I386Kernel
