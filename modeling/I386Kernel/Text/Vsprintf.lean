import I386Kernel.Base

/-!
# `vsprintf.c`

A format is the bytes of a C string. The loop carries `flags` from one directive to the next; `width` is read anew for each.
-/

namespace I386Kernel

/-- An argument: the word that is passed, and the bytes from that address on for a directive that takes it as a pointer. -/
structure Arg where
  word : Word
  bytes : List UInt8
deriving DecidableEq

/-- `ZEROPAD` and `LOWERCASE`. -/
structure Flags where
  zeropad : Bool
  lowercase : Bool
deriving DecidableEq

def isDigitChar (c : UInt8) : Bool := ascii '0' ≤ c ∧ c ≤ ascii '9'

/-- The number at the start of the string, from `res` on, and the rest of the string. -/
def atoiMod : Int → List UInt8 → Int × List UInt8
  | res, [] => (res, [])
  | res, c :: s => if isDigitChar c then atoiMod (int32 (res * 10 + c.toNat - 48)) s else (res, c :: s)

/-- The digits of `num`, the least significant first. -/
def digitsLoop (base num : Nat) : List Nat :=
  if num = 0 ∨ base < 2 then [] else num % base :: digitsLoop base (num / base)
termination_by num
decreasing_by exact Nat.div_lt_self (by omega) (by omega)

/-- The contents of `temp_buf` as digits. -/
def tempBuf (num : Word) (base : Nat) : List Nat := if num = 0 then [0] else digitsLoop base num.toNat

def digitChars (flags : Flags) : List UInt8 :=
  (if flags.lowercase then "0123456789abcdef" else "0123456789ABCDEF").toList.map ascii

def digitChar (flags : Flags) (d : Nat) : UInt8 := (digitChars flags).getD d 0

/-- The zeros that fill up the number to `width`. -/
def padding (num : Word) (base : Nat) (width : Int) : Nat := (int32 (width - (tempBuf num base).length)).toNat

def itoaBase (num : Word) (base : Nat) (width : Int) (flags : Flags) : List UInt8 :=
  List.replicate (if flags.zeropad then padding num base width else 0) (ascii '0') ++
    (tempBuf num base).reverse.map (digitChar flags)

/-- `va_arg`; a call with too few arguments reads zeros. -/
def vaArg : List Arg → Arg × List Arg
  | [] => (⟨0, []⟩, [])
  | a :: args => (a, args)

/-- The characters of a string argument; `strlen` of a null pointer is 0. -/
def stringText (a : Arg) : List UInt8 := if a.word = 0 then [] else a.bytes.takeWhile (· ≠ 0)

/-- The `switch` on the conversion: the text, the flags after it and the remaining arguments. -/
def convert (c : UInt8) (flags : Flags) (width : Int) (args : List Arg) : List UInt8 × Flags × List Arg :=
  let (a, args') := vaArg args
  if c = ascii 'c' then ([UInt8.ofNat a.word.toNat], flags, args')
  else if c = ascii 's' then (stringText a, flags, args')
  else if c = ascii 'd' ∨ c = ascii 'i' ∨ c = ascii 'u' then
    if c ≠ ascii 'u' ∧ a.word.toInt < 0 then (ascii '-' :: itoaBase (-a.word) 10 width flags, flags, args')
    else (itoaBase a.word 10 width flags, flags, args')
  else if c = ascii 'o' then (itoaBase a.word 8 width flags, flags, args')
  else if c = ascii 'x' then
    let flags := { flags with lowercase := true }
    (itoaBase a.word 16 width flags, flags, args')
  else if c = ascii 'X' then (itoaBase a.word 16 width flags, flags, args')
  else if c = ascii 'p' then (itoaBase a.word 16 8 flags, flags, args')
  else ([], flags, args)

/-- The loop at `flag_settings`. -/
def flagSettings : List UInt8 → Flags → Flags × List UInt8
  | [], flags => (flags, [])
  | c :: s, flags => if c = ascii '0' then flagSettings s { flags with zeropad := true } else (flags, c :: s)

/-- An `l`, `L` or `h` before the conversion is ignored. -/
def skipSize : List UInt8 → List UInt8
  | [] => []
  | c :: s => if c = ascii 'l' ∨ c = ascii 'L' ∨ c = ascii 'h' then s else c :: s

theorem flagSettings_length (s : List UInt8) (flags : Flags) : (flagSettings s flags).2.length ≤ s.length := by
  induction s generalizing flags with
  | nil => exact Nat.le_refl _
  | cons c s ih =>
      rw [flagSettings]
      split
      · exact Nat.le_succ_of_le (ih _)
      · exact Nat.le_refl _

theorem atoiMod_length (res : Int) (s : List UInt8) : (atoiMod res s).2.length ≤ s.length := by
  induction s generalizing res with
  | nil => exact Nat.le_refl _
  | cons c s ih =>
      rw [atoiMod]
      split
      · exact Nat.le_succ_of_le (ih _)
      · exact Nat.le_refl _

theorem skipSize_length (s : List UInt8) : (skipSize s).length ≤ s.length := by
  cases s with
  | nil => exact Nat.le_refl _
  | cons c s =>
      rw [skipSize]
      split
      · exact Nat.le_succ _
      · exact Nat.le_refl _

/-- The loop of `vsprintf` over the rest of the format. -/
def vsprintfLoop : List UInt8 → Flags → List Arg → List UInt8
  | [], _, _ => []
  | c :: fmt, flags, args =>
      if c = 0 then []
      else if c ≠ ascii '%' then c :: vsprintfLoop fmt flags args
      else
        let settings := flagSettings fmt flags
        let number := atoiMod 0 settings.2
        match _hskip : skipSize number.2 with
        | [] => []
        | conv :: rest =>
            let res := convert conv settings.1 number.1 args
            res.1 ++ vsprintfLoop rest res.2.1 res.2.2
termination_by fmt => fmt.length
decreasing_by
  · exact Nat.lt_succ_self _
  · have h1 := flagSettings_length fmt flags
    have h2 := atoiMod_length 0 settings.2
    have h3 := skipSize_length number.2
    rw [_hskip, List.length_cons] at h3
    exact Nat.lt_succ_of_lt (Nat.lt_of_lt_of_le h3 (Nat.le_trans h2 h1))

/-- The text and its length. -/
def vsprintf (fmt : List UInt8) (args : List Arg) : List UInt8 × Nat :=
  let text := vsprintfLoop fmt ⟨false, false⟩ args
  (text, text.length)

end I386Kernel
