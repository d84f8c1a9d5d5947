import Mathlib.Data.List.Basic
import I386Kernel.Text.Vsprintf

/-!
# Formats as sequences of directives

The formats `vsprintf` supports, as literal characters and complete directives. What a directive prints under the flags that earlier ones have left is compared with what it prints under its own: the two texts of a format agree exactly when no directive is disturbed.
-/

namespace I386Kernel

inductive Conv where
  | c
  | s
  | d
  | i
  | u
  | o
  | x
  | X
  | p
deriving DecidableEq

/-- `%`, a `0` flag, a width, a size prefix and a conversion. -/
structure Directive where
  zero : Bool
  width : List (Fin 10)
  size : Option (Fin 3)
  conv : Conv
deriving DecidableEq

inductive Item where
  | lit (ch : UInt8) (plain : ch ≠ 0 ∧ ch ≠ ascii '%')
  | dir (d : Directive)

abbrev Format := List Item

def Conv.byte : Conv → UInt8
  | .c => ascii 'c'
  | .s => ascii 's'
  | .d => ascii 'd'
  | .i => ascii 'i'
  | .u => ascii 'u'
  | .o => ascii 'o'
  | .x => ascii 'x'
  | .X => ascii 'X'
  | .p => ascii 'p'

def digitByte (n : Fin 10) : UInt8 := UInt8.ofNat (48 + n)

def sizeByte (n : Fin 3) : UInt8 := [ascii 'l', ascii 'L', ascii 'h'].get n

def Directive.bytes (d : Directive) : List UInt8 :=
  ascii '%' :: ((if d.zero then [ascii '0'] else []) ++ d.width.map digitByte ++ (d.size.map sizeByte).toList ++
    [d.conv.byte])

def Item.bytes : Item → List UInt8
  | .lit ch _ => [ch]
  | .dir d => d.bytes

namespace Format

def bytes (f : Format) : List UInt8 := f.flatMap Item.bytes

/-- The number of directives. -/
def arity (f : Format) : Nat := f.countP fun
  | .lit .. => false
  | .dir _ => true

end Format

/-! ## Flags -/

def Flags.or (F G : Flags) : Flags := ⟨F.zeropad || G.zeropad, F.lowercase || G.lowercase⟩

def Flags.none : Flags := ⟨false, false⟩

/-- The flags a directive sets: the `0` flag may also be the first digit of the width. -/
def Directive.flags (d : Directive) : Flags := ⟨d.zero || decide (d.width.head? = some 0), d.conv = .x⟩

def Item.flags : Item → Flags
  | .lit .. => .none
  | .dir d => d.flags

@[simp] theorem Flags.or_none (F : Flags) : F.or .none = F := by
  simp [Flags.or, Flags.none]

@[simp] theorem Flags.none_or (F : Flags) : Flags.none.or F = F := by
  simp [Flags.or, Flags.none]

theorem Flags.or_assoc (F G H : Flags) : (F.or G).or H = F.or (G.or H) := by
  simp [Flags.or, Bool.or_assoc]

/-- The flags after the directives of a format. -/
def Format.flags (f : Format) : Flags := f.foldl (fun F it => F.or it.flags) .none

def Directive.fieldWidth (d : Directive) : Int := d.width.foldl (fun res n => int32 (res * 10 + n.val)) 0

/-! ## What a directive prints -/

/-- The sign, the number, the base and the width a conversion passes to `itoa_base`. -/
def Conv.number (width : Int) (w : Word) : Conv → Option (List UInt8 × Word × Nat × Int)
  | .c | .s => none
  | .d | .i => if w.toInt < 0 then some ([ascii '-'], -w, 10, width) else some ([], w, 10, width)
  | .u => some ([], w, 10, width)
  | .o => some ([], w, 8, width)
  | .x | .X => some ([], w, 16, width)
  | .p => some ([], w, 16, 8)

/-- The text of a conversion that prints no number. -/
def Conv.chars (a : Arg) : Conv → List UInt8
  | .c => [UInt8.ofNat a.word.toNat]
  | .s => stringText a
  | _ => []

def Directive.text (flags : Flags) (d : Directive) (a : Arg) : List UInt8 :=
  match d.conv.number d.fieldWidth a.word with
  | none => d.conv.chars a
  | some (sign, num, base, width) => sign ++ itoaBase num base width flags

/-- The text of a format whose first directive finds `flags`. -/
def Format.text : Flags → Format → List Arg → List UInt8
  | _, [], _ => []
  | flags, .lit ch _ :: f, args => ch :: text flags f args
  | flags, .dir d :: f, args =>
      d.text (flags.or d.flags) (vaArg args).1 ++ text (flags.or d.flags) f (vaArg args).2

/-- The arguments after the directives of a format. -/
def Format.rest : Format → List Arg → List Arg
  | [], args => args
  | .lit .. :: f, args => rest f args
  | .dir _ :: f, args => rest f (vaArg args).2

/-! ## The loop on a format -/

private theorem digitByte_isDigit (n : Fin 10) : isDigitChar (digitByte n) = true := by
  revert n
  decide

private theorem toNat_digitByte (n : Fin 10) : ((digitByte n).toNat : Int) - 48 = n.val := by
  revert n
  decide

private theorem digitByte_eq_zero (n : Fin 10) : digitByte n = ascii '0' ↔ n = 0 := by
  revert n
  decide

private theorem byte_not_digit (conv : Conv) : isDigitChar conv.byte = false := by
  cases conv <;> decide

private theorem sizeByte_not_digit (n : Fin 3) : isDigitChar (sizeByte n) = false := by
  revert n
  decide

private theorem skipSize_sizeByte (n : Fin 3) (s : List UInt8) : skipSize (sizeByte n :: s) = s := by
  have hsize : sizeByte n = ascii 'l' ∨ sizeByte n = ascii 'L' ∨ sizeByte n = ascii 'h' := by
    revert n
    decide
  rw [skipSize, if_pos hsize]

private theorem skipSize_byte (conv : Conv) (s : List UInt8) : skipSize (conv.byte :: s) = conv.byte :: s := by
  have hsize : ¬ (conv.byte = ascii 'l' ∨ conv.byte = ascii 'L' ∨ conv.byte = ascii 'h') := by
    cases conv <;> decide
  rw [skipSize, if_neg hsize]

/-- Past the flags and the width. -/
private theorem atoiMod_stop {s : List UInt8} (hs : ∀ c ∈ s.head?, isDigitChar c = false) (res : Int) :
    atoiMod res s = (res, s) := by
  cases s with
  | nil => rfl
  | cons c s => rw [atoiMod, hs c rfl, if_neg Bool.false_ne_true]

private theorem atoiMod_digits (width : List (Fin 10)) {s : List UInt8} (hs : ∀ c ∈ s.head?, isDigitChar c = false)
    (res : Int) : atoiMod res (width.map digitByte ++ s) =
      (width.foldl (fun res n => int32 (res * 10 + n.val)) res, s) := by
  induction width generalizing res with
  | nil => exact atoiMod_stop hs res
  | cons n width ih =>
      rw [List.map_cons, List.cons_append, atoiMod, if_pos (digitByte_isDigit n), ih, Int.add_sub_assoc,
        toNat_digitByte, List.foldl_cons]

private theorem flagSettings_stop {s : List UInt8} (hs : s.head? ≠ some (ascii '0')) (flags : Flags) :
    flagSettings s flags = (flags, s) := by
  cases s with
  | nil => rfl
  | cons c s =>
      rw [List.head?_cons, ne_eq, Option.some.injEq] at hs
      rw [flagSettings, if_neg hs]

/-- The leading zeros of a width are flags, and do not change its value. -/
private theorem settings_digits (width : List (Fin 10)) {s : List UInt8} (hs : ∀ c ∈ s.head?, isDigitChar c = false)
    (flags : Flags) :
    let settings := flagSettings (width.map digitByte ++ s) flags
    settings.1 = flags.or ⟨width.head? = some 0, false⟩ ∧
      atoiMod 0 settings.2 = (width.foldl (fun res n => int32 (res * 10 + n.val)) 0, s) := by
  induction width generalizing flags with
  | nil =>
      have hzero : s.head? ≠ some (ascii '0') := by
        intro heq
        have := hs _ heq
        exact absurd this (by decide)
      simp only [List.map_nil, List.nil_append, flagSettings_stop hzero, atoiMod_stop hs]
      simp [Flags.or]
  | cons n width ih =>
      by_cases hn : n = 0
      · subst hn
        obtain ⟨hflags, hwidth⟩ := ih { flags with zeropad := true }
        simp only [List.map_cons, List.cons_append, flagSettings, if_pos ((digitByte_eq_zero 0).mpr rfl)]
        refine ⟨?_, ?_⟩
        · rw [hflags]
          simp [Flags.or]
        · have hzero : int32 (0 * 10 + ((0 : Fin 10).val : Int)) = 0 := by decide
          rw [hwidth, List.foldl_cons, hzero]
      · have hstop := flagSettings_stop (s := digitByte n :: (width.map digitByte ++ s))
          (fun heq => hn ((digitByte_eq_zero n).mp (Option.some.inj heq))) flags
        simp only [List.map_cons, List.cons_append, hstop]
        refine ⟨?_, ?_⟩
        · simp [Flags.or, hn]
        · exact atoiMod_digits (n :: width) hs 0

/-- The `switch` on a supported conversion. -/
private theorem convert_byte (conv : Conv) (flags : Flags) (width : Int) (args : List Arg) :
    convert conv.byte flags width args =
      ((match conv.number width (vaArg args).1.word with
        | none => conv.chars (vaArg args).1
        | some (sign, num, base, width) => sign ++ itoaBase num base width (flags.or ⟨false, conv = .x⟩)),
        flags.or ⟨false, conv = .x⟩, (vaArg args).2) := by
  have hor : flags.or ⟨false, false⟩ = flags := by
    simp [Flags.or]
  cases conv
  case d | i =>
    simp only [convert, Conv.byte, Conv.number]
    by_cases hneg : (vaArg args).1.word.toInt < 0
    · rw [if_pos hneg]
      simp [hneg, hor, ascii]
    · rw [if_neg hneg]
      simp [hneg, hor, ascii]
  all_goals
    simp [convert, Conv.byte, Conv.number, Conv.chars, ascii, Flags.or]

theorem vsprintfLoop_lit {ch : UInt8} (plain : ch ≠ 0 ∧ ch ≠ ascii '%') (fmt : List UInt8) (flags : Flags)
    (args : List Arg) : vsprintfLoop (ch :: fmt) flags args = ch :: vsprintfLoop fmt flags args := by
  rw [vsprintfLoop, if_neg plain.1, if_pos plain.2]

/-- The directive as the parser takes it apart. -/
private theorem directive_parse (d : Directive) (fmt : List UInt8) (flags : Flags) : ∃ s,
    d.bytes ++ fmt = ascii '%' :: s ∧
      let settings := flagSettings s flags
      settings.1 = flags.or ⟨d.zero || decide (d.width.head? = some 0), false⟩ ∧
        (atoiMod 0 settings.2).1 = d.fieldWidth ∧ skipSize (atoiMod 0 settings.2).2 = d.conv.byte :: fmt := by
  obtain ⟨zero, width, size, conv⟩ := d
  have htail : ∃ tail : List UInt8, (size.map sizeByte).toList ++ (conv.byte :: fmt) = tail ∧
      (∀ c ∈ tail.head?, isDigitChar c = false) ∧ skipSize tail = conv.byte :: fmt := by
    cases size with
    | none =>
        refine ⟨_, rfl, fun c hc => ?_, skipSize_byte conv fmt⟩
        cases hc
        exact byte_not_digit conv
    | some n =>
        refine ⟨_, rfl, fun c hc => ?_, skipSize_sizeByte n _⟩
        cases hc
        exact sizeByte_not_digit n
  obtain ⟨tail, htail, hdigit, hskip⟩ := htail
  have hbytes : (⟨zero, width, size, conv⟩ : Directive).bytes ++ fmt =
      ascii '%' :: ((if zero then [ascii '0'] else []) ++ (width.map digitByte ++ tail)) := by
    rw [← htail]
    simp [Directive.bytes]
  refine ⟨_, hbytes, ?_⟩
  cases zero with
  | false =>
      obtain ⟨hflags, hwidth⟩ := settings_digits width hdigit flags
      simp only [Bool.false_eq_true, if_false, List.nil_append]
      exact ⟨hflags, by rw [hwidth]; rfl, by rw [hwidth]; exact hskip⟩
  | true =>
      obtain ⟨hflags, hwidth⟩ := settings_digits width hdigit { flags with zeropad := true }
      have hset : flagSettings ([ascii '0'] ++ (width.map digitByte ++ tail)) flags =
          flagSettings (width.map digitByte ++ tail) { flags with zeropad := true } := by
        rw [List.singleton_append, flagSettings, if_pos rfl]
      simp only [if_true, hset]
      refine ⟨?_, by rw [hwidth]; rfl, by rw [hwidth]; exact hskip⟩
      rw [hflags]
      simp [Flags.or]

theorem vsprintfLoop_directive (d : Directive) (fmt : List UInt8) (flags : Flags) (args : List Arg) :
    vsprintfLoop (d.bytes ++ fmt) flags args = d.text (flags.or d.flags) (vaArg args).1 ++
      vsprintfLoop fmt (flags.or d.flags) (vaArg args).2 := by
  obtain ⟨s, hs, hflags, hwidth, hskip⟩ := directive_parse d fmt flags
  have hor : (flags.or ⟨d.zero || decide (d.width.head? = some 0), false⟩).or ⟨false, d.conv = .x⟩ =
      flags.or d.flags := by
    simp [Flags.or, Directive.flags]
  rw [hs, vsprintfLoop, if_neg (by decide), if_neg (by simp)]
  dsimp only
  split
  · rename_i hnil
    rw [hskip] at hnil
    cases hnil
  · rename_i conv rest hcons
    rw [hskip, List.cons.injEq] at hcons
    obtain ⟨rfl, rfl⟩ := hcons
    rw [hwidth, hflags, convert_byte, hor]
    rfl

private theorem foldl_flags (f : Format) (F : Flags) : f.foldl (fun F it => F.or it.flags) F = F.or f.flags := by
  induction f generalizing F with
  | nil => exact F.or_none.symm
  | cons it f ih =>
      have hcons : Format.flags (it :: f) = it.flags.or (Format.flags f) := by
        rw [Format.flags, List.foldl_cons, ih, Flags.none_or]
      rw [List.foldl_cons, ih, hcons, Flags.or_assoc]

theorem Format.flags_cons (it : Item) (f : Format) : Format.flags (it :: f) = it.flags.or f.flags := by
  rw [Format.flags, List.foldl_cons, foldl_flags, Flags.none_or]

theorem Format.bytes_cons (it : Item) (f : Format) : Format.bytes (it :: f) = it.bytes ++ f.bytes :=
  List.flatMap_cons

/-- The loop on a supported format followed by anything. -/
theorem vsprintfLoop_append (f : Format) (fmt : List UInt8) (flags : Flags) (args : List Arg) :
    vsprintfLoop (f.bytes ++ fmt) flags args =
      f.text flags args ++ vsprintfLoop fmt (flags.or f.flags) (f.rest args) := by
  induction f generalizing flags args with
  | nil =>
      have hflags : flags.or (Format.flags []) = flags := flags.or_none
      rw [hflags]
      rfl
  | cons it f ih =>
      rw [Format.bytes_cons, Format.flags_cons, ← Flags.or_assoc, List.append_assoc]
      cases it with
      | lit ch plain =>
          have hflags : flags.or (Item.lit ch plain).flags = flags := flags.or_none
          rw [hflags, Item.bytes, List.singleton_append, vsprintfLoop_lit plain, ih]
          rfl
      | dir d =>
          rw [Item.bytes, vsprintfLoop_directive, ih, ← List.append_assoc]
          rfl

theorem vsprintfLoop_bytes (f : Format) (flags : Flags) (args : List Arg) :
    vsprintfLoop f.bytes flags args = f.text flags args := by
  have h := vsprintfLoop_append f [] flags args
  rwa [List.append_nil, vsprintfLoop, List.append_nil] at h

/-! ## Compositionality -/

/-- Under `ZEROPAD` the directive prints more zeros than without. -/
def Directive.Padded (d : Directive) (a : Arg) : Prop :=
  match d.conv.number d.fieldWidth a.word with
  | none => False
  | some (_, num, base, width) => 0 < padding num base width

/-- The number has a digit that is a letter. -/
def Directive.Lettered (d : Directive) (a : Arg) : Prop :=
  match d.conv.number d.fieldWidth a.word with
  | none => False
  | some (_, num, base, _) => ∃ n ∈ tempBuf num base, 10 ≤ n

/-- Some directive of the format prints a padded number without a `0` flag of its own or of an earlier directive, where `F` has `ZEROPAD`, or a number with letters before any `x`, where `F` has `LOWERCASE`. `own` are the flags of the earlier directives. -/
def Format.Disturbed (F : Flags) : Flags → Format → List Arg → Prop
  | _, [], _ => False
  | own, .lit .. :: f, args => Disturbed F own f args
  | own, .dir d :: f, args =>
      (F.zeropad = true ∧ (own.or d.flags).zeropad = false ∧ d.Padded (vaArg args).1) ∨
        (F.lowercase = true ∧ (own.or d.flags).lowercase = false ∧ d.Lettered (vaArg args).1) ∨
          Disturbed F (own.or d.flags) f (vaArg args).2

private theorem digitsLoop_lt {base : Nat} (hbase : base ≤ 16) (num : Nat) : ∀ n ∈ digitsLoop base num, n < 16 := by
  fun_induction digitsLoop base num with
  | case1 num hstop => exact fun n hn => nomatch hn
  | case2 num hgo ih =>
      intro n hn
      obtain rfl | hn := List.mem_cons.mp hn
      · have hmod : num % base < base := Nat.mod_lt _ (by omega)
        omega
      · exact ih n hn

private theorem tempBuf_lt {base : Nat} (hbase : base ≤ 16) (num : Word) : ∀ n ∈ tempBuf num base, n < 16 := by
  intro n hn
  rw [tempBuf] at hn
  split at hn
  · rw [List.mem_singleton.mp hn]
    decide
  · exact digitsLoop_lt hbase _ n hn

theorem length_itoaBase (num : Word) (base : Nat) (width : Int) (flags : Flags) :
    (itoaBase num base width flags).length =
      (if flags.zeropad then padding num base width else 0) + (tempBuf num base).length := by
  rw [itoaBase, List.length_append, List.length_replicate, List.length_map, List.length_reverse]

/-- The two cases differ exactly in the letters. -/
private theorem digitChar_eq_iff (F G : Flags) {n : Nat} (hn : n < 16) :
    digitChar F n = digitChar G n ↔ F.lowercase = G.lowercase ∨ n < 10 := by
  obtain ⟨z, l⟩ := F
  obtain ⟨z', l'⟩ := G
  have hall : ∀ l l' : Bool, ∀ n < 16, (((if l then "0123456789abcdef" else "0123456789ABCDEF").toList.map
      ascii).getD n 0 = ((if l' then "0123456789abcdef" else "0123456789ABCDEF").toList.map ascii).getD n 0) ↔
        (l = l' ∨ n < 10) := by decide +kernel
  exact hall l l' n hn

private theorem itoaBase_eq_iff {num : Word} {base : Nat} (hbase : base ≤ 16) (width : Int) (F own : Flags) :
    itoaBase num base width (F.or own) = itoaBase num base width own ↔
      ¬ (F.zeropad = true ∧ own.zeropad = false ∧ 0 < padding num base width) ∧
        ¬ (F.lowercase = true ∧ own.lowercase = false ∧ ∃ n ∈ tempBuf num base, 10 ≤ n) := by
  have hpad : (F.or own).zeropad = (F.zeropad || own.zeropad) := rfl
  have hlow : (F.or own).lowercase = (F.lowercase || own.lowercase) := rfl
  constructor
  · intro heq
    constructor
    · rintro ⟨hF, hown, hpos⟩
      have hlen := congrArg List.length heq
      rw [length_itoaBase, length_itoaBase, hpad, hF, hown] at hlen
      simp only [Bool.true_or, if_true, Bool.false_eq_true, if_false] at hlen
      omega
    · rintro ⟨hF, hown, n, hn, hge⟩
      have htail := (List.append_inj' heq (by simp)).2
      have hdigit := List.map_inj_left.mp htail n (List.mem_reverse.mpr hn)
      rw [digitChar_eq_iff _ _ (tempBuf_lt hbase num n hn), hlow, hF, hown] at hdigit
      obtain heq | hlt := hdigit
      · cases heq
      · omega
  · rintro ⟨hzero, hletter⟩
    rw [itoaBase, itoaBase]
    congr 1
    · congr 1
      rw [hpad]
      cases hF : F.zeropad with
      | false => rfl
      | true =>
          cases hown : own.zeropad with
          | true => rfl
          | false =>
              have hnone : ¬ 0 < padding num base width := fun hpos => hzero ⟨hF, hown, hpos⟩
              simp only [Bool.true_or, if_true, Bool.false_eq_true, if_false]
              omega
    · refine List.map_inj_left.mpr fun n hn => ?_
      have hmem := List.mem_reverse.mp hn
      rw [digitChar_eq_iff _ _ (tempBuf_lt hbase num n hmem), hlow]
      cases hF : F.lowercase with
      | false => exact Or.inl rfl
      | true =>
          cases hown : own.lowercase with
          | true => exact Or.inl rfl
          | false => exact Or.inr (Nat.lt_of_not_le fun hge => hletter ⟨hF, hown, n, hmem, hge⟩)

private theorem number_base {conv : Conv} {width : Int} {w : Word} {sign : List UInt8} {num : Word} {base : Nat}
    {width' : Int} (h : conv.number width w = some (sign, num, base, width')) : base ≤ 16 := by
  cases conv with
  | c | s => cases h
  | d | i =>
      rw [Conv.number] at h
      split at h <;> cases h <;> decide
  | u | o | x | X | p =>
      cases h
      decide

/-- What flags of earlier directives do to a directive. -/
theorem Directive.text_or (d : Directive) (F own : Flags) (a : Arg) :
    (d.text own a).length ≤ (d.text (F.or own) a).length ∧
      (d.text (F.or own) a = d.text own a ↔ ¬ (F.zeropad = true ∧ own.zeropad = false ∧ d.Padded a) ∧
        ¬ (F.lowercase = true ∧ own.lowercase = false ∧ d.Lettered a)) := by
  rw [text, text, Padded, Lettered]
  cases hnum : d.conv.number d.fieldWidth a.word with
  | none => simp
  | some n =>
      obtain ⟨sign, num, base, width⟩ := n
      refine ⟨?_, ?_⟩
      · rw [List.length_append, List.length_append, length_itoaBase, length_itoaBase]
        change _ ≤ _ + ((if (F.zeropad || own.zeropad) = true then _ else _) + _)
        cases F.zeropad <;> cases own.zeropad <;> simp
      · rw [List.append_cancel_left_eq]
        exact itoaBase_eq_iff (number_base hnum) width F own

/-- What flags of earlier directives do to a format. -/
theorem Format.text_or (F : Flags) (f : Format) (own : Flags) (args : List Arg) :
    (f.text own args).length ≤ (f.text (F.or own) args).length ∧
      (f.text (F.or own) args = f.text own args ↔ ¬ f.Disturbed F own args) := by
  induction f generalizing own args with
  | nil => exact ⟨Nat.le_refl _, fun _ h => h, fun _ => rfl⟩
  | cons it f ih =>
      cases it with
      | lit ch plain =>
          obtain ⟨hlen, hiff⟩ := ih own args
          refine ⟨Nat.succ_le_succ hlen, ?_⟩
          rw [Disturbed, ← hiff, text, text, List.cons.injEq]
          exact ⟨fun h => h.2, fun h => ⟨rfl, h⟩⟩
      | dir d =>
          obtain ⟨hlen, hiff⟩ := ih (own.or d.flags) (vaArg args).2
          obtain ⟨hlen', hiff'⟩ := d.text_or F (own.or d.flags) (vaArg args).1
          rw [Disturbed, text, text, Flags.or_assoc]
          refine ⟨by rw [List.length_append, List.length_append]; omega, ?_⟩
          rw [not_or, not_or, ← hiff, ← and_assoc, ← hiff']
          constructor
          · intro heq
            have hlens := congrArg List.length heq
            rw [List.length_append, List.length_append] at hlens
            exact List.append_inj heq (by omega)
          · rintro ⟨h, h'⟩
            rw [h, h']

private theorem vaArg_append {args : List Arg} {n : Nat} (h : args.length = n + 1) (args' : List Arg) :
    vaArg (args ++ args') = ((vaArg args).1, (vaArg args).2 ++ args') ∧ (vaArg args).2.length = n := by
  cases args with
  | nil => cases h
  | cons a args => exact ⟨rfl, Nat.succ.inj h⟩

/-- A format takes as many arguments as it has directives. -/
theorem Format.text_append (f : Format) {args : List Arg} (h : args.length = f.arity) (flags : Flags)
    (args' : List Arg) : f.text flags (args ++ args') = f.text flags args ∧ f.rest (args ++ args') = args' := by
  induction f generalizing flags args with
  | nil =>
      cases List.eq_nil_of_length_eq_zero h
      exact ⟨rfl, rfl⟩
  | cons it f ih =>
      cases it with
      | lit ch plain =>
          have harity : arity (.lit ch plain :: f) = arity f := List.countP_cons_of_neg (by simp)
          obtain ⟨htext, hrest⟩ := ih (h.trans harity) flags
          exact ⟨congrArg (ch :: ·) htext, hrest⟩
      | dir d =>
          have harity : arity (.dir d :: f) = arity f + 1 := List.countP_cons_of_pos rfl
          obtain ⟨hva, hlen⟩ := vaArg_append (h.trans harity) args'
          obtain ⟨htext, hrest⟩ := ih hlen (flags.or d.flags)
          rw [text, text, rest, hva]
          exact ⟨congrArg (d.text (flags.or d.flags) (vaArg args).1 ++ ·) htext, hrest⟩

theorem vsprintf_bytes (f : Format) (args : List Arg) :
    vsprintf f.bytes args = (f.text .none args, (f.text .none args).length) := by
  have h : vsprintfLoop f.bytes ⟨false, false⟩ args = f.text .none args := vsprintfLoop_bytes f .none args
  rw [vsprintf, h]

/-- The text of two formats is the text of the one followed by that of the other, unless the flags the first one leaves disturb the second. -/
theorem vsprintf_append_iff (f₁ f₂ : Format) (a₁ a₂ : List Arg) (h₁ : a₁.length = f₁.arity) :
    vsprintf (Format.bytes (f₁ ++ f₂)) (a₁ ++ a₂) =
        ((vsprintf f₁.bytes a₁).1 ++ (vsprintf f₂.bytes a₂).1, (vsprintf f₁.bytes a₁).2 + (vsprintf f₂.bytes a₂).2) ↔
      ¬ f₂.Disturbed f₁.flags .none a₂ := by
  have hbytes : Format.bytes (f₁ ++ f₂) = f₁.bytes ++ f₂.bytes := List.flatMap_append
  obtain ⟨htext, hrest⟩ := f₁.text_append h₁ .none a₂
  have happend : Format.text .none (f₁ ++ f₂) (a₁ ++ a₂) = f₁.text .none a₁ ++ f₂.text (f₁.flags.or .none) a₂ := by
    rw [← vsprintfLoop_bytes, hbytes, vsprintfLoop_append, htext, hrest, Flags.none_or, vsprintfLoop_bytes,
      Flags.or_none]
  obtain ⟨-, hiff⟩ := f₂.text_or f₁.flags .none a₂
  rw [← hiff, vsprintf_bytes, vsprintf_bytes, vsprintf_bytes, happend, Prod.mk.injEq, List.append_cancel_left_eq]
  refine ⟨fun h => h.1, fun h => ⟨h, ?_⟩⟩
  rw [h, List.length_append]

theorem vsprintf_append_iff_numbers :
    ∃ f₁ f₂ : Format, f₁.bytes = "%5d,".toList.map ascii ∧ f₂.bytes = "%3d".toList.map ascii ∧
      (vsprintf (Format.bytes (f₁ ++ f₂)) ([⟨7, []⟩] ++ [⟨7, []⟩]) =
          ((vsprintf f₁.bytes [⟨7, []⟩]).1 ++ (vsprintf f₂.bytes [⟨7, []⟩]).1,
            (vsprintf f₁.bytes [⟨7, []⟩]).2 + (vsprintf f₂.bytes [⟨7, []⟩]).2) ↔
        ¬ f₂.Disturbed f₁.flags .none [⟨7, []⟩]) :=
  ⟨[.dir ⟨false, [5], none, .d⟩, .lit (ascii ',') (by decide)], [.dir ⟨false, [3], none, .d⟩], by decide, by decide,
    vsprintf_append_iff _ _ _ _ (by decide)⟩

/-- `"%05d"` leaves `ZEROPAD` set for `"%3d"`. -/
theorem not_vsprintf_append : ¬ ∀ (f₁ f₂ : Format) (a₁ a₂ : List Arg), a₁.length = f₁.arity → a₂.length = f₂.arity →
    vsprintf (Format.bytes (f₁ ++ f₂)) (a₁ ++ a₂) =
      ((vsprintf f₁.bytes a₁).1 ++ (vsprintf f₂.bytes a₂).1, (vsprintf f₁.bytes a₁).2 + (vsprintf f₂.bytes a₂).2) := by
  intro h
  have h := h [.dir ⟨true, [5], none, .d⟩] [.dir ⟨false, [3], none, .d⟩] [⟨7, []⟩] [⟨7, []⟩] (by decide) (by decide)
  have hlen := congrArg Prod.snd h
  revert hlen
  decide +kernel

end I386Kernel
