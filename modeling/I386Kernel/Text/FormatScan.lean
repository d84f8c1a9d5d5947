import I386Kernel.Text.Vsprintf
import Mathlib.Data.List.TakeWhile
import Mathlib.Logic.Function.Iterate

/-!
# The format pointer of `vsprintf`

`vsprintf` over the bytes of memory, the first byte of the format at 0: one step for each place that reads `*fmt`, with the list of the bytes read so far. Only the head of the loop looks for the terminator.
-/

namespace I386Kernel.FormatScan

/-- Where `*fmt` is read next; `flagSettings` moves on before it reads. -/
inductive Point where
  | loopHead
  | flagSettings
  | atoiMod
  | size
  | conversion
  | done
deriving DecidableEq

structure Scan where
  point : Point
  fmt : Nat
  flags : Flags
  width : Int
  args : List Arg
  str : List UInt8
  read : List Nat

/-- The prefixes that are ignored. -/
def IsSize (c : UInt8) : Prop := c = ascii 'l' ∨ c = ascii 'L' ∨ c = ascii 'h'

instance : DecidablePred IsSize := fun _ => inferInstanceAs (Decidable (_ ∨ _ ∨ _))

def step (byte : Nat → UInt8) : Scan → Scan
  | ⟨.loopHead, fmt, flags, width, args, str, read⟩ =>
      if byte fmt = 0 then ⟨.done, fmt, flags, width, args, str, fmt :: read⟩
      else if byte fmt ≠ ascii '%' then ⟨.loopHead, fmt + 1, flags, width, args, str ++ [byte fmt], fmt :: read⟩
      else ⟨.flagSettings, fmt, flags, width, args, str, fmt :: read⟩
  | ⟨.flagSettings, fmt, flags, width, args, str, read⟩ =>
      if byte (fmt + 1) = ascii '0' then
        ⟨.flagSettings, fmt + 1, { flags with zeropad := true }, width, args, str, (fmt + 1) :: read⟩
      else ⟨.atoiMod, fmt + 1, flags, 0, args, str, (fmt + 1) :: read⟩
  | ⟨.atoiMod, fmt, flags, res, args, str, read⟩ =>
      if isDigitChar (byte fmt) then
        ⟨.atoiMod, fmt + 1, flags, int32 (res * 10 + (byte fmt).toNat - 48), args, str, fmt :: read⟩
      else ⟨.size, fmt, flags, res, args, str, fmt :: read⟩
  | ⟨.size, fmt, flags, width, args, str, read⟩ =>
      ⟨.conversion, if IsSize (byte fmt) then fmt + 1 else fmt, flags, width, args, str, fmt :: read⟩
  | ⟨.conversion, fmt, flags, width, args, str, read⟩ =>
      let res := convert (byte fmt) flags width args
      ⟨.loopHead, fmt + 1, res.2.1, width, res.2.2, str ++ res.1, fmt :: read⟩
  | ⟨.done, fmt, flags, width, args, str, read⟩ => ⟨.done, fmt, flags, width, args, str, read⟩

def start (args : List Arg) : Scan := ⟨.loopHead, 0, ⟨false, false⟩, 0, args, [], []⟩

def run (byte : Nat → UInt8) (args : List Arg) (k : Nat) : Scan := (step byte)^[k] (start args)

/-- The scan ends and reads no byte beyond the one at `n`. -/
structure StaysWithin (byte : Nat → UInt8) (n : Nat) (args : List Arg) : Prop where
  ends : ∃ k, (run byte args k).point = .done
  reads : ∀ k, ∀ a ∈ (run byte args k).read, a ≤ n

/-! ## Complete formats -/

/-- Every directive has a conversion character, known or not, after its width and its size prefix. -/
inductive Complete : List UInt8 → Prop
  | nil : Complete []
  | text {c : UInt8} {s : List UInt8} : c ≠ ascii '%' → Complete s → Complete (c :: s)
  | directive {width : List UInt8} {conv : UInt8} {s : List UInt8} : (∀ c ∈ width, isDigitChar c = true) →
      isDigitChar conv = false → ¬ IsSize conv → Complete s → Complete (ascii '%' :: (width ++ conv :: s))
  | sized {width : List UInt8} {size conv : UInt8} {s : List UInt8} : (∀ c ∈ width, isDigitChar c = true) →
      IsSize size → Complete s → Complete (ascii '%' :: (width ++ size :: conv :: s))

theorem isDigitChar_of_isSize {c : UInt8} (h : IsSize c) : isDigitChar c = false := by
  obtain rfl | rfl | rfl := h <;> decide

theorem skipSize_of_isSize {c : UInt8} (h : IsSize c) (s : List UInt8) : skipSize (c :: s) = s := if_pos h

theorem skipSize_of_not {c : UInt8} (h : ¬ IsSize c) (s : List UInt8) : skipSize (c :: s) = c :: s := if_neg h

/-- The flags and the width together are the digits at the start. -/
theorem atoiMod_flagSettings (s : List UInt8) (flags : Flags) (res : Int) :
    (atoiMod res (flagSettings s flags).2).2 = s.dropWhile isDigitChar := by
  have hatoi (s : List UInt8) : ∀ res, (atoiMod res s).2 = s.dropWhile isDigitChar := by
    induction s with
    | nil => exact fun _ => rfl
    | cons c s ih =>
        intro res
        rw [atoiMod, List.dropWhile_cons]
        by_cases hc : isDigitChar c = true
        · rw [if_pos hc, if_pos hc, ih]
        · rw [if_neg hc, if_neg hc]
  induction s generalizing flags with
  | nil => rfl
  | cons c s ih =>
      rw [flagSettings]
      by_cases hc : c = ascii '0'
      · rw [if_pos hc, ih, List.dropWhile_cons, if_pos (by rw [hc]; decide)]
      · rw [if_neg hc, hatoi]

theorem complete_text_iff {c : UInt8} (hc : c ≠ ascii '%') (s : List UInt8) : Complete (c :: s) ↔ Complete s := by
  constructor
  · intro h
    cases h with
    | text _ h => exact h
    | directive _ _ _ _ => exact absurd rfl hc
    | sized _ _ _ => exact absurd rfl hc
  · exact .text hc

theorem complete_directive_iff (s : List UInt8) : Complete (ascii '%' :: s) ↔
    ∃ conv rest, skipSize (s.dropWhile isDigitChar) = conv :: rest ∧ Complete rest := by
  constructor
  · intro h
    cases h with
    | text hc _ => exact absurd rfl hc
    | @directive width conv rest hwidth hdigit hsize h =>
        refine ⟨conv, rest, ?_, h⟩
        rw [List.dropWhile_append_of_pos hwidth, List.dropWhile_cons_of_neg (by rw [hdigit]; decide), skipSize_of_not hsize]
    | @sized width size conv rest hwidth hsize h =>
        have hdigit : ¬ isDigitChar size = true := by
          rw [isDigitChar_of_isSize hsize]
          decide
        refine ⟨conv, rest, ?_, h⟩
        rw [List.dropWhile_append_of_pos hwidth, List.dropWhile_cons_of_neg hdigit, skipSize_of_isSize hsize]
  · rintro ⟨conv, rest, hskip, h⟩
    have hsplit : s = s.takeWhile isDigitChar ++ s.dropWhile isDigitChar := (List.takeWhile_append_dropWhile ..).symm
    have hwidth : ∀ c ∈ s.takeWhile isDigitChar, isDigitChar c = true := fun c hc => List.mem_takeWhile_imp hc
    have hhead : ∀ c ∈ (s.dropWhile isDigitChar).head?, isDigitChar c = false := by
      intro c hc
      have hhead := List.head?_dropWhile_not isDigitChar s
      rw [Option.mem_def.mp hc] at hhead
      exact Bool.eq_false_iff.mpr (by simpa using hhead)
    cases hdrop : s.dropWhile isDigitChar with
    | nil =>
        rw [hdrop] at hskip
        cases hskip
    | cons c t =>
        rw [hdrop] at hskip hhead
        rw [hsplit, hdrop]
        by_cases hc : IsSize c
        · rw [skipSize_of_isSize hc] at hskip
          rw [hskip]
          exact .sized hwidth hc h
        · rw [skipSize_of_not hc] at hskip
          cases hskip
          exact .directive hwidth (hhead _ rfl) hc h

/-! ## The scan over a terminated format -/

/-- From `p` on there are the bytes of `s`, none of them NUL, and then the NUL at `n`. -/
inductive CString (byte : Nat → UInt8) (n : Nat) : Nat → List UInt8 → Prop
  | nil : byte n = 0 → CString byte n n []
  | cons {p : Nat} {s : List UInt8} : byte p ≠ 0 → CString byte n (p + 1) s → CString byte n p (byte p :: s)

def Steps (byte : Nat → UInt8) (s t : Scan) : Prop := ∃ k, (step byte)^[k] s = t

variable {byte : Nat → UInt8} {n : Nat}

theorem Steps.refl (s : Scan) : Steps byte s s := ⟨0, rfl⟩

theorem Steps.trans {s t u : Scan} : Steps byte s t → Steps byte t u → Steps byte s u := by
  rintro ⟨k, rfl⟩ ⟨l, rfl⟩
  exact ⟨l + k, Function.iterate_add_apply ..⟩

theorem Steps.head {s t u : Scan} (hstep : step byte s = t) (h : Steps byte t u) : Steps byte s u :=
  Steps.trans ⟨1, hstep⟩ h

theorem CString.le {p : Nat} {s : List UInt8} (h : CString byte n p s) : p ≤ n := by
  induction h with
  | nil _ => exact Nat.le_refl _
  | cons _ _ ih => exact Nat.le_of_succ_le ih

/-- No byte beyond `n` was read. -/
def Bounded (n : Nat) (read : List Nat) : Prop := ∀ a ∈ read, a ≤ n

theorem Bounded.cons {read : List Nat} (h : Bounded n read) {a : Nat} (ha : a ≤ n) : Bounded n (a :: read) :=
  List.forall_mem_cons.mpr ⟨ha, h⟩

theorem flagSettings_steps {s : List UInt8} {p : Nat} (hs : CString byte n (p + 1) s) (flags : Flags) (width : Int)
    (args : List Arg) (str : List UInt8) {read : List Nat} (hread : Bounded n read) :
    ∃ p' read', Steps byte ⟨.flagSettings, p, flags, width, args, str, read⟩
        ⟨.atoiMod, p', (flagSettings s flags).1, 0, args, str, read'⟩ ∧
      CString byte n p' (flagSettings s flags).2 ∧ Bounded n read' := by
  induction s generalizing p flags read with
  | nil =>
      have hp : p + 1 ≤ n := hs.le
      have hend : step byte ⟨.flagSettings, p, flags, width, args, str, read⟩ =
          ⟨.atoiMod, p + 1, flags, 0, args, str, (p + 1) :: read⟩ := by
        cases hs with
        | nil hnul => exact if_neg (by rw [hnul]; decide)
      exact ⟨p + 1, _, .head hend (.refl _), hs, hread.cons hp⟩
  | cons c s ih =>
      have hp : p + 1 ≤ n := hs.le
      cases hs with
      | cons hc hs =>
          rw [flagSettings]
          by_cases hzero : byte (p + 1) = ascii '0'
          · rw [if_pos hzero]
            obtain ⟨p', read', hsteps, hs', hread'⟩ := ih hs { flags with zeropad := true } (hread.cons hp)
            exact ⟨p', read', .head (if_pos hzero) hsteps, hs', hread'⟩
          · rw [if_neg hzero]
            exact ⟨p + 1, _, .head (if_neg hzero) (.refl _), .cons hc hs, hread.cons hp⟩

theorem atoiMod_steps {s : List UInt8} {p : Nat} (hs : CString byte n p s) (flags : Flags) (res : Int) (args : List Arg)
    (str : List UInt8) {read : List Nat} (hread : Bounded n read) :
    ∃ p' read', Steps byte ⟨.atoiMod, p, flags, res, args, str, read⟩
        ⟨.size, p', flags, (atoiMod res s).1, args, str, read'⟩ ∧
      CString byte n p' (atoiMod res s).2 ∧ Bounded n read' := by
  induction hs generalizing res read with
  | nil hnul =>
      have hend : step byte ⟨.atoiMod, n, flags, res, args, str, read⟩ = ⟨.size, n, flags, res, args, str, n :: read⟩ :=
        if_neg (by rw [hnul]; decide)
      exact ⟨n, _, .head hend (.refl _), .nil hnul, hread.cons (Nat.le_refl n)⟩
  | @cons p s hc hs ih =>
      have hp : p ≤ n := Nat.le_of_succ_le hs.le
      rw [atoiMod]
      by_cases hdigit : isDigitChar (byte p) = true
      · rw [if_pos hdigit]
        obtain ⟨p', read', hsteps, hs', hread'⟩ := ih (int32 (res * 10 + (byte p).toNat - 48)) (hread.cons hp)
        exact ⟨p', read', .head (if_pos hdigit) hsteps, hs', hread'⟩
      · rw [if_neg hdigit]
        exact ⟨p, _, .head (if_neg hdigit) (.refl _), .cons hc hs, hread.cons hp⟩

theorem size_step {s : List UInt8} {p : Nat} (hs : CString byte n p s) (flags : Flags) (width : Int) (args : List Arg)
    (str : List UInt8) {read : List Nat} (hread : Bounded n read) :
    ∃ p' read', Steps byte ⟨.size, p, flags, width, args, str, read⟩ ⟨.conversion, p', flags, width, args, str, read'⟩ ∧
      CString byte n p' (skipSize s) ∧ Bounded n read' := by
  refine ⟨_, _, .head rfl (.refl _), ?_, hread.cons hs.le⟩
  cases hs with
  | nil hnul =>
      rw [if_neg (by rw [hnul]; decide)]
      exact .nil hnul
  | cons hc hs =>
      by_cases hsize : IsSize (byte p)
      · rw [if_pos hsize, skipSize_of_isSize hsize]
        exact hs
      · rw [if_neg hsize, skipSize_of_not hsize]
        exact .cons hc hs

/-- From `%` to the conversion character. -/
theorem directive_steps {s : List UInt8} {p : Nat} (hpercent : byte p = ascii '%') (hs : CString byte n (p + 1) s)
    (flags : Flags) (width : Int) (args : List Arg) (str : List UInt8) {read : List Nat} (hread : Bounded n read) :
    ∃ p' read', Steps byte ⟨.loopHead, p, flags, width, args, str, read⟩
        ⟨.conversion, p', (flagSettings s flags).1, (atoiMod 0 (flagSettings s flags).2).1, args, str, read'⟩ ∧
      CString byte n p' (skipSize (atoiMod 0 (flagSettings s flags).2).2) ∧ Bounded n read' := by
  have hp : p ≤ n := Nat.le_of_succ_le hs.le
  have hhead : step byte ⟨.loopHead, p, flags, width, args, str, read⟩ =
      ⟨.flagSettings, p, flags, width, args, str, p :: read⟩ := by
    rw [step, if_neg (by rw [hpercent]; decide), if_neg (not_not_intro hpercent)]
  obtain ⟨p₁, read₁, hflags, hs₁, hread₁⟩ := flagSettings_steps hs flags width args str (hread.cons hp)
  obtain ⟨p₂, read₂, hwidth, hs₂, hread₂⟩ := atoiMod_steps hs₁ (flagSettings s flags).1 0 args str hread₁
  obtain ⟨p₃, read₃, hsize, hs₃, hread₃⟩ := size_step hs₂ _ _ args str hread₂
  exact ⟨p₃, read₃, .head hhead (.trans hflags (.trans hwidth hsize)), hs₃, hread₃⟩

theorem vsprintfLoop_directive {s : List UInt8} {conv : UInt8} {rest : List UInt8} {flags : Flags}
    (hskip : skipSize (atoiMod 0 (flagSettings s flags).2).2 = conv :: rest) (args : List Arg) :
    vsprintfLoop (ascii '%' :: s) flags args =
      let res := convert conv (flagSettings s flags).1 (atoiMod 0 (flagSettings s flags).2).1 args
      res.1 ++ vsprintfLoop rest res.2.1 res.2.2 := by
  rw [vsprintfLoop, if_neg (by decide), if_neg (not_not_intro rfl)]
  dsimp only
  split
  · next hnil =>
      rw [hskip] at hnil
      cases hnil
  · next conv' rest' heq =>
      rw [hskip] at heq
      cases heq
      rfl

/-- A complete format is printed as the list of its bytes is; any other is left behind at the terminator. -/
theorem loop_steps (s : List UInt8) {p : Nat} (hs : CString byte n p s) (flags : Flags) (width : Int) (args : List Arg)
    (str : List UInt8) {read : List Nat} (hread : Bounded n read) :
    ∃ t, Steps byte ⟨.loopHead, p, flags, width, args, str, read⟩ t ∧
      (Complete s ∧ t.point = .done ∧ t.str = str ++ vsprintfLoop s flags args ∧ Bounded n t.read ∨
        ¬ Complete s ∧ n + 1 ∈ t.read) := by
  induction hlen : s.length using Nat.strong_induction_on generalizing s p flags width args str read with
  | _ len ih =>
  cases hs with
  | nil hnul =>
      refine ⟨⟨.done, n, flags, width, args, str, n :: read⟩, .head (if_pos hnul) (.refl _), Or.inl ⟨.nil, rfl, ?_, ?_⟩⟩
      · rw [vsprintfLoop, List.append_nil]
      · exact hread.cons (Nat.le_refl n)
  | @cons _ s hc hs =>
      have hp : p ≤ n := Nat.le_of_succ_le hs.le
      by_cases hpercent : byte p = ascii '%'
      · obtain ⟨q, read', hsteps, hq, hread'⟩ := directive_steps hpercent hs flags width args str hread
        rw [hpercent, complete_directive_iff, ← atoiMod_flagSettings s flags 0]
        cases hskip : skipSize (atoiMod 0 (flagSettings s flags).2).2 with
        | nil =>
            -- the terminator is taken for the conversion, and the loop goes on behind it
            rw [hskip] at hq
            cases hq with
            | nil hnul =>
                refine ⟨step byte (step byte _), .trans hsteps (.head rfl (.head rfl (.refl _))), Or.inr ⟨?_, ?_⟩⟩
                · rintro ⟨_, _, hcons, _⟩
                  cases hcons
                · simp only [step]
                  split
                  · exact List.mem_cons_self
                  · split <;> exact List.mem_cons_self
        | cons conv rest =>
            rw [hskip] at hq
            have hlt : rest.length < len := by
              have h₁ := skipSize_length (atoiMod 0 (flagSettings s flags).2).2
              have h₂ := atoiMod_length 0 (flagSettings s flags).2
              have h₃ := flagSettings_length s flags
              rw [hskip, List.length_cons] at h₁
              rw [List.length_cons] at hlen
              omega
            cases hq with
            | cons _ hrest =>
                let res := convert (byte q) (flagSettings s flags).1 (atoiMod 0 (flagSettings s flags).2).1 args
                obtain ⟨t, ht, hcase⟩ := ih rest.length hlt rest hrest res.2.1 (atoiMod 0 (flagSettings s flags).2).1
                  res.2.2 (str ++ res.1) (hread'.cons (Nat.le_of_succ_le hrest.le)) rfl
                have hcomplete : (∃ conv' rest', byte q :: rest = conv' :: rest' ∧ Complete rest') ↔ Complete rest := by
                  constructor
                  · rintro ⟨_, _, heq, h⟩
                    cases heq
                    exact h
                  · exact fun h => ⟨_, _, rfl, h⟩
                refine ⟨t, .trans hsteps (.head rfl ht), ?_⟩
                rw [hcomplete, vsprintfLoop_directive hskip, ← List.append_assoc]
                exact hcase
      · have hstep : step byte ⟨.loopHead, p, flags, width, args, str, read⟩ =
            ⟨.loopHead, p + 1, flags, width, args, str ++ [byte p], p :: read⟩ := by
          rw [step, if_neg hc, if_pos hpercent]
        have hlt : s.length < len := by
          rw [← hlen]
          exact Nat.lt_succ_self _
        obtain ⟨t, ht, hcase⟩ := ih s.length hlt s hs flags width args (str ++ [byte p]) (hread.cons hp) rfl
        refine ⟨t, .head hstep ht, ?_⟩
        rw [complete_text_iff hpercent, vsprintfLoop, if_neg hc, if_pos hpercent, ← List.singleton_append,
          ← List.append_assoc]
        exact hcase

/-! ## Reads -/

theorem read_step (s : Scan) : ∀ a ∈ s.read, a ∈ (step byte s).read := by
  intro a ha
  obtain ⟨point, fmt, flags, width, args, str, read⟩ := s
  cases point with
  | loopHead =>
      rw [step]
      split
      · exact List.mem_cons_of_mem _ ha
      · split <;> exact List.mem_cons_of_mem _ ha
  | flagSettings | atoiMod =>
      rw [step]
      split <;> exact List.mem_cons_of_mem _ ha
  | size | conversion => exact List.mem_cons_of_mem _ ha
  | done => exact ha

theorem read_iterate (s : Scan) {k l : Nat} (hkl : k ≤ l) : ∀ a ∈ ((step byte)^[k] s).read, a ∈ ((step byte)^[l] s).read := by
  induction l, hkl using Nat.le_induction with
  | base => exact fun _ ha => ha
  | succ l _ ih =>
      intro a ha
      rw [Function.iterate_succ_apply']
      exact read_step _ a (ih a ha)

theorem iterate_of_done {s : Scan} (h : s.point = .done) (k : Nat) : (step byte)^[k] s = s := by
  have hfix : step byte s = s := by
    obtain ⟨point, fmt, flags, width, args, str, read⟩ := s
    cases h
    rfl
  exact Function.iterate_fixed hfix k

theorem cString_range (byte : Nat → UInt8) {n : Nat} (hnul : byte n = 0) (htext : ∀ i < n, byte i ≠ 0) :
    ∀ k ≤ n, CString byte n (n - k) ((List.range' (n - k) k).map byte) := by
  intro k
  induction k with
  | zero => exact fun _ => .nil hnul
  | succ k ih =>
      intro hk
      rw [List.range'_succ, List.map_cons, show n - (k + 1) + 1 = n - k by omega]
      refine .cons (htext _ (by omega)) ?_
      rw [show n - (k + 1) + 1 = n - k by omega]
      exact ih (by omega)

/-- The bytes of the format. -/
def text (byte : Nat → UInt8) (n : Nat) : List UInt8 := (List.range' 0 n).map byte

theorem cString_text {byte : Nat → UInt8} {n : Nat} (hnul : byte n = 0) (htext : ∀ i < n, byte i ≠ 0) :
    CString byte n 0 (text byte n) := by
  have h := cString_range byte hnul htext n (Nat.le_refl n)
  rwa [Nat.sub_self] at h

/-- The result is the one over the list of the bytes. -/
theorem run_of_complete {byte : Nat → UInt8} {n : Nat} (hnul : byte n = 0) (htext : ∀ i < n, byte i ≠ 0)
    (hcomplete : Complete (text byte n)) (args : List Arg) :
    ∃ k, (run byte args k).point = .done ∧ (run byte args k).str = (vsprintf (text byte n) args).1 := by
  obtain ⟨t, ⟨k, hk⟩, ⟨_, hdone, hstr, _⟩ | ⟨hnot, _⟩⟩ := loop_steps (text byte n) (cString_text hnul htext)
    ⟨false, false⟩ 0 args [] (show Bounded n [] from List.forall_mem_nil _)
  · refine ⟨k, ?_, ?_⟩
    · rw [run, start, hk, hdone]
    · rw [run, start, hk, hstr]
      rfl
  · exact absurd hcomplete hnot

/-- The scan of a terminated format stays within it exactly when no directive is cut off by the terminator. -/
theorem staysWithin_iff {byte : Nat → UInt8} {n : Nat} (hnul : byte n = 0) (htext : ∀ i < n, byte i ≠ 0)
    (args : List Arg) : StaysWithin byte n args ↔ Complete (text byte n) := by
  obtain ⟨t, ⟨k, hk⟩, ⟨hcomplete, hdone, _, hread⟩ | ⟨hnot, hread⟩⟩ := loop_steps (text byte n) (cString_text hnul htext)
    ⟨false, false⟩ 0 args [] (show Bounded n [] from List.forall_mem_nil _)
  · refine iff_of_true ⟨⟨k, ?_⟩, ?_⟩ hcomplete
    · rw [run, start, hk, hdone]
    · intro l a ha
      obtain hle | hle := Nat.le_total l k
      · have hmem := read_iterate _ hle a ha
        rw [start, hk] at hmem
        exact hread a hmem
      · rw [run, ← Nat.sub_add_cancel hle, Function.iterate_add_apply, start, hk, iterate_of_done hdone] at ha
        exact hread a ha
  · refine iff_of_false ?_ hnot
    intro h
    have hle := h.reads k (n + 1) (by rw [run, start, hk]; exact hread)
    exact absurd hle (Nat.not_succ_le_self n)

/-- `"%08lx"`. -/
theorem staysWithin_hex : StaysWithin (fun i => ("%08lx".toList.map ascii).getD i 0) 5 [⟨0xb8000, []⟩] :=
  (staysWithin_iff (by decide) (by decide) _).mpr
    (show Complete (ascii '%' :: ([ascii '0', ascii '8'] ++ ascii 'l' :: ascii 'x' :: [])) from
      .sized (by decide) (Or.inl rfl) .nil)

/-- The format `"%"`. -/
theorem not_staysWithin : ¬ ∀ (byte : Nat → UInt8) (n : Nat) (args : List Arg), byte n = 0 → (∀ i < n, byte i ≠ 0) →
    StaysWithin byte n args := by
  intro h
  have hwithin := h (fun i => if i = 0 then ascii '%' else 0) 1 [] (by decide) (by decide)
  exact absurd (hwithin.reads 6 2 (by decide)) (by decide)

end I386Kernel.FormatScan
