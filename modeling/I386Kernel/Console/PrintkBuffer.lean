import I386Kernel.Block.IdeInit
import I386Kernel.Block.InfoString
import I386Kernel.Console.Printk
import I386Kernel.Text.Numbers
import Mathlib.Data.List.Infix

/-!
# The room in `printk_buf`

`vsprintf` knows nothing of the size of its buffer. How long a text gets is bounded by the length of the format, the widths in it and the strings it is given; for all the calls of `printk` in the kernel that is less than the 1024 bytes of `printk_buf`. So no statement of any `printk` ever leaves the buffer, in whatever order the calls of several contexts mix.
-/

namespace I386Kernel.Printk

open IdeInit (diskName nonul_diskName length_diskName)

/-! ## The length of a text -/

/-- No number anywhere in the format is above `bound`, nor below zero. -/
def WidthsWithin (bound : Nat) (fmt : List UInt8) : Prop :=
  ∀ s ∈ fmt.tails, 0 ≤ (atoiMod 0 s).1 ∧ (atoiMod 0 s).1 ≤ bound

instance (bound : Nat) (fmt : List UInt8) : Decidable (WidthsWithin bound fmt) :=
  inferInstanceAs (Decidable (∀ s ∈ fmt.tails, _))

def StringsWithin (bound : Nat) (args : List Arg) : Prop := ∀ a ∈ args, (stringText a).length ≤ bound

theorem WidthsWithin.suffix {bound : Nat} {fmt s : List UInt8} (h : WidthsWithin bound fmt) (hs : s <:+ fmt) :
    WidthsWithin bound s := by
  intro u hu
  exact h u ((List.mem_tails u fmt).mpr (((List.mem_tails u s).mp hu).trans hs))

theorem flagSettings_suffix (s : List UInt8) (flags : Flags) : (flagSettings s flags).2 <:+ s := by
  induction s generalizing flags with
  | nil => exact List.suffix_refl _
  | cons c s ih =>
      rw [flagSettings]
      split
      · exact (ih _).trans (List.suffix_cons c s)
      · exact List.suffix_refl _

theorem atoiMod_suffix (res : Int) (s : List UInt8) : (atoiMod res s).2 <:+ s := by
  induction s generalizing res with
  | nil => exact List.suffix_refl _
  | cons c s ih =>
      rw [atoiMod]
      split
      · exact (ih _).trans (List.suffix_cons c s)
      · exact List.suffix_refl _

theorem skipSize_suffix (s : List UInt8) : skipSize s <:+ s := by
  cases s with
  | nil => exact List.suffix_refl _
  | cons c s =>
      rw [skipSize]
      split
      · exact List.suffix_cons c s
      · exact List.suffix_refl _

theorem vaArg_suffix (args : List Arg) : (vaArg args).2 <:+ args := by
  cases args with
  | nil => exact List.suffix_refl _
  | cons a args => exact List.suffix_cons a args

theorem convert_args {bound : Nat} (c : UInt8) (flags : Flags) (width : Int) {args : List Arg}
    (hargs : StringsWithin bound args) : StringsWithin bound (convert c flags width args).2.2 := by
  have hrest : StringsWithin bound (vaArg args).2 := fun a ha => hargs a ((vaArg_suffix args).subset ha)
  rw [convert]
  dsimp only
  repeat' split
  all_goals first | exact hrest | exact hargs

section Convert

variable {bound : Nat} (hroom : 32 ≤ bound) (hint : bound < 2 ^ 31)
include hroom hint

theorem length_itoaBase_le {base : Nat} (hbase : 1 < base) (num : Word) {width : Int} (hlow : 0 ≤ width)
    (hhigh : width ≤ bound) (flags : Flags) : (itoaBase num base width flags).length ≤ bound := by
  have hdigits := length_tempBuf_le hbase num
  rw [length_itoaBase]
  split
  · obtain ⟨w, rfl⟩ := Int.eq_ofNat_of_zero_le hlow
    have hpad : padding num base w + (tempBuf num base).length = max w (minimalDigits base num.toNat) :=
      padding_add_length hbase (by omega)
    rw [← (tempBuf_spec hbase num).1] at hpad
    omega
  · omega

/-- A sign may come on top of the width. -/
theorem length_convert_le (c : UInt8) (flags : Flags) {width : Int} (hlow : 0 ≤ width) (hhigh : width ≤ bound)
    {args : List Arg} (hargs : StringsWithin bound args) : (convert c flags width args).1.length ≤ bound + 1 := by
  have hitoa {base : Nat} (hbase : 1 < base) (num : Word) {width : Int} (hlow : 0 ≤ width) (hhigh : width ≤ bound)
      (flags : Flags) : (itoaBase num base width flags).length ≤ bound + 1 :=
    Nat.le_succ_of_le (length_itoaBase_le hroom hint hbase num hlow hhigh flags)
  have hstring : (stringText (vaArg args).1).length ≤ bound := by
    cases args with
    | nil => exact Nat.zero_le _
    | cons a args => exact hargs a (List.mem_cons_self ..)
  rw [convert]
  dsimp only
  split
  · exact Nat.succ_le_succ (Nat.zero_le _)
  split
  · exact Nat.le_succ_of_le hstring
  split
  · split
    · exact Nat.succ_le_succ (length_itoaBase_le hroom hint (by decide) _ hlow hhigh _)
    · exact hitoa (by decide) _ hlow hhigh _
  split
  · exact hitoa (by decide) _ hlow hhigh _
  split
  · exact hitoa (by decide) _ hlow hhigh _
  split
  · exact hitoa (by decide) _ hlow hhigh _
  split
  · exact hitoa (by decide) _ (by decide) (by omega) _
  · exact Nat.zero_le _

/-- Every `%` stands for at most one directive. -/
theorem length_vsprintfLoop_le (fmt : List UInt8) (flags : Flags) (args : List Arg) (hwidths : WidthsWithin bound fmt)
    (hargs : StringsWithin bound args) :
    (vsprintfLoop fmt flags args).length ≤ fmt.length + fmt.count (ascii '%') * (bound + 1) := by
  fun_induction vsprintfLoop fmt flags args with
  | case1 => exact Nat.zero_le _
  | case2 => exact Nat.zero_le _
  | case3 c fmt flags args hend hplain ih =>
      have htail := ih (hwidths.suffix (List.suffix_cons c fmt)) hargs
      rw [List.length_cons, List.length_cons, List.count_cons_of_ne hplain]
      omega
  | case4 => exact Nat.zero_le _
  | case5 c fmt flags args hend hpercent settings number conv rest hconv res ih =>
      have hc : c = ascii '%' := not_not.mp hpercent
      have hsettings : settings.2 <:+ fmt := flagSettings_suffix fmt flags
      have hrest : rest <:+ fmt :=
        (List.suffix_cons conv rest).trans (hconv ▸ (skipSize_suffix _).trans ((atoiMod_suffix 0 _).trans hsettings))
      have hfmt : WidthsWithin bound fmt := hwidths.suffix (List.suffix_cons c fmt)
      obtain ⟨hlow, hhigh⟩ := hfmt settings.2 ((List.mem_tails ..).mpr hsettings)
      have hres : res.1.length ≤ bound + 1 := length_convert_le hroom hint conv settings.1 hlow hhigh hargs
      have htail := ih (hfmt.suffix hrest) (convert_args conv settings.1 number.1 hargs)
      have hlength := hrest.length_le
      have hcount := Nat.mul_le_mul_right (bound + 1) (hrest.sublist.count_le (ascii '%'))
      rw [List.length_append, List.length_cons, hc, List.count_cons_self, Nat.add_mul, Nat.one_mul]
      omega

end Convert

/-! ## The messages of the kernel -/

/-- The name of a disk at an address, and whatever follows it in memory. -/
structure StoredName where
  addr : Word
  chan : Fin 2
  dev : Fin 2
  after : List UInt8

def StoredName.arg (name : StoredName) : Arg := ⟨name.addr, diskName name.chan name.dev ++ 0 :: name.after⟩

/-- What a call passes; `identification` has the sector at `id` and the number of bytes of memory that are looked at. -/
inductive Message where
  | initialFree (pageNum : Word)
  | poolFailed
  | currentFree (bits base : Word)
  | outOfMemory
  | divideError (errorCode : Word)
  | isrAddr (isr : Word)
  | blk (nrSectors : Word)
  | readSector (byte : UInt8)
  | idleTask (current : Word)
  | idleParam (params : Word)
  | unknownIsr
  | interrupt (vecNo errorCode : Word)
  | key (ch : UInt8)
  | identify (name : StoredName)
  | sectors (nrSectors : Word)
  | identification (s : InfoString.Ram) (id : Word) (seen : Nat)
  | busyWaiting (name : StoredName)
  | ready
  | failed
  | waitTimeout (name : StoredName)

namespace Message

def word (w : Word) : Arg := ⟨w, []⟩

/-- The bytes of memory from `a` on. -/
def memory (s : InfoString.Ram) (a : Word) (seen : Nat) : List UInt8 :=
  (List.range seen).map (InfoString.contents s a)

/-- The sector after both calls of `manipulate_info_string`. -/
def manipulated (s : InfoString.Ram) (id : Word) : InfoString.Ram :=
  InfoString.manipulateInfoString (InfoString.manipulateInfoString s (id + 20) 20) (id + 54) 40

def format : Message → String
  | initialFree _ => "Initial free memory pages %d.\n"
  | poolFailed => "Memory pool creation failed. Kernel startup aborted. \n"
  | currentFree _ _ => "Current free kernel pages %d, kernel memory pool base %08p\n"
  | outOfMemory => "Kernel pool error: out of memory.\n"
  | divideError _ => "devide error %x\n"
  | isrAddr _ => "isr addr %p\n"
  | blk _ => "blk %d\n"
  | readSector _ => "read sector 0,  %02x\n"
  | idleTask _ => "--idle task--\n  esp : %p\t"
  | idleParam _ => "param : %p\n"
  | unknownIsr => "Unknown interrupt\r\n"
  | interrupt _ _ => "Interrupt no. %d, error code %x\n"
  | key _ => "%c"
  | identify _ => "Identify ata disk (%s) ... "
  | sectors _ => "sectors %d \n"
  | identification _ _ _ => "Serial no. %s\nModel no. %s\n"
  | busyWaiting _ => "busy waiting %s "
  | ready => "ok\n"
  | failed => "Failed\n"
  | waitTimeout _ => "Wait timeout %s\n"

def fmt (msg : Message) : List UInt8 := msg.format.toList.map ascii

def args : Message → List Arg
  | initialFree w | divideError w | isrAddr w | blk w | idleTask w | idleParam w | sectors w => [word w]
  | currentFree bits base => [word bits, word base]
  | interrupt vecNo errorCode => [word vecNo, word errorCode]
  | readSector b | key b => [word (BitVec.ofNat 32 b.toNat)]
  | identify name | busyWaiting name | waitTimeout name => [name.arg]
  | identification s id seen =>
      let s := manipulated s id
      [⟨id + 20, memory s (id + 20) seen⟩, ⟨id + 54, memory s (id + 54) seen⟩]
  | poolFailed | outOfMemory | unknownIsr | ready | failed => []

end Message

/-! ## Their lengths -/

theorem length_takeWhile_le {bytes : List UInt8} {j : Nat} (h : ∀ c ∈ bytes[j]?, c = 0) :
    (bytes.takeWhile (· ≠ 0)).length ≤ j := by
  induction bytes generalizing j with
  | nil => exact Nat.zero_le _
  | cons c bytes ih =>
      cases j with
      | zero =>
          have hc : c = 0 := h c rfl
          rw [List.takeWhile_cons_of_neg (by simp [hc])]
          exact Nat.le_refl _
      | succ j =>
          rw [List.takeWhile_cons]
          split
          · exact Nat.succ_le_succ (ih h)
          · exact Nat.zero_le _

theorem length_stringText_le {a : Arg} {j : Nat} (h : ∀ c ∈ a.bytes[j]?, c = 0) : (stringText a).length ≤ j := by
  rw [stringText]
  split
  · exact Nat.zero_le _
  · exact length_takeWhile_le h

namespace Message

open InfoString

/-- Each string has a terminator inside its own field. -/
theorem manipulateInfoString_nul (s : Ram) (orig : Word) {size : Nat} (hpos : 0 < size) (heven : size % 2 = 0)
    (hsize : size < 2 ^ 32) : ∃ j < size, contents (manipulateInfoString s orig size) orig j = 0 := by
  obtain ⟨-, hcontents⟩ := manipulateInfoString_spec s orig hpos heven hsize
  have hle := textLength_le (exchanged (contents s orig)) size
  refine ⟨textLength (exchanged (contents s orig)) size - 1, by omega, ?_⟩
  rw [hcontents _ (by omega), if_pos rfl]

/-- The second call leaves the first string alone. -/
theorem manipulated_serial (s : Ram) (id : Word) {j : Nat} (hj : j < 20) :
    contents (manipulated s id) (id + 20) j = contents (manipulateInfoString s (id + 20) 20) (id + 20) j := by
  obtain ⟨hwithin, -⟩ := manipulateInfoString_spec (manipulateInfoString s (id + 20) 20) (id + 54)
    (by decide : 0 < 40) (by decide) (by decide)
  refine hwithin.byte _ ?_
  have hj' : (BitVec.ofNat 32 j).toNat = j := by
    rw [BitVec.toNat_ofNat]
    omega
  rw [InBuffer, elem]
  bv_omega

theorem length_memory_le (s : Ram) (a : Word) (seen : Nat) {word : Word} {j : Nat} (h : contents s a j = 0) :
    (stringText ⟨word, memory s a seen⟩).length ≤ j := by
  refine length_stringText_le fun c hc => ?_
  obtain ⟨i, hi, rfl⟩ := Option.map_eq_some_iff.mp ((List.getElem?_map ..).symm.trans hc)
  obtain ⟨hlt, hi⟩ := List.getElem?_eq_some_iff.mp hi
  rw [List.getElem_range] at hi
  exact hi ▸ h

theorem length_word_le (w : Word) : (stringText (word w)).length ≤ 40 := by
  rw [stringText]
  split <;> exact Nat.zero_le _

theorem length_name_le (name : StoredName) : (stringText name.arg).length ≤ 40 := by
  have hnul : ∀ c ∈ name.arg.bytes[3]?, c = 0 := by
    intro c hc
    have hlength := length_diskName name.chan name.dev
    rw [StoredName.arg, List.getElem?_append_right (by omega), hlength] at hc
    exact (Option.some.inj hc).symm
  exact Nat.le_trans (length_stringText_le hnul) (by decide)

theorem stringsWithin (msg : Message) : StringsWithin 40 msg.args := by
  intro a ha
  cases msg with
  | poolFailed | outOfMemory | unknownIsr | ready | failed => cases ha
  | initialFree w | divideError w | isrAddr w | blk w | idleTask w | idleParam w | sectors w =>
      rw [List.mem_singleton.mp ha]
      exact length_word_le w
  | readSector b | key b =>
      rw [List.mem_singleton.mp ha]
      exact length_word_le _
  | currentFree v w | interrupt v w =>
      obtain rfl | ha := List.mem_cons.mp ha
      · exact length_word_le v
      · rw [List.mem_singleton.mp ha]
        exact length_word_le w
  | identify name | busyWaiting name | waitTimeout name =>
      rw [List.mem_singleton.mp ha]
      exact length_name_le name
  | identification s id seen =>
      obtain rfl | ha := List.mem_cons.mp ha
      · obtain ⟨j, hj, hnul⟩ := manipulateInfoString_nul s (id + 20) (by decide : 0 < 20) (by decide) (by decide)
        rw [← manipulated_serial s id hj] at hnul
        exact Nat.le_trans (length_memory_le _ _ seen hnul) (by omega)
      · rw [List.mem_singleton.mp ha]
        obtain ⟨j, hj, hnul⟩ := manipulateInfoString_nul (manipulateInfoString s (id + 20) 20) (id + 54)
          (by decide : 0 < 40) (by decide) (by decide)
        exact Nat.le_trans (length_memory_le _ _ seen hnul) (Nat.le_of_lt hj)

theorem widthsWithin (msg : Message) : WidthsWithin 40 msg.fmt := by
  cases msg <;> simp only [fmt, format] <;> decide +kernel

theorem room (msg : Message) : msg.fmt.length + msg.fmt.count (ascii '%') * 41 < bufSize := by
  cases msg <;> simp only [fmt, format] <;> decide +kernel

/-- The text of every message fits into `printk_buf`, with its terminator. -/
theorem length_text_lt (msg : Message) : (vsprintf msg.fmt msg.args).1.length < bufSize :=
  Nat.lt_of_le_of_lt
    (length_vsprintfLoop_le (by decide) (by decide) msg.fmt _ msg.args msg.widthsWithin msg.stringsWithin) msg.room

end Message

/-! ## Every interleaving -/

/-- `printk` is called with a message of the kernel. -/
def FromSource {n : Nat} (_ : Machine n) : Label n → Prop
  | .printk fmt args => ∃ msg : Message, msg.fmt = fmt ∧ msg.args = args
  | _ => True

/-- The index of a load or a store in `printk_buf`. -/
def Stmt.InBuffer : Stmt → Prop
  | .format i _ | .emit i => i < bufSize
  | .putc _ => True

def CallsInBuffer {n : Nat} (m : Machine n) : Prop :=
  ∀ t c, .call c ∈ m.frames t → ∀ stmt ∈ c.todo, stmt.InBuffer

theorem formats_inBuffer {i : Nat} {text : List UInt8} (h : i + text.length < bufSize) :
    ∀ stmt ∈ formats i text, stmt.InBuffer := by
  induction text generalizing i with
  | nil => exact List.forall_mem_singleton.mpr h
  | cons ch text ih =>
      rw [List.length_cons] at h
      have hi : i < bufSize := by omega
      exact List.forall_mem_cons.mpr ⟨hi, ih (by omega)⟩

theorem emits_inBuffer {i n : Nat} (h : i + n ≤ bufSize) : ∀ stmt ∈ emits i n, stmt.InBuffer := by
  induction n generalizing i with
  | zero => exact List.forall_mem_nil _
  | succ n ih =>
      have hi : i < bufSize := by omega
      exact List.forall_mem_cons.mpr ⟨hi, ih (by omega)⟩

/-- The statements of `fb_putc` do not touch the buffer. -/
theorem putcs_inBuffer (ps : List PutcStmt) {todo : List Stmt} (h : ∀ stmt ∈ todo, stmt.InBuffer) :
    ∀ stmt ∈ ps.map .putc ++ todo, stmt.InBuffer :=
  List.forall_mem_append.mpr ⟨List.forall_mem_map.mpr fun _ _ => trivial, h⟩

theorem start_inBuffer (msg : Message) : ∀ stmt ∈ (Call.start msg.fmt msg.args).todo, stmt.InBuffer := by
  have hlength : 0 + (vsprintf msg.fmt msg.args).1.length < bufSize := by
    rw [Nat.zero_add]
    exact msg.length_text_lt
  exact List.forall_mem_append.mpr ⟨formats_inBuffer hlength, emits_inBuffer (Nat.le_of_lt hlength)⟩

namespace CallsInBuffer

variable {n : Nat} {m : Machine n}

/-- The frames of the current task change. -/
theorem setFrames (h : CallsInBuffer m) {m' : Machine n} {stack : List Frame}
    (hframes : m'.frames = Function.update m.frames m.current stack)
    (hstack : ∀ c, .call c ∈ stack → .call c ∈ m.frames m.current ∨ ∀ stmt ∈ c.todo, stmt.InBuffer) :
    CallsInBuffer m' := by
  intro t c hc
  rw [hframes, Function.update_apply] at hc
  split at hc
  · obtain hold | hnew := hstack c hc
    · exact h _ c hold
    · exact hnew
  · exact h t c hc

/-- What a call in progress does next, and what is left of it. -/
theorem run (h : CallsInBuffer m) {c : Call} {rest : List Frame} (hframes : m.frames m.current = .call c :: rest) :
    ∃ m', m.run c rest = some m' ∧ CallsInBuffer m' := by
  have hcall : ∀ stmt ∈ c.todo, stmt.InBuffer := h _ c (hframes ▸ List.mem_cons_self ..)
  have hrest (d : Call) (hd : .call d ∈ rest) : .call d ∈ m.frames m.current := hframes ▸ List.mem_cons_of_mem _ hd
  have hreplace {d : Call} (hd : ∀ stmt ∈ d.todo, stmt.InBuffer) (e : Call) (he : .call e ∈ Frame.call d :: rest) :
      .call e ∈ m.frames m.current ∨ ∀ stmt ∈ e.todo, stmt.InBuffer := by
    obtain heq | he := List.mem_cons.mp he
    · cases heq
      exact Or.inr hd
    · exact Or.inl (hrest e he)
  rw [Machine.run]
  split
  · exact ⟨_, rfl, h.setFrames rfl fun d hd => Or.inl (hrest d hd)⟩
  · rename_i i ch todo htodo
    rw [htodo] at hcall
    obtain ⟨hi, htail⟩ := List.forall_mem_cons.mp hcall
    have hi : i < bufSize := hi
    rw [if_pos hi]
    exact ⟨_, rfl, h.setFrames rfl (hreplace htail)⟩
  · rename_i i todo htodo
    rw [htodo] at hcall
    obtain ⟨-, htail⟩ := List.forall_mem_cons.mp hcall
    exact ⟨_, rfl, h.setFrames rfl (hreplace (putcs_inBuffer _ htail))⟩
  · rename_i p todo htodo
    rw [htodo] at hcall
    obtain ⟨-, htail⟩ := List.forall_mem_cons.mp hcall
    exact ⟨_, rfl, h.setFrames rfl (hreplace (putcs_inBuffer _ htail))⟩

theorem next (h : CallsInBuffer m) {m' : Machine n} {l : Label n} (hok : FromSource m l) (hnext : m.next l = some m') :
    CallsInBuffer m' := by
  cases l with
  | step =>
      rw [Machine.next] at hnext
      split at hnext
      · rename_i c rest hframes
        obtain ⟨m'', hrun, hm⟩ := h.run hframes
        cases hrun.symm.trans hnext
        exact hm
      · cases hnext
  | printk fmt args =>
      obtain ⟨msg, rfl, rfl⟩ := hok
      rw [Machine.next] at hnext
      split at hnext
      · cases hnext
      · cases hnext
        refine h.setFrames rfl fun c hc => ?_
        obtain heq | hc := List.mem_cons.mp hc
        · cases heq
          exact Or.inr (start_inBuffer msg)
        · exact Or.inl hc
  | interrupt =>
      obtain ⟨-, heq⟩ := Option.ite_none_right_eq_some.mp hnext
      cases heq
      refine h.setFrames rfl fun c hc => Or.inl ?_
      obtain heq | hc := List.mem_cons.mp hc
      · cases heq
      · exact hc
  | iret =>
      rw [Machine.next] at hnext
      split at hnext
      · rename_i rest hframes
        cases hnext
        exact h.setFrames rfl fun c hc => Or.inl (hframes ▸ List.mem_cons_of_mem _ hc)
      · cases hnext
  | preempt t =>
      obtain ⟨-, heq⟩ := Option.ite_none_right_eq_some.mp hnext
      cases heq
      exact h

end CallsInBuffer

/-- However the calls of tasks and handlers mix, no statement of a `printk` leaves `printk_buf`, and a call in progress can always go on. -/
theorem printk_inBuffer {n : Nat} {m : Machine n} (h : ((system n).restrict FromSource).Reachable m) :
    CallsInBuffer m ∧ ∀ c rest, m.frames m.current = .call c :: rest → (m.next .step).isSome := by
  have hcalls : CallsInBuffer m := by
    refine ((system n).restrict FromSource).invariant (fun m hstart t c hc => ?_)
      (fun m l m' _ hm hstep => hm.next hstep.1 hstep.2) h
    rw [hstart.2.1] at hc
    cases hc
  refine ⟨hcalls, fun c rest hframes => ?_⟩
  obtain ⟨m', hrun, -⟩ := hcalls.run hframes
  have hnext : m.next .step = some m' := by
    rw [Machine.next, hframes]
    exact hrun
  rw [hnext]
  rfl

/-- A handler prints in the middle of a message. -/
theorem printk_inBuffer_nested : ∃ m, ((system 2).restrict FromSource).Reachable m ∧
    (∃ c rest, m.frames m.current = .call c :: rest) ∧ (m.next .step).isSome := by
  have hstart : ((system 2).restrict FromSource).Reachable twoTasks := .init start_twoTasks
  have hready : ((system 2).restrict FromSource).Reachable _ :=
    .step (l := .printk Message.ready.fmt Message.ready.args) hstart ⟨⟨_, rfl, rfl⟩, rfl⟩
  have hhandler : ((system 2).restrict FromSource).Reachable _ := .step (l := .interrupt) hready ⟨trivial, rfl⟩
  have hkey : ((system 2).restrict FromSource).Reachable _ :=
    .step (l := .printk (Message.key 0x62).fmt (Message.key 0x62).args) hhandler ⟨⟨_, rfl, rfl⟩, rfl⟩
  exact ⟨_, hkey, ⟨_, _, rfl⟩, (printk_inBuffer hkey).2 _ _ rfl⟩

end I386Kernel.Printk
