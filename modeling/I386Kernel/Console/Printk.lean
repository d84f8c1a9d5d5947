import I386Kernel.Console.PutcSteps
import I386Kernel.Lib.Custody
import I386Kernel.Lib.Transition
import I386Kernel.Text.Vsprintf

/-!
# `printk` in several contexts

Any number of tasks call `printk`, and so do interrupt handlers on top of them. The format buffer and the cursor are shared. A call formats its text character by character, then passes the characters of the buffer to `fb_putc` one by one. When no `printk` is called while another is in progress, each passes its own text and stays on the screen; a handler that interrupts one does neither.
-/

namespace I386Kernel.Printk

/-! ## The machine -/

/-- `sizeof(printk_buf)` -/
def bufSize : Nat := 1024

inductive Stmt where
  /-- `vsprintf` stores its next character. -/
  | format (i : Nat) (ch : UInt8)
  /-- `fb_putc(printk_buf[i])` -/
  | emit (i : Nat)
  | putc (p : PutcStmt)
deriving DecidableEq

/-- The stores of `vsprintf` from index `i` on, with the null at the end. -/
def formats : Nat → List UInt8 → List Stmt
  | i, [] => [.format i 0]
  | i, ch :: text => .format i ch :: formats (i + 1) text

/-- `n` turns of the loop of `printk` from index `i` on. -/
def emits : Nat → Nat → List Stmt
  | _, 0 => []
  | i, n + 1 => .emit i :: emits (i + 1) n

/-- A `printk` in progress. -/
structure Call where
  fmt : List UInt8
  args : List Arg
  todo : List Stmt
  /-- A record of the characters passed to `fb_putc`. -/
  passed : List UInt8

namespace Call

def text (c : Call) : List UInt8 := (vsprintf c.fmt c.args).1

def start (fmt : List UInt8) (args : List Arg) : Call where
  fmt := fmt
  args := args
  todo :=
    let (text, num) := vsprintf fmt args
    formats 0 text ++ emits 0 num
  passed := []

end Call

/-- What is in progress on a stack: interrupt handlers and calls of `printk`. -/
inductive Frame where
  | handler
  | call (c : Call)

def Frame.isCall : Frame → Bool
  | .handler => false
  | .call _ => true

def Frame.getCall : Frame → Option Call
  | .handler => none
  | .call c => some c

theorem Frame.eq_of_getCall {f : Frame} {c : Call} (h : f.getCall = some c) : f = .call c := by
  cases f with
  | handler => cases h
  | call c' => exact congrArg Frame.call (Option.some.inj h)

/-- `n` tasks on one processor. -/
structure Machine (n : Nat) where
  console : Console
  buf : Nat → UInt8
  /-- A record of the row and the column of every cell written. -/
  cells : List (Nat × Nat)
  current : Fin n
  /-- The stack of a task, the innermost function first. -/
  frames : Fin n → List Frame
  /-- The interrupt flag. -/
  intr : Bool

inductive Label (n : Nat) where
  | step
  /-- The current task, or the handler on top of it, calls `printk`. -/
  | printk (fmt : List UInt8) (args : List Arg)
  | interrupt
  | iret
  /-- The timer gives the processor to another task. -/
  | preempt (t : Fin n)

namespace Machine

variable {n : Nat} (m : Machine n)

def setFrames (stack : List Frame) : Machine n := { m with frames := Function.update m.frames m.current stack }

/-- A statement of the call `c` on top of `rest`. The model has no result where `vsprintf` would write past the end of `printk_buf`. -/
def run (c : Call) (rest : List Frame) : Option (Machine n) :=
  match c.todo with
  | [] => some (m.setFrames rest)
  | .format i ch :: todo =>
      if i < bufSize then
        some { m.setFrames (.call { c with todo := todo } :: rest) with buf := Function.update m.buf i ch }
      else none
  | .emit i :: todo =>
      some (m.setFrames (.call { c with
        todo := (PutcStmt.fbPutc (m.buf i)).map .putc ++ todo, passed := c.passed ++ [m.buf i] } :: rest))
  | .putc p :: todo =>
      let (s, ps) := p.exec m.console
      some { m.setFrames (.call { c with todo := ps.map .putc ++ todo } :: rest) with
        console := s, cells := p.cells m.console ++ m.cells }

def next : Label n → Option (Machine n)
  | .step =>
      match m.frames m.current with
      | .call c :: rest => m.run c rest
      | _ => none
  | .printk fmt args =>
      match m.frames m.current with
      | .call _ :: _ => none
      | stack => some (m.setFrames (.call (Call.start fmt args) :: stack))
  | .interrupt =>
      if m.intr then some { m.setFrames (.handler :: m.frames m.current) with intr := false } else none
  | .iret =>
      match m.frames m.current with
      | .handler :: rest => some { m.setFrames rest with intr := true }
      | _ => none
  | .preempt t => if m.intr then some { m with current := t } else none

end Machine

/-- The cursor is on the screen. -/
def OnScreen (s : Console) : Prop := s.inited = true ∧ s.cx < 80 ∧ s.cy < 25

/-- Nothing is in progress and the cursor is on the screen. -/
def Start {n : Nat} (m : Machine n) : Prop :=
  OnScreen m.console ∧ (∀ t, m.frames t = []) ∧ m.cells = [] ∧ m.intr = true

/-- Tasks and interrupts in every order. -/
def system (n : Nat) : TransitionSystem (Machine n) (Label n) := .ofFn Start Machine.next

/-! ## Reentrancy -/

/-- Every call passes the characters of its own text to `fb_putc`, in order, and all of them by the time it returns. -/
def PassesOwn {n : Nat} (m : Machine n) : Prop :=
  ∀ t c, .call c ∈ m.frames t → c.passed <+: c.text ∧ (c.todo = [] → c.passed = c.text)

def CellsOnScreen {n : Nat} (m : Machine n) : Prop := ∀ c ∈ m.cells, c.1 < 25 ∧ c.2 < 80

def Label.isPrintk {n : Nat} : Label n → Bool
  | .printk _ _ => true
  | _ => false

/-- `printk` is called when no `printk` is in progress. -/
def Alone {n : Nat} (m : Machine n) (l : Label n) : Prop :=
  l.isPrintk = true → ∀ t, ∀ f ∈ m.frames t, f.isCall = false

instance {n : Nat} (m : Machine n) (l : Label n) : Decidable (Alone m l) :=
  have : Decidable (∀ t, ∀ f ∈ m.frames t, f.isCall = false) :=
    Nat.decidableForallFin fun t => ∀ f ∈ m.frames t, f.isCall = false
  inferInstanceAs (Decidable (_ → _))

theorem onScreen_fbPutc {s : Console} (h : OnScreen s) (ch : UInt8) : OnScreen (s.fbPutc ch) := by
  have hrefines := (s.refines_terminal h.1 h.2.1 h.2.2).put ch
  exact ⟨hrefines.inited, hrefines.column, hrefines.row⟩

/-- How far a call has come when it is not disturbed: it is formatting, or passes the characters on. -/
inductive Progress (s : Console) (buf : Nat → UInt8) (c : Call) : Prop
  | formatting (done rest : List UInt8) (htext : c.text = done ++ rest)
      (htodo : c.todo = formats done.length rest ++ emits 0 c.text.length) (hpassed : c.passed = [])
      (hbuf : ∀ i ch, done[i]? = some ch → buf i = ch) (hscreen : OnScreen s)
  | emitting (ps : List PutcStmt) (rest : List UInt8) {s' : Console} (htext : c.text = c.passed ++ rest)
      (htodo : c.todo = ps.map .putc ++ emits c.passed.length rest.length)
      (hbuf : ∀ i ch, c.text[i]? = some ch → buf i = ch) (hrun : PutcRun s ps s') (hscreen : OnScreen s')

theorem Progress.passesOwn {s : Console} {buf : Nat → UInt8} {c : Call} (h : Progress s buf c) :
    c.passed <+: c.text ∧ (c.todo = [] → c.passed = c.text) := by
  cases h with
  | formatting done rest htext htodo hpassed hbuf hscreen =>
      refine ⟨hpassed ▸ List.nil_prefix, fun hnil => ?_⟩
      rw [htodo] at hnil
      cases rest <;> cases hnil
  | @emitting ps rest s' htext htodo hbuf hrun hscreen =>
      refine ⟨⟨rest, htext.symm⟩, fun hnil => ?_⟩
      rw [htodo, List.append_eq_nil_iff] at hnil
      cases rest with
      | nil => rw [htext, List.append_nil]
      | cons ch rest => cases hnil.2

/-- At most one call is in progress, undisturbed; without one the cursor is on the screen. -/
structure Inv {n : Nat} (m : Machine n) (holder : Unit → Option (Fin n)) : Prop where
  custody : Custody (fun _ (f : Frame) (_ : Unit) => f.isCall) m.frames holder
  progress : ∀ t c, .call c ∈ m.frames t → Progress m.console m.buf c
  idle : holder () = none → OnScreen m.console
  cells : CellsOnScreen m

namespace Inv

variable {n : Nat} {m : Machine n} {holder : Unit → Option (Fin n)}

/-- Frames that are no call may come and go. -/
theorem frames (h : Inv m holder) {m' : Machine n} (hframes : ∀ t c, .call c ∈ m'.frames t → .call c ∈ m.frames t)
    (hcustody : Custody (fun _ (f : Frame) (_ : Unit) => f.isCall) m'.frames holder) (hconsole : m'.console = m.console)
    (hbuf : m'.buf = m.buf) (hcells : m'.cells = m.cells) : Inv m' holder where
  custody := hcustody
  progress := fun t c hc => by
    rw [hconsole, hbuf]
    exact h.progress t c (hframes t c hc)
  idle := fun hnone => hconsole ▸ h.idle hnone
  cells := fun c hc => h.cells c (hcells ▸ hc)

/-- The call on top of the current stack goes on; there is no other. -/
theorem advance (h : Inv m holder) {c c' : Call} {rest : List Frame} {s : Console} {buf : Nat → UInt8}
    (cells : List (Nat × Nat)) (hframes : m.frames m.current = .call c :: rest)
    (hprogress : Progress m.console m.buf c → Progress s buf c')
    (hcells : ∀ c ∈ cells, c.1 < 25 ∧ c.2 < 80) :
    Inv { m.setFrames (.call c' :: rest) with console := s, buf := buf, cells := cells ++ m.cells } holder := by
  have hmem : .call c ∈ m.frames m.current := hframes ▸ List.mem_cons_self ..
  have hholder := h.custody.holder_of_mem (r := ()) hmem rfl
  have hcustody : Custody (fun _ (f : Frame) (_ : Unit) => f.isCall)
      (Function.update m.frames m.current (.call c' :: rest)) holder :=
    h.custody.replace hframes fun _ => Or.inl ⟨rfl, rfl⟩
  refine ⟨hcustody, fun t d hd => ?_, fun hnone => absurd (hholder.symm.trans hnone) nofun, fun p hp => ?_⟩
  · have htc : t = m.current :=
      Option.some.inj ((hcustody.holder_of_mem (r := ()) hd rfl).symm.trans hholder)
    have hd : .call d ∈ Function.update m.frames m.current (.call c' :: rest) t := hd
    rw [htc, Function.update_self] at hd
    obtain heq | hd := List.mem_cons.mp hd
    · cases heq
      exact hprogress (h.progress _ c hmem)
    · exact nomatch h.custody.rest_free (r := ()) hframes rfl hd
  · obtain hp | hp := List.mem_append.mp hp
    · exact hcells p hp
    · exact h.cells p hp

theorem run (h : Inv m holder) {m' : Machine n} {c : Call} {rest : List Frame}
    (hframes : m.frames m.current = .call c :: rest) (hrun : m.run c rest = some m') :
    ∃ holder', Inv m' holder' := by
  have hprogress := h.progress _ c (hframes ▸ List.mem_cons_self ..)
  cases hprogress with
  | formatting done text htext htodo hpassed hbuf hscreen =>
      cases text with
      | nil =>
          rw [Machine.run, htodo] at hrun
          obtain ⟨-, heq⟩ := Option.ite_none_right_eq_some.mp hrun
          cases heq
          refine ⟨holder, h.advance [] hframes (fun _ => ?_) nofun⟩
          rw [List.append_nil] at htext
          refine .emitting [] c.text ?_ ?_ (fun i ch hch => ?_) (.nil _) hscreen
          · show c.text = c.passed ++ c.text
            rw [hpassed]
            rfl
          · show _ = emits c.passed.length _
            rw [hpassed]
            rfl
          · have hch : c.text[i]? = some ch := hch
            rw [htext] at hch
            have hi : i ≠ done.length := by
              rintro rfl
              rw [List.getElem?_eq_none (Nat.le_refl _)] at hch
              cases hch
            rw [Function.update_of_ne hi]
            exact hbuf i ch hch
      | cons ch text =>
          rw [Machine.run, htodo] at hrun
          obtain ⟨-, heq⟩ := Option.ite_none_right_eq_some.mp hrun
          cases heq
          refine ⟨holder, h.advance [] hframes (fun _ => ?_) nofun⟩
          refine .formatting (done ++ [ch]) text ?_ ?_ hpassed (fun i ch' hch' => ?_) hscreen
          · rw [List.append_assoc]
            exact htext
          · rw [List.length_append]
            rfl
          · by_cases hi : i = done.length
            · subst hi
              rw [List.getElem?_concat_length] at hch'
              cases hch'
              exact Function.update_self ..
            · rw [Function.update_of_ne hi]
              refine hbuf i ch' ?_
              rw [List.getElem?_append] at hch'
              split at hch'
              · exact hch'
              · rename_i hlt
                rw [List.getElem?_eq_none (by rw [List.length_singleton]; omega)] at hch'
                cases hch'
  | @emitting ps text s' htext htodo hbuf hputc hscreen =>
      cases ps with
      | nil =>
          cases hputc
          cases text with
          | nil =>
              rw [Machine.run, htodo] at hrun
              cases hrun
              have hmem : .call c ∈ m.frames m.current := hframes ▸ List.mem_cons_self ..
              have hholder := h.custody.holder_of_mem (r := ()) hmem rfl
              have hrest : rest.countP Frame.isCall = 0 :=
                List.countP_eq_zero.mpr fun g hg => by simp [h.custody.rest_free (r := ()) hframes rfl hg]
              have hcustody : Custody (fun _ (f : Frame) (_ : Unit) => f.isCall)
                  (Function.update m.frames m.current rest) fun _ => none := by
                refine h.custody.update (fun u _ hu => ?_) fun _ => hrest
                rw [hholder, Option.some.injEq]
                exact iff_of_false nofun hu.symm
              refine ⟨fun _ => none, hcustody, fun t d hd => ?_, fun _ => hscreen, h.cells⟩
              exact nomatch hcustody.free_of_none (r := ()) rfl hd
          | cons ch text =>
              rw [Machine.run, htodo] at hrun
              cases hrun
              have hch : m.buf c.passed.length = ch := by
                refine hbuf _ _ ?_
                rw [htext, List.getElem?_append_right (Nat.le_refl _), Nat.sub_self]
                rfl
              refine ⟨holder, h.advance [] hframes (fun _ => ?_) nofun⟩
              have hrun := PutcRun.fbPutc m.console hscreen.1 hscreen.2.1 hscreen.2.2 (m.buf c.passed.length)
              refine .emitting _ text ?_ ?_ hbuf hrun (onScreen_fbPutc hscreen _)
              · show c.text = (c.passed ++ [m.buf c.passed.length]) ++ text
                rw [hch, List.append_assoc]
                exact htext
              · show _ = (PutcStmt.fbPutc (m.buf c.passed.length)).map Stmt.putc ++
                  emits (c.passed ++ [m.buf c.passed.length]).length text.length
                rw [List.length_append]
                rfl
      | cons p ps =>
          cases hputc with
          | cons hcells hrest =>
              rw [Machine.run, htodo] at hrun
              cases hrun
              refine ⟨holder, h.advance _ hframes (fun _ => ?_) hcells⟩
              refine .emitting _ text htext ?_ hbuf hrest hscreen
              rw [List.map_append, List.append_assoc]
              rfl

theorem next (h : Inv m holder) {m' : Machine n} {l : Label n} (hok : Alone m l) (hnext : m.next l = some m') :
    ∃ holder', Inv m' holder' := by
  have hupdate : ∀ {stack : List Frame}, (∀ c, .call c ∈ stack → .call c ∈ m.frames m.current) →
      ∀ t c, .call c ∈ Function.update m.frames m.current stack t → .call c ∈ m.frames t := by
    intro stack hstack t c hc
    rw [Function.update_apply] at hc
    split at hc
    · rename_i ht
      exact ht ▸ hstack c hc
    · exact hc
  cases l with
  | step =>
      rw [Machine.next] at hnext
      split at hnext
      · rename_i c rest hframes
        exact h.run hframes hnext
      · cases hnext
  | printk fmt args =>
      have hfree := hok rfl
      have hnone : holder () = none := by
        rw [Option.eq_none_iff_forall_ne_some]
        intro t ht
        obtain ⟨f, hf, hcall⟩ := h.custody.exists_of_holder ht
        exact nomatch hcall.symm.trans (hfree t f hf)
      have heq : m' = m.setFrames (.call (Call.start fmt args) :: m.frames m.current) := by
        rw [Machine.next] at hnext
        split at hnext
        · cases hnext
        · cases hnext
          rfl
      subst heq
      have hcustody : Custody (fun _ (f : Frame) (_ : Unit) => f.isCall)
          (Function.update m.frames m.current (.call (Call.start fmt args) :: m.frames m.current))
          fun _ => some m.current := by
        refine h.custody.update (fun u _ hu => ?_) fun _ => ?_
        · rw [hnone, Option.some.injEq]
          exact iff_of_false hu.symm nofun
        · rw [List.countP_cons, List.countP_eq_zero.mpr fun f hf => by simp [hfree _ f hf], if_pos (Eq.refl (some m.current))]
          exact Nat.zero_add 1
      refine ⟨_, hcustody, fun t d hd => ?_, nofun, h.cells⟩
      obtain rfl : t = m.current := Option.some.inj (hcustody.holder_of_mem (r := ()) hd rfl).symm
      have hd : .call d ∈ Function.update m.frames m.current (.call (Call.start fmt args) :: m.frames m.current) m.current := hd
      rw [Function.update_self] at hd
      obtain heq | hd := List.mem_cons.mp hd
      · cases heq
        exact .formatting [] (Call.start fmt args).text rfl rfl rfl nofun (h.idle hnone)
      · exact nomatch hfree _ _ hd
  | interrupt =>
      obtain ⟨-, heq⟩ := Option.ite_none_right_eq_some.mp hnext
      cases heq
      refine ⟨holder, h.frames (hupdate fun c hc => ?_) (h.custody.push fun _ => rfl) rfl rfl rfl⟩
      exact (List.mem_cons.mp hc).resolve_left nofun
  | iret =>
      rw [Machine.next] at hnext
      split at hnext
      · rename_i rest hframes
        cases hnext
        refine ⟨holder, h.frames (hupdate fun c hc => ?_) (h.custody.pop hframes fun _ => rfl) rfl rfl rfl⟩
        exact hframes ▸ List.mem_cons_of_mem _ hc
      · cases hnext
  | preempt t =>
      obtain ⟨-, heq⟩ := Option.ite_none_right_eq_some.mp hnext
      cases heq
      exact ⟨holder, h.custody, h.progress, h.idle, h.cells⟩

end Inv

theorem inv_start {n : Nat} {m : Machine n} (h : Start m) : Inv m fun _ => none := by
  obtain ⟨hscreen, hframes, hcells, -⟩ := h
  refine ⟨fun t _ => ?_, fun t c hc => ?_, fun _ => hscreen, ?_⟩
  · rw [hframes]
    rfl
  · rw [hframes] at hc
    cases hc
  · rw [CellsOnScreen, hcells]
    nofun

/-- As long as `printk` is not called while another is in progress, every call passes its own text to `fb_putc` and every cell written is on the screen. -/
theorem printk_reachable {n : Nat} {m : Machine n} (h : ((system n).restrict Alone).Reachable m) :
    PassesOwn m ∧ CellsOnScreen m := by
  obtain ⟨holder, hinv⟩ := ((system n).restrict Alone).invariant (P := fun m => ∃ holder, Inv m holder)
    (fun m hstart => ⟨_, inv_start hstart⟩) (fun m l m' _ ⟨holder, hm⟩ hstep => hm.next hstep.1 hstep.2) h
  exact ⟨fun t c hc => (hinv.progress t c hc).passesOwn, hinv.cells⟩

/-! ## Two runs -/

/-- Two tasks, and the cursor in the last column of the first row. -/
def twoTasks : Machine 2 := ⟨⟨79, 0, true, 0xc00b8000, ⟨fun _ => 0, []⟩, ⟨0, fun _ => 0⟩⟩, fun _ => 0, [], ⟨0, Nat.two_pos⟩, fun _ => [], true⟩

theorem start_twoTasks : Start twoTasks := ⟨⟨rfl, by decide, by decide⟩, fun _ => rfl, rfl, rfl⟩

private def steps (n : Nat) : List (Label 2) := List.replicate n .step

private theorem exists_run (labels : List (Label 2)) (p : Machine 2 → Prop) [DecidablePred p]
    (h : (TransitionSystem.exec Machine.next twoTasks labels).any (fun m => decide (p m)) = true) :
    ∃ m, (system 2).Reachable m ∧ p m :=
  TransitionSystem.exists_reachable_exec start_twoTasks labels p h

/-- The keyboard's handler prints `b`. -/
private def keyPress : List (Label 2) := [.interrupt, .printk [0x62] []]

/-- An interrupt after the formatting of `a` makes the call pass `b`; one between the increment of the cursor and its wrap writes in column 80. -/
theorem not_printk_reentrant : (¬ ∀ m, (system 2).Reachable m → PassesOwn m) ∧
    ¬ ∀ m, (system 2).Reachable m → CellsOnScreen m := by
  constructor
  · intro h
    obtain ⟨m, hreach, c, hmem, htext, hpassed⟩ := exists_run
      ([.printk [0x61] []] ++ steps 2 ++ keyPress ++ steps 15 ++ [.iret] ++ steps 1)
      (fun m => ∃ c ∈ (m.frames 0).filterMap Frame.getCall, c.text = [0x61] ∧ c.passed = [0x62]) (by decide +kernel)
    obtain ⟨f, hf, hcall⟩ := List.mem_filterMap.mp hmem
    obtain rfl := Frame.eq_of_getCall hcall
    have hprefix := (h m hreach 0 c hf).1
    rw [htext, hpassed] at hprefix
    exact absurd hprefix (by decide)
  · intro h
    obtain ⟨m, hreach, hcell⟩ := exists_run ([.printk [0x61] []] ++ steps 8 ++ keyPress ++ steps 6)
      (fun m => (0, 80) ∈ m.cells) (by decide +kernel)
    exact absurd (h m hreach _ hcell).2 (by decide)

/-- The handler prints after the task has returned from its `printk`, and the other task after that. -/
theorem printk_reachable_twoTasks : ∃ m, ((system 2).restrict Alone).Reachable m ∧ m.cells ≠ [] ∧
    PassesOwn m ∧ CellsOnScreen m := by
  obtain ⟨m, hreach, hcells⟩ := TransitionSystem.exists_reachable_restrict_exec (f := Machine.next) Alone start_twoTasks
    ([.printk [0x61] []] ++ steps 15 ++ keyPress ++ steps 12 ++ [.iret, .preempt 1, .printk [0x63] []] ++ steps 7)
    (fun m => m.cells ≠ []) (by decide +kernel)
  exact ⟨m, hreach, hcells, printk_reachable hreach⟩

end I386Kernel.Printk
