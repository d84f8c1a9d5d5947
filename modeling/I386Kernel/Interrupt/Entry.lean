import I386Kernel.Interrupt.Stubs

/-!
# Interrupts and the interrupted state

What the stubs push is taken apart by `isr_exit` in the opposite order, so that every interrupt comes back to where it was taken, but for vector 12, whose stub pushes an error code of its own beside that of the processor. The frame shows the interrupted state except for `eflags`: the structure has two bytes for `cs` where the processor pushes four.
-/

namespace I386Kernel.Interrupt

open I386 (Reg)
open ByteStack (Memory Byte bytes16 bytes32 load16 load32 store Holds)

variable {c c' : Cpu} {bs : List Byte} {m : Memory}

theorem Cpu.run_append (c : Cpu) (code code' : List Instr) : c.run (code ++ code') = (c.run code).run code' :=
  List.foldl_append

/-! ## Pushes -/

/-- From `c` to `c'` the bytes `bs` have been pushed. -/
structure Pushed (c c' : Cpu) (bs : List Byte) : Prop where
  esp : c'.reg .esp = c.reg .esp - BitVec.ofNat 32 bs.length
  holds : Holds c'.mem (c'.reg .esp) bs
  reg : ∀ r, r ≠ .esp → c'.reg r = c.reg r
  seg : c'.seg = c.seg

theorem Pushed.refl (c : Cpu) : Pushed c c [] := ⟨(BitVec.sub_zero _).symm, trivial, fun _ _ => rfl, rfl⟩

theorem Pushed.pushBytes (h : Pushed c c' bs) (bs' : List Byte) (hlen : bs'.length + bs.length ≤ 2 ^ 32) :
    Pushed c (c'.pushBytes bs') (bs' ++ bs) where
  esp := by
    show c'.reg .esp - BitVec.ofNat 32 bs'.length = _
    rw [h.esp, List.length_append, BitVec.ofNat_add]
    bv_omega
  holds := h.holds.push bs' hlen
  reg := fun r hr => (Function.update_of_ne hr _ _).trans (h.reg r hr)
  seg := h.seg

/-- General registers, pushed one after the other. -/
theorem Pushed.pushls (h : Pushed c c' bs) {rs : List Reg} (hrs : Reg.esp ∉ rs) (hlen : 4 * rs.length + bs.length ≤ 2 ^ 32) :
    Pushed c (c'.run (rs.map .pushl)) ((rs.reverse.flatMap fun r => bytes32 (c.reg r)) ++ bs) := by
  induction rs generalizing c' bs with
  | nil => exact h
  | cons r rs ih =>
      rw [List.length_cons] at hlen
      have hr : r ≠ .esp := fun heq => hrs (heq ▸ List.mem_cons_self)
      have hstep := h.pushBytes (bytes32 (c.reg r)) (by rw [ByteStack.length_bytes32]; omega)
      have hrest := ih hstep (fun hmem => hrs (List.mem_cons_of_mem r hmem))
        (by rw [List.length_append, ByteStack.length_bytes32]; omega)
      have hrun : c'.run ((r :: rs).map .pushl) = (c'.pushBytes (bytes32 (c.reg r))).run (rs.map .pushl) := by
        rw [← h.reg r hr]
        rfl
      rw [hrun, List.reverse_cons, List.flatMap_append, List.flatMap_singleton, List.append_assoc]
      exact hrest

/-- Segment registers. -/
theorem Pushed.pushws (h : Pushed c c' bs) {ss : List Seg} (hlen : 2 * ss.length + bs.length ≤ 2 ^ 32) :
    Pushed c (c'.run (ss.map .pushw)) ((ss.reverse.flatMap fun s => bytes16 (c.seg s)) ++ bs) := by
  induction ss generalizing c' bs with
  | nil => exact h
  | cons s ss ih =>
      rw [List.length_cons] at hlen
      have hstep := h.pushBytes (bytes16 (c.seg s)) (by rw [ByteStack.length_bytes16]; omega)
      have hrest := ih hstep (by rw [List.length_append, ByteStack.length_bytes16]; omega)
      have hrun : c'.run ((s :: ss).map .pushw) = (c'.pushBytes (bytes16 (c.seg s))).run (ss.map .pushw) := by
        rw [← h.seg]
        rfl
      rw [hrun, List.reverse_cons, List.flatMap_append, List.flatMap_singleton, List.append_assoc]
      exact hrest

/-- The bytes of the registers, from the top of the stack. -/
def savedBytes (c : Cpu) : List Byte :=
  ([Seg.gs, .fs, .es, .ds].flatMap fun s => bytes16 (c.seg s)) ++
    ([Reg.ebp, .edi, .esi, .edx, .ecx, .ebx, .eax].flatMap fun r => bytes32 (c.reg r))

theorem length_savedBytes (c : Cpu) : (savedBytes c).length = 36 := rfl

/-- `isr_entry` over whatever the processor and the stub have pushed. -/
theorem run_isrEntry (h : Pushed c c' bs) (hlen : bs.length ≤ 1000) (next : Word) :
    (c'.run (isrEntry next)).reg .esp = c.reg .esp - BitVec.ofNat 32 (36 + bs.length) - 8 ∧
      frameOf (c'.run (isrEntry next)) = c.reg .esp - BitVec.ofNat 32 (36 + bs.length) ∧
      Holds (c'.run (isrEntry next)).mem (c.reg .esp - BitVec.ofNat 32 (36 + bs.length)) (savedBytes c ++ bs) := by
  have hregs : Pushed c (c'.run ([.eax, .ebx, .ecx, .edx, .esi, .edi, .ebp].map .pushl)) _ :=
    h.pushls (by decide) (by rw [show List.length _ = 7 from rfl]; omega)
  have hsegs : Pushed c ((c'.run ([.eax, .ebx, .ecx, .edx, .esi, .edi, .ebp].map .pushl)).run
      ([.ds, .es, .fs, .gs].map .pushw)) (savedBytes c ++ bs) := by
    apply hregs.pushws
    rw [List.length_append, show List.length (List.flatMap _ _) = 28 from rfl, show List.length _ = 4 from rfl]
    omega
  have hlength : (savedBytes c ++ bs).length = 36 + bs.length := by
    rw [List.length_append, length_savedBytes]
  generalize hc₁ : Cpu.run (c'.run _) _ = c₁ at hsegs
  have hesp := hsegs.esp
  rw [hlength] at hesp
  -- the selectors of the kernel are loaded, and the stack stays as it is
  have hrun : c'.run (isrEntry next) =
      ((c₁.run [.movAx selKdseg, .movSeg .ds, .movSeg .es, .movSeg .fs, .movSeg .gs]).pushBytes
        (bytes32 (c₁.reg .esp))).pushBytes (bytes32 next) := by
    rw [← hc₁]
    rfl
  have hbase := hsegs.holds
  rw [hesp] at hbase
  generalize c.reg .esp - BitVec.ofNat 32 (36 + bs.length) = stack at hesp hbase ⊢
  have harg := hbase.push (bytes32 stack) (by
    rw [hlength, ByteStack.length_bytes32]
    omega)
  have hcall := harg.push (bytes32 next) (by
    rw [List.length_append, hlength, ByteStack.length_bytes32, ByteStack.length_bytes32]
    omega)
  have hesp' : (c'.run (isrEntry next)).reg .esp = stack - 4 - 4 := by
    rw [hrun]
    show c₁.reg .esp - 4 - 4 = stack - 4 - 4
    rw [hesp]
  have htop : Holds (c'.run (isrEntry next)).mem ((c'.run (isrEntry next)).reg .esp + 0)
      (bytes32 next ++ (bytes32 stack ++ (savedBytes c ++ bs))) := by
    rw [ByteStack.holds_add_zero, hesp', hrun]
    show Holds (store (store c₁.mem (c₁.reg .esp - 4) (bytes32 (c₁.reg .esp))) (c₁.reg .esp - 4 - 4) (bytes32 next)) _ _
    rw [hesp]
    exact hcall
  obtain ⟨hframe, hsaved⟩ := htop.load32.2.load32
  have hback : stack - 4 - 4 + (0 + 4 + 4) = stack := by bv_omega
  rw [hesp', hback] at hsaved
  have hsub : stack - 4 - 4 = stack - 8 := by bv_omega
  exact ⟨hesp'.trans hsub, hframe, hsaved⟩

/-! ## The frame -/

/-- The fields that lie where the processor and the stub have put them; that of `eflag` begins in the upper half of the double word of `cs`. -/
theorem readFrame_eq {stack n x t : Word} {upper cs high low : BitVec 16}
    (h : Holds m stack (savedBytes c ++ (bytes32 n ++ (bytes32 x ++ (bytes32 t ++ (bytes32 (upper ++ cs) ++
      (bytes32 (high ++ low) ++ bs))))))) :
    let f := readFrame m stack
    (f.ds = c.seg .ds ∧ f.es = c.seg .es ∧ f.fs = c.seg .fs ∧ f.gs = c.seg .gs) ∧
      (f.eax = c.reg .eax ∧ f.ebx = c.reg .ebx ∧ f.ecx = c.reg .ecx ∧ f.edx = c.reg .edx ∧ f.esi = c.reg .esi ∧
        f.edi = c.reg .edi ∧ f.ebp = c.reg .ebp) ∧
      f.vecNo = n ∧ f.errorCode = x ∧ f.eip = t ∧ f.cs = cs ∧ f.eflag = low ++ upper := by
  rw [ByteStack.bytes32_append upper cs, ByteStack.bytes32_append high low] at h
  have hstart : Holds m (stack + 0) (bytes16 (c.seg .gs) ++ (bytes16 (c.seg .fs) ++ (bytes16 (c.seg .es) ++
      (bytes16 (c.seg .ds) ++ (bytes32 (c.reg .ebp) ++ (bytes32 (c.reg .edi) ++ (bytes32 (c.reg .esi) ++
        (bytes32 (c.reg .edx) ++ (bytes32 (c.reg .ecx) ++ (bytes32 (c.reg .ebx) ++ (bytes32 (c.reg .eax) ++
          (bytes32 n ++ (bytes32 x ++ (bytes32 t ++ (bytes16 cs ++ (bytes32 (low ++ upper) ++
            (bytes16 high ++ bs))))))))))))))))) := by
    rw [ByteStack.bytes32_append low upper]
    exact ByteStack.holds_add_zero.mpr h
  have hzero : stack + 0 = stack := BitVec.add_zero stack
  obtain ⟨hgs, h⟩ := hstart.load16
  obtain ⟨hfs, h⟩ := h.load16
  obtain ⟨hes, h⟩ := h.load16
  obtain ⟨hds, h⟩ := h.load16
  obtain ⟨hebp, h⟩ := h.load32
  obtain ⟨hedi, h⟩ := h.load32
  obtain ⟨hesi, h⟩ := h.load32
  obtain ⟨hedx, h⟩ := h.load32
  obtain ⟨hecx, h⟩ := h.load32
  obtain ⟨hebx, h⟩ := h.load32
  obtain ⟨heax, h⟩ := h.load32
  obtain ⟨hvec, h⟩ := h.load32
  obtain ⟨herr, h⟩ := h.load32
  obtain ⟨heip, h⟩ := h.load32
  obtain ⟨hcs, h⟩ := h.load16
  rw [hzero] at hgs
  exact ⟨⟨hds, hes, hfs, hgs⟩, ⟨heax, hebx, hecx, hedx, hesi, hedi, hebp⟩, hvec, herr, heip, hcs, h.load32.1⟩

/-! ## Pops -/

/-- Segment registers, popped one after the other. -/
theorem run_popws {ss : List Seg} (hnodup : ss.Nodup) {v : Seg → BitVec 16}
    (h : Holds c.mem (c.reg .esp) ((ss.flatMap fun s => bytes16 (v s)) ++ bs)) :
    let c' := c.run (ss.map .popw)
    (∀ s, c'.seg s = if s ∈ ss then v s else c.seg s) ∧ c'.mem = c.mem ∧
      Holds c'.mem (c'.reg .esp) bs ∧ c'.reg .esp = c.reg .esp + BitVec.ofNat 32 (2 * ss.length) := by
  induction ss generalizing c with
  | nil => exact ⟨fun s => (if_neg List.not_mem_nil).symm, rfl, h, (BitVec.add_zero _).symm⟩
  | cons s ss ih =>
      rw [List.nodup_cons] at hnodup
      rw [List.flatMap_cons, List.append_assoc] at h
      obtain ⟨hload, hrest⟩ := Holds.load16 (ByteStack.holds_add_zero.mpr h)
      have hzero : c.reg .esp + 0 = c.reg .esp := BitVec.add_zero _
      rw [hzero] at hload
      obtain ⟨hseg, hmem, hholds, hesp⟩ := ih (c := c.exec (.popw s)) hnodup.2 hrest
      refine ⟨fun s' => (hseg s').trans ?_, hmem, hholds, hesp.trans ?_⟩
      · show (if s' ∈ ss then v s' else Function.update c.seg s (load16 c.mem (c.reg .esp)) s') = _
        rw [hload]
        by_cases heq : s' = s
        · subst heq
          rw [if_neg hnodup.1, Function.update_self, if_pos List.mem_cons_self]
        · have hmem' : s' ∈ s :: ss ↔ s' ∈ ss := by
            rw [List.mem_cons]
            exact or_iff_right heq
          rw [Function.update_of_ne heq]
          exact (if_congr hmem' rfl rfl).symm
      · show c.reg .esp + 2 + BitVec.ofNat 32 (2 * ss.length) = _
        rw [List.length_cons, BitVec.add_assoc, Nat.mul_succ, Nat.add_comm, BitVec.ofNat_add]
        rfl

/-- General registers. -/
theorem run_popls {rs : List Reg} (hrs : Reg.esp ∉ rs) (hnodup : rs.Nodup) {v : Reg → Word}
    (h : Holds c.mem (c.reg .esp) ((rs.flatMap fun r => bytes32 (v r)) ++ bs)) :
    let c' := c.run (rs.map .popl)
    (∀ r, r ≠ .esp → c'.reg r = if r ∈ rs then v r else c.reg r) ∧ c'.seg = c.seg ∧ c'.mem = c.mem ∧
      Holds c'.mem (c'.reg .esp) bs ∧ c'.reg .esp = c.reg .esp + BitVec.ofNat 32 (4 * rs.length) := by
  induction rs generalizing c with
  | nil => exact ⟨fun r _ => (if_neg List.not_mem_nil).symm, rfl, rfl, h, (BitVec.add_zero _).symm⟩
  | cons r rs ih =>
      rw [List.nodup_cons] at hnodup
      rw [List.flatMap_cons, List.append_assoc] at h
      have hr : Reg.esp ≠ r := fun heq => hrs (heq ▸ List.mem_cons_self)
      obtain ⟨hload, hrest⟩ := Holds.load32 (ByteStack.holds_add_zero.mpr h)
      have hzero : c.reg .esp + 0 = c.reg .esp := BitVec.add_zero _
      rw [hzero] at hload
      have hesp₁ : (c.exec (.popl r)).reg .esp = c.reg .esp + 4 := by
        show Function.update (Function.update c.reg .esp (c.reg .esp + 4)) r _ .esp = _
        rw [Function.update_of_ne hr, Function.update_self]
      obtain ⟨hreg, hseg, hmem, hholds, hesp⟩ := ih (c := c.exec (.popl r))
        (fun hmem => hrs (List.mem_cons_of_mem r hmem)) hnodup.2 (hesp₁ ▸ hrest)
      refine ⟨fun r' hr' => (hreg r' hr').trans ?_, hseg, hmem, hholds, hesp.trans ?_⟩
      · show (if r' ∈ rs then v r' else
          Function.update (Function.update c.reg .esp (c.reg .esp + 4)) r (load32 c.mem (c.reg .esp)) r') = _
        rw [hload]
        by_cases heq : r' = r
        · subst heq
          rw [if_neg hnodup.1, Function.update_self, if_pos List.mem_cons_self]
        · have hmem' : r' ∈ r :: rs ↔ r' ∈ rs := by
            rw [List.mem_cons]
            exact or_iff_right heq
          rw [Function.update_of_ne heq, Function.update_of_ne hr']
          exact (if_congr hmem' rfl rfl).symm
      · rw [hesp₁, List.length_cons, BitVec.add_assoc, Nat.mul_succ, Nat.add_comm, BitVec.ofNat_add]
        rfl

/-- `isr_exit` takes the registers, and from the words above the vector and the error code `eip`, `cs` and `eflags`. -/
theorem run_isrExit {n x t s f : Word}
    (h : Holds c'.mem (c'.reg .esp + 4) (savedBytes c ++ (bytes32 n ++ (bytes32 x ++ (bytes32 t ++ (bytes32 s ++
      (bytes32 f ++ bs))))))) :
    let r := c'.run isrExit
    (∀ reg, reg ≠ .esp → r.reg reg = c.reg reg) ∧ r.reg .esp = c'.reg .esp + 4 + 56 ∧ r.seg = c.seg ∧
      r.eip = t ∧ r.cs = s.extractLsb' 0 16 ∧ r.eflags = f := by
  rw [savedBytes, List.append_assoc] at h
  obtain ⟨hseg, hmem₁, hholds₁, hesp₁⟩ := run_popws (c := c'.exec (.addEsp 4)) (by decide) h
  obtain ⟨hreg, hseg₂, hmem₂, hholds₂, hesp₂⟩ := run_popls (by decide) (by decide) hholds₁
  generalize hc₂ : Cpu.run (Cpu.run (c'.exec (.addEsp 4)) _) _ = c₂ at hreg hseg₂ hmem₂ hholds₂ hesp₂
  have hrun : c'.run isrExit = (c₂.exec (.addEsp 8)).exec .iret := by
    rw [← hc₂]
    rfl
  obtain ⟨-, hholds⟩ := (Holds.load32 (ByteStack.holds_add_zero.mpr hholds₂)).2.load32
  obtain ⟨heip, hholds⟩ := hholds.load32
  obtain ⟨hcs, hholds⟩ := hholds.load32
  obtain ⟨heflags, -⟩ := hholds.load32
  have hadd : c₂.reg .esp + (0 + 4 + 4 + 4) = c₂.reg .esp + 8 + 4 := by bv_omega
  have hadd' : c₂.reg .esp + (0 + 4 + 4 + 4 + 4) = c₂.reg .esp + 8 + 8 := by bv_omega
  rw [hadd] at hcs
  rw [hadd'] at heflags
  rw [hrun]
  refine ⟨fun r hr => ?_, ?_, ?_, heip, congrArg (BitVec.extractLsb' 0 16) hcs, heflags⟩
  · show Function.update (Function.update c₂.reg .esp _) .esp _ r = _
    rw [Function.update_of_ne hr, Function.update_of_ne hr, hreg r hr]
    apply if_pos
    cases r <;> first | decide | exact absurd rfl hr
  · show c₂.reg .esp + 8 + 12 = _
    rw [hesp₂, hesp₁]
    show c'.reg .esp + 4 + 8 + 28 + 8 + 12 = _
    bv_omega
  · funext seg
    show c₂.seg seg = c.seg seg
    rw [hseg₂, hseg seg]
    apply if_pos
    cases seg <;> decide

/-! ## A vector -/

/-- Vector 12 is the one with an error code that its stub does not count on. -/
theorem isrStub_eq : ∀ n : Fin 256,
    isrStub n = if pushesErrorCode n = true ∧ n ≠ 12 then .errorCode n else .noErrorCode n := by
  decide +kernel

/-- What the processor pushes, from the top of the stack. -/
def trapBytes (c : Cpu) (n : Nat) (pad : BitVec 16) (err : Word) : List Byte :=
  (if pushesErrorCode n then bytes32 err else []) ++ (bytes32 c.eip ++ (bytes32 (pad ++ c.cs) ++ bytes32 c.eflags))

theorem length_trapBytes (c : Cpu) (n : Nat) (pad : BitVec 16) (err : Word) : (trapBytes c n pad err).length ≤ 16 := by
  rw [trapBytes]
  split
  · exact Nat.le_refl 16
  · exact Nat.le_of_ble_eq_true rfl

variable {n : Fin 256} {pad : BitVec 16} {err next : Word}

theorem pushed_deliver (c : Cpu) (n : Fin 256) (pad : BitVec 16) (err : Word) :
    Pushed c (deliver c n pad err) (trapBytes c n pad err) := by
  have hflags : Pushed c (c.pushBytes (bytes32 c.eflags)) (bytes32 c.eflags) :=
    (Pushed.refl c).pushBytes _ (Nat.le_of_ble_eq_true rfl)
  have hcs := hflags.pushBytes (bytes32 (pad ++ c.cs)) (Nat.le_of_ble_eq_true rfl)
  have heip := hcs.pushBytes (bytes32 c.eip) (Nat.le_of_ble_eq_true rfl)
  have herr := heip.pushBytes (bytes32 err) (Nat.le_of_ble_eq_true rfl)
  by_cases hcode : pushesErrorCode n = true
  · rw [trapBytes, deliver, if_pos hcode, if_pos hcode]
    exact ⟨herr.esp, herr.holds, herr.reg, herr.seg⟩
  · rw [trapBytes, deliver, if_neg hcode, if_neg hcode]
    exact ⟨heip.esp, heip.holds, heip.reg, heip.seg⟩

/-- The words between the registers and those of `iret`: the vector, and what stands for its error code. -/
def stubBytes (n : Fin 256) (err : Word) : List Byte :=
  if n = 12 then bytes32 12 ++ (bytes32 0 ++ bytes32 err)
  else bytes32 (BitVec.ofNat 32 n) ++ bytes32 (if pushesErrorCode n then err else 0)

theorem stubBytes_of_ne (hn : n ≠ 12) :
    stubBytes n err = bytes32 (BitVec.ofNat 32 n) ++ bytes32 (if pushesErrorCode n then err else 0) :=
  if_neg hn

theorem length_stubBytes (n : Fin 256) (err : Word) : (stubBytes n err).length = if n = 12 then 12 else 8 := by
  rw [stubBytes]
  split <;> rfl

theorem pushed_stub : Pushed c ((deliver c n pad err).run (isrStub n).code)
    (stubBytes n err ++ (bytes32 c.eip ++ (bytes32 (pad ++ c.cs) ++ bytes32 c.eflags))) := by
  have hdeliver := pushed_deliver c n pad err
  have hlen := length_trapBytes c n pad err
  have hvec := hdeliver.pushBytes (bytes32 (BitVec.ofNat 32 n)) (by rw [ByteStack.length_bytes32]; omega)
  have hzero := hdeliver.pushBytes (bytes32 0) (by rw [ByteStack.length_bytes32]; omega)
  have hboth := hzero.pushBytes (bytes32 (BitVec.ofNat 32 n))
    (by rw [List.length_append, ByteStack.length_bytes32, ByteStack.length_bytes32]; omega)
  rw [isrStub_eq, stubBytes]
  by_cases htwelve : n = 12
  · subst htwelve
    exact hboth
  rw [if_neg htwelve]
  by_cases hcode : pushesErrorCode n = true
  · rw [trapBytes, if_pos hcode] at hvec
    rw [if_pos ⟨hcode, htwelve⟩, if_pos hcode]
    exact hvec
  · rw [trapBytes, if_neg hcode] at hboth
    rw [if_neg (fun h => hcode h.1), if_neg hcode]
    exact hboth

/-- The stack at the first instruction of `generic_isr`. -/
theorem enter_spec (c : Cpu) (n : Fin 256) (pad : BitVec 16) (err next : Word) :
    (enter c n pad err next).reg .esp = c.reg .esp - BitVec.ofNat 32 (if n = 12 then 60 else 56) - 8 ∧
      frameOf (enter c n pad err next) = c.reg .esp - BitVec.ofNat 32 (if n = 12 then 60 else 56) ∧
      Holds (enter c n pad err next).mem (c.reg .esp - BitVec.ofNat 32 (if n = 12 then 60 else 56))
        (savedBytes c ++ (stubBytes n err ++ (bytes32 c.eip ++ (bytes32 (pad ++ c.cs) ++ bytes32 c.eflags)))) := by
  have hlen : (stubBytes n err ++ (bytes32 c.eip ++ (bytes32 (pad ++ c.cs) ++ bytes32 c.eflags))).length =
      (if n = 12 then 12 else 8) + 12 := by
    rw [List.length_append, length_stubBytes]
    rfl
  have htotal : 36 + ((if n = 12 then 12 else 8) + 12) = if n = 12 then 60 else 56 := by
    split <;> rfl
  have hentry := run_isrEntry pushed_stub (by rw [hlen]; split <;> omega) next
  rw [hlen, htotal, ← Cpu.run_append] at hentry
  exact hentry

/-- `eflags` as the two halves that the frame takes apart. -/
theorem eflags_halves (w : Word) : w = w.extractLsb' 16 16 ++ w.extractLsb' 0 16 := by
  rw [BitVec.extractLsb'_append_extractLsb'_eq_extractLsb' (show 16 = 0 + 16 from rfl)]
  exact BitVec.extractLsb'_eq_self.symm

/-- Where the stub fits the vector, every field but `eflag` shows the interrupted state, and `eflag` shows the lower half of `eflags` above the bits that fill up `cs`. -/
theorem readFrame_enter (c : Cpu) (pad : BitVec 16) (err next : Word) (hn : n ≠ 12) :
    let f := readFrame (enter c n pad err next).mem (frameOf (enter c n pad err next))
    (f.ds = c.seg .ds ∧ f.es = c.seg .es ∧ f.fs = c.seg .fs ∧ f.gs = c.seg .gs) ∧
      (f.eax = c.reg .eax ∧ f.ebx = c.reg .ebx ∧ f.ecx = c.reg .ecx ∧ f.edx = c.reg .edx ∧ f.esi = c.reg .esi ∧
        f.edi = c.reg .edi ∧ f.ebp = c.reg .ebp) ∧
      f.vecNo = BitVec.ofNat 32 n ∧ f.errorCode = (if pushesErrorCode n then err else 0) ∧ f.eip = c.eip ∧
      f.cs = c.cs ∧ f.eflag = c.eflags.extractLsb' 0 16 ++ pad := by
  obtain ⟨-, hframe, hholds⟩ := enter_spec c n pad err next
  rw [if_neg hn] at hframe hholds
  rw [hframe]
  rw [stubBytes_of_ne hn, List.append_assoc, eflags_halves c.eflags] at hholds
  rw [← List.append_nil (bytes32 (c.eflags.extractLsb' 16 16 ++ c.eflags.extractLsb' 0 16))] at hholds
  exact readFrame_eq hholds

/-- The stack after `generic_isr`. -/
theorem Unchanged.holds (h : Unchanged c (enter c n pad err next) c') :
    c'.reg .esp + 4 = c.reg .esp - BitVec.ofNat 32 (if n = 12 then 60 else 56) ∧
      Holds c'.mem (c'.reg .esp + 4)
        (savedBytes c ++ (stubBytes n err ++ (bytes32 c.eip ++ (bytes32 (pad ++ c.cs) ++ bytes32 c.eflags)))) := by
  obtain ⟨hesp, hframe, hholds⟩ := enter_spec c n pad err next
  have hmem := h.mem
  rw [hframe] at hmem
  have hback : c'.reg .esp + 4 = c.reg .esp - BitVec.ofNat 32 (if n = 12 then 60 else 56) := by
    rw [h.esp, hesp]
    bv_omega
  have hlen : (savedBytes c ++ (stubBytes n err ++ (bytes32 c.eip ++ (bytes32 (pad ++ c.cs) ++ bytes32 c.eflags)))).length =
      if n = 12 then 60 else 56 := by
    rw [List.length_append, List.length_append, length_stubBytes]
    split <;> rfl
  have hsize : (c.reg .esp - (c.reg .esp - BitVec.ofNat 32 (if n = 12 then 60 else 56))).toNat =
      if n = 12 then 60 else 56 := by
    split <;> bv_omega
  refine ⟨hback, hback ▸ hholds.congr (fun a ha => hmem a ?_) ?_⟩
  · rw [hlen] at ha
    rw [BitVec.lt_def, hsize]
    exact ha
  · rw [hlen]
    split <;> omega

/-- Where the stub fits the vector, everything comes back. -/
theorem restores (hn : n ≠ 12) (h : Unchanged c (enter c n pad err next) c') :
    let r := c'.run isrExit
    r.reg = c.reg ∧ r.seg = c.seg ∧ r.cs = c.cs ∧ r.eip = c.eip ∧ r.eflags = c.eflags := by
  obtain ⟨hback, hholds⟩ := h.holds
  rw [if_neg hn] at hback
  rw [stubBytes_of_ne hn, List.append_assoc, ← List.append_nil (bytes32 c.eflags)] at hholds
  obtain ⟨hreg, hesp, hseg, heip, hcs, heflags⟩ := run_isrExit hholds
  refine ⟨funext fun r => ?_, hseg, hcs.trans ?_, heip, heflags⟩
  · by_cases hr : r = .esp
    · subst hr
      rw [hesp, hback]
      exact BitVec.sub_add_cancel _ _
    · exact hreg r hr
  · exact (BitVec.extractLsb'_append_eq_of_add_le (Nat.le_refl _)).trans BitVec.extractLsb'_eq_self

/-- For vector 12 `iret` takes the error code of the processor for `eip`, and leaves a word behind. -/
theorem esp_twelve (h : Unchanged c (enter c 12 pad err next) c') :
    (c'.run isrExit).reg .esp = c.reg .esp - 4 ∧ (c'.run isrExit).eip = err := by
  obtain ⟨hback, hholds⟩ := h.holds
  rw [if_pos rfl] at hback
  rw [stubBytes, if_pos rfl, List.append_assoc, List.append_assoc] at hholds
  obtain ⟨-, hesp, -, heip, -, -⟩ := run_isrExit hholds
  refine ⟨?_, heip⟩
  rw [hesp, hback]
  show c.reg .esp - 60 + 56 = _
  bv_omega

/-- A handler that does nothing. -/
theorem unchanged_refl (c e : Cpu) : Unchanged c e (e.setReg .esp (e.reg .esp + 4)) where
  esp := by
    show Function.update e.reg .esp (e.reg .esp + 4) .esp = _
    rw [Function.update_self]
  mem := fun _ _ => rfl

theorem not_transparent_twelve : ¬Transparent c 12 pad err next := by
  intro h
  have hreg := congrFun (h.restores _ (unchanged_refl _ _)).1 .esp
  rw [(esp_twelve (unchanged_refl _ _)).1] at hreg
  bv_omega

theorem eflags_eq_iff (w : Word) (pad : BitVec 16) : w.extractLsb' 0 16 ++ pad = w ↔ w = pad ++ pad := by
  have hhalves := eflags_halves w
  generalize w.extractLsb' 16 16 = high at hhalves
  generalize w.extractLsb' 0 16 = low at hhalves ⊢
  rw [hhalves, ByteStack.append_inj, ByteStack.append_inj]
  constructor
  · rintro ⟨rfl, rfl⟩
    exact ⟨rfl, rfl⟩
  · rintro ⟨rfl, rfl⟩
    exact ⟨rfl, rfl⟩

theorem Transparent.condition (h : Transparent c n pad err next) : n ≠ 12 ∧ c.eflags = pad ++ pad := by
  have hn : n ≠ 12 := by
    intro hn
    subst hn
    exact not_transparent_twelve h
  obtain ⟨-, -, -, -, -, -, heflag⟩ := readFrame_enter c pad err next hn
  exact ⟨hn, (eflags_eq_iff _ _).mp (heflag.symm.trans h.reads.2.2.2.2.2.1)⟩

theorem transparent_iff : Transparent c n pad err next ↔ n ≠ 12 ∧ c.eflags = pad ++ pad := by
  refine ⟨Transparent.condition, fun ⟨hn, heflags⟩ => ⟨?_, fun _ h => restores hn h⟩⟩
  obtain ⟨hsegs, hregs, hvec, herr, heip, hcs, heflag⟩ :=
    readFrame_enter c pad err next hn
  exact ⟨hvec, hregs, hsegs, heip, hcs, heflag.trans ((eflags_eq_iff _ _).mpr heflags),
    fun hcode => herr.trans (if_pos hcode)⟩

/-- Bit 1 of `eflags` is always set, and bit 17 is that of virtual-8086 mode, which the kernel never enters: whatever fills up `cs`, the frame shows other flags. -/
theorem not_transparent_of_flags (hset : c.eflags.getLsbD 1 = true) (hvm : c.eflags.getLsbD 17 = false) :
    ¬Transparent c n pad err next := by
  intro h
  obtain ⟨-, heflags⟩ := h.condition
  rw [heflags, BitVec.getLsbD_append, if_pos (by decide)] at hset
  rw [heflags, BitVec.getLsbD_append, if_neg (by decide)] at hvm
  exact Bool.noConfusion (hset.symm.trans hvm)

/-- In the kernel, with interrupts enabled. -/
def interrupted : Cpu where
  reg := fun _ => 0x9000
  seg := fun _ => selKdseg
  cs := selKcseg
  eip := 0x100000
  eflags := 0x202
  mem := fun _ => 0

/-- The return of a handler that does nothing. -/
def handled (n : Fin 256) : Cpu :=
  let e := enter interrupted n 0 0 0x101000
  e.setReg .esp (e.reg .esp + 4)

/-- A stack fault comes back to the error code 0 instead of `eip`, and a tick of the timer shows its handler the flags 0x02020000. -/
theorem not_transparent_interrupted :
    (¬Transparent interrupted 12 0 0 0x101000 ∧ ((handled 12).run isrExit).eip = 0) ∧
      ¬Transparent interrupted 32 0 0 0x101000 ∧
      (readFrame (handled 32).mem (frameOf (enter interrupted 32 0 0 0x101000))).eflag = 0x02020000 := by
  refine ⟨⟨not_transparent_twelve, (esp_twelve (unchanged_refl interrupted _)).2⟩, ?_, ?_⟩
  · exact not_transparent_of_flags (by decide) (by decide)
  · have hframe := readFrame_enter (n := 32) interrupted 0 0 0x101000 (by decide)
    obtain ⟨-, -, -, -, -, -, heflag⟩ := hframe
    refine Eq.trans (b := interrupted.eflags.extractLsb' 0 16 ++ (0 : BitVec 16)) heflag ?_
    decide

end I386Kernel.Interrupt
