import I386Kernel.Boot.Loader

/-!
# What the loader shows and where it stops

Every character goes to the screen and, as long as the serial port takes them, to the serial port. A drive is judged by one sector alone, the same of every drive: its first, unless the BIOS has left something in the upper half of `ebx`. The scan goes on from a drive whose table has no bootable kernel partition, but it gives up at a sector whose last word is below the signature: the comparison then leaves the carry set, which `inc` does not change, and `jnc` takes it for the end of the drives.
-/

namespace I386Kernel.Loader

open ByteStack (Byte Memory load16 load32 store)

variable {b : Bios} {s : State}

/-! ## Output -/

@[simp] theorem mem_putOne (s : State) (al : Byte) : (putOne b s al).mem = s.mem := by
  rw [putOne]
  split <;> rfl

@[simp] theorem mem_putc (s : State) (al : Byte) : (putc b s al).mem = s.mem := by
  rw [putc]
  split <;> simp

@[simp] theorem mem_puts (s : State) (str : List Byte) : (puts b s str).mem = s.mem := by
  induction str generalizing s with
  | nil => rfl
  | cons al str ih => exact (ih _).trans (mem_putc s al)

/-- The characters on the screen for one character put out. -/
def shown (al : Byte) : List Byte := if al = chr '\r' then [chr '\r', chr '\n'] else [al]

theorem screen_putOne (s : State) (al : Byte) : (putOne b s al).screen = s.screen ++ [al] := by
  rw [putOne]
  split <;> rfl

theorem screen_putc (s : State) (al : Byte) : (putc b s al).screen = s.screen ++ shown al := by
  rw [putc, shown]
  split
  · rename_i hcr
    rw [screen_putOne, screen_putOne, hcr, List.append_assoc]
    rfl
  · exact screen_putOne s al

theorem screen_puts (s : State) (str : List Byte) : (puts b s str).screen = s.screen ++ str.flatMap shown := by
  induction str generalizing s with
  | nil => simp [puts]
  | cons al str ih =>
      have hfirst : puts b s (al :: str) = puts b (putc b s al) str := rfl
      rw [hfirst, ih, screen_putc, List.flatMap_cons, List.append_assoc]

/-- How many of the first `n` transmissions succeed before one fails. -/
def accepted (b : Bios) (n : Nat) : Nat := ((List.range n).takeWhile b.transmits).length

/-- The serial port has been given what is on the screen, to the first character that could not be transmitted. -/
structure LineLaw (b : Bios) (s : State) : Prop where
  line : s.line = s.screen.take (accepted b s.screen.length + 1)
  patched : s.patched = decide (accepted b s.screen.length < s.screen.length)

theorem accepted_le (b : Bios) (n : Nat) : accepted b n ≤ n := by
  have hle := (List.takeWhile_prefix (l := List.range n) b.transmits).length_le
  rwa [List.length_range] at hle

theorem accepted_succ (b : Bios) (n : Nat) :
    accepted b (n + 1) = if accepted b n = n ∧ b.transmits n = true then n + 1 else accepted b n := by
  rw [accepted, List.range_succ, List.takeWhile_append]
  change (if accepted b n = _ then _ else _ : List Nat).length = _
  rw [List.length_range]
  by_cases h : accepted b n = n
  · rw [if_pos h, List.length_append, List.length_range]
    by_cases hlast : b.transmits n = true
    · simp [h, hlast]
    · simp [h, hlast]
  · rw [if_neg h, if_neg (fun hand => h hand.1)]
    rfl

theorem LineLaw.putOne (h : LineLaw b s) (al : Byte) : LineLaw b (putOne b s al) := by
  have hle := accepted_le b s.screen.length
  have hscreen := screen_putOne (b := b) s al
  have hlen : (Loader.putOne b s al).screen.length = s.screen.length + 1 := by rw [hscreen, List.length_append]; rfl
  have hsucc := accepted_succ b s.screen.length
  by_cases hpatched : s.patched = true
  · -- nothing more is given to the port
    have hlt : accepted b s.screen.length < s.screen.length := by
      rw [h.patched] at hpatched
      exact of_decide_eq_true hpatched
    have hstop : accepted b (s.screen.length + 1) = accepted b s.screen.length := by
      rw [hsucc, if_neg (fun hand => Nat.ne_of_lt hlt hand.1)]
    have hline : (Loader.putOne b s al).line = s.line := by rw [Loader.putOne, if_pos hpatched]
    have hstill : (Loader.putOne b s al).patched = true := by rw [Loader.putOne, if_pos hpatched, ← hpatched]
    constructor
    · rw [hline, hlen, hstop, hscreen, List.take_append_of_le_length (by omega)]
      exact h.line
    · rw [hstill, hlen, hstop]
      exact (decide_eq_true (Nat.lt_succ_of_lt hlt)).symm
  · have hfull : accepted b s.screen.length = s.screen.length := by
      rw [h.patched, decide_eq_true_eq] at hpatched
      omega
    have hsame : s.line = s.screen := by
      rw [h.line, List.take_of_length_le]
      omega
    have hput : Loader.putOne b s al = { s with
        screen := s.screen ++ [al], line := s.line ++ [al], patched := !b.transmits s.line.length } := by
      rw [Loader.putOne, if_neg hpatched]
    constructor
    · rw [hput]
      change s.line ++ [al] = List.take (accepted b (s.screen ++ [al]).length + 1) (s.screen ++ [al])
      rw [List.take_of_length_le, hsame]
      rw [List.length_append, List.length_singleton, hsucc]
      split <;> omega
    · rw [hput]
      change (!b.transmits s.line.length) = decide (accepted b (s.screen ++ [al]).length < (s.screen ++ [al]).length)
      rw [List.length_append, List.length_singleton, hsucc, hsame]
      by_cases hok : b.transmits s.screen.length = true
      · simp [hok, hfull]
      · simp [hok, hfull]

theorem LineLaw.putc (h : LineLaw b s) (al : Byte) : LineLaw b (putc b s al) := by
  rw [Loader.putc]
  split
  · exact (h.putOne al).putOne _
  · exact h.putOne al

theorem LineLaw.puts (h : LineLaw b s) (str : List Byte) : LineLaw b (puts b s str) := by
  induction str generalizing s with
  | nil => exact h
  | cons al str ih => exact ih (h.putc al)

/-- Memory plays no part in it. -/
theorem LineLaw.withMem (h : LineLaw b s) (m : Memory) : LineLaw b { s with mem := m } := ⟨h.line, h.patched⟩

/-! ## The verdict on a drive -/

def Sector.byte (sec : Sector) (off : Nat) : Byte := sec.val.getD off 0

def signature (sec : Sector) : BitVec 16 := sec.byte 511 ++ sec.byte 510

/-- Entry `j` of the partition table is bootable and of the kernel's type. -/
def Bootable (sec : Sector) (j : Nat) : Prop := sec.byte (446 + 16 * j + 4) = 0x20 ∧ sec.byte (446 + 16 * j) = 0x80

instance (sec : Sector) : DecidablePred (Bootable sec) := fun _ => inferInstanceAs (Decidable (_ ∧ _))

inductive Verdict where
  | giveUp
  | pass
  | boot (j : Nat)
deriving DecidableEq

/-- What the answer to the read of a drive decides. -/
def verdict : Option Sector → Verdict
  | none => .giveUp
  | some sec =>
      if signature sec = 0xaa55 then
        match (List.range 4).find? fun j => Bootable sec j with
        | some j => .boot j
        | none => .pass
      else if signature sec < 0xaa55 then .giveUp
      else .pass

/-- The scan goes on from a drive with this answer. -/
def Passed (answer : Option Sector) : Prop :=
  ∃ sec, answer = some sec ∧ (0xaa55 < signature sec ∨ signature sec = 0xaa55 ∧ ∀ j, j < 4 → ¬ Bootable sec j)

/-- Entry `j` is the first bootable one of the kernel's type in a table with a signature. -/
def Boots (answer : Option Sector) (j : Nat) : Prop :=
  ∃ sec, answer = some sec ∧ signature sec = 0xaa55 ∧ j < 4 ∧ Bootable sec j ∧ ∀ i, i < j → ¬ Bootable sec i

/-- The offset of entry `j`. -/
def entryOff (j : Nat) : BitVec 16 := BitVec.ofNat 16 (446 + 16 * j)

/-- The sector lies at 0x20000. -/
def HoldsSector (m : Memory) (sec : Sector) : Prop :=
  ∀ off : BitVec 16, off.toNat < 512 → m (phys kernSeg off) = sec.byte off.toNat

theorem find_range_eq_some {p : Nat → Prop} [DecidablePred p] {n j : Nat} :
    ((List.range n).find? fun j => p j) = some j ↔ j < n ∧ p j ∧ ∀ i, i < j → ¬ p i := by
  rw [List.find?_range_eq_some]
  simp only [decide_eq_true_eq, List.mem_range, Bool.not_eq_true', decide_eq_false_iff_not]
  tauto

theorem verdict_eq_pass_iff (answer : Option Sector) : verdict answer = .pass ↔ Passed answer := by
  cases answer with
  | none =>
      refine iff_of_false (by simp [verdict]) ?_
      rintro ⟨sec, h, -⟩
      cases h
  | some sec =>
      rw [verdict, Passed]
      simp only [Option.some.injEq, exists_eq_left']
      by_cases heq : signature sec = 0xaa55
      · rw [if_pos heq, heq]
        cases hfind : (List.range 4).find? fun j => Bootable sec j with
        | some j =>
            obtain ⟨hj, hboot, -⟩ := find_range_eq_some.mp hfind
            refine iff_of_false (by simp) ?_
            rintro (hlt | ⟨-, hnone⟩)
            · exact absurd hlt (BitVec.lt_irrefl _)
            · exact hnone j hj hboot
        | none =>
            refine iff_of_true rfl (Or.inr ⟨rfl, fun j hj => ?_⟩)
            simpa using List.find?_eq_none.mp hfind j (List.mem_range.mpr hj)
      · rw [if_neg heq]
        by_cases hlt : signature sec < 0xaa55
        · rw [if_pos hlt]
          refine iff_of_false (by simp) ?_
          rintro (hgt | ⟨hsig, -⟩)
          · exact absurd (BitVec.lt_trans hlt hgt) (BitVec.lt_irrefl _)
          · exact heq hsig
        · rw [if_neg hlt]
          refine iff_of_true rfl (Or.inl ?_)
          exact BitVec.lt_of_le_ne (BitVec.not_lt.mp hlt) (Ne.symm heq)

theorem verdict_eq_boot_iff (answer : Option Sector) (j : Nat) : verdict answer = .boot j ↔ Boots answer j := by
  cases answer with
  | none =>
      refine iff_of_false (by simp [verdict]) ?_
      rintro ⟨sec, h, -⟩
      cases h
  | some sec =>
      rw [verdict, Boots]
      simp only [Option.some.injEq, exists_eq_left']
      by_cases heq : signature sec = 0xaa55
      · rw [if_pos heq]
        simp only [heq, true_and, ← find_range_eq_some]
        cases (List.range 4).find? fun j => Bootable sec j with
        | none => simp
        | some i => simp
      · rw [if_neg heq]
        refine iff_of_false ?_ (fun h => heq h.1)
        split <;> simp

theorem toNat_phys_sub (off : BitVec 16) : (phys kernSeg off - phys kernSeg 0).toNat = off.toNat := by
  have hoff := off.isLt
  simp only [phys, kernSeg]
  bv_omega

theorem holdsSector_store (m : Memory) (sec : Sector) : HoldsSector (store m (phys kernSeg 0) sec.val) sec := by
  intro off hoff
  have hlen : off.toNat < sec.val.length := Nat.lt_of_lt_of_eq hoff sec.property.symm
  rw [store, toNat_phys_sub, Sector.byte, List.getD_eq_getElem?_getD, List.getElem?_eq_getElem hlen]
  rfl

/-- From `s` to `s'` memory has become `m`, and the law of the serial line has been kept. -/
structure Shows (b : Bios) (s s' : State) (m : Memory) : Prop where
  mem : s'.mem = m
  line : LineLaw b s → LineLaw b s'

theorem Shows.putc {m : Memory} {s' : State} (h : Shows b s s' m) (al : Byte) : Shows b s (Loader.putc b s' al) m :=
  ⟨(mem_putc s' al).trans h.mem, fun hlaw => (h.line hlaw).putc al⟩

theorem Shows.puts {m : Memory} {s' : State} (h : Shows b s s' m) (str : List Byte) :
    Shows b s (Loader.puts b s' str) m :=
  ⟨(mem_puts s' str).trans h.mem, fun hlaw => (h.line hlaw).puts str⟩

theorem Shows.refl (s : State) : Shows b s s s.mem := ⟨rfl, fun hlaw => hlaw⟩

/-- The entries of the table are tried in order. -/
theorem checkPartition_spec {sec : Sector} {n j : Nat} (hj : j + n = 4) (hmem : HoldsSector s.mem sec) :
    (checkPartition b n (entryOff j) (chr '1' + BitVec.ofNat 8 j) s).1 =
        ((List.range' j n).find? fun j => Bootable sec j).map entryOff ∧
      Shows b s (checkPartition b n (entryOff j) (chr '1' + BitVec.ofNat 8 j) s).2 s.mem := by
  induction n generalizing j s with
  | zero => exact ⟨rfl, .refl s⟩
  | succ n ih =>
      have hput := (Shows.refl (b := b) s).putc (chr '1' + BitVec.ofNat 8 j)
      have hsec : HoldsSector (putc b s (chr '1' + BitVec.ofNat 8 j)).mem sec := by rwa [hput.mem]
      have hoff : (entryOff j).toNat = 446 + 16 * j := Nat.mod_eq_of_lt (by omega)
      have hoff₄ : (entryOff j + 4).toNat = 446 + 16 * j + 4 := by
        rw [BitVec.toNat_add, hoff]
        exact Nat.mod_eq_of_lt (by change 446 + 16 * j + 4 < _; omega)
      have hentry : ((putc b s (chr '1' + BitVec.ofNat 8 j)).mem (phys kernSeg (entryOff j + 4)) = 0x20 ∧
          (putc b s (chr '1' + BitVec.ofNat 8 j)).mem (phys kernSeg (entryOff j)) = 0x80) ↔ Bootable sec j := by
        rw [hsec _ (by omega), hsec _ (by omega), hoff, hoff₄]
        rfl
      rw [checkPartition, List.range'_succ]
      by_cases hboot : Bootable sec j
      · simp only [if_pos (hentry.mpr hboot), List.find?_cons_of_pos (p := fun j => decide (Bootable sec j))
          (decide_eq_true hboot)]
        exact ⟨rfl, hput⟩
      · have hal : chr '1' + BitVec.ofNat 8 j + 1 = chr '1' + BitVec.ofNat 8 (j + 1) := by
          rw [BitVec.ofNat_add, BitVec.add_assoc]
          rfl
        have hnext : entryOff j + 16 = entryOff (j + 1) := by
          apply BitVec.eq_of_toNat_eq
          rw [BitVec.toNat_add, hoff, entryOff, BitVec.toNat_ofNat]
          change (446 + 16 * j + 16) % 2 ^ 16 = _
          congr 1
        have hlast : (chr '1' + BitVec.ofNat 8 j + 1 ≤ chr '4') ↔ j < 3 := by
          have : j = 0 ∨ j = 1 ∨ j = 2 ∨ j = 3 := by omega
          rcases this with rfl | rfl | rfl | rfl <;> decide
        simp only [if_neg (mt hentry.mp hboot), List.find?_cons_of_neg (p := fun j => decide (Bootable sec j))
          (mt of_decide_eq_true hboot)]
        by_cases hmore : j < 3
        · rw [if_pos (hlast.mpr hmore), hal, hnext]
          obtain ⟨hfound, hshows⟩ := ih (j := j + 1) (by omega) hsec
          exact ⟨hfound, hshows.mem.trans hput.mem, fun hlaw => hshows.line (hput.line hlaw)⟩
        · rw [if_neg (mt hlast.mp hmore)]
          obtain rfl : n = 0 := by omega
          exact ⟨rfl, hput⟩

/-- From `s` to `s'` memory has changed in the sector at 0x20000 only. -/
structure Scanned (b : Bios) (s s' : State) : Prop where
  line : LineLaw b s → LineLaw b s'
  frame : ∀ x, 512 ≤ (x - phys kernSeg 0).toNat → s'.mem x = s.mem x

/-- The sector at 0x20000 is what a drive has answered. -/
structure Examined (b : Bios) (s s' : State) (answer : Option Sector) : Prop extends Scanned b s s' where
  sector : ∀ sec ∈ answer, HoldsSector s'.mem sec

theorem Scanned.trans {s₁ s₂ : State} (h : Scanned b s s₁) (h' : Scanned b s₁ s₂) : Scanned b s s₂ :=
  ⟨fun hlaw => h'.line (h.line hlaw), fun x hx => (h'.frame x hx).trans (h.frame x hx)⟩

theorem Shows.examined {s' : State} {sec : Sector} (h : Shows b s s' (store s.mem (phys kernSeg 0) sec.val)) :
    Examined b s s' (some sec) where
  line := h.line
  sector sec' hsec' := by
    cases hsec'
    rw [h.mem]
    exact holdsSector_store s.mem sec
  frame x hx := by
    rw [h.mem, store, List.getElem?_eq_none (by rw [sec.property]; exact hx)]
    rfl

/-- What `examine` decides on a drive that has answered. -/
def exit (sec : Sector) : Exit :=
  match verdict (some sec) with
  | .giveUp => .noSuchDrive
  | .pass => .nextDrive
  | .boot j => .loadKernel (entryOff j)

theorem examine_spec {sec : Sector} (hsec : HoldsSector s.mem sec) (dl : Byte) :
    (examine b dl s).1 = exit sec ∧ Shows b s (examine b dl s).2 s.mem := by
  have hnamed := ((Shows.refl (b := b) s).puts (text " hd")).putc (dl + (chr 'a' - 0x80))
  rw [examine]
  generalize putc b (puts b s (text " hd")) (dl + (chr 'a' - 0x80)) = s₁ at hnamed
  have hsec₁ : HoldsSector s₁.mem sec := hnamed.mem ▸ hsec
  have hsig : load16 s₁.mem (phys kernSeg 510) = signature sec := by
    have hlow := hsec₁ 510 (by decide)
    have hhigh := hsec₁ 511 (by decide)
    rw [load16, signature]
    exact congrArg₂ (· ++ ·) hhigh hlow
  rw [hsig, exit, verdict]
  by_cases heq : signature sec = 0xaa55
  · rw [if_pos heq, if_pos heq]
    obtain ⟨hfound, hshows⟩ := checkPartition_spec (b := b) (n := 4) (j := 0) rfl hsec₁
    have hstart : checkPartition b 4 446 (chr '1') s₁ =
        checkPartition b 4 (entryOff 0) (chr '1' + BitVec.ofNat 8 0) s₁ := by
      rw [BitVec.add_zero]
      rfl
    rw [hstart]
    rw [← List.range_eq_range'] at hfound
    generalize checkPartition b 4 (entryOff 0) (chr '1' + BitVec.ofNat 8 0) s₁ = r at hfound hshows
    obtain ⟨si, s₂⟩ := r
    have hkept : Shows b s s₂ s.mem := ⟨hshows.mem.trans hnamed.mem, fun hlaw => hshows.line (hnamed.line hlaw)⟩
    change si = _ at hfound
    subst hfound
    cases (List.range 4).find? fun j => Bootable sec j with
    | none => exact ⟨rfl, hkept⟩
    | some j => exact ⟨rfl, hkept⟩
  · rw [if_neg heq, if_neg heq]
    by_cases hlt : signature sec < 0xaa55
    · rw [if_pos hlt, if_pos hlt]
      exact ⟨rfl, hnamed⟩
    · rw [if_neg hlt, if_neg hlt]
      exact ⟨rfl, hnamed⟩

theorem xorBx_xorBx (ebx : Word) : xorBx (xorBx ebx) = xorBx ebx := by
  rw [xorBx, xorBx, ByteStack.extractLsb'_append_high]

/-- One drive. -/
theorem readMbr_succ (n : Nat) (dl : Byte) (ebx : Word) (s : State) :
    ∃ s', Examined b s s' (b.read dl (xorBx ebx)) ∧
      readMbr b (n + 1) dl ebx s = match verdict (b.read dl (xorBx ebx)) with
        | .giveUp => some (.notFound s')
        | .pass => readMbr b n (dl + 1) (xorBx ebx) s'
        | .boot j => some (loadKernel b dl (entryOff j) s') := by
  rw [readMbr, readSector]
  cases hread : b.read dl (xorBx ebx) with
  | none =>
      refine ⟨puts b s (text "\rNot found\r"), ⟨⟨fun hlaw => hlaw.puts _, fun x _ => ?_⟩, fun sec hsec => ?_⟩, rfl⟩
      · rw [mem_puts]
      · cases hsec
  | some sec =>
      obtain ⟨hexit, hshows⟩ := examine_spec (b := b) (s := { s with mem := store s.mem (phys kernSeg 0) sec.val })
        (holdsSector_store s.mem sec) dl
      simp only [Option.map_some]
      generalize examine b dl { s with mem := store s.mem (phys kernSeg 0) sec.val } = r at hexit hshows
      obtain ⟨x, s₁⟩ := r
      have hstored : Shows b s s₁ (store s.mem (phys kernSeg 0) sec.val) :=
        ⟨hshows.mem, fun hlaw => hshows.line (hlaw.withMem _)⟩
      change x = _ at hexit
      subst hexit
      rw [exit]
      cases verdict (some sec) with
      | giveUp => exact ⟨_, (hstored.puts (text "\rNot found\r")).examined, rfl⟩
      | pass => exact ⟨s₁, hstored.examined, rfl⟩
      | boot j => exact ⟨s₁, hstored.examined, rfl⟩

/-! ## The scan -/

/-- The sector that hard disk `k` is judged by. -/
def mbr (b : Bios) (ebx : Word) (k : Nat) : Option Sector := b.read (0x80 + BitVec.ofNat 8 k) (xorBx ebx)

/-- The drives before hard disk `k` are passed over, and hard disk `k` is not. -/
structure StopsAt (b : Bios) (ebx : Word) (k : Nat) : Prop where
  passed : ∀ i, i < k → verdict (mbr b ebx i) = .pass
  stops : verdict (mbr b ebx k) ≠ .pass

/-- What is in `ebx` after `k` drives still names the same sector. -/
theorem readMbr_passes {k : Nat} {ebx : Word} (hpassed : ∀ i, i < k → verdict (mbr b ebx i) = .pass) (s : State) (n : Nat) :
    ∃ s' ebx', xorBx ebx' = xorBx ebx ∧ Scanned b s s' ∧
      readMbr b (n + k) 0x80 ebx s = readMbr b n (0x80 + BitVec.ofNat 8 k) ebx' s' := by
  induction k generalizing n with
  | zero =>
      refine ⟨s, ebx, rfl, ⟨fun hlaw => hlaw, fun _ _ => rfl⟩, ?_⟩
      rw [BitVec.add_zero]
      rfl
  | succ k ih =>
      obtain ⟨s₁, ebx₁, hebx, hscan, heq⟩ := ih (fun i hi => hpassed i (Nat.lt_succ_of_lt hi)) (n + 1)
      obtain ⟨s₂, hexam, hstep⟩ := readMbr_succ n (0x80 + BitVec.ofNat 8 k) ebx₁ s₁
      have hverdict : verdict (b.read (0x80 + BitVec.ofNat 8 k) (xorBx ebx)) = .pass := hpassed k (Nat.lt_succ_self k)
      rw [hebx, hverdict] at hstep
      simp only at hstep
      refine ⟨s₂, xorBx ebx, xorBx_xorBx ebx, hscan.trans hexam.toScanned, ?_⟩
      have hnext : (0x80 : Byte) + BitVec.ofNat 8 k + 1 = 0x80 + BitVec.ofNat 8 (k + 1) := by
        rw [BitVec.ofNat_add, BitVec.add_assoc]
        rfl
      rw [← hnext, ← hstep, ← heq, Nat.add_right_comm, Nat.add_assoc]

/-- The scan decides at the first drive it does not pass over. -/
theorem readMbr_stopsAt {k drives : Nat} {ebx : Word} (hstop : StopsAt b ebx k) (hk : k < drives) (s : State) :
    ∃ s', Examined b s s' (mbr b ebx k) ∧
      (verdict (mbr b ebx k) = .giveUp → readMbr b drives 0x80 ebx s = some (.notFound s')) ∧
      ∀ j, verdict (mbr b ebx k) = .boot j →
        readMbr b drives 0x80 ebx s = some (loadKernel b (0x80 + BitVec.ofNat 8 k) (entryOff j) s') := by
  obtain ⟨n, rfl⟩ : ∃ n, drives = n + 1 + k := ⟨drives - (k + 1), by omega⟩
  obtain ⟨s₁, ebx₁, hebx, hscan, heq⟩ := readMbr_passes hstop.passed s (n + 1)
  obtain ⟨s₂, hexam, hstep⟩ := readMbr_succ n (0x80 + BitVec.ofNat 8 k) ebx₁ s₁
  rw [hebx] at hexam hstep
  refine ⟨s₂, ⟨hscan.trans hexam.toScanned, hexam.sector⟩, fun hverdict => ?_, fun j hverdict => ?_⟩
  · rw [mbr] at hverdict
    rw [heq, hstep, hverdict]
  · rw [mbr] at hverdict
    rw [heq, hstep, hverdict]

/-! ## The whole run -/

theorem lineLaw_start (b : Bios) (mem : Memory) : LineLaw b ⟨mem, [], [], false⟩ := ⟨rfl, rfl⟩

theorem LineLaw.loadKernel (h : LineLaw b s) (dl : Byte) (si : BitVec 16) : LineLaw b (loadKernel b dl si s).state := by
  rw [Loader.loadKernel]
  have hput := h.puts (text "\rLoading")
  generalize Loader.puts b s (text "\rLoading") = s₁ at hput
  generalize (if load32 s₁.mem (phys kernSeg (si + 12)) ≤ 1024 then load32 s₁.mem (phys kernSeg (si + 12)) else 1024 : Word) = ecx
  have hstep : ∀ l : Load, LineLaw b l.state → CountedLoop.Ends (fun l => LineLaw b l.state) (fun e => LineLaw b e) (nextSector b dl l) := by
    intro l hl
    rw [nextSector, readSector]
    cases b.read dl l.ebx with
    | none => exact hl
    | some sec =>
        change LineLaw b (if _ then _ else _)
        split
        · exact (hl.withMem _).puts _
        · exact hl.withMem _
  have hloop := CountedLoop.loop_ends (c := ecx.setWidth 16) (P := fun _ l => LineLaw b l.state)
    (Q := fun _ e => LineLaw b e) (s := ⟨kernSeg, load32 s₁.mem (phys kernSeg (si + 8)), s₁⟩) hput fun _ l _ hl => hstep l hl
  simp only
  generalize CountedLoop.loop (nextSector b dl) (ecx.setWidth 16) _ = r at hloop
  cases r with
  | error e =>
      obtain ⟨_, _, he⟩ := hloop
      exact he.puts _
  | ok l => exact LineLaw.puts hloop _

theorem LineLaw.readMbr {n : Nat} {dl : Byte} {ebx : Word} {out : Outcome} (h : LineLaw b s)
    (hout : readMbr b n dl ebx s = some out) : LineLaw b out.state := by
  induction n generalizing dl ebx s with
  | zero => cases hout
  | succ n ih =>
      obtain ⟨s', hexam, hstep⟩ := readMbr_succ (b := b) n dl ebx s
      rw [hstep] at hout
      have hlaw := hexam.line h
      cases hverdict : verdict (b.read dl (xorBx ebx)) with
      | giveUp =>
          rw [hverdict] at hout
          cases hout
          exact hlaw
      | pass =>
          rw [hverdict] at hout
          exact ih hlaw hout
      | boot j =>
          rw [hverdict] at hout
          cases hout
          exact hlaw.loadKernel dl (entryOff j)

/-- However the loader ends, the serial port has been given the text of the screen to the first failure. -/
theorem lineLaw_loader {drives : Nat} {ebx : Word} {mem : Memory} {out : Outcome} (h : loader b drives ebx mem = some out) :
    LineLaw b out.state :=
  ((lineLaw_start b mem).puts (text "Scanning")).readMbr h

/-- A machine without drives whose serial port fails at the third character. -/
theorem lineLaw_loader_noDrive : LineLaw ⟨fun _ _ => none, fun n => n ≠ 2⟩
    (puts ⟨fun _ _ => none, fun n => n ≠ 2⟩ (puts ⟨fun _ _ => none, fun n => n ≠ 2⟩ ⟨fun _ => 0, [], [], false⟩ (text "Scanning"))
      (text "\rNot found\r")) :=
  @lineLaw_loader _ 1 0 (fun _ => 0) (.notFound _) rfl

/-- The loader returns once a drive is not passed over, and it is that drive that decides. -/
theorem loader_scan (b : Bios) (drives : Nat) (ebx : Word) (mem : Memory) :
    (loader b drives ebx mem = none ↔ ∀ k, k < drives → Passed (mbr b ebx k)) ∧
    ∀ k, k < drives → (∀ i, i < k → Passed (mbr b ebx i)) →
      (¬ Passed (mbr b ebx k) → (∀ j, ¬ Boots (mbr b ebx k) j) → ∃ s, loader b drives ebx mem = some (.notFound s)) ∧
      ∀ j, Boots (mbr b ebx k) j → ∃ s, Examined b (puts b ⟨mem, [], [], false⟩ (text "Scanning")) s (mbr b ebx k) ∧
        loader b drives ebx mem = some (loadKernel b (0x80 + BitVec.ofNat 8 k) (entryOff j) s) := by
  simp only [← verdict_eq_pass_iff, ← verdict_eq_boot_iff]
  have hdecides : ∀ k, k < drives → StopsAt b ebx k → ∃ s', _ := fun k hk hstop =>
    readMbr_stopsAt (b := b) hstop hk (puts b ⟨mem, [], [], false⟩ (text "Scanning"))
  constructor
  · constructor
    · intro hnone
      by_contra hstops
      push Not at hstops
      -- the first drive that is not passed over gives a result
      classical
      obtain ⟨hk, hverdict⟩ := Nat.find_spec hstops
      have hpassed : ∀ i, i < Nat.find hstops → verdict (mbr b ebx i) = .pass := by
        intro i hi
        by_contra hne
        exact Nat.find_min hstops hi ⟨Nat.lt_trans hi hk, hne⟩
      obtain ⟨s', -, hgive, hboot⟩ := hdecides _ hk ⟨hpassed, hverdict⟩
      cases hv : verdict (mbr b ebx (Nat.find hstops)) with
      | giveUp =>
          have := hgive hv
          rw [loader, this] at hnone
          cases hnone
      | pass => exact hverdict hv
      | boot j =>
          have := hboot j hv
          rw [loader, this] at hnone
          cases hnone
    · intro hpassed
      obtain ⟨s', ebx', -, -, heq⟩ := readMbr_passes (b := b) hpassed (puts b ⟨mem, [], [], false⟩ (text "Scanning")) 0
      rw [Nat.zero_add] at heq
      rw [loader, heq]
      rfl
  · intro k hk hpassed
    refine ⟨fun hne hno => ?_, fun j hboots => ?_⟩
    · obtain ⟨s', -, hgive, -⟩ := hdecides k hk ⟨hpassed, hne⟩
      cases hv : verdict (mbr b ebx k) with
      | giveUp => exact ⟨s', hgive hv⟩
      | pass => exact absurd hv hne
      | boot j => exact absurd hv (hno j)
    · obtain ⟨s', hexam, -, hboot⟩ := hdecides k hk ⟨hpassed, by rw [hboots]; simp⟩
      exact ⟨s', hexam, hboot j hboots⟩

end I386Kernel.Loader
