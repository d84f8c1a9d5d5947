import I386Kernel.Switch.SwitchRuns

/-!
# Context switches are transparent

In every run each suspended task keeps on its stack what it saved, so that a switch to it restores the registers of its call, and a task that has not run yet keeps the frames it was created with.
-/

namespace I386Kernel

open I386 (Machine Instr Reg)

/-! ## Memory -/

private theorem not_inPage {p q a : Word} (hp : p.toNat % 0x1000 = 0) (hq : q.toNat % 0x1000 = 0) (hne : p ≠ q)
    (ha : InPage p a) : ¬ InPage q a :=
  fun hqa => hne (InPage.unique hp hq ha hqa)

private theorem inPage_off {p off : Word} (hp : p.toNat % 0x1000 = 0) (hoff : off.toNat < 0x1000) :
    InPage p (p + off) := by
  have hlt := p.isLt
  rw [InPage, BitVec.toNat_add]
  omega

private theorem createMem_of_not_inPage {m : Mem} {sym : Symbols} {page proc params a : Word}
    (halign : page.toNat % 0x1000 = 0) (ha : ¬ InPage page a) : createMem m sym page proc params a = m a := by
  have hsp : a ≠ page + savedSpOffset := by
    intro heq
    rw [heq] at ha
    exact ha (inPage_off halign (by decide))
  have hzero : ¬ a - page < pageSize := by
    intro hlt
    apply ha
    have hpage := page.isLt
    rw [InPage]
    simp only [pageSize] at hlt
    bv_omega
  rw [createMem, Function.update_of_ne hsp, frames_of_not_inPage halign ha, memsetZero, if_neg hzero]

/-- The frames `task_create` builds are those `switch_to` and `switch_initial` expect. -/
private theorem holds_createMem (m : Mem) (sym : SwitchSymbols) (page proc params : Word) :
    Holds sym (createMem m sym.toSymbols page proc params) page (.fresh proc params) := by
  have hsp : page + pageSize - kernelProcStackSize - switchFrameSize = page + 0xfd8 := by
    simp only [pageSize, kernelProcStackSize, switchFrameSize]
    bv_omega
  have heip : page + pageSize - kernelProcStackSize - switchFrameSize + offEip = page + 0xfe8 := by
    simp only [pageSize, kernelProcStackSize, switchFrameSize, offEip]
    bv_omega
  have hproc : page + pageSize - kernelProcStackSize + offProc = page + 0xff4 := by
    simp only [pageSize, kernelProcStackSize, offProc]
    bv_omega
  have hret : page + pageSize - kernelProcStackSize + offKernelTaskRetEip = page + 0xff8 := by
    simp only [pageSize, kernelProcStackSize, offKernelTaskRetEip]
    bv_omega
  have hparams : page + pageSize - kernelProcStackSize + offParams = page + 0xffc := by
    simp only [pageSize, kernelProcStackSize, offParams]
    bv_omega
  have hne : ∀ off off' : Word, off ≠ off' → page + off ≠ page + off' := by
    intro off off' h heq
    apply h
    bv_omega
  rw [createMem, frames, heip, hproc, hret, hparams, hsp, savedSpOffset]
  refine ⟨Function.update_self .., ?_, ?_, ?_, ?_⟩
  · rw [Function.update_of_ne (hne _ _ (by decide)), Function.update_self]
  · rw [Function.update_of_ne (hne _ _ (by decide)), Function.update_of_ne (hne _ _ (by decide)),
      Function.update_self]
  · rw [Function.update_of_ne (hne _ _ (by decide)), Function.update_of_ne (hne _ _ (by decide)),
      Function.update_of_ne (hne _ _ (by decide)), Function.update_self]
  · rw [Function.update_of_ne (hne _ _ (by decide)), Function.update_of_ne (hne _ _ (by decide)),
      Function.update_of_ne (hne _ _ (by decide)), Function.update_of_ne (hne _ _ (by decide)),
      Function.update_self]

private theorem savedMem_of_not_inPage {M : Machine} {ra curr a : Word} (halign : curr.toNat % 0x1000 = 0)
    (hlow : curr.toNat + taskStructSize.toNat + 20 ≤ (M.reg .esp).toNat)
    (hhigh : (M.reg .esp).toNat + 8 ≤ curr.toNat + 0x1000) (ha : ¬ InPage curr a) :
    savedMem M ra curr a = M.mem a := by
  have hsp : a ≠ curr + savedSpOffset := by
    intro heq
    rw [heq] at ha
    exact ha (inPage_off halign (by decide))
  have hpushed : ∀ off : Word, 0 < off.toNat → off.toNat ≤ 20 → a ≠ M.reg .esp - off := by
    rintro off hpos hoff rfl
    exact ha (protected_below hlow hhigh hpos hoff).1
  rw [savedMem, Function.update_of_ne hsp, frameMem, Function.update_of_ne (hpushed _ (by decide) (by decide)),
    Function.update_of_ne (hpushed _ (by decide) (by decide)), Function.update_of_ne (hpushed _ (by decide) (by decide)),
    Function.update_of_ne (hpushed _ (by decide) (by decide)), Function.update_of_ne (hpushed _ (by decide) (by decide))]

private theorem sub_ne_sub {e off off' : Word} (h : off ≠ off') : e - off ≠ e - off' := by
  intro heq
  apply h
  bv_omega

private theorem frameMem_words (M : Machine) (ra : Word) :
    frameMem M ra (M.reg .esp - 20) = M.reg .edi ∧ frameMem M ra (M.reg .esp - 16) = M.reg .esi ∧
      frameMem M ra (M.reg .esp - 12) = M.reg .ebp ∧ frameMem M ra (M.reg .esp - 8) = M.reg .ebx ∧
      frameMem M ra (M.reg .esp - 4) = ra := by
  have hne : ∀ off off' : Word, off ≠ off' → M.reg .esp - off ≠ M.reg .esp - off' :=
    fun off off' h => sub_ne_sub h
  rw [frameMem]
  refine ⟨Function.update_self .., ?_, ?_, ?_, ?_⟩
  · rw [Function.update_of_ne (hne 16 20 (by decide)), Function.update_self]
  · rw [Function.update_of_ne (hne 12 20 (by decide)), Function.update_of_ne (hne 12 16 (by decide)),
      Function.update_self]
  · rw [Function.update_of_ne (hne 8 20 (by decide)), Function.update_of_ne (hne 8 16 (by decide)),
      Function.update_of_ne (hne 8 12 (by decide)), Function.update_self]
  · rw [Function.update_of_ne (hne 4 20 (by decide)), Function.update_of_ne (hne 4 16 (by decide)),
      Function.update_of_ne (hne 4 12 (by decide)), Function.update_of_ne (hne 4 8 (by decide)),
      Function.update_self]

/-- What a call of `switch_to` leaves on the stack of its caller. -/
private theorem holds_savedMem {sym : SwitchSymbols} {s : SwitchSys} {ra : Word} (halign : s.curr.toNat % 0x1000 = 0)
    (hlow : s.curr.toNat + taskStructSize.toNat + 20 ≤ (s.machine.reg .esp).toNat)
    (hhigh : (s.machine.reg .esp).toNat + 8 ≤ s.curr.toNat + 0x1000) (hra : ra ≠ sym.switchInitial) :
    Holds sym (savedMem s.machine ra s.curr) s.curr (.inCall (s.callRegs ra)) := by
  have hlow' : s.curr.toNat + 64 + 20 ≤ (s.machine.reg .esp).toNat := hlow
  have hsp : ∀ off : Word, 0 < off.toNat → off.toNat ≤ 20 →
      s.machine.reg .esp - off ≠ s.curr + savedSpOffset := by
    intro off hpos hoff heq
    have hsub : (s.machine.reg .esp - off).toNat = (s.machine.reg .esp).toNat - off.toNat :=
      BitVec.toNat_sub_of_le (by rw [BitVec.le_def]; omega)
    have hadd : (s.curr + savedSpOffset).toNat = s.curr.toNat + 24 := by
      have hlt := s.curr.isLt
      rw [BitVec.toNat_add]
      change (s.curr.toNat + 24) % 2 ^ 32 = _
      omega
    have := congrArg BitVec.toNat heq
    omega
  have hread : ∀ off : Word, 0 < off.toNat → off.toNat ≤ 20 →
      savedMem s.machine ra s.curr (s.machine.reg .esp - off) = frameMem s.machine ra (s.machine.reg .esp - off) :=
    fun off hpos hoff => Function.update_of_ne (hsp off hpos hoff) _ _
  obtain ⟨hedi, hesi, hebp, hebx, hret⟩ := frameMem_words s.machine ra
  exact ⟨hlow, hhigh, hra, Function.update_self .., (hread 20 (by decide) (by decide)).trans hedi,
    (hread 16 (by decide) (by decide)).trans hesi, (hread 12 (by decide) (by decide)).trans hebp,
    (hread 8 (by decide) (by decide)).trans hebx, (hread 4 (by decide) (by decide)).trans hret⟩

/-! ## Runs of `switch_to` and `switch_initial` -/

/-- The CPU after `switch_to` has gone from `prev` to `next`. -/
def Resumes (sym : SwitchSymbols) (M : Machine) (prev next : Word) : Saved → Prop
  | .inCall r => M.reg .edi = r.edi ∧ M.reg .esi = r.esi ∧ M.reg .ebp = r.ebp ∧ M.reg .ebx = r.ebx ∧
      M.reg .esp = r.esp ∧ M.eip = r.ra ∧ M.reg .eax = prev
  | .fresh _ _ => M.eip = sym.switchInitial ∧ M.reg .esp = next + 0xfec ∧ M.reg .eax = prev

private theorem above_saved (e : Word) :
    e - 20 + 4 = e - 16 ∧ e - 20 + 8 = e - 12 ∧ e - 20 + 12 = e - 8 ∧ e - 20 + 16 = e - 4 ∧ e - 20 + 20 = e :=
  ⟨by bv_omega, by bv_omega, by bv_omega, by bv_omega, by bv_omega⟩

private theorem above_fresh (t : Word) : t + 0xfd8 + 16 = t + 0xfe8 ∧ t + 0xfd8 + 20 = t + 0xfec :=
  ⟨by bv_omega, by bv_omega⟩

theorem resumes_callSwitchTo {sym : SwitchSymbols} {M : Machine} {ra curr next : Word} {rec : Saved}
    (hcurr : M.mem (M.reg .esp) = curr) (hnext : M.mem (M.reg .esp + 4) = next)
    (hne : M.reg .esp + 4 ≠ curr + savedSpOffset) (h : Holds sym (savedMem M ra curr) next rec) :
    Resumes sym (callSwitchTo M ra) curr next rec := by
  cases rec with
  | inCall r =>
      obtain ⟨-, -, -, hsp, hedi, hesi, hebp, hebx, hret⟩ := h
      obtain ⟨-, heax, hedi', hesi', hebp', hebx', heip, hesp⟩ := callSwitchTo_spec hcurr hnext hne hsp
      obtain ⟨h4, h8, h12, h16, h20⟩ := above_saved r.esp
      rw [h4] at hesi'
      rw [h8] at hebp'
      rw [h12] at hebx'
      rw [h16] at heip
      rw [h20] at hesp
      exact ⟨hedi'.trans hedi, hesi'.trans hesi, hebp'.trans hebp, hebx'.trans hebx, hesp, heip.trans hret, heax⟩
  | fresh proc params =>
      obtain ⟨hsp, hinitial, -, -, -⟩ := h
      obtain ⟨-, heax, -, -, -, -, heip, hesp⟩ := callSwitchTo_spec hcurr hnext hne hsp
      obtain ⟨h16, h20⟩ := above_fresh next
      rw [h16] at heip
      rw [h20] at hesp
      exact ⟨heip.trans hinitial, hesp, heax⟩

private theorem add_words (e : Word) : e + 8 - 4 = e + 4 ∧ e + 4 - 4 = e ∧ e + 4 + 4 = e + 8 ∧ e + 8 + 4 = e + 12 :=
  ⟨by bv_omega, by bv_omega, by bv_omega, by bv_omega⟩

/-- `switch_initial` pushes `prev` and calls with the stack where `switch_to` left it. -/
theorem SwitchSys.atPostProc_spec (s : SwitchSys) (sym : SwitchSymbols) :
    (s.atPostProc sym).reg .esp = s.machine.reg .esp ∧
      (s.atPostProc sym).mem = Function.update
        (Function.update s.machine.mem (s.machine.reg .esp + 4) (s.machine.reg .eax))
        (s.machine.reg .esp) sym.switchInitialNext := by
  obtain ⟨h4, h0, -, -⟩ := add_words (s.machine.reg .esp)
  rw [atPostProc, switchInitialHead]
  simp only [Machine.run_cons, Machine.run_nil, Machine.exec, Machine.reg_pushWord, Machine.mem_pushWord,
    Machine.reg_setReg, Machine.mem_setReg, reduceCtorEq, if_true, if_false, h4, h0]
  exact ⟨trivial, trivial⟩

theorem SwitchSys.afterPostProc_spec (s : SwitchSys) (sym : SwitchSymbols) (eax ecx edx : Word)
    (writes : List (Word × Word)) :
    let m := writeAll (s.atPostProc sym).mem writes
    let M := s.afterPostProc sym eax ecx edx writes
    M.eip = m (s.machine.reg .esp) ∧ (M.run switchInitialTail).mem = m ∧
      (M.run switchInitialTail).eip = m (s.machine.reg .esp + 8) ∧
      (M.run switchInitialTail).reg .esp = s.machine.reg .esp + 12 := by
  obtain ⟨-, -, h8, h12⟩ := add_words (s.machine.reg .esp)
  simp only [afterPostProc, switchInitialTail, Machine.run_cons, Machine.run_nil, Machine.exec, Machine.reg_setReg,
    Machine.mem_setReg, reduceCtorEq, if_true, if_false, (s.atPostProc_spec sym).1, h8, h12]
  exact ⟨trivial, trivial, trivial, trivial⟩

/-! ## The invariant -/

structure SwitchInv (sym : SwitchSymbols) (s : SwitchSys) : Prop where
  page : ∀ t ∈ s.tasks, t.toNat % 0x1000 = 0
  curr : s.curr ∈ s.tasks
  saved : ∀ t ∈ s.tasks, t ≠ s.curr → ∃ rec, s.saved t = some rec ∧ Holds sym s.machine.mem t rec
  entering : s.entering = true →
    s.machine.eip = sym.switchInitial ∧ s.machine.reg .esp = s.curr + 0xfec ∧ s.curr ∉ s.posts.map Prod.fst
  /-- Every task goes through `switch_initial` at most once, and not while it waits for its first dispatch. -/
  posts : (s.posts.map Prod.fst).Nodup
  posted : ∀ t ∈ s.posts.map Prod.fst, t ∈ s.tasks ∧ ∀ proc params, t ≠ s.curr → s.saved t ≠ some (.fresh proc params)

namespace SwitchInv

variable {sym : SwitchSymbols} {s s' : SwitchSys}

/-- Code of the current task that leaves the protected words of the others alone. -/
theorem saved_congr (h : SwitchInv sym s) {m : Mem}
    (hm : ∀ t ∈ s.tasks, t ≠ s.curr → ∀ a, Protected t a → m a = s.machine.mem a) :
    ∀ t ∈ s.tasks, t ≠ s.curr → ∃ rec, s.saved t = some rec ∧ Holds sym m t rec := by
  intro t ht hne
  obtain ⟨rec, hrec, hholds⟩ := h.saved t ht hne
  exact ⟨rec, hrec, hholds.congr (h.page t ht) (hm t ht hne)⟩

theorem compute (h : SwitchInv sym s) {reg : Reg → Word} {eip : Word} {writes : List (Word × Word)}
    (hstep : switchStep sym s (.compute reg eip writes) = some s') : SwitchInv sym s' := by
  obtain ⟨⟨hent, hw⟩, heq⟩ := Option.ite_none_right_eq_some.mp hstep
  cases heq
  refine ⟨h.page, h.curr, h.saved_congr fun t ht hne a ha => ?_, fun hent' => ?_, h.posts, h.posted⟩
  · refine writeAll_of_ne fun w hmem heq => ?_
    exact (hw w hmem).not_protected ht hne (heq ▸ ha)
  · rw [hent] at hent'
    cases hent'

theorem create (h : SwitchInv sym s) {page proc params : Word}
    (hstep : switchStep sym s (.create page proc params) = some s') : SwitchInv sym s' := by
  obtain ⟨⟨hent, halign, hfresh⟩, heq⟩ := Option.ite_none_right_eq_some.mp hstep
  cases heq
  have hold : ∀ t ∈ s.tasks, t ≠ page := by
    rintro t ht rfl
    exact hfresh ht
  refine ⟨?_, List.mem_cons_of_mem _ h.curr, ?_, fun hent' => ?_, h.posts, ?_⟩
  · intro t ht
    obtain rfl | ht := List.mem_cons.mp ht
    · exact halign
    · exact h.page t ht
  · intro t ht hne
    obtain rfl | ht := List.mem_cons.mp ht
    · exact ⟨_, Function.update_self .., holds_createMem _ sym _ proc params⟩
    · have hsaved := h.saved_congr (m := createMem s.machine.mem sym.toSymbols page proc params)
        fun u hu _ a ha => createMem_of_not_inPage halign
          (not_inPage (h.page u hu) halign (hold u hu) ha.1)
      obtain ⟨rec, hrec, hholds⟩ := hsaved t ht hne
      exact ⟨rec, (Function.update_of_ne (hold t ht) _ _).trans hrec, hholds⟩
  · rw [hent] at hent'
    cases hent'
  · intro t ht
    obtain ⟨hmem, hsaved⟩ := h.posted t ht
    refine ⟨List.mem_cons_of_mem _ hmem, fun proc' params' hne => ?_⟩
    change Function.update s.saved page _ t ≠ _
    rw [Function.update_of_ne (hold t hmem)]
    exact hsaved proc' params' hne

/-- When the current task calls `switch_to`, every task has something saved, and it is on its stack. -/
theorem records (h : SwitchInv sym s) {next ra : Word} (hcan : s.CanSwitch sym next ra) :
    ∀ t ∈ s.tasks, ∃ rec, s.records ra t = some rec ∧ Holds sym (savedMem s.machine ra s.curr) t rec := by
  obtain ⟨-, -, -, -, hlow, hhigh, hra⟩ := hcan
  intro t ht
  by_cases hne : t = s.curr
  · subst hne
    exact ⟨_, Function.update_self .., holds_savedMem (h.page _ ht) hlow hhigh hra⟩
  · have hsaved := h.saved_congr (m := savedMem s.machine ra s.curr) fun u hu hune a ha =>
      savedMem_of_not_inPage (h.page _ h.curr) hlow hhigh
        (not_inPage (h.page u hu) (h.page _ h.curr) hune ha.1)
    obtain ⟨rec, hrec, hholds⟩ := hsaved t ht hne
    exact ⟨rec, (Function.update_of_ne hne _ _).trans hrec, hholds⟩

/-- The arguments of `switch_to` are no word of a `task_struct`. -/
theorem arg_ne (h : SwitchInv sym s) {next ra : Word} (hcan : s.CanSwitch sym next ra) :
    s.machine.reg .esp + 4 ≠ s.curr + savedSpOffset := by
  obtain ⟨-, -, -, -, hlow, hhigh, -⟩ := hcan
  have hlt := s.curr.isLt
  have hpage := h.page _ h.curr
  have hlow' : s.curr.toNat + 64 + 20 ≤ (s.machine.reg .esp).toNat := hlow
  intro heq
  have := congrArg BitVec.toNat heq
  rw [BitVec.toNat_add, BitVec.toNat_add] at this
  change ((s.machine.reg .esp).toNat + 4) % 2 ^ 32 = (s.curr.toNat + 24) % 2 ^ 32 at this
  omega

theorem resumes (h : SwitchInv sym s) {next ra : Word} (hcan : s.CanSwitch sym next ra) :
    ∃ rec, s.records ra next = some rec ∧ Holds sym (savedMem s.machine ra s.curr) next rec ∧
      Resumes sym (callSwitchTo s.machine ra) s.curr next rec := by
  obtain ⟨rec, hrec, hholds⟩ := h.records hcan next hcan.2.1
  exact ⟨rec, hrec, hholds, resumes_callSwitchTo hcan.2.2.1 hcan.2.2.2.1 (h.arg_ne hcan) hholds⟩

theorem mem_callSwitchTo (h : SwitchInv sym s) {next ra : Word} (hcan : s.CanSwitch sym next ra) :
    (callSwitchTo s.machine ra).mem = savedMem s.machine ra s.curr :=
  (callSwitchTo_spec hcan.2.2.1 hcan.2.2.2.1 (h.arg_ne hcan) rfl).1

/-- The CPU is at `switch_initial` exactly when the task has not run before. -/
theorem eip_eq_switchInitial {M : Machine} {prev next : Word} {rec : Saved} {m : Mem} (hholds : Holds sym m next rec)
    (hres : Resumes sym M prev next rec) : M.eip = sym.switchInitial ↔ ∃ proc params, rec = .fresh proc params := by
  cases rec with
  | inCall r =>
      refine ⟨fun heip => absurd (hres.2.2.2.2.2.1.symm.trans heip) hholds.2.2.1, ?_⟩
      rintro ⟨_, _, heq⟩
      cases heq
  | fresh proc params => exact ⟨fun _ => ⟨proc, params, rfl⟩, fun _ => hres.1⟩

theorem switch (h : SwitchInv sym s) {next ra : Word}
    (hstep : switchStep sym s (.switch next ra) = some s') : SwitchInv sym s' := by
  obtain ⟨hcan, heq⟩ := Option.ite_none_right_eq_some.mp hstep
  cases heq
  obtain ⟨rec, hrec, hholds, hres⟩ := h.resumes hcan
  have hnotPosted : ∀ t ∈ s.posts.map Prod.fst, ∀ proc params, s.records ra t ≠ some (.fresh proc params) := by
    intro t ht proc params
    by_cases hne : t = s.curr
    · subst hne
      rw [SwitchSys.records, Function.update_self]
      exact fun heq => by cases heq
    · rw [SwitchSys.records, Function.update_of_ne hne]
      exact (h.posted t ht).2 proc params hne
  refine ⟨h.page, hcan.2.1, ?_, fun hent => ?_, h.posts, fun t ht => ⟨(h.posted t ht).1, ?_⟩⟩
  · intro t ht hne
    obtain ⟨rec', hrec', hholds'⟩ := h.records hcan t ht
    refine ⟨rec', (Function.update_of_ne hne _ _).trans hrec', ?_⟩
    change Holds sym (callSwitchTo s.machine ra).mem t rec'
    rw [h.mem_callSwitchTo hcan]
    exact hholds'
  · have heip : (callSwitchTo s.machine ra).eip = sym.switchInitial := by
      simpa only [decide_eq_true_eq] using hent
    obtain ⟨proc, params, rfl⟩ := (eip_eq_switchInitial hholds hres).mp heip
    have hesp : (callSwitchTo s.machine ra).reg .esp = next + 0xfec := hres.2.1
    refine ⟨heip, hesp, ?_⟩
    intro hmem
    exact hnotPosted next hmem proc params hrec
  · intro proc params hne
    change Function.update (s.records ra) next none t ≠ _
    rw [Function.update_of_ne hne]
    exact hnotPosted t ht proc params

/-- Memory after `task_sched_post_proc`, outside the words of its call and those it writes. -/
theorem postProcMem_of_ne {writes : List (Word × Word)} {a : Word} (hw : ∀ w ∈ writes, w.1 ≠ a)
    (hret : a ≠ s.machine.reg .esp) (harg : a ≠ s.machine.reg .esp + 4) :
    writeAll (s.atPostProc sym).mem writes a = s.machine.mem a := by
  rw [writeAll_of_ne hw, (s.atPostProc_spec sym).2, Function.update_of_ne hret, Function.update_of_ne harg]

private theorem fec_off (t : Word) : t + 0xfec + 4 = t + 0xff0 ∧ t + 0xfec + 8 = t + 0xff4 ∧ t + 0xfec + 12 = t + 0xff8 ∧
    t + 0xff8 + 4 = t + 0xffc :=
  ⟨by bv_omega, by bv_omega, by bv_omega, by bv_omega⟩

theorem enter (h : SwitchInv sym s) {eax ecx edx : Word} {writes : List (Word × Word)}
    (hstep : switchStep sym s (.enter eax ecx edx writes) = some s') : SwitchInv sym s' := by
  obtain ⟨⟨hent, hconf, -⟩, heq⟩ := Option.ite_none_right_eq_some.mp hstep
  cases heq
  obtain ⟨-, hesp, hnew⟩ := h.entering hent
  have hmem := (s.afterPostProc_spec sym eax ecx edx writes).2.1
  have hpage := h.page _ h.curr
  refine ⟨h.page, h.curr, ?_, (fun hent' => nomatch hent'), ?_, ?_⟩
  · refine h.saved_congr fun t ht hne a ha => ?_
    change ((s.afterPostProc sym eax ecx edx writes).run switchInitialTail).mem a = _
    have hout : ¬ InPage s.curr a := not_inPage (h.page t ht) hpage hne ha.1
    rw [hmem]
    refine postProcMem_of_ne (fun w hw heq => ?_) ?_ ?_
    · exact (hconf w hw).1.not_protected ht hne (heq ▸ ha)
    · rintro rfl
      rw [hesp] at hout
      exact hout (inPage_off hpage (by decide))
    · rintro rfl
      rw [hesp, (fec_off s.curr).1] at hout
      exact hout (inPage_off hpage (by decide))
  · simp only [List.map_append, List.map_cons, List.map_nil]
    refine List.nodup_append.mpr ⟨h.posts, List.nodup_singleton _, ?_⟩
    rintro t ht _ hmem rfl
    rw [List.mem_singleton.mp hmem] at ht
    exact hnew ht
  · intro t ht
    simp only [List.map_append, List.map_cons, List.map_nil, List.mem_append, List.mem_singleton] at ht
    obtain ht | rfl := ht
    · exact h.posted t ht
    · exact ⟨h.curr, fun _ _ hne => absurd rfl hne⟩

theorem step (h : SwitchInv sym s) {l : SwitchLabel} (hstep : switchStep sym s l = some s') : SwitchInv sym s' := by
  cases l with
  | compute reg eip writes => exact h.compute hstep
  | create page proc params => exact h.create hstep
  | switch next ra => exact h.switch hstep
  | enter eax ecx edx writes => exact h.enter hstep

theorem reachable (h : (switchSystem sym).Reachable s) : SwitchInv sym s := by
  refine TransitionSystem.invariant _ ?_ (fun s l s' _ hinv hstep => hinv.step hstep) h
  rintro s ⟨htasks, hpage, -, hent, hposts⟩
  have honly : ∀ t ∈ s.tasks, t = s.curr := by
    intro t ht
    rwa [htasks, List.mem_singleton] at ht
  refine ⟨fun t ht => honly t ht ▸ hpage, ?_, fun t ht hne => absurd (honly t ht) hne, fun hent' => ?_, ?_, ?_⟩
  · rw [htasks]
    exact List.mem_singleton_self _
  · rw [hent] at hent'
    cases hent'
  · rw [hposts]
    exact List.nodup_nil
  · rw [hposts]
    exact fun t ht => nomatch ht

/-- After a switch to a task that has not run, `switch_initial` is all there is to run; it calls `task_sched_post_proc` on the task switched away from and enters `proc`. -/
theorem enter_fresh (h : SwitchInv sym s) (eax ecx edx : Word) {proc params prev : Word} (hent : s.entering = true)
    (heax : s.machine.reg .eax = prev) (hproc : s.machine.mem (s.curr + 0xff4) = proc)
    (hret : s.machine.mem (s.curr + 0xff8) = sym.taskExit) (hparams : s.machine.mem (s.curr + 0xffc) = params)
    {writes : List (Word × Word)} (hconf : s.Conforms sym writes) :
    ∃ s', switchStep sym s (.enter eax ecx edx writes) = some s' ∧ s'.posts = s.posts ++ [(s.curr, prev)] ∧
      s'.machine.eip = proc ∧ s'.machine.mem (s'.machine.reg .esp) = sym.taskExit ∧
      s'.machine.mem (s'.machine.reg .esp + 4) = params := by
  obtain ⟨-, hesp, -⟩ := h.entering hent
  have hpage := h.page _ h.curr
  obtain ⟨h4, h8, h12, h16⟩ := fec_off s.curr
  obtain ⟨hesp', hmem'⟩ := s.atPostProc_spec sym
  obtain ⟨heip, hmem, heip', hespAfter⟩ := s.afterPostProc_spec sym eax ecx edx writes
  rw [hesp] at hesp' hmem' heip heip' hespAfter
  rw [h8] at heip'
  rw [h12] at hespAfter
  -- the words of the frames above the argument are not written, nor is the return address
  have hkeep : ∀ off : Word, off.toNat < 0x1000 → 0xfec ≤ off.toNat → off ≠ 0xff0 → ∀ w ∈ writes, w.1 ≠ s.curr + off := by
    intro off hoff hge hne w hw heq
    have hin := inPage_off hpage hoff
    have htoNat : ∀ o : Word, o.toNat < 0x1000 → (s.curr + o).toNat = s.curr.toNat + o.toNat := by
      intro o ho
      have hlt := s.curr.isLt
      rw [BitVec.toNat_add]
      omega
    have hcase := (hconf w hw).2 (heq ▸ hin)
    rw [heq, hesp', h4, htoNat off hoff, htoNat 0xfec (by decide)] at hcase
    obtain hlt | heq' := hcase
    · change _ < s.curr.toNat + 0xfec at hlt
      omega
    · apply hne
      bv_omega
  have hframe : ∀ off : Word, off.toNat < 0x1000 → 0xff4 ≤ off.toNat →
      writeAll (s.atPostProc sym).mem writes (s.curr + off) = s.machine.mem (s.curr + off) := by
    intro off hoff hge
    have hne : ∀ o : Word, o.toNat < 0xff4 → s.curr + off ≠ s.curr + o := by
      intro o ho heq
      have hoff : off = o := by bv_omega
      rw [hoff] at hge
      omega
    refine postProcMem_of_ne (hkeep off hoff (by omega) fun heq => ?_) ?_ ?_
    · rw [heq] at hge
      exact absurd hge (by decide)
    · rw [hesp]
      exact hne _ (by decide)
    · rw [hesp, h4]
      exact hne _ (by decide)
  have hnext : (s.afterPostProc sym eax ecx edx writes).eip = sym.switchInitialNext := by
    rw [heip, writeAll_of_ne (hkeep 0xfec (by decide) (by decide) (by decide)), hmem', Function.update_self]
  refine ⟨_, if_pos ⟨hent, hconf, hnext⟩, ?_, ?_, ?_, ?_⟩
  · rw [hesp', hmem', h4, heax]
    refine congrArg (fun a => s.posts ++ [(s.curr, a)]) ?_
    rw [Function.update_of_ne (by bv_omega), Function.update_self]
  · exact heip'.trans ((hframe 0xff4 (by decide) (by decide)).trans hproc)
  · change ((s.afterPostProc sym eax ecx edx writes).run switchInitialTail).mem
      (((s.afterPostProc sym eax ecx edx writes).run switchInitialTail).reg .esp) = _
    rw [hmem, hespAfter]
    exact (hframe 0xff8 (by decide) (by decide)).trans hret
  · change ((s.afterPostProc sym eax ecx edx writes).run switchInitialTail).mem
      (((s.afterPostProc sym eax ecx edx writes).run switchInitialTail).reg .esp + 4) = _
    rw [hmem, hespAfter, h16]
    exact (hframe 0xffc (by decide) (by decide)).trans hparams

end SwitchInv

/-! ## Transparency -/

/-- `switch_initial` has run in `next`: it called `task_sched_post_proc` on `prev`, the only call for `next`, and `proc` starts with its return address and its argument on the stack. -/
def EntersProc (sym : SwitchSymbols) (s : SwitchSys) (prev next proc params : Word) : Prop :=
  s.posts.filter (fun p => p.1 = next) = [(next, prev)] ∧ s.machine.eip = proc ∧
    s.machine.mem (s.machine.reg .esp) = sym.taskExit ∧ s.machine.mem (s.machine.reg .esp + 4) = params

/-- The switch from `s` to `next` has led to `s'`. -/
def Transparent (sym : SwitchSymbols) (s s' : SwitchSys) (next : Word) : Saved → Prop
  | .inCall r => s'.entering = false ∧ s'.machine.reg .edi = r.edi ∧ s'.machine.reg .esi = r.esi ∧
      s'.machine.reg .ebp = r.ebp ∧ s'.machine.reg .ebx = r.ebx ∧ s'.machine.reg .esp = r.esp ∧
      s'.machine.eip = r.ra ∧ s'.machine.reg .eax = s.curr
  | .fresh proc params => s'.machine.eip = sym.switchInitial ∧
      (∀ l s'', switchStep sym s' l = some s'' → EntersProc sym s'' s.curr next proc params) ∧
      ∀ eax ecx edx writes, s'.Conforms sym writes → (switchStep sym s' (.enter eax ecx edx writes)).isSome

/-- `switch_initial` runs before anything else does. -/
private theorem enter_of_entering {sym : SwitchSymbols} {s s' : SwitchSys} {l : SwitchLabel} (hent : s.entering = true)
    (hstep : switchStep sym s l = some s') : ∃ eax ecx edx writes, l = .enter eax ecx edx writes ∧
      s.Conforms sym writes := by
  have hnot : s.entering ≠ false := by
    rw [hent]
    decide
  cases l with
  | compute reg eip writes => exact absurd (Option.ite_none_right_eq_some.mp hstep).1.1 hnot
  | create page proc params => exact absurd (Option.ite_none_right_eq_some.mp hstep).1.1 hnot
  | switch next ra => exact absurd (Option.ite_none_right_eq_some.mp hstep).1.1 hnot
  | enter eax ecx edx writes =>
      exact ⟨eax, ecx, edx, writes, rfl, (Option.ite_none_right_eq_some.mp hstep).1.2.1⟩

theorem SwitchInv.filter_posts {sym : SwitchSymbols} {s : SwitchSys} (h : SwitchInv sym s)
    (hent : s.entering = true) (prev : Word) :
    (s.posts ++ [(s.curr, prev)]).filter (fun p => p.1 = s.curr) = [(s.curr, prev)] := by
  have hnone : s.posts.filter (fun p => p.1 = s.curr) = [] := by
    refine List.filter_eq_nil_iff.mpr fun p hp heq => ?_
    exact (h.entering hent).2.2 (List.mem_map.mpr ⟨p, hp, of_decide_eq_true heq⟩)
  rw [List.filter_append, hnone, List.nil_append, List.filter_cons_of_pos (by simp), List.filter_nil]

theorem SwitchInv.transparent {sym : SwitchSymbols} {s s' : SwitchSys} {next ra : Word} (h : SwitchInv sym s)
    (hstep : switchStep sym s (.switch next ra) = some s') :
    ∃ rec, s.records ra next = some rec ∧ Transparent sym s s' next rec := by
  have hinv := h.switch hstep
  obtain ⟨hcan, heq⟩ := Option.ite_none_right_eq_some.mp hstep
  obtain ⟨rec, hrec, hholds, hres⟩ := h.resumes hcan
  have hmem := h.mem_callSwitchTo hcan
  replace heq := Option.some.inj heq
  have hentering : s'.entering = true ↔ ∃ proc params, rec = .fresh proc params := by
    rw [← eip_eq_switchInitial hholds hres, ← heq]
    simp only [decide_eq_true_eq]
  have hmachine : s'.machine = callSwitchTo s.machine ra := by
    rw [← heq]
  have hcurr : s'.curr = next := by
    rw [← heq]
  refine ⟨rec, hrec, ?_⟩
  rw [← hmem, ← hmachine] at hholds
  rw [← hmachine] at hres
  cases rec with
  | inCall r =>
      have hent : s'.entering = false := by
        refine Bool.eq_false_iff.mpr fun hent => ?_
        obtain ⟨_, _, hfresh⟩ := hentering.mp hent
        cases hfresh
      exact ⟨hent, hres⟩
  | fresh proc params =>
      have hent := hentering.mpr ⟨proc, params, rfl⟩
      obtain ⟨-, -, hproc, hret, hparams⟩ := hholds
      rw [← hcurr] at hproc hret hparams
      refine ⟨hres.1, fun l s'' hnext => ?_, fun eax ecx edx writes hconf => ?_⟩
      · obtain ⟨eax, ecx, edx, writes, rfl, hconf⟩ := enter_of_entering hent hnext
        obtain ⟨s₁, hs₁, hposts₁, heip, hret₁, hparams₁⟩ := hinv.enter_fresh eax ecx edx hent hres.2.2 hproc hret hparams hconf
        cases hs₁.symm.trans hnext
        refine ⟨?_, heip, hret₁, hparams₁⟩
        rw [hposts₁, ← hcurr]
        exact hinv.filter_posts hent s.curr
      · obtain ⟨s₁, hs₁, -⟩ := hinv.enter_fresh eax ecx edx hent hres.2.2 hproc hret hparams hconf
        rw [hs₁]
        rfl

/-- `switch_to` and `switch_initial`: in every run, a switch to a task that is in a call of `switch_to` returns from that call with the registers it was made with, and a switch to a new task enters its procedure after one call of `task_sched_post_proc`, the only one the run ever makes for it. -/
theorem switch_transparent {sym : SwitchSymbols} {s : SwitchSys} (h : (switchSystem sym).Reachable s) :
    (s.posts.map Prod.fst).Nodup ∧ ∀ next ra s', switchStep sym s (.switch next ra) = some s' →
      ∃ rec, s.records ra next = some rec ∧ Transparent sym s s' next rec := by
  have hinv := SwitchInv.reachable h
  exact ⟨hinv.posts, fun next ra s' hstep => hinv.transparent hstep⟩

def smallSymbols : SwitchSymbols where
  taskExit := 0xc0002000
  switchInitial := 0xc0003000
  idleProc := 0xc0002100
  taskSchedPostProc := 0xc0002200
  switchInitialNext := 0xc0003010

/-- The boot code in its page. -/
def bootSwitch : SwitchSys where
  machine := ⟨fun _ => 0, 0xc0004000, false, fun _ => 0⟩
  tasks := [0xc0100000]
  curr := 0xc0100000
  saved := fun _ => none
  entering := false
  posts := []

/-- The boot code creates a task and switches to it; the task comes to a call of `switch_to` of its own. -/
def twoTasksRun : List SwitchLabel :=
  [.create 0xc0101000 0xc0005000 0x55,
    .compute (fun r => if r = .esp then 0xc0100f00 else 7) 0xc0004010
      [(0xc0100f00, 0xc0100000), (0xc0100f04, 0xc0101000)],
    .switch 0xc0101000 0xc0004020,
    .enter 1 2 3 [],
    .compute (fun r => if r = .esp then 0xc0101f00 else 9) 0xc0005010
      [(0xc0101f00, 0xc0101000), (0xc0101f04, 0xc0100000)]]

theorem switch_transparent_twoTasks : ∃ s s', (switchSystem smallSymbols).Reachable s ∧
    s.posts = [(0xc0101000, 0xc0100000)] ∧
    switchStep smallSymbols s (.switch 0xc0100000 0xc0005020) = some s' ∧
    s'.machine.reg .ebx = 7 ∧ s'.machine.reg .esp = 0xc0100f00 ∧ s'.machine.eip = 0xc0004020 ∧
    s'.machine.reg .eax = 0xc0101000 := by
  have hview : (TransitionSystem.exec (switchStep smallSymbols) bootSwitch twoTasksRun).map
      (fun s => (s.posts, s.curr, s.records 0xc0005020 0xc0100000,
        (switchStep smallSymbols s (.switch 0xc0100000 0xc0005020)).isSome)) =
      some ([(0xc0101000, 0xc0100000)], 0xc0101000, some (.inCall ⟨7, 7, 7, 7, 0xc0100f00, 0xc0004020⟩), true) := by
    decide +kernel
  obtain ⟨s, hexec, hview⟩ := Option.map_eq_some_iff.mp hview
  rw [Prod.mk.injEq, Prod.mk.injEq, Prod.mk.injEq] at hview
  obtain ⟨hposts, hcurr, hrec, hsome⟩ := hview
  obtain ⟨s', hs'⟩ := Option.isSome_iff_exists.mp hsome
  have hboot : (switchSystem smallSymbols).Reachable bootSwitch :=
    .init ⟨rfl, by decide, fun _ => rfl, rfl, rfl⟩
  have hreach := TransitionSystem.reachable_exec twoTasksRun hboot hexec
  obtain ⟨rec, hrec', htrans⟩ := (switch_transparent hreach).2 _ _ _ hs'
  cases hrec.symm.trans hrec'
  obtain ⟨-, -, -, -, hebx, hesp, heip, heax⟩ := htrans
  exact ⟨s, s', hreach, hposts, hs', hebx, hesp, heip, heax.trans hcurr⟩

end I386Kernel
