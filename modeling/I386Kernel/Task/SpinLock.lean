import I386Kernel.Lib.Transition
import Mathlib.Logic.Function.Basic

/-!
# Spin locks

The instructions of `spin_lock`, `spin_lock_alt` and `spin_unlock` on one lock, in every order by any number of contexts. `spin_lock` exchanges the byte with zero and takes any other value for a free lock; `spin_lock_alt` decrements it and takes a negative result for a held one.
-/

namespace I386Kernel.SpinLock

/-! ## Instructions -/

/-- The next instruction of a context, with the register or the flag the instruction reads. -/
inductive Pc where
  | outside
  -- `spin_lock`
  | movb
  | xchgb
  | cmpDl (dl : BitVec 8)
  | je (zero : Bool)
  -- `spin_lock_alt`
  | decb
  | jns (sign : Bool)
  | cmpb
  | jle (lessEqual : Bool)
  | jmp
  /-- Past its acquire. -/
  | inside
  -- `spin_unlock`
  | unlock
deriving DecidableEq

/-- The value `spin_unlock` stores. -/
def spinUnlock : BitVec 8 := 1

def spinLockInit : BitVec 8 := spinUnlock

/-- One instruction: the lock byte after it, and where the context goes on. There is none outside the three functions. -/
def exec (lock : BitVec 8) : Pc → Option (BitVec 8 × Pc)
  | .outside => none
  | .movb => some (lock, .xchgb)
  -- `%dl` is zero here
  | .xchgb => some (0, .cmpDl lock)
  | .cmpDl dl => some (lock, .je (dl == 0))
  | .je zero => some (lock, if zero then .movb else .inside)
  | .decb => some (lock - 1, .jns (lock - 1).msb)
  | .jns sign => some (lock, if sign then .cmpb else .inside)
  | .cmpb => some (lock, .jle (decide (lock.toInt ≤ 0)))
  | .jle lessEqual => some (lock, if lessEqual then .cmpb else .jmp)
  | .jmp => some (lock, .decb)
  | .inside => none
  | .unlock => some (spinUnlock, .outside)

/-! ## Contexts -/

structure State (T : Type) where
  lock : BitVec 8
  pc : T → Pc

/-- A context calls one of the functions, or executes its next instruction. -/
inductive Label (T : Type) where
  | spinLock (t : T)
  | spinLockAlt (t : T)
  | spinUnlock (t : T)
  | step (t : T)

section
variable {T : Type} [DecidableEq T]

def State.goto (s : State T) (t : T) (pc : Pc) : State T := { s with pc := Function.update s.pc t pc }

/-- A context acquires from outside, and unlocks what it holds. -/
def State.next (s : State T) : Label T → Option (State T)
  | .spinLock t => if s.pc t = .outside then some (s.goto t .movb) else none
  | .spinLockAlt t => if s.pc t = .outside then some (s.goto t .decb) else none
  | .spinUnlock t => if s.pc t = .inside then some (s.goto t .unlock) else none
  | .step t => (exec s.lock (s.pc t)).map fun p => { s.goto t p.2 with lock := p.1 }

def system (T : Type) [DecidableEq T] : TransitionSystem (State T) (Label T) :=
  .ofFn (fun s => s.lock = spinLockInit ∧ ∀ t, s.pc t = .outside) State.next

end

/-- Past its acquire and not yet past its unlock. -/
def Pc.holding : Pc → Bool
  | inside | unlock => true
  | _ => false

def MutuallyExclusive {T : Type} (s : State T) : Prop :=
  ∀ t u, (s.pc t).holding = true → (s.pc u).holding = true → t = u

/-! ## Who owns the lock -/

/-- The lock is decided for this context, which has yet to find out or to give it up. -/
def Pc.owns : Pc → Bool
  | cmpDl dl => dl != 0
  | je zero => !zero
  | jns sign => !sign
  | inside | unlock => true
  | _ => false

theorem Pc.owns_of_holding {pc : Pc} (h : pc.holding = true) : pc.owns = true := by
  cases pc <;> first | rfl | cases h

/-- The byte tells the two routines the same: it is not negative where it is exchanged, and does not wrap where it is decremented. -/
def Unambiguous (lock : BitVec 8) : Pc → Bool
  | .xchgb => !lock.msb
  | .decb => lock != 0x80
  | _ => true

/-- What an instruction does to a byte that is 1 while the lock is free and at most 0 while it is owned. -/
theorem exec_spec {lock lock' : BitVec 8} {pc pc' : Pc} (h : exec lock pc = some (lock', pc'))
    (hok : Unambiguous lock pc = true) (hlock : lock = 1 ∨ lock.toInt ≤ 0) :
    (pc'.owns = pc.owns ∧ (lock' = lock ∨ (lock.toInt ≤ 0 ∧ lock'.toInt ≤ 0))) ∨
      (pc.owns = false ∧ pc'.owns = true ∧ lock = 1 ∧ lock'.toInt ≤ 0) ∨
      (pc.owns = true ∧ pc'.owns = false ∧ lock' = 1) := by
  cases pc with
  | outside | inside => cases h
  | movb | cmpb | jmp =>
      cases h
      exact Or.inl ⟨rfl, Or.inl rfl⟩
  | xchgb =>
      cases h
      obtain rfl | hle := hlock
      · exact Or.inr (Or.inl ⟨rfl, rfl, rfl, by decide⟩)
      · -- a byte that is neither positive nor negative
        have hzero : lock = 0 := by
          revert hle hok
          revert lock
          decide
        subst hzero
        exact Or.inl ⟨rfl, Or.inl rfl⟩
  | cmpDl dl =>
      cases h
      exact Or.inl ⟨rfl, Or.inl rfl⟩
  | je zero =>
      cases h
      cases zero <;> exact Or.inl ⟨rfl, Or.inl rfl⟩
  | decb =>
      cases h
      obtain rfl | hle := hlock
      · exact Or.inr (Or.inl ⟨rfl, by decide, rfl, by decide⟩)
      · have hneg : (lock - 1).msb = true ∧ (lock - 1).toInt ≤ 0 := by
          revert hle hok
          revert lock
          decide
        refine Or.inl ⟨?_, Or.inr ⟨hle, hneg.2⟩⟩
        rw [Pc.owns, hneg.1]
        rfl
  | jns sign =>
      cases h
      cases sign <;> exact Or.inl ⟨rfl, Or.inl rfl⟩
  | jle lessEqual =>
      cases h
      cases lessEqual <;> exact Or.inl ⟨rfl, Or.inl rfl⟩
  | unlock =>
      cases h
      exact Or.inr (Or.inr ⟨rfl, rfl, rfl⟩)

section
variable {T : Type} {s s' : State T} {owner : Option T} {t : T}

/-- The owner of the lock, and what the byte tells about it. -/
structure Inv (s : State T) (owner : Option T) : Prop where
  owns : ∀ t, (s.pc t).owns = true ↔ owner = some t
  free : owner = none → s.lock = 1
  taken : ∀ t, owner = some t → s.lock.toInt ≤ 0

namespace Inv

theorem lock_cases (h : Inv s owner) : s.lock = 1 ∨ s.lock.toInt ≤ 0 := by
  cases owner with
  | none => exact Or.inl (h.free rfl)
  | some t => exact Or.inr (h.taken t rfl)

theorem mutuallyExclusive (h : Inv s owner) : MutuallyExclusive s := by
  intro t u ht hu
  have ht := (h.owns t).mp (Pc.owns_of_holding ht)
  have hu := (h.owns u).mp (Pc.owns_of_holding hu)
  exact Option.some.inj (ht.symm.trans hu)

variable [DecidableEq T]

/-- The context `t` goes on to `pc`, and the byte becomes `lock`. -/
theorem put {lock : BitVec 8} {pc : Pc} (h : Inv s owner)
    (hchange : (pc.owns = (s.pc t).owns ∧ (lock = s.lock ∨ (s.lock.toInt ≤ 0 ∧ lock.toInt ≤ 0))) ∨
      ((s.pc t).owns = false ∧ pc.owns = true ∧ s.lock = 1 ∧ lock.toInt ≤ 0) ∨
      ((s.pc t).owns = true ∧ pc.owns = false ∧ lock = 1)) :
    ∃ owner', Inv { s.goto t pc with lock := lock } owner' := by
  have hother : ∀ u, u ≠ t → (Function.update s.pc t pc) u = s.pc u := fun u hu => Function.update_of_ne hu _ _
  have hself : (Function.update s.pc t pc) t = pc := Function.update_self ..
  have hnot_one : s.lock.toInt ≤ 0 → s.lock ≠ 1 := fun hle heq => by
    rw [heq] at hle
    exact absurd hle (by decide)
  obtain ⟨hsame, hlock⟩ | ⟨hbefore, hafter, hone, hle⟩ | ⟨hbefore, hafter, rfl⟩ := hchange
  · refine ⟨owner, fun u => ?_, fun hnone => ?_, fun u hu => ?_⟩
    · show ((Function.update s.pc t pc) u).owns = true ↔ owner = some u
      by_cases hu : u = t
      · subst hu
        rw [hself, hsame]
        exact h.owns u
      · rw [hother u hu]
        exact h.owns u
    · obtain heq | ⟨hle, -⟩ := hlock
      · exact heq.trans (h.free hnone)
      · exact absurd (h.free hnone) (hnot_one hle)
    · obtain rfl | ⟨-, hle⟩ := hlock
      · exact h.taken u hu
      · exact hle
  · have hnone : owner = none := Option.eq_none_iff_forall_ne_some.mpr fun u hu => hnot_one (h.taken u hu) hone
    refine ⟨some t, fun u => ?_, fun hsome => absurd hsome (Option.some_ne_none t), fun _ _ => hle⟩
    show ((Function.update s.pc t pc) u).owns = true ↔ some t = some u
    by_cases hu : u = t
    · subst hu
      rw [hself]
      exact iff_of_true hafter rfl
    · rw [hother u hu, h.owns u, hnone]
      exact iff_of_false (Option.some_ne_none u).symm fun heq => hu (Option.some.inj heq).symm
  · have howner := (h.owns t).mp hbefore
    refine ⟨none, fun u => ?_, fun _ => rfl, fun u hu => absurd hu.symm (Option.some_ne_none u)⟩
    show ((Function.update s.pc t pc) u).owns = true ↔ none = some u
    by_cases hu : u = t
    · subst hu
      rw [hself, hafter]
      exact iff_of_false Bool.false_ne_true (Option.some_ne_none u).symm
    · rw [hother u hu, h.owns u, howner]
      exact iff_of_false (fun heq => hu (Option.some.inj heq).symm) (Option.some_ne_none u).symm

end Inv

variable [DecidableEq T]

/-- The step does not exchange a negative byte, and does not decrement the least one. -/
def ReadsOneMeaning (s : State T) : Label T → Prop
  | .step t => Unambiguous s.lock (s.pc t) = true
  | _ => True

instance (s : State T) : (l : Label T) → Decidable (ReadsOneMeaning s l)
  | .step _ => inferInstanceAs (Decidable (_ = true))
  | .spinLock _ | .spinLockAlt _ | .spinUnlock _ => .isTrue trivial

theorem Inv.next {l : Label T} (h : Inv s owner) (hok : ReadsOneMeaning s l) (hstep : s.next l = some s') :
    ∃ owner', Inv s' owner' := by
  have hcall : ∀ t pc pc', s.pc t = pc → pc'.owns = pc.owns → ∃ owner', Inv (s.goto t pc') owner' :=
    fun t pc pc' hpc howns => h.put (t := t) (Or.inl ⟨hpc ▸ howns, Or.inl rfl⟩)
  cases l with
  | spinLock t | spinLockAlt t | spinUnlock t =>
      obtain ⟨hpc, heq⟩ := Option.ite_none_right_eq_some.mp hstep
      cases heq
      exact hcall t _ _ hpc rfl
  | step t =>
      obtain ⟨⟨lock, pc⟩, hexec, heq⟩ := Option.map_eq_some_iff.mp hstep
      cases heq
      exact h.put (exec_spec hexec hok h.lock_cases)

theorem inv_reachable (h : ((system T).restrict ReadsOneMeaning).Reachable s) : ∃ owner, Inv s owner := by
  refine ((system T).restrict ReadsOneMeaning).invariant (P := fun s => ∃ owner, Inv s owner)
    (fun s hinit => ?_) (fun s l s' _ hs hstep => ?_) h
  · obtain ⟨hlock, hpc⟩ := hinit
    refine ⟨none, fun t => ?_, fun _ => hlock, fun t ht => absurd ht.symm (Option.some_ne_none t)⟩
    rw [hpc t]
    exact iff_of_false Bool.false_ne_true (Option.some_ne_none t).symm
  · obtain ⟨owner, hs⟩ := hs
    exact hs.next hstep.1 hstep.2

/-- While no context exchanges a negative byte or decrements the least one, at most one is past its acquire. -/
theorem mutuallyExclusive_reachable (h : ((system T).restrict ReadsOneMeaning).Reachable s) : MutuallyExclusive s := by
  obtain ⟨owner, hinv⟩ := inv_reachable h
  exact hinv.mutuallyExclusive

end

/-- Three contexts outside the functions of a lock that has been initialised. -/
private def threeOutside : State (Fin 3) := { lock := spinLockInit, pc := fun _ => .outside }

private theorem init_threeOutside : (system (Fin 3)).init threeOutside := ⟨rfl, fun _ => rfl⟩

private def steps (t : Fin 3) (n : Nat) : List (Label (Fin 3)) := List.replicate n (.step t)

/-- `spin_lock_alt` and an unlock by one context, then `spin_lock` by another. -/
theorem mutuallyExclusive_reachable_threeOutside : ∃ s, ((system (Fin 3)).restrict ReadsOneMeaning).Reachable s ∧
    (s.pc 0 = .outside ∧ s.pc 1 = .inside) ∧ MutuallyExclusive s := by
  obtain ⟨s, hreach, hpc⟩ := TransitionSystem.exists_reachable_restrict_exec (f := State.next) ReadsOneMeaning
    init_threeOutside
    (.spinLockAlt 0 :: steps 0 2 ++ .spinUnlock 0 :: steps 0 1 ++ .spinLock 1 :: steps 1 4)
    (fun s => s.pc 0 = .outside ∧ s.pc 1 = .inside) (by decide)
  exact ⟨s, hreach, hpc, mutuallyExclusive_reachable hreach⟩

/-- A context that waits in `spin_lock_alt` leaves the byte at -1, which `spin_lock` takes for a free lock. -/
theorem not_mutuallyExclusive : ¬ ∀ (T : Type) [DecidableEq T] (s : State T), (system T).Reachable s →
    MutuallyExclusive s := by
  intro h
  obtain ⟨s, hreach, hfirst, hthird⟩ := TransitionSystem.exists_reachable_exec (f := State.next)
    init_threeOutside
    (.spinLockAlt 0 :: steps 0 2 ++ .spinLockAlt 1 :: steps 1 1 ++ .spinLock 2 :: steps 2 4)
    (fun s => s.pc 0 = .inside ∧ s.pc 2 = .inside) (by decide)
  have heq := h (Fin 3) s hreach 0 2 (by rw [hfirst]; rfl) (by rw [hthird]; rfl)
  exact absurd heq (by decide)

/-! ## Where the condition fails -/

section
variable {T : Type} [DecidableEq T] {s s' : State T} {owner : Option T} {t : T}

/-- An owner comes to its critical section, whatever the byte is. -/
theorem exists_run_holding (h : (s.pc t).owns = true) :
    ∃ ls s', (system T).Run s ls s' ∧ (s'.pc t).holding = true ∧ ∀ u, u ≠ t → s'.pc u = s.pc u := by
  have hstep : ∀ (s : State T) (pc : Pc), s.pc t = pc → ∀ pc', exec s.lock pc = some (s.lock, pc') →
      (system T).step s (.step t) (s.goto t pc') := by
    intro s pc hpc pc' hexec
    show (exec s.lock (s.pc t)).map _ = some _
    rw [hpc, hexec]
    rfl
  have hgoto : ∀ (s : State T) pc', (s.goto t pc').pc t = pc' := fun s pc' => Function.update_self ..
  have hother : ∀ (s : State T) pc' u, u ≠ t → (s.goto t pc').pc u = s.pc u := fun s pc' u hu =>
    Function.update_of_ne hu _ _
  cases hpc : s.pc t with
  | cmpDl dl =>
      rw [hpc] at h
      have hdl : (dl == 0) = false := by simpa [Pc.owns] using h
      refine ⟨_, _, .cons (hstep s _ hpc (.je false) (by rw [exec, hdl])) (.cons (hstep _ _ (hgoto ..) .inside rfl) (.nil _)), ?_, ?_⟩
      · rw [hgoto]
        rfl
      · intro u hu
        rw [hother _ _ u hu, hother _ _ u hu]
  | je zero =>
      rw [hpc] at h
      have hzero : zero = false := by simpa [Pc.owns] using h
      subst hzero
      refine ⟨_, _, .cons (hstep s _ hpc .inside rfl) (.nil _), ?_, hother s _⟩
      rw [hgoto]
      rfl
  | jns sign =>
      rw [hpc] at h
      have hsign : sign = false := by simpa [Pc.owns] using h
      subst hsign
      refine ⟨_, _, .cons (hstep s _ hpc .inside rfl) (.nil _), ?_, hother s _⟩
      rw [hgoto]
      rfl
  | inside | unlock => exact ⟨[], s, .nil s, by rw [hpc]; rfl, fun _ _ => rfl⟩
  | _ =>
      rw [hpc] at h
      cases h

/-- An ambiguous byte makes an owner of a context though the lock is not free. -/
theorem exec_ambiguous {lock lock' : BitVec 8} {pc pc' : Pc} (h : exec lock pc = some (lock', pc'))
    (hbyte : Unambiguous lock pc ≠ true) : pc.owns = false ∧ pc'.owns = true ∧ lock ≠ 1 := by
  cases pc with
  | xchgb =>
      cases h
      refine ⟨rfl, ?_⟩
      revert hbyte
      revert lock
      decide
  | decb =>
      cases h
      refine ⟨rfl, ?_⟩
      revert hbyte
      revert lock
      decide
  | _ => exact absurd rfl hbyte

/-- A step that does not meet the condition makes a second owner, and a run from there ends with both in their critical sections. -/
theorem exists_run_of_not_readsOneMeaning {l : Label T} (h : Inv s owner) (hok : ¬ ReadsOneMeaning s l)
    (hstep : s.next l = some s') : ∃ ls s'', (system T).Run s' ls s'' ∧ ¬ MutuallyExclusive s'' := by
  cases l with
  | spinLock t | spinLockAlt t | spinUnlock t => exact absurd trivial hok
  | step t =>
      obtain ⟨⟨lock, pc⟩, hexec, heq⟩ := Option.map_eq_some_iff.mp hstep
      cases heq
      obtain ⟨hbefore, hafter, hone⟩ := exec_ambiguous hexec hok
      obtain ⟨o, ho⟩ := Option.ne_none_iff_exists'.mp fun hnone => hone (h.free hnone)
      have howns := (h.owns o).mpr ho
      have hot : o ≠ t := by
        rintro rfl
        rw [howns] at hbefore
        cases hbefore
      have hself : Function.update s.pc t pc t = pc := Function.update_self ..
      obtain ⟨ls, s₁, hrun, ht, hother⟩ := exists_run_holding (s := { s.goto t pc with lock := lock }) (t := t)
        ((congrArg Pc.owns hself).trans hafter)
      have ho₁ : s₁.pc o = s.pc o := (hother o hot).trans (Function.update_of_ne hot _ _)
      obtain ⟨ls', s₂, hrun', ho₂, hother'⟩ := exists_run_holding (s := s₁) (t := o) (ho₁ ▸ howns)
      refine ⟨ls ++ ls', s₂, hrun.append hrun', fun hexcl => hot (hexcl o t ho₂ ?_)⟩
      rw [hother' t hot.symm]
      exact ht

/-! ## Without `spin_lock_alt` -/

def Pc.alt : Pc → Bool
  | decb | jns _ | cmpb | jle _ | jmp => true
  | _ => false

def OnlySpinLock (_ : State T) : Label T → Prop
  | .spinLockAlt _ => False
  | _ => True

theorem exec_plain {lock lock' : BitVec 8} {pc pc' : Pc} (h : exec lock pc = some (lock', pc')) (hpc : pc.alt = false)
    (hlock : lock = 0 ∨ lock = 1) : pc'.alt = false ∧ (lock' = 0 ∨ lock' = 1) ∧ Unambiguous lock pc = true := by
  cases pc with
  | xchgb =>
      cases h
      refine ⟨rfl, Or.inl rfl, ?_⟩
      obtain rfl | rfl := hlock <;> rfl
  | je zero =>
      cases h
      cases zero <;> exact ⟨rfl, hlock, rfl⟩
  | unlock =>
      cases h
      exact ⟨rfl, Or.inr rfl, rfl⟩
  | movb | cmpDl dl =>
      cases h
      exact ⟨rfl, hlock, rfl⟩
  | outside | inside => cases h
  | _ => cases hpc

/-- Without `spin_lock_alt` the byte is 0 or 1. -/
theorem plain_reachable (h : ((system T).restrict OnlySpinLock).Reachable s) :
    ((system T).restrict ReadsOneMeaning).Reachable s ∧ (s.lock = 0 ∨ s.lock = 1) ∧ ∀ t, (s.pc t).alt = false := by
  induction h with
  | init hinit => exact ⟨.init hinit, Or.inr hinit.1, fun t => by rw [hinit.2 t]; rfl⟩
  | @step s s' l hr hs ih =>
      obtain ⟨hreach, hlock, hplain⟩ := ih
      obtain ⟨honly, hnext⟩ := hs
      have hreach' : ReadsOneMeaning s l → ((system T).restrict ReadsOneMeaning).Reachable s' := fun hok =>
        .step hreach ⟨hok, hnext⟩
      have hgoto : ∀ t pc, pc.alt = false → ∀ u, ((s.goto t pc).pc u).alt = false := by
        intro t pc hpc u
        show (Function.update s.pc t pc u).alt = false
        by_cases hu : u = t
        · rw [hu, Function.update_self]
          exact hpc
        · rw [Function.update_of_ne hu]
          exact hplain u
      cases l with
      | spinLockAlt t => exact absurd honly id
      | spinLock t | spinUnlock t =>
          refine ⟨hreach' trivial, ?_⟩
          obtain ⟨-, heq⟩ := Option.ite_none_right_eq_some.mp hnext
          cases heq
          exact ⟨hlock, hgoto _ _ rfl⟩
      | step t =>
          obtain ⟨⟨lock, pc⟩, hexec, heq⟩ := Option.map_eq_some_iff.mp hnext
          obtain ⟨hpc, hlock', hok⟩ := exec_plain hexec (hplain t) hlock
          refine ⟨hreach' hok, ?_⟩
          cases heq
          exact ⟨hlock', hgoto t pc hpc⟩

/-- The locks of the kernel, which are only taken by `spin_lock`. -/
theorem mutuallyExclusive_of_onlySpinLock (h : ((system T).restrict OnlySpinLock).Reachable s) : MutuallyExclusive s :=
  mutuallyExclusive_reachable (plain_reachable h).1

end

end I386Kernel.SpinLock
