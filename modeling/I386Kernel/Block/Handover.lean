import I386Kernel.Block.Channel

/-!
# Who has a channel

`sema_rw` under `sema_down` and `sema_up` of the kernel: which request has the channel or is promised it, and how far the count has run ahead of the units that are free. A `sema_up` that wakes a waiter counts the unit it hands over.
-/

namespace I386Kernel.Ide.SerialOrder

variable {n : Nat}

/-- `sema_up` counts a unit, and may hand it to a waiter as well. -/
theorem up_cases (s : Sema (Fin n)) :
    (codeSema (Fin n)).up s = { s with count := int32 (s.count + 1) } ∨
      ∃ t wait, s.wait = t :: wait ∧ (codeSema (Fin n)).up s =
        ⟨int32 (s.count + 1), wait, t :: s.woken, s.popped + 1⟩ := by
  show (if int32 (s.count + 1) > 0 then _ else _) = _ ∨ ∃ t wait, _ ∧ (if int32 (s.count + 1) > 0 then _ else _) = _
  by_cases hpos : int32 (s.count + 1) > 0
  · rw [if_pos hpos]
    cases hwait : s.wait with
    | nil => exact Or.inl rfl
    | cons t wait => exact Or.inr ⟨t, wait, rfl, rfl⟩
  · exact Or.inl (if_neg hpos)

def inSection (a : Active) : Bool :=
  match a.pc with
  | .rwDown | .rwWait => false
  | _ => true

/-- The owner has the channel or is promised it; its unit is not counted by `sema_rw`, but every hand-over has counted one too many. -/
structure Owns (m : Machine n (codeSema (Fin n))) (owner : Option (Fin n)) : Prop where
  range : -2 ^ 31 ≤ m.semaRw.count
  count : m.semaRw.count ≤ m.semaRw.popped + if owner = none then 1 else 0
  place : ∀ t a, m.active t = some a → (owner = some t ↔ inSection a = true ∨ t ∈ m.semaRw.woken)
  woken : ∀ t ∈ m.semaRw.woken, m.semaRw.woken = [t] ∧ ∃ a, m.active t = some a ∧ a.pc = .rwWait
  wait : ∀ t ∈ m.semaRw.wait, owner ≠ some t ∧ ∃ a, m.active t = some a ∧ a.pc = .rwWait
  nodup : m.semaRw.wait.Nodup

namespace Owns

variable {m m' : Machine n (codeSema (Fin n))} {owner : Option (Fin n)} {t : Fin n} {a a' : Active}

theorem not_woken (h : Owns m owner) (hactive : m.active t = some a) (hpc : a.pc ≠ .rwWait) : t ∉ m.semaRw.woken := by
  intro hwoken
  obtain ⟨-, b, hb, hbpc⟩ := h.woken t hwoken
  rw [hactive] at hb
  cases hb
  exact hpc hbpc

theorem not_wait (h : Owns m owner) (hactive : m.active t = some a) (hpc : a.pc ≠ .rwWait) : t ∉ m.semaRw.wait := by
  intro hwait
  obtain ⟨-, b, hb, hbpc⟩ := h.wait t hwait
  rw [hactive] at hb
  cases hb
  exact hpc hbpc

/-- `sema_rw` and the requests are left alone. -/
theorem congr (h : Owns m owner) (hactive : m'.active = m.active) (hrw : m'.semaRw = m.semaRw) : Owns m' owner := by
  constructor
  all_goals rw [hrw]
  · exact h.range
  · exact h.count
  · rw [hactive]
    exact h.place
  · rw [hactive]
    exact h.woken
  · rw [hactive]
    exact h.wait
  · exact h.nodup

/-- A request goes on, or a new one is made, without `sema_rw`. -/
theorem goto (h : Owns m owner) (hupdate : m'.active = Function.update m.active t (some a')) (hrw : m'.semaRw = m.semaRw)
    (hplace : owner = some t ↔ inSection a' = true) (hwoken : t ∉ m.semaRw.woken) (hwait : t ∉ m.semaRw.wait) :
    Owns m' owner := by
  have hother : ∀ u, u ≠ t → m'.active u = m.active u := fun u hu => by rw [hupdate, Function.update_of_ne hu]
  constructor
  · rw [hrw]
    exact h.range
  · rw [hrw]
    exact h.count
  · intro u b hb
    rw [hrw]
    by_cases hut : u = t
    · rw [hut, hupdate, Function.update_self] at hb
      cases hb
      rw [hut, hplace]
      exact (or_iff_left hwoken).symm
    · rw [hother u hut] at hb
      exact h.place u b hb
  · rw [hrw]
    intro u hu
    rw [hother u fun heq => hwoken (heq ▸ hu)]
    exact h.woken u hu
  · rw [hrw]
    intro u hu
    rw [hother u fun heq => hwait (heq ▸ hu)]
    exact h.wait u hu
  · rw [hrw]
    exact h.nodup

/-- `sema_down(&sema_rw)` finds no unit. -/
theorem block (h : Owns m owner) (hactive : m.active t = some a) (hpc : a.pc = .rwDown)
    (hupdate : m'.active = Function.update m.active t (some a')) (hpc' : a'.pc = .rwWait)
    (hrw : m'.semaRw = { m.semaRw with wait := t :: m.semaRw.wait }) : Owns m' owner := by
  have hself : m'.active t = some a' := by rw [hupdate, Function.update_self]
  have hother : ∀ u, u ≠ t → m'.active u = m.active u := fun u hu => by rw [hupdate, Function.update_of_ne hu]
  have hne : a.pc ≠ .rwWait := by
    rw [hpc]
    decide
  have hwoken := h.not_woken hactive hne
  have howner : owner ≠ some t := by
    rw [Ne, h.place t a hactive, inSection, hpc]
    exact not_or.mpr ⟨Bool.false_ne_true, hwoken⟩
  constructor
  · rw [hrw]
    exact h.range
  · rw [hrw]
    exact h.count
  · intro u b hb
    rw [hrw]
    by_cases hut : u = t
    · rw [hut, hself] at hb
      cases hb
      rw [hut, inSection, hpc']
      exact iff_of_false howner (not_or.mpr ⟨Bool.false_ne_true, hwoken⟩)
    · rw [hother u hut] at hb
      exact h.place u b hb
  · rw [hrw]
    intro u hu
    rw [hother u fun heq => hwoken (heq ▸ hu)]
    exact h.woken u hu
  · rw [hrw]
    intro u hu
    by_cases hut : u = t
    · rw [hut]
      exact ⟨howner, a', hself, hpc'⟩
    · rw [hother u hut]
      exact h.wait u ((List.mem_cons.mp hu).resolve_left hut)
  · rw [hrw]
    exact List.nodup_cons.mpr ⟨h.not_wait hactive hne, h.nodup⟩

/-- `sema_down(&sema_rw)` takes a unit that is nobody's. -/
theorem pass (h : Owns m owner) (hactive : m.active t = some a) (hpc : a.pc = .rwDown)
    (hunit : (m.semaRw.popped : Int) < m.semaRw.count) (hupdate : m'.active = Function.update m.active t (some a'))
    (hpc' : inSection a' = true) (hrw : m'.semaRw = { m.semaRw with count := m.semaRw.count - 1 }) :
    owner = none ∧ Owns m' (some t) := by
  have hself : m'.active t = some a' := by rw [hupdate, Function.update_self]
  have hother : ∀ u, u ≠ t → m'.active u = m.active u := fun u hu => by rw [hupdate, Function.update_of_ne hu]
  have hne : a.pc ≠ .rwWait := by
    rw [hpc]
    decide
  have hcount := h.count
  have howner : owner = none := by
    by_contra hsome
    rw [if_neg hsome] at hcount
    omega
  rw [if_pos howner] at hcount
  have hwoken : ∀ u, u ∉ m.semaRw.woken := by
    intro u hu
    obtain ⟨-, b, hb, -⟩ := h.woken u hu
    have hcontra := (h.place u b hb).mpr (Or.inr hu)
    rw [howner] at hcontra
    cases hcontra
  refine ⟨howner, ?_⟩
  constructor
  · rw [hrw]
    show -2 ^ 31 ≤ m.semaRw.count - 1
    omega
  · rw [hrw, if_neg (Option.some_ne_none t)]
    show m.semaRw.count - 1 ≤ m.semaRw.popped + 0
    omega
  · intro u b hb
    rw [hrw]
    by_cases hut : u = t
    · rw [hut, hself] at hb
      cases hb
      rw [hut]
      exact iff_of_true rfl (Or.inl hpc')
    · rw [hother u hut] at hb
      rw [← h.place u b hb, howner]
      exact iff_of_false (fun heq => hut (Option.some.inj heq).symm) (Option.some_ne_none u).symm
  · rw [hrw]
    exact fun u hu => absurd hu (hwoken u)
  · rw [hrw]
    intro u hu
    have hut : u ≠ t := fun heq => h.not_wait hactive hne (heq ▸ hu)
    rw [hother u hut]
    exact ⟨fun heq => hut (Option.some.inj heq).symm, (h.wait u hu).2⟩
  · rw [hrw]
    exact h.nodup

/-- A woken task goes on. -/
theorem resume (h : Owns m owner) (hactive : m.active t = some a) (hwoken : t ∈ m.semaRw.woken)
    (hupdate : m'.active = Function.update m.active t (some a')) (hpc' : inSection a' = true)
    (hrw : m'.semaRw = { m.semaRw with woken := m.semaRw.woken.erase t }) : owner = some t ∧ Owns m' (some t) := by
  have hself : m'.active t = some a' := by rw [hupdate, Function.update_self]
  have hother : ∀ u, u ≠ t → m'.active u = m.active u := fun u hu => by rw [hupdate, Function.update_of_ne hu]
  have howner : owner = some t := (h.place t a hactive).mpr (Or.inr hwoken)
  rw [howner] at h
  have hempty : m'.semaRw.woken = [] := by
    rw [hrw]
    show m.semaRw.woken.erase t = []
    rw [(h.woken t hwoken).1]
    exact List.erase_cons_head ..
  refine ⟨howner, ?_⟩
  constructor
  · rw [hrw]
    exact h.range
  · rw [hrw]
    exact h.count
  · intro u b hb
    rw [hempty]
    by_cases hut : u = t
    · rw [hut, hself] at hb
      cases hb
      rw [hut]
      exact iff_of_true rfl (Or.inl hpc')
    · rw [hother u hut] at hb
      have hplace := h.place u b hb
      have hne : some t ≠ some u := fun heq => hut (Option.some.inj heq).symm
      refine iff_of_false hne (not_or.mpr ⟨fun hin => hne (hplace.mpr (Or.inl hin)), List.not_mem_nil⟩)
  · rw [hempty]
    exact fun u hu => absurd hu List.not_mem_nil
  · rw [hrw]
    intro u hu
    obtain ⟨hne, hplace⟩ := h.wait u hu
    have hut : u ≠ t := fun heq => hne (heq ▸ rfl)
    rw [hother u hut]
    exact ⟨hne, hplace⟩
  · rw [hrw]
    exact h.nodup

/-- A waiter is moved off the wait list. -/
theorem unlink (h : Owns m owner) (t : Fin n) (hactive : m'.active = m.active)
    (hrw : m'.semaRw = (codeSema (Fin n)).unlink t m.semaRw) : Owns m' owner := by
  constructor
  all_goals rw [hrw]
  · exact h.range
  · exact h.count
  · rw [hactive]
    exact h.place
  · rw [hactive]
    exact h.woken
  · rw [hactive]
    exact fun u hu => h.wait u (List.mem_of_mem_erase hu)
  · exact h.nodup.erase t

/-- The owner returns: the channel is free, or it is promised to a waiter. -/
theorem leave (h : Owns m (some t)) (hactive : m.active t = some a) (hsection : inSection a = true)
    (hupdate : m'.active = Function.update m.active t none) (hrw : m'.semaRw = (codeSema (Fin n)).up m.semaRw) :
    Owns m' none ∨ ∃ u b, Owns m' (some u) ∧ m'.active u = some b ∧ b.pc = .rwWait := by
  have hother : ∀ u b, m'.active u = some b → u ≠ t ∧ m.active u = some b := by
    intro u b hb
    by_cases hut : u = t
    · rw [hupdate, hut, Function.update_self] at hb
      cases hb
    · rw [hupdate, Function.update_of_ne hut] at hb
      exact ⟨hut, hb⟩
  have hne : a.pc ≠ .rwWait := by
    intro hpc
    rw [inSection, hpc] at hsection
    cases hsection
  have hempty : m.semaRw.woken = [] := by
    refine List.eq_nil_iff_forall_not_mem.mpr fun u hu => ?_
    obtain ⟨-, b, hb, -⟩ := h.woken u hu
    have hself := (h.place u b hb).mpr (Or.inr hu)
    rw [← Option.some.inj hself] at hu
    exact h.not_woken hactive hne hu
  have hout : ∀ u b, m'.active u = some b → inSection b = false := by
    intro u b hb
    obtain ⟨hut, hb⟩ := hother u b hb
    rw [← Bool.not_eq_true]
    exact fun hin => hut (Option.some.inj ((h.place u b hb).mpr (Or.inl hin))).symm
  have hwait : ∀ u ∈ m.semaRw.wait, ∃ b, m'.active u = some b ∧ b.pc = .rwWait := by
    intro u hu
    obtain ⟨hut, hplace⟩ := h.wait u hu
    rw [hupdate, Function.update_of_ne fun heq => hut (congrArg some heq.symm)]
    exact hplace
  obtain ⟨hlow, hle⟩ := int32_le (n := m.semaRw.count + 1) (by have := h.range; omega)
  have hcount := h.count
  rw [if_neg (Option.some_ne_none t)] at hcount
  obtain hfree | ⟨u, wait, hwaiters, hpop⟩ := up_cases m.semaRw
  · rw [hfree] at hrw
    refine Or.inl ?_
    constructor
    · rw [hrw]
      exact hlow
    · rw [hrw, if_pos rfl]
      show int32 (m.semaRw.count + 1) ≤ m.semaRw.popped + 1
      omega
    · intro u b hb
      rw [hrw, hout u b hb]
      show none = some u ↔ false = true ∨ u ∈ m.semaRw.woken
      rw [hempty]
      exact iff_of_false (Option.some_ne_none u).symm (not_or.mpr ⟨Bool.false_ne_true, List.not_mem_nil⟩)
    · rw [hrw]
      show ∀ u ∈ m.semaRw.woken, _
      rw [hempty]
      exact fun u hu => absurd hu List.not_mem_nil
    · rw [hrw]
      exact fun u hu => ⟨(Option.some_ne_none u).symm, hwait u hu⟩
    · rw [hrw]
      exact h.nodup
  · rw [hpop] at hrw
    have hnodup := h.nodup
    rw [hwaiters, List.nodup_cons] at hnodup
    obtain ⟨b, hb, hpc⟩ := hwait u (by rw [hwaiters]; exact List.mem_cons_self)
    refine Or.inr ⟨u, b, ?_, hb, hpc⟩
    constructor
    · rw [hrw]
      exact hlow
    · rw [hrw, if_neg (Option.some_ne_none u)]
      show int32 (m.semaRw.count + 1) ≤ (m.semaRw.popped + 1 : Nat) + 0
      omega
    · intro v c hc
      rw [hrw, hout v c hc]
      show some u = some v ↔ false = true ∨ v ∈ u :: m.semaRw.woken
      rw [hempty, List.mem_singleton, Option.some_inj, eq_comm]
      exact (or_iff_right Bool.false_ne_true).symm
    · rw [hrw]
      show ∀ v ∈ u :: m.semaRw.woken, u :: m.semaRw.woken = [v] ∧ _
      rw [hempty]
      intro v hv
      rw [List.mem_singleton.mp hv]
      exact ⟨rfl, b, hb, hpc⟩
    · rw [hrw]
      intro v hv
      refine ⟨fun heq => ?_, hwait v (by rw [hwaiters]; exact List.mem_cons_of_mem _ hv)⟩
      rw [← Option.some.inj heq] at hv
      exact hnodup.1 hv
    · rw [hrw]
      exact hnodup.2

end Owns

end I386Kernel.Ide.SerialOrder
