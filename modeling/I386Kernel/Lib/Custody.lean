import Mathlib.Data.List.Basic
import Mathlib.Logic.Function.Basic
import Mathlib.Logic.Relation

/-!
# Custody

Threads with a stack of frames each, and resources that a frame may hold. Under custody a resource with a holder is held by exactly one frame of that thread, and a resource without one is held by no frame at all. A thread that replaces its top frame keeps custody when the resources it gains were free and those it drops become free. Frames that take their resources in order do not wait for each other in a circle.
-/

variable {T F R : Type*} [DecidableEq T]

def Custody (holds : T → F → R → Bool) (frames : T → List F) (holder : R → Option T) : Prop :=
  ∀ t r, (frames t).countP (holds t · r) = if holder r = some t then 1 else 0

namespace Custody

variable {holds : T → F → R → Bool} {frames : T → List F} {holder holder' : R → Option T} {t u : T} {r : R}
  {f g : F} {rest : List F}

theorem holder_of_mem (h : Custody holds frames holder) (hmem : f ∈ frames t) (hf : holds t f r = true) :
    holder r = some t := by
  by_contra hne
  have hcount := h t r
  rw [if_neg hne, List.countP_eq_zero] at hcount
  exact hcount f hmem hf

theorem exists_of_holder (h : Custody holds frames holder) (hr : holder r = some t) :
    ∃ f ∈ frames t, holds t f r = true := by
  have hcount := h t r
  rw [if_pos hr] at hcount
  exact List.countP_pos_iff.mp (by omega)

theorem free_of_none (h : Custody holds frames holder) (hr : holder r = none) (hmem : f ∈ frames t) :
    holds t f r = false := by
  by_contra hf
  have := h.holder_of_mem hmem (by simpa using hf)
  rw [hr] at this
  cases this

/-- Two threads do not hold one resource. -/
theorem thread_unique (h : Custody holds frames holder) (hf : f ∈ frames t) (hg : g ∈ frames u)
    (hft : holds t f r = true) (hgu : holds u g r = true) : t = u :=
  Option.some.inj ((h.holder_of_mem hf hft).symm.trans (h.holder_of_mem hg hgu))

/-- What the top frame holds, no frame below it holds. -/
theorem rest_free (h : Custody holds frames holder) (hframes : frames t = f :: rest) (hf : holds t f r = true)
    (hg : g ∈ rest) : holds t g r = false := by
  have hhold := h.holder_of_mem (hframes ▸ List.mem_cons_self ..) hf
  have hcount := h t r
  rw [hframes, List.countP_cons, hf, if_pos rfl, if_pos hhold] at hcount
  have hzero : rest.countP (holds t · r) = 0 := by omega
  simpa using List.countP_eq_zero.mp hzero g hg

/-- What the top frame of `t` holds, no other frame holds. -/
theorem others_free (h : Custody holds frames holder) (hframes : frames t = f :: rest) (hf : holds t f r = true)
    (hg : (u = t ∧ g ∈ rest) ∨ (u ≠ t ∧ g ∈ frames u)) : holds u g r = false := by
  obtain ⟨rfl, hg⟩ | ⟨hne, hg⟩ := hg
  · exact h.rest_free hframes hf hg
  · by_contra hgu
    exact hne (h.thread_unique hg (hframes ▸ List.mem_cons_self ..) (by simpa using hgu) hf)

/-- One resource changes as its count does, seen by the thread `t` that replaces its stack. -/
theorem update (h : Custody holds frames holder) {stack : List F}
    (hkeep : ∀ u r, u ≠ t → (holder' r = some u ↔ holder r = some u))
    (hstack : ∀ r, stack.countP (holds t · r) = if holder' r = some t then 1 else 0) :
    Custody holds (Function.update frames t stack) holder' := by
  intro u r
  by_cases hu : u = t
  · subst hu
    rw [Function.update_self]
    exact hstack r
  · rw [Function.update_of_ne hu, h u r]
    exact if_congr (hkeep u r hu).symm rfl rfl

/-- A new top frame of `t` takes resources that were free. -/
theorem enter (h : Custody holds frames holder) (hg : ∀ r, (holds t g r = false ∧ holder' r = holder r) ∨
    (holds t g r = true ∧ holder r = none ∧ holder' r = some t)) :
    Custody holds (Function.update frames t (g :: frames t)) holder' := by
  refine h.update (fun u r hu => ?_) fun r => ?_
  · obtain ⟨-, heq⟩ | ⟨-, hnone, hsome⟩ := hg r
    · rw [heq]
    · rw [hnone, hsome]
      exact ⟨fun heq => absurd (Option.some.inj heq).symm hu, nofun⟩
  · rw [List.countP_cons, h t r]
    obtain ⟨hfree, heq⟩ | ⟨htakes, hnone, hsome⟩ := hg r
    · rw [hfree, heq]
      exact Nat.add_zero _
    · rw [htakes, hnone, hsome, if_neg (Option.some_ne_none t).symm, if_pos rfl, if_pos rfl]

theorem push (h : Custody holds frames holder) (hg : ∀ r, holds t g r = false) :
    Custody holds (Function.update frames t (g :: frames t)) holder :=
  h.enter fun r => Or.inl ⟨hg r, rfl⟩

theorem pop (h : Custody holds frames holder) (hframes : frames t = f :: rest) (hf : ∀ r, holds t f r = false) :
    Custody holds (Function.update frames t rest) holder := by
  refine h.update (fun _ _ _ => Iff.rfl) fun r => ?_
  have hcount := h t r
  rw [hframes, List.countP_cons, hf r] at hcount
  exact hcount

/-- The top frame of `t` becomes `g`; a resource it gains or drops was free or becomes free, and the others keep their holder. -/
theorem replace (h : Custody holds frames holder) (hframes : frames t = f :: rest)
    (hchange : ∀ r, (holds t g r = holds t f r ∧ holder' r = holder r) ∨
      (holds t f r = false ∧ holds t g r = true ∧ holder r = none ∧ holder' r = some t) ∨
      (holds t f r = true ∧ holds t g r = false ∧ holder' r = none)) :
    Custody holds (Function.update frames t (g :: rest)) holder' := by
  refine h.update (fun u r hu => ?_) fun r => ?_
  · obtain ⟨-, heq⟩ | ⟨-, -, hnone, hsome⟩ | ⟨hf, -, hnone⟩ := hchange r
    · rw [heq]
    · rw [hnone, hsome]
      exact ⟨fun heq => absurd (Option.some.inj heq).symm hu, nofun⟩
    · rw [hnone, h.holder_of_mem (hframes ▸ List.mem_cons_self ..) hf]
      exact ⟨nofun, fun heq => absurd (Option.some.inj heq).symm hu⟩
  · have hcount := h t r
    rw [hframes, List.countP_cons] at hcount
    rw [List.countP_cons]
    obtain ⟨hsame, heq⟩ | ⟨hf, hg, hnone, hsome⟩ | ⟨hf, hg, hnone⟩ := hchange r
    · rw [hsame, heq]
      exact hcount
    · rw [hf, hnone] at hcount
      rw [hg, hsome, if_pos rfl, if_pos rfl]
      simpa using hcount
    · rw [hf, h.holder_of_mem (hframes ▸ List.mem_cons_self ..) hf, if_pos rfl, if_pos rfl] at hcount
      rw [hg, hnone]
      simpa using hcount

/-- The other threads' frames and the holders may be given by equal functions. -/
theorem congr (h : Custody holds frames holder) {frames' : T → List F} (hframes : ∀ t, frames' t = frames t)
    (hholder : ∀ r, holder' r = holder r) : Custody holds frames' holder' := by
  intro t r
  rw [hframes, hholder]
  exact h t r

/-! ## One resource a frame -/

variable [DecidableEq R] {charge : T → F → Option R}

/-- The holders after `t` gives up `old` and takes `new`. -/
def handed (t : T) (old new : Option R) (holder : R → Option T) (r : R) : Option T :=
  if new = some r then some t else if old = some r then none else holder r

/-- The change of a top frame whose charge goes over to the new one, or was free, is one that `replace` allows. -/
theorem handed_change (h : Custody (fun t f r => decide (charge t f = some r)) frames holder)
    (hframes : frames t = f :: rest) (hgained : charge t g = some r → charge t f = some r ∨ holder r = none) :
    (decide (charge t g = some r) = decide (charge t f = some r) ∧
        handed t (charge t f) (charge t g) holder r = holder r) ∨
      (decide (charge t f = some r) = false ∧ decide (charge t g = some r) = true ∧ holder r = none ∧
        handed t (charge t f) (charge t g) holder r = some t) ∨
      (decide (charge t f = some r) = true ∧ decide (charge t g = some r) = false ∧
        handed t (charge t f) (charge t g) holder r = none) := by
  by_cases hg : charge t g = some r
  · have hnew : handed t (charge t f) (charge t g) holder r = some t := if_pos hg
    by_cases hf : charge t f = some r
    · refine Or.inl ⟨by rw [hf, hg], hnew.trans (Eq.symm ?_)⟩
      exact h.holder_of_mem (hframes ▸ List.mem_cons_self ..) (decide_eq_true hf)
    · exact Or.inr (Or.inl ⟨decide_eq_false hf, decide_eq_true hg, (hgained hg).resolve_left hf, hnew⟩)
  · by_cases hf : charge t f = some r
    · exact Or.inr (Or.inr ⟨decide_eq_true hf, decide_eq_false hg, (if_neg hg).trans (if_pos hf)⟩)
    · exact Or.inl ⟨(decide_eq_false hg).trans (decide_eq_false hf).symm, (if_neg hg).trans (if_neg hf)⟩

omit [DecidableEq T] in
theorem of_handed_eq_none {old new : Option R} (h : handed t old new holder r = none) :
    new ≠ some r ∧ (old = some r ∨ holder r = none) := by
  have hnew : new ≠ some r := by
    intro hnew
    rw [handed, if_pos hnew] at h
    cases h
  refine ⟨hnew, ?_⟩
  by_cases hold : old = some r
  · exact Or.inl hold
  · rw [handed, if_neg hnew, if_neg hold] at h
    exact Or.inr h

/-! ## Waiting -/

/-- One frame wants a resource that the other holds. -/
def Waits {F R : Type*} (wants holds : F → R → Prop) (f g : F) : Prop := ∃ r, wants f r ∧ holds g r

/-- Where a frame only wants resources of a higher rank than those it holds, no frames wait in a circle. -/
theorem not_waits_cycle {F R : Type*} {wants holds : F → R → Prop} {rank : R → Nat}
    (horder : ∀ f r r', wants f r → holds f r' → rank r' < rank r) (f : F) :
    ¬ Relation.TransGen (Waits wants holds) f f := by
  have hchain : ∀ g, Relation.TransGen (Waits wants holds) f g → ∃ r r', wants f r ∧ holds g r' ∧ rank r ≤ rank r' := by
    intro g hg
    induction hg with
    | single hw =>
        obtain ⟨r, hwants, hholds⟩ := hw
        exact ⟨r, r, hwants, hholds, Nat.le_refl _⟩
    | tail _ hw ih =>
        obtain ⟨r, r', hwants, hholds, hle⟩ := ih
        obtain ⟨r'', hwants', hholds'⟩ := hw
        exact ⟨r, r'', hwants, hholds', Nat.le_trans hle (Nat.le_of_lt (horder _ _ _ hwants' hholds))⟩
  intro hcycle
  obtain ⟨r, r', hwants, hholds, hle⟩ := hchain f hcycle
  exact absurd hle (Nat.not_le_of_lt (horder f r r' hwants hholds))

end Custody
