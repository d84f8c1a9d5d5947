import Mathlib.Tactic.Common

/-!
# First-fit search

Runs of consecutive indices that satisfy a predicate, and the invariant of a left-to-right scan for the first such run. The scan keeps one candidate start and moves it past every index that fails, so the candidates it has dropped can never start a run; `Scanning` says this, with one lemma for each thing a scan can do next.
-/

namespace FirstFit

variable {p : Nat → Prop} {bound n start first cur : Nat}

/-- The `n` indices from `i` on satisfy `p` and end at or before `bound`. -/
def Run (p : Nat → Prop) (bound n i : Nat) : Prop :=
  i + n ≤ bound ∧ ∀ j, i ≤ j → j < i + n → p j

/-- `i` is the least index from `start` on where a run begins. -/
structure IsFirst (p : Nat → Prop) (bound n start i : Nat) : Prop where
  le : start ≤ i
  run : Run p bound n i
  least : ∀ i', start ≤ i' → i' < i → ¬ Run p bound n i'

theorem Run.congr {q : Nat → Prop} {i : Nat} (h : Run p bound n i)
    (hpq : ∀ j, j < bound → (p j ↔ q j)) : Run q bound n i :=
  ⟨h.1, fun j hij hjn => (hpq j (by have := h.1; omega)).mp (h.2 j hij hjn)⟩

theorem run_congr {q : Nat → Prop} (hpq : ∀ j, j < bound → (p j ↔ q j)) (i : Nat) :
    Run p bound n i ↔ Run q bound n i :=
  ⟨fun h => h.congr hpq, fun h => h.congr fun j hj => (hpq j hj).symm⟩

theorem not_run_of_blocked {i j : Nat} (hj : ¬ p j) (hij : i ≤ j) (hjn : j < i + n) :
    ¬ Run p bound n i :=
  fun h => hj (h.2 j hij hjn)

theorem IsFirst.unique {i i' : Nat} (h : IsFirst p bound n start i) (h' : IsFirst p bound n start i') :
    i = i' := by
  rcases Nat.lt_trichotomy i i' with hlt | heq | hgt
  · exact absurd h.run (h'.least i h.le hlt)
  · exact heq
  · exact absurd h'.run (h.least i' h'.le hgt)

/-- A scan from `start` that is at `cur` with the candidate start `first`. -/
structure Scanning (p : Nat → Prop) (bound n start first cur : Nat) : Prop where
  start_le : start ≤ first
  first_le : first ≤ cur
  cur_lt : cur < first + n
  good : ∀ j, first ≤ j → j < cur → p j
  dropped : ∀ i, start ≤ i → i < first → ¬ Run p bound n i

theorem scanning_start (hn : 0 < n) : Scanning p bound n start start start where
  start_le := Nat.le_refl _
  first_le := Nat.le_refl _
  cur_lt := by omega
  good := fun j hj hjn => by omega
  dropped := fun i hi hin => by omega

theorem Scanning.hit (h : Scanning p bound n start first cur) (hp : p cur) (hlt : cur + 1 < first + n) :
    Scanning p bound n start first (cur + 1) where
  start_le := h.start_le
  first_le := by have := h.first_le; omega
  cur_lt := hlt
  good := fun j hj hjc => by
    by_cases heq : j = cur
    · rw [heq]
      exact hp
    · exact h.good j hj (by omega)
  dropped := h.dropped

theorem Scanning.found (h : Scanning p bound n start first cur) (hp : p cur)
    (hlast : cur + 1 = first + n) (hbound : first + n ≤ bound) : IsFirst p bound n start first where
  le := h.start_le
  run := by
    refine ⟨hbound, fun j hj hjn => ?_⟩
    by_cases heq : j = cur
    · rw [heq]
      exact hp
    · exact h.good j hj (by omega)
  least := h.dropped

/-- Every start up to the failing index would have to run across it. -/
theorem Scanning.miss (h : Scanning p bound n start first cur) (hp : ¬ p cur) :
    Scanning p bound n start (cur + 1) (cur + 1) where
  start_le := by have := h.start_le; have := h.first_le; omega
  first_le := Nat.le_refl _
  cur_lt := by have := h.cur_lt; have := h.first_le; omega
  good := fun j hj hjc => by omega
  dropped := fun i hi hic => by
    by_cases hfirst : i < first
    · exact h.dropped i hi hfirst
    · have := h.cur_lt
      exact not_run_of_blocked hp (by omega) (by omega)

theorem Scanning.exhausted (h : Scanning p bound n start first cur) (hbound : bound < first + n) :
    ∀ i, start ≤ i → ¬ Run p bound n i := by
  intro i hi hrun
  by_cases hfirst : i < first
  · exact h.dropped i hi hfirst hrun
  · have := hrun.1
    omega

end FirstFit
