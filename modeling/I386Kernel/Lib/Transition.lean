import Mathlib.Tactic.Common

/-!
# Transition systems

Labelled transition systems, their reachable states and the invariant rule. A system given by a partial step function also runs on a list of labels, so that a concrete run can be evaluated and then read as a reachable state. `restrict` keeps the steps that meet a condition on the state before them, and `record` counts along with the steps from some state on.
-/

/-- Initial states and labelled steps. -/
structure TransitionSystem (S L : Type) where
  init : S → Prop
  step : S → L → S → Prop

namespace TransitionSystem

variable {S L : Type} (T : TransitionSystem S L)

inductive Reachable : S → Prop
  | init {s : S} : T.init s → Reachable s
  | step {s s' : S} {l : L} : Reachable s → T.step s l s' → Reachable s'

/-- A property that holds initially and is kept by every step from a reachable state holds in every reachable state. -/
theorem invariant {P : S → Prop} (hinit : ∀ s, T.init s → P s)
    (hstep : ∀ s l s', T.Reachable s → P s → T.step s l s' → P s') {s : S} (h : T.Reachable s) : P s := by
  induction h with
  | init h0 => exact hinit _ h0
  | step hr hs ih => exact hstep _ _ _ hr ih hs

/-- The runs whose steps all meet `ok`, a condition on the state before the step and its label. -/
def restrict (ok : S → L → Prop) : TransitionSystem S L where
  init := T.init
  step := fun s l s' => ok s l ∧ T.step s l s'

theorem reachable_of_restrict {ok : S → L → Prop} {s : S} (h : (T.restrict ok).Reachable s) :
    T.Reachable s := by
  induction h with
  | init h0 => exact .init h0
  | step _ hs ih => exact .step ih hs.2

theorem restrict_mono {ok ok' : S → L → Prop} (himp : ∀ s l, ok s l → ok' s l) {s : S}
    (h : (T.restrict ok).Reachable s) : (T.restrict ok').Reachable s := by
  induction h with
  | init h0 => exact .init h0
  | step _ hs ih => exact .step ih ⟨himp _ _ hs.1, hs.2⟩

/-- The runs from the reachable states that meet `start`, with a record of the steps that no step looks at. -/
def record {H : Type} (start : S → Prop) (h₀ : H) (after : S → L → H → H) : TransitionSystem (S × H) L where
  init := fun p => T.Reachable p.1 ∧ start p.1 ∧ p.2 = h₀
  step := fun p l p' => T.step p.1 l p'.1 ∧ p'.2 = after p.1 l p.2

theorem reachable_of_record {H : Type} {start : S → Prop} {h₀ : H} {after : S → L → H → H} {p : S × H}
    (h : (T.record start h₀ after).Reachable p) : T.Reachable p.1 := by
  induction h with
  | init h0 => exact h0.1
  | step _ hs ih => exact .step ih hs.1

theorem record_of_restrict {H : Type} {start : S → Prop} {h₀ : H} {after : S → L → H → H} {ok : S → L → Prop} {p : S × H}
    (h : ((T.restrict ok).record start h₀ after).Reachable p) : (T.record start h₀ after).Reachable p := by
  induction h with
  | init h0 => exact .init ⟨T.reachable_of_restrict h0.1, h0.2⟩
  | step _ hs ih => exact .step ih ⟨hs.1.2, hs.2⟩

/-- The labels of the steps from one state to another. -/
inductive Run : S → List L → S → Prop
  | nil (s : S) : Run s [] s
  | cons {s s' s'' : S} {l : L} {ls : List L} : T.step s l s' → Run s' ls s'' → Run s (l :: ls) s''

theorem Run.append {T : TransitionSystem S L} {s s' s'' : S} {ls ls' : List L} (h : T.Run s ls s')
    (h' : T.Run s' ls' s'') : T.Run s (ls ++ ls') s'' := by
  induction h with
  | nil s => exact h'
  | cons hs _ ih => exact .cons hs (ih h')

theorem Run.mono {T : TransitionSystem S L} {ok : S → L → Prop} {s s' : S} {ls : List L}
    (h : (T.restrict ok).Run s ls s') : T.Run s ls s' := by
  induction h with
  | nil s => exact .nil s
  | cons hs _ ih => exact .cons hs.2 ih

/-- The system of a partial step function. -/
def ofFn (init : S → Prop) (f : S → L → Option S) : TransitionSystem S L where
  init := init
  step := fun s l s' => f s l = some s'

/-- The state a list of labels leads to. -/
def exec (f : S → L → Option S) : S → List L → Option S
  | s, [] => some s
  | s, l :: ls => (f s l).bind fun s' => exec f s' ls

theorem exec_append (f : S → L → Option S) (s : S) (ls ls' : List L) :
    exec f s (ls ++ ls') = (exec f s ls).bind fun s' => exec f s' ls' := by
  induction ls generalizing s with
  | nil => rfl
  | cons l ls ih =>
      rw [List.cons_append, exec, exec, Option.bind_assoc]
      exact congrArg _ (funext ih)

theorem reachable_exec {init : S → Prop} {f : S → L → Option S} {s s' : S} (ls : List L)
    (h : (ofFn init f).Reachable s) (hexec : exec f s ls = some s') : (ofFn init f).Reachable s' := by
  induction ls generalizing s with
  | nil =>
      cases hexec
      exact h
  | cons l ls ih =>
      obtain ⟨s₁, hs₁, hrest⟩ := Option.bind_eq_some_iff.mp hexec
      exact ih (.step h hs₁) hrest

/-- A run whose steps are checked against `ok` is a run of the restricted system. -/
theorem reachable_restrict_exec {init : S → Prop} {f : S → L → Option S} (ok : S → L → Prop)
    [∀ s l, Decidable (ok s l)] {s s' : S} (ls : List L) (h : ((ofFn init f).restrict ok).Reachable s)
    (hexec : exec (fun s l => if ok s l then f s l else none) s ls = some s') :
    ((ofFn init f).restrict ok).Reachable s' := by
  induction ls generalizing s with
  | nil =>
      cases hexec
      exact h
  | cons l ls ih =>
      obtain ⟨s₁, hs₁, hrest⟩ := Option.bind_eq_some_iff.mp hexec
      exact ih (.step h (Option.ite_none_right_eq_some.mp hs₁)) hrest

/-- A property tested at the end of a run holds in a reachable state. -/
theorem exists_reachable_exec {init : S → Prop} {f : S → L → Option S} {s : S} (hinit : init s) (ls : List L)
    (p : S → Prop) [DecidablePred p] (h : (exec f s ls).any (fun s' => decide (p s')) = true) :
    ∃ s', (ofFn init f).Reachable s' ∧ p s' := by
  obtain ⟨s', hexec, hp⟩ := (Option.any_eq_true ..).mp h
  exact ⟨s', reachable_exec ls (.init hinit) hexec, of_decide_eq_true hp⟩

theorem exists_reachable_restrict_exec {init : S → Prop} {f : S → L → Option S} (ok : S → L → Prop)
    [∀ s l, Decidable (ok s l)] {s : S} (hinit : init s) (ls : List L) (p : S → Prop) [DecidablePred p]
    (h : (exec (fun s l => if ok s l then f s l else none) s ls).any (fun s' => decide (p s')) = true) :
    ∃ s', ((ofFn init f).restrict ok).Reachable s' ∧ p s' := by
  obtain ⟨s', hexec, hp⟩ := (Option.any_eq_true ..).mp h
  exact ⟨s', reachable_restrict_exec ok ls (.init hinit) hexec, of_decide_eq_true hp⟩

theorem exists_record_exec {init : S → Prop} {f : S → L → Option S} (ok : S → L → Prop) [∀ s l, Decidable (ok s l)]
    {H : Type} {start : S → Prop} {h₀ : H} {after : S → L → H → H} {s : S} (hinit : init s) (hstart : start s)
    (ls : List L) (p : S × H → Prop) [DecidablePred p]
    (h : (exec (fun q l => if ok q.1 l then (f q.1 l).map fun s' => (s', after q.1 l q.2) else none) (s, h₀) ls).any
      (fun q => decide (p q)) = true) :
    ∃ q, (((ofFn init f).restrict ok).record start h₀ after).Reachable q ∧ p q := by
  have hrun : ∀ (ls : List L) (q q' : S × H), (((ofFn init f).restrict ok).record start h₀ after).Reachable q →
      exec (fun q l => if ok q.1 l then (f q.1 l).map fun s' => (s', after q.1 l q.2) else none) q ls = some q' →
      (((ofFn init f).restrict ok).record start h₀ after).Reachable q' := by
    intro ls
    induction ls with
    | nil =>
        intro q q' hq hexec
        cases hexec
        exact hq
    | cons l ls ih =>
        intro q q' hq hexec
        obtain ⟨q₁, hstep, hrest⟩ := Option.bind_eq_some_iff.mp hexec
        obtain ⟨hok, hmap⟩ := Option.ite_none_right_eq_some.mp hstep
        obtain ⟨s₁, hs₁, rfl⟩ := Option.map_eq_some_iff.mp hmap
        exact ih (s₁, after q.1 l q.2) q' (.step (l := l) hq ⟨⟨hok, hs₁⟩, rfl⟩) hrest
  obtain ⟨q, hexec, hp⟩ := (Option.any_eq_true ..).mp h
  exact ⟨q, hrun ls (s, h₀) q (.init ⟨.init hinit, hstart, rfl⟩) hexec, of_decide_eq_true hp⟩

theorem run_restrict_exec {init : S → Prop} {f : S → L → Option S} (ok : S → L → Prop)
    [∀ s l, Decidable (ok s l)] {s s' : S} (ls : List L)
    (hexec : exec (fun s l => if ok s l then f s l else none) s ls = some s') : ((ofFn init f).restrict ok).Run s ls s' := by
  induction ls generalizing s with
  | nil =>
      cases hexec
      exact .nil _
  | cons l ls ih =>
      obtain ⟨s₁, hs₁, hrest⟩ := Option.bind_eq_some_iff.mp hexec
      exact .cons (Option.ite_none_right_eq_some.mp hs₁) (ih hrest)

end TransitionSystem
