import I386Kernel.Preempt.Discipline

/-!
# Runs of a small machine

A machine with eight pages, and how its runs are evaluated. `Function.update` carries a cast of its value along every key it is looked up past; the executor here is `Machine.next` with an update that only compares.
-/

namespace I386Kernel.Preempt

open CircularList (Links)

/-- `Function.update` where the values do not depend on the argument. -/
def upd {α β : Type} [DecidableEq α] (f : α → β) (a : α) (b : β) : α → β := fun x => if x = a then b else f x

theorem upd_eq {α β : Type} [DecidableEq α] (f : α → β) (a : α) (b : β) : upd f a b = Function.update f a b :=
  funext fun x => (Function.update_apply f a b x).symm

section
variable (L : Links Node)

private def evalDel (node : Node) : Links Node :=
  let L : Links Node := { L with prev := upd L.prev (L.next node) (L.prev node) }
  { L with next := upd L.next (L.prev node) (L.next node) }

private theorem evalDel_eq (node : Node) : evalDel L node = listDel L node := by
  simp only [evalDel, upd_eq]
  rfl

private def evalAddBetween (node prev next : Node) : Links Node :=
  let L : Links Node := { L with next := upd L.next node next }
  let L : Links Node := { L with prev := upd L.prev node prev }
  let L : Links Node := { L with next := upd L.next prev node }
  { L with prev := upd L.prev next node }

private theorem evalAddBetween_eq (node prev next : Node) :
    evalAddBetween L node prev next = listAddBetween L node prev next := by
  simp only [evalAddBetween, upd_eq]
  rfl

end

def Effect.eval (k : Kernel) : Effect → Kernel
  | .setStatus t st => { k with task := upd k.task t { k.task t with status := st } }
  | .setCount s n => { k with semaCount := upd k.semaCount s n }
  | .listDel t => k.setLinks (evalDel k.links (.queued t))
  | .listAdd q t => k.setLinks (evalAddBetween k.links (q.node t) (.head q) (k.links.next (.head q)))
  | .listAddTail q t => k.setLinks (evalAddBetween k.links (q.node t) (k.links.prev (.head q)) (.head q))
  | .listPop s => k.setLinks (evalDel k.links (k.links.next (.head (.wait s))))
  | e => e.kernel k

theorem Effect.eval_eq (k : Kernel) (e : Effect) : e.eval k = e.kernel k := by
  cases e with
  | setStatus t st =>
      rw [Effect.eval, upd_eq]
      rfl
  | setCount s n =>
      rw [Effect.eval, upd_eq]
      rfl
  | listDel t =>
      rw [Effect.eval, evalDel_eq]
      rfl
  | listPop s =>
      rw [Effect.eval, evalDel_eq]
      rfl
  | listAdd q t =>
      rw [Effect.eval, evalAddBetween_eq]
      rfl
  | listAddTail q t =>
      rw [Effect.eval, evalAddBetween_eq]
      rfl
  | _ => rfl

namespace Machine

variable (m : Machine)

def evalFrames (t : Word) (stack : List Frame) : Machine := { m with frames := upd m.frames t stack }

def evalRun : Option Machine :=
  match m.frames m.current with
  | [] => none
  | ⟨pc, origin⟩ :: rest =>
      match pc with
      | .ret =>
          match origin.proceed with
          | some f => some (m.evalFrames m.current (f :: rest))
          | none => some { m.evalFrames m.current rest with intr := m.intr || origin.isr }
      | .schSwitch next =>
          if next = m.current then some (m.evalFrames m.current (⟨.schSti, origin.waited⟩ :: rest))
          else if m.frames next = [] then none
          else some ((m.evalFrames m.current (⟨.schPost, origin.waited⟩ :: rest)).switchTo next)
      | pc => (stmt m.kernel m.current pc).bind fun (e, pc') =>
          if e.enabled m.holder then
            let m' := m.evalFrames m.current (⟨pc', origin⟩ :: rest)
            some { m'.apply e with kernel := e.eval m'.kernel }
          else none

def evalNext : Label → Option Machine
  | .step => m.evalRun
  | .call c =>
      if m.frames m.current = [] ∧ c.allowed m.kernel then some (m.evalFrames m.current [⟨c.entry, .call c⟩])
      else none
  | .timer =>
      if m.intr then some { m.evalFrames m.current (⟨.schRead, .timer⟩ :: m.frames m.current) with intr := false }
      else none
  | .device op ops =>
      if m.intr then
        some { m.evalFrames m.current (⟨op.entry, .device op ops false⟩ :: m.frames m.current) with intr := false }
      else none

theorem evalFrames_eq (t : Word) (stack : List Frame) : m.evalFrames t stack = m.setFrames t stack := by
  rw [evalFrames, upd_eq]
  rfl

theorem evalNext_eq (l : Label) : m.evalNext l = m.next l := by
  cases l with
  | step =>
      show m.evalRun = m.run
      simp only [evalRun, evalFrames_eq, Effect.eval_eq]
      rfl
  | _ =>
      simp only [evalNext, evalFrames_eq]
      rfl

end Machine

/-- The machine with eight pages at the start of the runs. -/
def smallStart : Machine := .start (schedInitTasks smallMachine 0xc0110f00)

theorem start_smallStart : Start smallStart :=
  ⟨_, _, boot_smallMachine 0xc0110f00 (by unfold IdleTasksCreated; decide +kernel), rfl, rfl⟩

def steps (n : Nat) : List Label := List.replicate n .step

/-- A property tested at the end of a run of the small machine holds in a reachable state. -/
theorem exists_run (labels : List Label) (p : Machine → Prop) [DecidablePred p]
    (h : (TransitionSystem.exec Machine.evalNext smallStart labels).any (fun m => decide (p m)) = true) :
    ∃ m, system.Reachable m ∧ p m := by
  rw [funext fun m => funext fun l => Machine.evalNext_eq m l] at h
  exact TransitionSystem.exists_reachable_exec start_smallStart labels p h

theorem exists_restrict_run (ok : Machine → Label → Prop) [∀ m l, Decidable (ok m l)]
    (labels : List Label) (p : Machine → Prop) [DecidablePred p]
    (h : (TransitionSystem.exec (fun m l => if ok m l then m.evalNext l else none) smallStart labels).any
      (fun m => decide (p m)) = true) : ∃ m, (system.restrict ok).Reachable m ∧ p m := by
  simp only [Machine.evalNext_eq] at h
  exact TransitionSystem.exists_reachable_restrict_exec ok start_smallStart labels p h

theorem exists_record_run (ok : Machine → Label → Prop) [∀ m l, Decidable (ok m l)] {H : Type} {start : Machine → Prop}
    (h₀ : H) (after : Machine → Label → H → H) (hstart : start smallStart) (labels : List Label)
    (p : Machine × H → Prop) [DecidablePred p]
    (h : (TransitionSystem.exec (fun q l => if ok q.1 l then (q.1.evalNext l).map fun m => (m, after q.1 l q.2) else none)
      (smallStart, h₀) labels).any (fun q => decide (p q)) = true) :
    ∃ q, ((system.restrict ok).record start h₀ after).Reachable q ∧ p q := by
  simp only [Machine.evalNext_eq] at h
  exact TransitionSystem.exists_record_exec ok start_smallStart hstart labels p h

end I386Kernel.Preempt
