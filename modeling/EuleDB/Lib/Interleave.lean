import Mathlib.Logic.Function.Basic
import EuleDB.Lib.Effect

/-!
# Computations side by side

Several computations share a state.  Each is cut into parts, and a part is run as a whole: what a
computation does next is its stage, and `advance` runs the part that the stage stands for and gives
the next one.

* `Threads.step`, `Threads.run` — one part of one computation; a schedule of them.
* `Reached.invariant` — what every step that meets a condition preserves holds in every state
  reached by such steps; `Reached.run` — as a schedule of them reaches it.
* `Alone.remaining` — a computation that nothing comes between is the whole that was cut.
-/

set_option autoImplicit false

namespace Interleave

open Effect

variable {ε σ α ι τ : Type}

/-- A shared state, and what each computation does next. -/
structure Threads (σ ι τ : Type) where
  shared : σ
  stage : ι → τ

/-- One part of one computation, and where it goes from there; `failed` where it fails. -/
def advanceOne (advance : τ → EStateM ε σ τ) (failed : ε → τ) (stage : τ) (s : σ) : τ × σ :=
  match (advance stage).run s with
  | .ok next s => (next, s)
  | .error e s => (failed e, s)

section Steps

variable [DecidableEq ι] (advance : ι → τ → EStateM ε σ τ) (failed : ε → τ)

/-- One part of the computation `i`. -/
def Threads.step (s : Threads σ ι τ) (i : ι) : Threads σ ι τ :=
  let next := advanceOne (advance i) failed (s.stage i) s.shared
  ⟨next.2, Function.update s.stage i next.1⟩

/-- Parts of computations in the order of a schedule. -/
def Threads.run (s : Threads σ ι τ) (schedule : List ι) : Threads σ ι τ :=
  schedule.foldl (Threads.step advance failed) s

/-- The states that can be reached by steps that meet `C`, in any order. -/
inductive Reached (C : Threads σ ι τ → ι → Prop) (start : Threads σ ι τ) :
    Threads σ ι τ → Prop where
  | start : Reached C start start
  | step {s : Threads σ ι τ} (before : Reached C start s) (i : ι) (meets : C s i) :
    Reached C start (s.step advance failed i)

variable {advance failed}

/-- **An invariant of every step that meets the condition** holds in every state reached. -/
theorem Reached.invariant {C : Threads σ ι τ → ι → Prop} {start s : Threads σ ι τ}
    (I : Threads σ ι τ → Prop) (hstart : I start)
    (hstep : ∀ s i, I s → C s i → I (s.step advance failed i))
    (hreached : Reached advance failed C start s) : I s := by
  induction hreached with
  | start => exact hstart
  | step before i hmeets ih => exact hstep _ i ih hmeets

/-- Every step of a schedule meets the condition. -/
def AllMeet (advance : ι → τ → EStateM ε σ τ) (failed : ε → τ) (C : Threads σ ι τ → ι → Prop) :
    Threads σ ι τ → List ι → Prop
  | _, [] => True
  | s, i :: schedule => C s i ∧ AllMeet advance failed C (s.step advance failed i) schedule

/-- Where a schedule whose every step meets the condition goes is reached. -/
theorem Reached.run {C : Threads σ ι τ → ι → Prop} {start s : Threads σ ι τ}
    (hreached : Reached advance failed C start s) {schedule : List ι}
    (hmeet : AllMeet advance failed C s schedule) :
    Reached advance failed C start (s.run advance failed schedule) := by
  induction schedule generalizing s with
  | nil => exact hreached
  | cons i schedule ih =>
    obtain ⟨hmeets, hrest⟩ := hmeet
    exact ih (hreached.step i hmeets) hrest

end Steps

/-! ## Nothing in between -/

/-- A computation goes from one stage and state to another with nothing in between. -/
inductive Alone (advance : τ → EStateM ε σ τ) (failed : ε → τ) : τ × σ → τ × σ → Prop where
  | refl (p : τ × σ) : Alone advance failed p p
  | step {stage : τ} {s : σ} {q : τ × σ}
    (rest : Alone advance failed (advanceOne advance failed stage s) q) :
    Alone advance failed (stage, s) q

/-- **A computation that nothing comes between** does what `remaining` says is still to be done at
its first stage, where one part is the first part of it. -/
theorem Alone.remaining {advance : τ → EStateM ε σ τ} {failed : ε → τ}
    {remaining : τ → EStateM ε σ α} {good : τ → σ → Prop}
    (hpart : ∀ stage s, good stage s →
      (remaining stage).run s = (advance stage >>= remaining).run s)
    (hgood : ∀ stage s next s', good stage s → (advance stage).run s = .ok next s' → good next s')
    (hfailed : ∀ e s, good (failed e) s ∧ (remaining (failed e)).run s = .error e s)
    {p q : τ × σ} (halone : Alone advance failed p q) (hp : good p.1 p.2) :
    (remaining p.1).run p.2 = (remaining q.1).run q.2 := by
  induction halone with
  | refl p => rfl
  | @step stage s q rest ih =>
    dsimp only at hp ⊢
    unfold advanceOne at ih
    rw [hpart stage s hp, EStateM.run_bind]
    cases hrun : (advance stage).run s with
    | ok next s' =>
      rw [hrun] at ih
      exact ih (hgood stage s next s' hp hrun)
    | error e s' =>
      rw [hrun] at ih
      obtain ⟨hgood', hremaining⟩ := hfailed e s'
      rw [← ih hgood']
      exact hremaining.symm

end Interleave
