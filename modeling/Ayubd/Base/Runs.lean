import Mathlib.Logic.Function.Iterate
import Mathlib.Tactic.Common

/-!
# Ayubd — guarded runs of a partial step function

The daemon's parties (the event loop, the workers, the kernel) are modelled by one
partial step function on a global state: `step s a = none` says that action `a` is not
enabled in `s`. This module owns what does not depend on the daemon: the states a run
reaches, the invariant rule, the simulation rule, and the execution of a concrete list of
actions.

Runs are *guarded*: `Reach G s` is reached by steps each of which satisfies `G` in the
state it is taken from. `Reachable` is the unguarded case. A guard is how a result says
"in every run whose steps all meet this condition".
-/

namespace Ayubd

/-- A transition system: which states a run may start in, and what an action does. -/
structure System (σ α : Type) where
  init : σ → Prop
  step : σ → α → Option σ

namespace System

variable {σ α : Type} {S : System σ α}

/-- The states reached by runs whose every step satisfies the guard `G`. -/
inductive Reach (S : System σ α) (G : σ → α → Prop) : σ → Prop where
  | init {s : σ} (hinit : S.init s) : Reach S G s
  | step {s s' : σ} {a : α} (hreach : Reach S G s) (hguard : G s a)
      (hstep : S.step s a = some s') : Reach S G s'

def Reachable (S : System σ α) : σ → Prop := S.Reach fun _ _ => True

/-- **The invariant rule.** What holds initially and is kept by every guarded step from a
state that is reached holds in every state a guarded run reaches. What is already known of
the reached states can be used in the step. -/
theorem Reach.invariant {G : σ → α → Prop} {I : σ → Prop}
    (hinit : ∀ s, S.init s → I s)
    (hkeep : ∀ s a s', S.Reach G s → I s → G s a → S.step s a = some s' → I s')
    {s : σ} (hs : S.Reach G s) : I s := by
  induction hs with
  | init h => exact hinit _ h
  | step hreach hguard hstep ih => exact hkeep _ _ _ hreach ih hguard hstep

theorem Reach.reachable {G : σ → α → Prop} {s : σ} (hs : S.Reach G s) : S.Reachable s := by
  induction hs with
  | init h => exact .init h
  | step _ _ hstep ih => exact .step ih trivial hstep

/-- **The simulation rule.** If every step from a reached state is, seen through `f`, a step of
another system, then every reached state is, seen through `f`, a reached state of that system. -/
theorem Reachable.simulate {τ : Type} {T : System τ α} (f : σ → τ)
    (hinit : ∀ s, S.init s → T.init (f s))
    (hstep : ∀ s a s', S.Reachable s → S.step s a = some s' → T.step (f s) a = some (f s'))
    {s : σ} (hs : S.Reachable s) : T.Reachable (f s) := by
  induction hs with
  | init h => exact .init (hinit _ h)
  | step hreach _ h ih => exact .step ih trivial (hstep _ _ _ hreach h)

/-- Execute a list of actions, failing as soon as one is not enabled. -/
def run (S : System σ α) (s : σ) : List α → Option σ
  | [] => some s
  | a :: as => (S.step s a).bind fun s' => S.run s' as

/-- Execute a list of actions, failing as soon as one is not enabled or fails the check
`p`. -/
def runChecked (S : System σ α) (p : σ → α → Bool) (s : σ) : List α → Option σ
  | [] => some s
  | a :: as => if p s a then (S.step s a).bind fun s' => S.runChecked p s' as else none

/-- What a checked list of actions executes to is reached under any guard the check
implies. -/
theorem Reach.runChecked {G : σ → α → Prop} {p : σ → α → Bool} (hp : ∀ s a, p s a = true → G s a)
    {s s' : σ} {as : List α} (hs : S.Reach G s) (hrun : S.runChecked p s as = some s') :
    S.Reach G s' := by
  induction as generalizing s with
  | nil =>
    simp only [System.runChecked, Option.some.injEq] at hrun
    exact hrun ▸ hs
  | cons a as ih =>
    simp only [System.runChecked] at hrun
    split at hrun
    · next hcheck =>
      obtain ⟨t, hstep, hrest⟩ := Option.bind_eq_some_iff.mp hrun
      exact ih (.step hs (hp s a hcheck) hstep) hrest
    · cases hrun

/-- A run from a reachable state ends in a reachable state. -/
theorem Reachable.run {s s' : σ} {as : List α} (hs : S.Reachable s)
    (hrun : S.run s as = some s') : S.Reachable s' := by
  induction as generalizing s with
  | nil =>
    simp only [System.run, Option.some.injEq] at hrun
    exact hrun ▸ hs
  | cons a as ih =>
    obtain ⟨t, hstep, hrest⟩ := Option.bind_eq_some_iff.mp hrun
    exact ih (.step hs trivial hstep) hrest

end System

/-! ## Loops

A loop of the source is its step iterated as often as a bound on the state allows. -/

/-- **The loop rule.** A step that keeps `I` and lowers the bound until `done`, and leaves a
state that is `done` alone, reaches a `done` state with `I` within the bound. -/
theorem iterate_reaches {σ : Type} {f : σ → σ} (I done : σ → Prop) (bound : σ → Nat)
    (hstep : ∀ s, I s → ¬ done s → I (f s) ∧ bound (f s) < bound s)
    (hdone : ∀ s, done s → f s = s) {s : σ} (hI : I s) {k : Nat} (hk : bound s ≤ k) :
    I (f^[k] s) ∧ done (f^[k] s) := by
  induction k generalizing s with
  | zero =>
    refine ⟨hI, ?_⟩
    by_contra hnot
    have := (hstep s hI hnot).2
    omega
  | succ k ih =>
    rw [Function.iterate_succ_apply]
    by_cases hd : done s
    · rw [hdone s hd, Function.iterate_fixed (hdone s hd) k]
      exact ⟨hI, hd⟩
    · obtain ⟨hI', hlt⟩ := hstep s hI hd
      exact ih hI' (by omega)

end Ayubd
