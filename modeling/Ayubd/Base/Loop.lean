import Mathlib.Tactic.Common

/-!
# Ayubd — loops that may fail

The body of a loop either goes on with a new state, or leaves the loop with a result, or fails. A
loop of the source is its body repeated as often as `fuel` allows; what is shown of a loop is that
it has a result for every fuel from some number on, which says that it ends.
-/

namespace Ayubd

variable {σ ρ : Type}

def loop (body : σ → Option (σ ⊕ ρ)) : Nat → σ → Option ρ
  | 0, _ => none
  | fuel + 1, s =>
    match body s with
    | none => none
    | some (.inl s') => loop body fuel s'
    | some (.inr r) => some r

section
variable {body : σ → Option (σ ⊕ ρ)} {s s' : σ} {r : ρ} {fuel : Nat}

theorem loop_again (h : body s = some (.inl s')) : loop body (fuel + 1) s = loop body fuel s' := by
  rw [loop, h]

theorem loop_leave (h : body s = some (.inr r)) : loop body (fuel + 1) s = some r := by
  rw [loop, h]

/-- **The loop rule.** A body that keeps `I` and lowers the bound, and leaves the loop only with a
result that satisfies `Q`, makes a loop that ends with such a result. -/
theorem loop_ends (I : σ → Prop) (Q : ρ → Prop) (bound : σ → Nat)
    (hbody : ∀ s, I s →
      (∃ s', body s = some (.inl s') ∧ I s' ∧ bound s' < bound s) ∨
      ∃ r, body s = some (.inr r) ∧ Q r)
    (hs : I s) (hfuel : bound s < fuel) : ∃ r, loop body fuel s = some r ∧ Q r := by
  induction fuel generalizing s with
  | zero => omega
  | succ fuel ih =>
    rcases hbody s hs with ⟨s', hnext, hI, hlt⟩ | ⟨r, hleave, hr⟩
    · rw [loop_again hnext]
      exact ih hI (by omega)
    · exact ⟨r, loop_leave hleave, hr⟩

end

end Ayubd
