import Mathlib.Logic.Function.Iterate
import Mathlib.Tactic.Common

/-!
# Ayubd — queues used by one caller

A queue as its only caller sees it: enqueue, dequeue, test for emptiness, each run to its
end before the next begins. `SeqQueue.outs` is what a list of operations returns, `fifo` is
the queue every implementation is measured against, and the two comparison rules derive
agreement over all lists of operations from what one operation does to a state that
represents a list.
-/

namespace Ayubd

inductive QueueOp (α : Type) where
  | enq (v : α)
  | deq
  | isEmpty
  deriving DecidableEq

/-- What an operation returns; `crash` when it touches memory it must not. -/
inductive QueueOut (α : Type) where
  | done
  | value (v : Option α)
  | empty (b : Bool)
  | crash
  deriving DecidableEq

/-- A queue with states `σ` for values `α`. -/
structure SeqQueue (σ α : Type) where
  enq : σ → α → σ
  deq : σ → Option α × σ
  isEmpty : σ → Bool
  fault : σ → Bool

namespace SeqQueue

variable {σ α : Type}

/-- One operation: what it returns and the state it leaves. -/
def exec (Q : SeqQueue σ α) (s : σ) : QueueOp α → QueueOut α × σ
  | .enq v => (if Q.fault (Q.enq s v) then .crash else .done, Q.enq s v)
  | .deq => (if Q.fault (Q.deq s).2 then .crash else .value (Q.deq s).1, (Q.deq s).2)
  | .isEmpty => (.empty (Q.isEmpty s), s)

def outs (Q : SeqQueue σ α) (s : σ) : List (QueueOp α) → List (QueueOut α)
  | [] => []
  | op :: ops => (Q.exec s op).1 :: Q.outs (Q.exec s op).2 ops

def after (Q : SeqQueue σ α) (s : σ) (ops : List (QueueOp α)) : σ :=
  ops.foldl (fun s op => (Q.exec s op).2) s

def fifo : SeqQueue (List α) α where
  enq l v := l ++ [v]
  deq l := (l.head?, l.tail)
  isEmpty l := l.isEmpty
  fault _ := false

/-- No operation but `enq` is applied while nothing waits; `k` values wait at first. -/
def Served : Nat → List (QueueOp α) → Prop
  | _, [] => True
  | k, .enq _ :: ops => Served (k + 1) ops
  | k, .deq :: ops => 0 < k ∧ Served (k - 1) ops
  | k, .isEmpty :: ops => 0 < k ∧ Served k ops

instance : ∀ (k : Nat) (ops : List (QueueOp α)), Decidable (Served k ops)
  | _, [] => .isTrue trivial
  | k, .enq _ :: ops => instDecidableServed (k + 1) ops
  | k, .deq :: ops => @instDecidableAnd _ _ _ (instDecidableServed (k - 1) ops)
  | k, .isEmpty :: ops => @instDecidableAnd _ _ _ (instDecidableServed k ops)

/-- `R` relates the states of `Q` to the lists they represent: operations on a queue in
which something waits do what `fifo` does. -/
structure Represents (Q : SeqQueue σ α) (R : σ → List α → Prop) : Prop where
  enq : ∀ s l v, R s l → Q.fault (Q.enq s v) = false ∧ R (Q.enq s v) (l ++ [v])
  deq : ∀ s v l, R s (v :: l) →
    Q.fault (Q.deq s).2 = false ∧ (Q.deq s).1 = some v ∧ R (Q.deq s).2 l
  isEmpty : ∀ s v l, R s (v :: l) → Q.isEmpty s = false

variable {Q : SeqQueue σ α} {R : σ → List α → Prop}

/-- One operation on a represented state that is allowed there agrees with `fifo`. -/
theorem Represents.exec (hQ : Represents Q R) {s : σ} {l : List α} (hs : R s l)
    (op : QueueOp α) (hop : l = [] → ∃ v, op = .enq v) :
    (Q.exec s op).1 = (fifo.exec l op).1 ∧ R (Q.exec s op).2 (fifo.exec l op).2 := by
  cases op with
  | enq v =>
    obtain ⟨hfault, hR⟩ := hQ.enq s l v hs
    simp only [SeqQueue.exec, fifo, hfault, Bool.false_eq_true, if_false]
    exact ⟨trivial, hR⟩
  | deq =>
    cases l with
    | nil =>
      obtain ⟨v, hv⟩ := hop rfl
      cases hv
    | cons v l =>
      obtain ⟨hfault, hval, hR⟩ := hQ.deq s v l hs
      simp only [SeqQueue.exec, fifo, hfault, hval, Bool.false_eq_true, if_false, List.head?_cons,
        List.tail_cons]
      exact ⟨trivial, hR⟩
  | isEmpty =>
    cases l with
    | nil =>
      obtain ⟨v, hv⟩ := hop rfl
      cases hv
    | cons v l =>
      simp only [SeqQueue.exec, fifo, hQ.isEmpty s v l hs, List.isEmpty_cons]
      exact ⟨trivial, hs⟩

/-- **Total agreement.** A queue that also answers like `fifo` when nothing waits returns
what `fifo` returns, for every list of operations. -/
theorem Represents.outs_eq (hQ : Represents Q R)
    (hdeq : ∀ s, R s [] → Q.fault (Q.deq s).2 = false ∧ (Q.deq s).1 = none ∧ R (Q.deq s).2 [])
    (hempty : ∀ s, R s [] → Q.isEmpty s = true) {s : σ} {l : List α} (hs : R s l)
    (ops : List (QueueOp α)) : Q.outs s ops = fifo.outs l ops := by
  induction ops generalizing s l with
  | nil => rfl
  | cons op ops ih =>
    have hexec : (Q.exec s op).1 = (fifo.exec l op).1 ∧ R (Q.exec s op).2 (fifo.exec l op).2 := by
      by_cases hop : l = [] → ∃ v, op = .enq v
      · exact hQ.exec hs op hop
      · obtain ⟨rfl, hne⟩ := Classical.not_imp.mp hop
        cases op with
        | enq v => exact absurd ⟨v, rfl⟩ hne
        | deq =>
          obtain ⟨hfault, hval, hR⟩ := hdeq s hs
          simp only [SeqQueue.exec, fifo, hfault, hval, Bool.false_eq_true, if_false,
            List.head?_nil, List.tail_nil]
          exact ⟨trivial, hR⟩
        | isEmpty =>
          simp only [SeqQueue.exec, fifo, hempty s hs, List.isEmpty_nil]
          exact ⟨trivial, hs⟩
    simp only [outs]
    rw [hexec.1, ih hexec.2]

/-- **Agreement while served.** A queue that answers differently from `fifo` when nothing
waits returns what `fifo` returns exactly for the lists of operations that never dequeue from
it or test it then. -/
theorem Represents.outs_eq_iff (hQ : Represents Q R)
    (hdeq : ∀ s, R s [] → (Q.exec s .deq).1 ≠ .value none)
    (hempty : ∀ s, R s [] → Q.isEmpty s = false) {s : σ} {l : List α} (hs : R s l)
    (ops : List (QueueOp α)) : Q.outs s ops = fifo.outs l ops ↔ Served l.length ops := by
  induction ops generalizing s l with
  | nil => simp only [outs, Served]
  | cons op ops ih =>
    simp only [outs, List.cons.injEq]
    cases op with
    | enq v =>
      obtain ⟨hout, hR⟩ := hQ.exec hs (.enq v) (fun _ => ⟨v, rfl⟩)
      rw [hout, ih hR]
      simp [Served, SeqQueue.exec, fifo]
    | deq =>
      cases l with
      | nil =>
        -- the first output already differs, whatever the rest of the list is
        simp only [Served, List.length_nil, Nat.lt_irrefl, false_and, iff_false, not_and]
        intro heq
        exact absurd heq (hdeq s hs)
      | cons v l =>
        obtain ⟨hout, hR⟩ := hQ.exec hs .deq (fun hnil => by cases hnil)
        rw [hout, ih hR]
        simp [Served, SeqQueue.exec, fifo]
    | isEmpty =>
      cases l with
      | nil =>
        simp only [Served, List.length_nil, Nat.lt_irrefl, false_and, iff_false, not_and]
        intro heq
        simp [SeqQueue.exec, fifo, hempty s hs] at heq
      | cons v l =>
        obtain ⟨hout, hR⟩ := hQ.exec hs .isEmpty (fun hnil => by cases hnil)
        rw [hout, ih hR]
        simp [Served, SeqQueue.exec, fifo]

end SeqQueue

end Ayubd
