import Mathlib.Logic.Function.Basic
import Mathlib.Tactic.Common

/-!
# Ayubd — windows of a linked chain

A singly linked list that grows at its tail and is trimmed at its head visits, over its
whole life, one node after another. `addr i` is the address of the `i`-th node ever
linked, and the nodes present are those of a window `lo … hi`. `Chain` says that the
window is really linked in memory: its nodes are allocated, pairwise distinct, each one's
link is the address of the next, and the last one's link is null.

Numbering nodes by the order they were linked in keeps the facts stable while the window
moves: an address may be freed and handed out again, the number never is. `Window` adds the
values: a queue that is a chain behind a dummy node represents the list of everything ever
linked into it.
-/

namespace Ayubd

variable {β : Type} {next : β → Option β} {live : β → Prop} {addr : Nat → β} {lo hi : Nat}

/-- The nodes numbered `lo … hi` are allocated, distinct and linked in order, and the
last one's link is null. -/
structure Chain (next : β → Option β) (live : β → Prop) (addr : Nat → β) (lo hi : Nat) :
    Prop where
  le : lo ≤ hi
  alive : ∀ i, lo ≤ i → i ≤ hi → live (addr i)
  inj : ∀ i j, lo ≤ i → i ≤ hi → lo ≤ j → j ≤ hi → addr i = addr j → i = j
  link : ∀ i, lo ≤ i → i < hi → next (addr i) = some (addr (i + 1))
  stop : next (addr hi) = none

/-- `b` is none of the window's nodes. -/
def Fresh (addr : Nat → β) (lo hi : Nat) (b : β) : Prop :=
  ∀ i, lo ≤ i → i ≤ hi → addr i ≠ b

namespace Chain

/-- A chain depends on the links and the life of its own nodes only. -/
theorem congr {next' : β → Option β} {live' : β → Prop} (h : Chain next live addr lo hi)
    (hnext : ∀ i, lo ≤ i → i ≤ hi → next' (addr i) = next (addr i))
    (hlive : ∀ i, lo ≤ i → i ≤ hi → live' (addr i)) : Chain next' live' addr lo hi where
  le := h.le
  alive := hlive
  inj := h.inj
  link i hlo hhi := by rw [hnext i hlo (by omega)]; exact h.link i hlo hhi
  stop := by rw [hnext hi h.le (Nat.le_refl _)]; exact h.stop

/-- Linking a fresh allocated node behind the last one extends the window by it. -/
theorem extend {next' : β → Option β} (h : Chain next live addr lo hi) {b : β} (hb : live b)
    (hfresh : Fresh addr lo hi b)
    (hnext : ∀ i, lo ≤ i → i < hi → next' (addr i) = next (addr i))
    (hlink : next' (addr hi) = some b) (hstop : next' b = none) :
    Chain next' live (Function.update addr (hi + 1) b) lo (hi + 1) := by
  have hold : ∀ i, i ≤ hi → Function.update addr (hi + 1) b i = addr i := by
    intro i hi'
    exact Function.update_of_ne (by omega) _ _
  have hnew : Function.update addr (hi + 1) b (hi + 1) = b := Function.update_self _ _ _
  refine ⟨Nat.le_succ_of_le h.le, ?_, ?_, ?_, ?_⟩
  · intro i hlo hi'
    rcases Nat.lt_or_ge hi i with hlt | hge
    · rw [show i = hi + 1 by omega, hnew]
      exact hb
    · rw [hold i hge]
      exact h.alive i hlo hge
  · -- the new node is none of the old ones, so only old positions can collide
    intro i j hlo hi' hlo' hj' heq
    rcases Nat.lt_or_ge hi i with hlt | hge
    · rcases Nat.lt_or_ge hi j with hltj | hgej
      · omega
      · rw [show i = hi + 1 by omega, hnew, hold j hgej] at heq
        exact absurd heq.symm (hfresh j hlo' hgej)
    · rcases Nat.lt_or_ge hi j with hltj | hgej
      · rw [show j = hi + 1 by omega, hnew, hold i hge] at heq
        exact absurd heq (hfresh i hlo hge)
      · rw [hold i hge, hold j hgej] at heq
        exact h.inj i j hlo hge hlo' hgej heq
  · intro i hlo hlt
    rw [hold i (by omega)]
    rcases Nat.lt_or_ge i hi with hlt' | hge
    · rw [hnext i hlo hlt', hold (i + 1) (by omega)]
      exact h.link i hlo hlt'
    · rw [show i = hi by omega, hnew]
      exact hlink
  · rw [hnew]
    exact hstop

theorem tail (h : Chain next live addr lo hi) (hlt : lo < hi) :
    Chain next live addr (lo + 1) hi where
  le := hlt
  alive i hlo := h.alive i (by omega)
  inj i j hlo hi' hlo' := h.inj i j (by omega) hi' (by omega)
  link i hlo := h.link i (by omega)
  stop := h.stop

/-- The first node of a chain is none of those behind it. -/
theorem fresh_tail (h : Chain next live addr lo hi) : Fresh addr (lo + 1) hi (addr lo) := by
  intro i hlo hi' heq
  have := h.inj i lo (by omega) hi' (Nat.le_refl _) h.le heq
  omega

end Chain

/-! ## Windows that carry a history -/

variable {α : Type} {val : β → Option α} {hist : List α}

/-- A chain whose nodes carry the values of a history: node number `0` is a dummy and node
number `i + 1` carries the `i`-th value. -/
structure Window (next : β → Option β) (val : β → Option α) (live : β → Prop)
    (addr : Nat → β) (lo : Nat) (hist : List α) : Prop where
  chain : Chain next live addr lo hist.length
  vals : ∀ i, lo ≤ i + 1 → i < hist.length → val (addr (i + 1)) = hist[i]?

namespace Window

variable {next' : β → Option β} {val' : β → Option α} {live' : β → Prop}

/-- A window depends on the links, values and life of its own nodes only. -/
theorem congr (h : Window next val live addr lo hist)
    (hnext : ∀ i, lo ≤ i → i ≤ hist.length → next' (addr i) = next (addr i))
    (hval : ∀ i, lo ≤ i → i ≤ hist.length → val' (addr i) = val (addr i))
    (hlive : ∀ i, lo ≤ i → i ≤ hist.length → live' (addr i)) :
    Window next' val' live' addr lo hist where
  chain := h.chain.congr hnext hlive
  vals i hlo hi := by rw [hval (i + 1) hlo hi]; exact h.vals i hlo hi

/-- Linking a fresh node that carries `v` appends `v` to the history. -/
theorem link (h : Window next val live addr lo hist) {b : β} {v : α} (hb : live b)
    (hfresh : Fresh addr lo hist.length b)
    (hnext : ∀ i, lo ≤ i → i < hist.length → next' (addr i) = next (addr i))
    (hlink : next' (addr hist.length) = some b) (hstop : next' b = none)
    (hval : ∀ i, lo ≤ i → i ≤ hist.length → val' (addr i) = val (addr i))
    (hv : val' b = some v) :
    Window next' val' live (Function.update addr (hist.length + 1) b) lo (hist ++ [v]) where
  chain := by
    rw [List.length_append, List.length_singleton]
    exact h.chain.extend hb hfresh hnext hlink hstop
  vals i hlo hi := by
    rw [List.length_append, List.length_singleton] at hi
    rcases Nat.lt_or_ge i hist.length with hlt | hge
    · rw [List.getElem?_append_left hlt, Function.update_of_ne (by omega), hval (i + 1) hlo hlt]
      exact h.vals i hlo hlt
    · have heq : i = hist.length := by omega
      subst heq
      rw [Function.update_self, hv]
      simp

theorem tail (h : Window next val live addr lo hist) (hlt : lo < hist.length) :
    Window next val live addr (lo + 1) hist where
  chain := h.chain.tail hlt
  vals i hlo hi := h.vals i (by omega) hi

/-- The window survives the end of a node outside it. -/
theorem erase (h : Window next val live addr lo hist) {b : β}
    (hfresh : Fresh addr lo hist.length b) (hkeep : ∀ c, live c → c ≠ b → live' c) :
    Window next val live' addr lo hist :=
  h.congr (fun _ _ _ => rfl) (fun _ _ _ => rfl)
    fun i hlo hi => hkeep _ (h.chain.alive i hlo hi) (hfresh i hlo hi)

end Window

end Ayubd
