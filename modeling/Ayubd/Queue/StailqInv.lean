import Ayubd.Base.Chain
import Ayubd.Queue.Stailq

/-!
# Ayubd — the representation invariant of the divider queue

`Rep q addr lo` relates the pointers of a `Stailq` to the history of the values linked
into it: node number `0` is the dummy, node number `i + 1` carries the `i`-th value, the
nodes present are those numbered `lo … enq.length`, and the divider is node number `adv`.
Every intermediate state of the insert, remove and advance macros keeps it, for every
interleaving of the two threads, provided the consumer only starts a `stailq_out_lf_spsc`
when a linked value is waiting (`adv < enq.length`). The macro itself does not check that:
`stqh_last` designates the *link* of the last node, so `STAILQ_TAIL_REF` reads `NULL` from a
settled queue and the emptiness test compares the divider with `NULL`.
-/

namespace Ayubd.Stailq

variable {α : Type} {q : Stailq α} {addr : Nat → Addr} {lo : Nat}

/-! ## The invariant -/

/-- What the producer's program counter knows. -/
def InOk (q : Stailq α) (addr : Nat → Addr) (lo : Nat) : InPc α → Prop
  | .idle | .done | .trimFirst => q.last = .next (addr q.enq.length)
  | .setVal _ np => q.last = .next (addr q.enq.length) ∧ np ∈ q.live ∧
      Fresh addr lo q.enq.length np
  | .clearNext v np => q.last = .next (addr q.enq.length) ∧ np ∈ q.live ∧
      Fresh addr lo q.enq.length np ∧ (q.mem np).val = some v
  | .loadLast v np => q.last = .next (addr q.enq.length) ∧ np ∈ q.live ∧
      Fresh addr lo q.enq.length np ∧ q.mem np = ⟨some v, none⟩
  | .link v np t => q.last = .next (addr q.enq.length) ∧ np ∈ q.live ∧
      Fresh addr lo q.enq.length np ∧ q.mem np = ⟨some v, none⟩ ∧
      t = .next (addr q.enq.length)
  | .moveLast np => q.last = .next (addr (q.enq.length - 1)) ∧ 0 < q.enq.length ∧
      np = addr q.enq.length
  | .trimTest tnp => q.last = .next (addr q.enq.length) ∧ tnp = some (addr lo)
  | .rmFirst tnp => q.last = .next (addr q.enq.length) ∧ tnp = some (addr lo) ∧ lo < q.adv
  | .rmNext tnp f => q.last = .next (addr q.enq.length) ∧ tnp = some (addr lo) ∧
      f = some (addr lo) ∧ lo < q.adv
  | .rmStore tnp nx => q.last = .next (addr q.enq.length) ∧ tnp = some (addr lo) ∧
      nx = some (addr (lo + 1)) ∧ lo < q.adv
  | .rmLast _ => False
  | .free tnp => q.last = .next (addr q.enq.length) ∧
      ∃ a, tnp = some a ∧ a ∈ q.live ∧ Fresh addr lo q.enq.length a

/-- What the consumer's program counter knows: it has claimed a linked value, and the
divider it loaded is still the divider. -/
def OutOk (addr : Nat → Addr) (adv : Nat) (enq : List α) : OutPc α → Prop
  | .idle => True
  | .loadDiv | .advDiv => adv < enq.length
  | .loadLast d | .advNext d => adv < enq.length ∧ d = some (addr adv)
  | .loadTail d t => adv < enq.length ∧ d = some (addr adv) ∧
      ∃ m, adv ≤ m ∧ m ≤ enq.length ∧ t = .next (addr m)
  | .advStore nx => adv < enq.length ∧ nx = some (addr (adv + 1))
  | .valDiv => 0 < adv
  | .valLoad d => 0 < adv ∧ d = some (addr adv)
  | .done v => 0 < adv ∧ v = enq[adv - 1]?

/-- **The representation invariant.** -/
structure Rep (q : Stailq α) (addr : Nat → Addr) (lo : Nat) : Prop where
  window : Window (fun a => (q.mem a).next) (fun a => (q.mem a).val) (· ∈ q.live) addr lo q.enq
  first : q.first = some (addr lo)
  qdiv : q.qdiv = some (addr q.adv)
  lo_le : lo ≤ q.adv
  adv_le : q.adv ≤ q.enq.length
  inOk : InOk q addr lo q.inPc
  outOk : OutOk addr q.adv q.enq q.outPc
  safe : q.fault = false

def Inv (q : Stailq α) : Prop := ∃ addr lo, Rep q addr lo

/-! ## Accesses to allocated nodes raise no fault -/

theorem touch_of_mem {a : Addr} (h : a ∈ q.live) : q.touch (some a) = q := by
  simp [touch, isLive, h]

theorem touchRef_of_mem {a : Addr} (h : a ∈ q.live) : q.touchRef (.next a) = q :=
  touch_of_mem h

theorem node_some (a : Addr) : q.node (some a) = q.mem a := rfl

/-- A new queue has one node, which holds no value, at `d`. -/
theorem rep_new (mem : Addr → StailqNode α) (d : Addr) :
    Rep (stailqNewLfSpsc mem d) (fun _ => d) 0 := by
  refine ⟨⟨⟨Nat.le_refl _, ?_, ?_, ?_, ?_⟩, ?_⟩, rfl, rfl, Nat.le_refl _, Nat.le_refl _, rfl,
    trivial, rfl⟩
  · intro i _ _
    exact List.mem_singleton_self d
  · intro i j _ hi _ hj _
    simp only [stailqNewLfSpsc, List.length_nil] at hi hj
    omega
  · intro i _ hi
    exact absurd hi (Nat.not_lt_zero i)
  · simp [stailqNewLfSpsc]
  · intro i _ hi
    exact absurd hi (Nat.not_lt_zero i)

/-! ## The producer -/

/-- From the first node on, the links lead to that of the last value that was linked. -/
theorem Rep.chain (h : Rep q addr lo) :
    Chain (fun a => (q.mem a).next) (· ∈ q.live) addr lo q.enq.length := h.window.chain

/-- Writing to a node that is not linked yet does not disturb the linked ones. -/
theorem Rep.write (h : Rep q addr lo) {np : Addr} (hfresh : Fresh addr lo q.enq.length np)
    (n : StailqNode α) :
    Window (fun a => (Function.update q.mem np n a).next)
      (fun a => (Function.update q.mem np n a).val) (· ∈ q.live) addr lo q.enq := by
  refine h.window.congr ?_ ?_ h.chain.alive
  · intro i hlo hhi
    rw [Function.update_of_ne (hfresh i hlo hhi)]
  · intro i hlo hhi
    rw [Function.update_of_ne (hfresh i hlo hhi)]

/-- Linking a node behind the last one makes the chain longer by its value. -/
theorem Rep.link (h : Rep q addr lo) {v : α} {np : Addr} (hlive : np ∈ q.live)
    (hfresh : Fresh addr lo q.enq.length np) (hnode : q.mem np = ⟨some v, none⟩) :
    let mem := Function.update q.mem (addr q.enq.length)
      { q.mem (addr q.enq.length) with next := some np }
    Window (fun a => (mem a).next) (fun a => (mem a).val) (· ∈ q.live)
      (Function.update addr (q.enq.length + 1) np) lo (q.enq ++ [v]) := by
  intro mem
  have hnp : np ≠ addr q.enq.length := (hfresh _ h.chain.le (Nat.le_refl _)).symm
  refine h.window.link hlive hfresh ?_ ?_ ?_ ?_ ?_
  · intro i hlo hlt
    have hne : addr i ≠ addr q.enq.length := by
      intro heq
      have := h.chain.inj i _ hlo (by omega) h.chain.le (Nat.le_refl _) heq
      omega
    simp only [mem, Function.update_of_ne hne]
  · simp only [mem, Function.update_self]
  · simp only [mem, Function.update_of_ne hnp, hnode]
  · intro i _ _
    by_cases heq : addr i = addr q.enq.length
    · simp only [mem, heq, Function.update_self]
    · simp only [mem, Function.update_of_ne heq]
  · simp only [mem, Function.update_of_ne hnp, hnode]

/-- What the consumer knows survives an append and the numbering of one more node. -/
theorem OutOk.extend {addr : Nat → Addr} {adv : Nat} {enq : List α} {pc : OutPc α}
    (h : OutOk addr adv enq pc) (hadv : adv ≤ enq.length) (v : α) (np : Addr) :
    OutOk (Function.update addr (enq.length + 1) np) adv (enq ++ [v]) pc := by
  have hkeep : ∀ i, i ≤ enq.length → Function.update addr (enq.length + 1) np i = addr i :=
    fun i hi => Function.update_of_ne (by omega) _ _
  cases pc with
  | idle => trivial
  | loadDiv => simp only [OutOk, List.length_append] at h ⊢; omega
  | advDiv => simp only [OutOk, List.length_append] at h ⊢; omega
  | loadLast d =>
    simp only [OutOk, List.length_append] at h ⊢
    exact ⟨by omega, by rw [hkeep adv hadv]; exact h.2⟩
  | advNext d =>
    simp only [OutOk, List.length_append] at h ⊢
    exact ⟨by omega, by rw [hkeep adv hadv]; exact h.2⟩
  | loadTail d t =>
    -- the tail pointer loaded may be stale by now, but it is still the link of a node
    obtain ⟨hlt, hd, m, hm, hm', ht⟩ := h
    refine ⟨by simp only [List.length_append]; omega, by rw [hkeep adv hadv]; exact hd, m, hm,
      by simp only [List.length_append]; omega, ?_⟩
    rw [hkeep m hm']
    exact ht
  | advStore nx =>
    simp only [OutOk, List.length_append] at h ⊢
    exact ⟨by omega, by rw [hkeep (adv + 1) (by omega)]; exact h.2⟩
  | valDiv => exact h
  | valLoad d => exact ⟨h.1, by rw [hkeep adv hadv]; exact h.2⟩
  | done v' =>
    obtain ⟨hpos, hv⟩ := h
    refine ⟨hpos, ?_⟩
    rw [List.getElem?_append_left (by omega)]
    exact hv

/-- A call of `stailq_in_lf_spsc` begins with a node that no link leads to. -/
theorem Rep.inStart (h : Rep q addr lo) (hpc : q.inPc = .idle) {np : Addr}
    (hnp : np ∉ q.live) (v : α) : Rep (q.inStart v np) addr lo := by
  have hlast := h.inOk
  rw [hpc] at hlast
  refine ⟨?_, h.first, h.qdiv, h.lo_le, h.adv_le, ?_, h.outOk, h.safe⟩
  · exact h.window.congr (fun _ _ _ => rfl) (fun _ _ _ => rfl)
      (fun i hlo hhi => List.mem_cons_of_mem _ (h.chain.alive i hlo hhi))
  · refine ⟨hlast, List.mem_cons_self, ?_⟩
    intro i hlo hhi heq
    exact hnp (heq ▸ h.chain.alive i hlo hhi)

/-- The numbering after the producer's next access: only linking a node extends it. -/
def inAddr (q : Stailq α) (addr : Nat → Addr) : Nat → Addr :=
  match q.inPc with
  | .link _ np _ => Function.update addr (q.enq.length + 1) np
  | _ => addr

/-- The first node after the producer's next access: only storing `stqh_first` moves it. -/
def inLo (q : Stailq α) (lo : Nat) : Nat :=
  match q.inPc with
  | .rmStore _ _ => lo + 1
  | _ => lo

/-- **The producer keeps the invariant.** One case per access of `stailq_in_lf_spsc`. -/
theorem Rep.inStep_at (h : Rep q addr lo) : Rep q.inStep (inAddr q addr) (inLo q lo) := by
  have hin := h.inOk
  cases hpc : q.inPc with
  | idle => simpa only [Stailq.inStep, inAddr, inLo, hpc] using h
  | done => simpa only [Stailq.inStep, inAddr, inLo, hpc] using h
  | setVal v np =>
    rw [hpc] at hin
    obtain ⟨hlast, hlive, hfresh⟩ := hin
    have hwindow := h.write hfresh { q.mem np with val := some v }
    simp only [Stailq.inStep, inAddr, inLo, hpc, touch_of_mem hlive]
    exact ⟨hwindow, h.first, h.qdiv, h.lo_le, h.adv_le,
      ⟨hlast, hlive, hfresh, by simp only [Function.update_self]⟩, h.outOk, h.safe⟩
  | clearNext v np =>
    rw [hpc] at hin
    obtain ⟨hlast, hlive, hfresh, hval⟩ := hin
    have hwindow := h.write hfresh { q.mem np with next := none }
    simp only [Stailq.inStep, inAddr, inLo, hpc, touch_of_mem hlive]
    exact ⟨hwindow, h.first, h.qdiv, h.lo_le, h.adv_le,
      ⟨hlast, hlive, hfresh, by simp only [Function.update_self, hval]⟩, h.outOk, h.safe⟩
  | loadLast v np =>
    rw [hpc] at hin
    obtain ⟨hlast, hlive, hfresh, hnode⟩ := hin
    simp only [Stailq.inStep, inAddr, inLo, hpc]
    exact ⟨h.window, h.first, h.qdiv, h.lo_le, h.adv_le,
      ⟨hlast, hlive, hfresh, hnode, hlast⟩, h.outOk, h.safe⟩
  | link v np t =>
    rw [hpc] at hin
    obtain ⟨hlast, hlive, hfresh, hnode, rfl⟩ := hin
    have htail : addr q.enq.length ∈ q.live := h.chain.alive _ h.chain.le (Nat.le_refl _)
    have hwindow := h.link hlive hfresh hnode
    have hkeep : ∀ i, i ≤ q.enq.length →
        Function.update addr (q.enq.length + 1) np i = addr i :=
      fun i hi => Function.update_of_ne (by omega) _ _
    simp only [Stailq.inStep, inAddr, inLo, hpc, touchRef_of_mem htail, storeRef]
    refine ⟨hwindow, ?_, ?_, h.lo_le, ?_, ?_, ?_, h.safe⟩
    · rw [hkeep lo h.chain.le]
      exact h.first
    · rw [hkeep q.adv h.adv_le]
      exact h.qdiv
    · simp only [List.length_append]
      exact Nat.le_add_right_of_le h.adv_le
    · simp only [InOk, List.length_append, List.length_singleton, Nat.add_sub_cancel,
        hkeep _ (Nat.le_refl _), Function.update_self]
      exact ⟨hlast, Nat.succ_pos _, trivial⟩
    · exact h.outOk.extend h.adv_le v np
  | moveLast np =>
    rw [hpc] at hin
    obtain ⟨-, -, rfl⟩ := hin
    simp only [Stailq.inStep, inAddr, inLo, hpc]
    exact ⟨h.window, h.first, h.qdiv, h.lo_le, h.adv_le, rfl, h.outOk, h.safe⟩
  | trimFirst =>
    rw [hpc] at hin
    simp only [Stailq.inStep, inAddr, inLo, hpc]
    exact ⟨h.window, h.first, h.qdiv, h.lo_le, h.adv_le, ⟨hin, h.first⟩, h.outOk, h.safe⟩
  | trimTest tnp =>
    rw [hpc] at hin
    obtain ⟨hlast, rfl⟩ := hin
    simp only [Stailq.inStep, inAddr, inLo, hpc]
    by_cases heq : some (addr lo) = q.qdiv
    · rw [if_pos heq]
      exact ⟨h.window, h.first, h.qdiv, h.lo_le, h.adv_le, hlast, h.outOk, h.safe⟩
    · rw [if_neg heq]
      -- the first node is not the divider, so the divider lies behind it
      have hlt : lo < q.adv := by
        rcases Nat.lt_or_ge lo q.adv with hlt | hge
        · exact hlt
        · rw [h.qdiv, Nat.le_antisymm h.lo_le hge] at heq
          exact absurd rfl heq
      exact ⟨h.window, h.first, h.qdiv, h.lo_le, h.adv_le, ⟨hlast, rfl, hlt⟩, h.outOk,
        h.safe⟩
  | rmFirst tnp =>
    rw [hpc] at hin
    obtain ⟨hlast, rfl, hlt⟩ := hin
    simp only [Stailq.inStep, inAddr, inLo, hpc]
    exact ⟨h.window, h.first, h.qdiv, h.lo_le, h.adv_le, ⟨hlast, rfl, h.first, hlt⟩,
      h.outOk, h.safe⟩
  | rmNext tnp f =>
    rw [hpc] at hin
    obtain ⟨hlast, rfl, rfl, hlt⟩ := hin
    have hlive : addr lo ∈ q.live := h.chain.alive lo (Nat.le_refl _) h.chain.le
    have hnext : (q.mem (addr lo)).next = some (addr (lo + 1)) :=
      h.chain.link lo (Nat.le_refl _) (Nat.lt_of_lt_of_le hlt h.adv_le)
    simp only [Stailq.inStep, inAddr, inLo, hpc, touch_of_mem hlive, node_some]
    exact ⟨h.window, h.first, h.qdiv, h.lo_le, h.adv_le, ⟨hlast, rfl, hnext, hlt⟩,
      h.outOk, h.safe⟩
  | rmStore tnp nx =>
    rw [hpc] at hin
    obtain ⟨hlast, rfl, rfl, hlt⟩ := hin
    simp only [Stailq.inStep, inAddr, inLo, hpc, reduceCtorEq, if_false]
    exact ⟨h.window.tail (Nat.lt_of_lt_of_le hlt h.adv_le), rfl, h.qdiv, hlt, h.adv_le,
      ⟨hlast, addr lo, rfl, h.chain.alive lo (Nat.le_refl _) h.chain.le, h.chain.fresh_tail⟩,
      h.outOk, h.safe⟩
  | rmLast tnp =>
    rw [hpc] at hin
    exact hin.elim
  | free tnp =>
    rw [hpc] at hin
    obtain ⟨hlast, a, rfl, hlive, hfresh⟩ := hin
    simp only [Stailq.inStep, inAddr, inLo, hpc, touch_of_mem hlive]
    refine ⟨h.window.erase hfresh ?_, h.first, h.qdiv, h.lo_le, h.adv_le, hlast, h.outOk, h.safe⟩
    intro c hc hne
    simp only [List.mem_filter, decide_eq_true_eq]
    exact ⟨hc, hne⟩

/-- **The producer keeps the representation**, at each of its accesses; where it removes a node, the
window begins one later. -/
theorem Rep.inStep (h : Rep q addr lo) : Inv q.inStep := ⟨_, _, h.inStep_at⟩

/-! ## The consumer -/

/-- What the producer has loaded stays right when the consumer moves the divider. -/
theorem InOk.advance {pc : InPc α} (h : InOk q addr lo pc) {d : Option Addr} {pc' : OutPc α} :
    InOk { q with qdiv := d, adv := q.adv + 1, outPc := pc' } addr lo pc := by
  cases pc with
  | rmFirst tnp =>
    obtain ⟨hlast, htnp, hlt⟩ := h
    exact ⟨hlast, htnp, Nat.lt_succ_of_lt hlt⟩
  | rmNext tnp f =>
    obtain ⟨hlast, htnp, hf, hlt⟩ := h
    exact ⟨hlast, htnp, hf, Nat.lt_succ_of_lt hlt⟩
  | rmStore tnp nx =>
    obtain ⟨hlast, htnp, hnx, hlt⟩ := h
    exact ⟨hlast, htnp, hnx, Nat.lt_succ_of_lt hlt⟩
  | _ => exact h

/-- `stqh_last` always designates the link of the last node, or of the one before it
while an insertion is about to move it. -/
theorem Rep.last_eq (h : Rep q addr lo) :
    ∃ m, q.last = .next (addr m) ∧ m ≤ q.enq.length ∧ q.enq.length ≤ m + 1 := by
  have hin := h.inOk
  cases hpc : q.inPc <;> rw [hpc] at hin
  case moveLast np => exact ⟨q.enq.length - 1, hin.1, by omega, by omega⟩
  case rmLast tnp => exact hin.elim
  case idle => exact ⟨_, hin, Nat.le_refl _, Nat.le_succ _⟩
  case done => exact ⟨_, hin, Nat.le_refl _, Nat.le_succ _⟩
  case trimFirst => exact ⟨_, hin, Nat.le_refl _, Nat.le_succ _⟩
  all_goals exact ⟨_, hin.1, Nat.le_refl _, Nat.le_succ _⟩

/-- A call of `stailq_out_lf_spsc` may begin when something is pending. -/
theorem Rep.outStart (h : Rep q addr lo) (hlt : q.adv < q.enq.length) :
    Rep q.outStart addr lo :=
  ⟨h.window, h.first, h.qdiv, h.lo_le, h.adv_le, h.inOk, hlt, h.safe⟩

/-- **The consumer keeps the invariant.** One case per access of `stailq_out_lf_spsc`. -/
theorem Rep.outStep (h : Rep q addr lo) : Rep q.outStep addr lo := by
  have hout := h.outOk
  cases hpc : q.outPc with
  | idle => simpa only [Stailq.outStep, hpc] using h
  | done v => simpa only [Stailq.outStep, hpc] using h
  | loadDiv =>
    rw [hpc] at hout
    simp only [Stailq.outStep, hpc]
    exact ⟨h.window, h.first, h.qdiv, h.lo_le, h.adv_le, h.inOk, ⟨hout, h.qdiv⟩, h.safe⟩
  | loadLast d =>
    rw [hpc] at hout
    obtain ⟨hlt, hd⟩ := hout
    obtain ⟨m, hm, hle, hge⟩ := h.last_eq
    have hadv : q.adv ≤ m := by omega
    simp only [Stailq.outStep, hpc]
    exact ⟨h.window, h.first, h.qdiv, h.lo_le, h.adv_le, h.inOk,
      ⟨hlt, hd, m, hadv, hle, hm⟩, h.safe⟩
  | loadTail d t =>
    rw [hpc] at hout
    obtain ⟨hlt, rfl, m, hadv, hle, rfl⟩ := hout
    have hlive : addr m ∈ q.live := h.chain.alive m (Nat.le_trans h.lo_le hadv) hle
    -- the link read is null or the address of a node behind the divider
    have hne : some (addr q.adv) ≠ q.loadRef (.next (addr m)) := by
      simp only [loadRef]
      rcases Nat.lt_or_ge m q.enq.length with hlt' | hge
      · rw [h.chain.link m (Nat.le_trans h.lo_le hadv) hlt']
        intro heq
        have := h.chain.inj q.adv (m + 1) h.lo_le h.adv_le (by have := h.lo_le; omega) hlt'
          (Option.some.inj heq)
        omega
      · rw [show m = q.enq.length by omega, h.chain.stop]
        simp
    simp only [Stailq.outStep, hpc, touchRef_of_mem hlive, if_neg hne]
    exact ⟨h.window, h.first, h.qdiv, h.lo_le, h.adv_le, h.inOk, hlt, h.safe⟩
  | advDiv =>
    rw [hpc] at hout
    simp only [Stailq.outStep, hpc]
    exact ⟨h.window, h.first, h.qdiv, h.lo_le, h.adv_le, h.inOk, ⟨hout, h.qdiv⟩, h.safe⟩
  | advNext d =>
    rw [hpc] at hout
    obtain ⟨hlt, rfl⟩ := hout
    have hlive : addr q.adv ∈ q.live := h.chain.alive q.adv h.lo_le h.adv_le
    simp only [Stailq.outStep, hpc, touch_of_mem hlive, node_some]
    exact ⟨h.window, h.first, h.qdiv, h.lo_le, h.adv_le, h.inOk,
      ⟨hlt, h.chain.link q.adv h.lo_le hlt⟩, h.safe⟩
  | advStore nx =>
    rw [hpc] at hout
    obtain ⟨hlt, rfl⟩ := hout
    simp only [Stailq.outStep, hpc]
    exact ⟨h.window, h.first, rfl, Nat.le_succ_of_le h.lo_le, hlt, h.inOk.advance,
      Nat.succ_pos _, h.safe⟩
  | valDiv =>
    rw [hpc] at hout
    simp only [Stailq.outStep, hpc]
    exact ⟨h.window, h.first, h.qdiv, h.lo_le, h.adv_le, h.inOk, ⟨hout, h.qdiv⟩, h.safe⟩
  | valLoad d =>
    rw [hpc] at hout
    obtain ⟨hpos, rfl⟩ := hout
    have hlive : addr q.adv ∈ q.live := h.chain.alive q.adv h.lo_le h.adv_le
    have hval : (q.mem (addr q.adv)).val = q.enq[q.adv - 1]? := by
      have hadv := h.adv_le
      have := h.window.vals (q.adv - 1) (by have := h.lo_le; omega) (by omega)
      rwa [show q.adv - 1 + 1 = q.adv by omega] at this
    simp only [Stailq.outStep, hpc, touch_of_mem hlive, node_some]
    exact ⟨h.window, h.first, h.qdiv, h.lo_le, h.adv_le, h.inOk, ⟨hpos, hval⟩, h.safe⟩

/-! ## Leaving the macros -/

/-- `stailq_in_lf_spsc` returns. -/
theorem Rep.inFinish (h : Rep q addr lo) (hpc : q.inPc = .done) : Rep q.inFinish addr lo := by
  have hin := h.inOk
  rw [hpc] at hin
  exact ⟨h.window, h.first, h.qdiv, h.lo_le, h.adv_le, hin, h.outOk, h.safe⟩

/-- `stailq_out_lf_spsc` returns. -/
theorem Rep.outFinish (h : Rep q addr lo) : Rep q.outFinish addr lo :=
  ⟨h.window, h.first, h.qdiv, h.lo_le, h.adv_le, h.inOk, trivial, h.safe⟩

/-! ## The history

What the two threads' accesses do to the linked and the delivered values. -/

/-- The producer's accesses leave the consumer's side alone; exactly one of them, the
write through `stqh_last`, links the value carried. -/
theorem inStep_cases (q : Stailq α) :
    q.inStep.outPc = q.outPc ∧ q.inStep.adv = q.adv ∧
      ((q.inStep.enq = q.enq ∧ q.inStep.unlinked = q.unlinked ∧ q.inStep.inVal = q.inVal) ∨
        (q.unlinked = true ∧ q.inStep.unlinked = false ∧ q.inStep.inVal = none ∧
          ∃ v, q.inVal = some v ∧ q.inStep.enq = q.enq ++ [v])) := by
  cases hpc : q.inPc with
  | link v np t =>
    cases t <;>
      exact ⟨by simp [inStep, hpc, touchRef, storeRef, touch],
        by simp [inStep, hpc, touchRef, storeRef, touch],
        .inr ⟨by simp [unlinked, hpc], by simp [inStep, hpc, unlinked],
          by simp [inStep, hpc, inVal],
          v, by simp [inVal, hpc], by simp [inStep, hpc, touchRef, storeRef, touch]⟩⟩
  | trimTest tnp => by_cases htnp : tnp = q.qdiv <;> simp [inStep, hpc, unlinked, inVal, htnp]
  | rmStore tnp nx => cases nx <;> simp [inStep, hpc, unlinked, inVal]
  | free tnp =>
    cases tnp <;>
      exact ⟨by simp [inStep, hpc, touch], by simp [inStep, hpc, touch],
        .inl ⟨by simp [inStep, hpc, touch], by simp [inStep, hpc, unlinked],
          by simp [inStep, hpc, inVal]⟩⟩
  | _ => simp [inStep, hpc, unlinked, inVal, touch]

/-- The consumer's accesses leave the linked values alone; exactly one of them, the write
of the divider, takes the next value. -/
theorem Rep.outStep_cases (h : Rep q addr lo) :
    q.outStep.enq = q.enq ∧ q.outStep.inPc = q.inPc ∧
      ((q.outStep.adv = q.adv ∧ q.outStep.claiming = q.claiming ∧ q.outStep.inHand = q.inHand) ∨
        (q.outStep.adv = q.adv + 1 ∧ q.claiming = true ∧ q.outStep.claiming = false ∧
          q.inHand = none ∧ q.adv < q.enq.length ∧ q.outStep.inHand = q.enq[q.adv]?)) := by
  have hout := h.outOk
  have hnext := h.outStep.outOk
  cases hpc : q.outPc with
  | advStore nx =>
    rw [hpc] at hout
    simp [Stailq.outStep, hpc, claiming, inHand, hout.1]
  | loadTail d t =>
    -- the emptiness test never succeeds on a claimed value
    have hne : ¬ d = q.loadRef t := by
      intro heq
      simp only [Stailq.outStep, hpc, if_pos heq] at hnext
      rw [hpc] at hout
      obtain ⟨hlt, -⟩ := hout
      obtain ⟨hpos, hv⟩ := hnext
      cases t <;>
        · simp only [touchRef, touch] at hv hpos
          rw [List.getElem?_eq_getElem (by omega)] at hv
          cases hv
    cases t <;> simp [Stailq.outStep, hpc, claiming, inHand, hne, touchRef, touch]
  | valLoad d =>
    simp only [Stailq.outStep, hpc] at hnext
    obtain ⟨-, hv⟩ := hnext
    simp [Stailq.outStep, hpc, claiming, inHand, touch] at hv ⊢
    exact hv
  | _ => simp [Stailq.outStep, hpc, claiming, inHand, touch]

/-- A call that began when something was pending does not come back with `NULL`. -/
theorem Rep.done_ne_none (h : Rep q addr lo) : q.outPc ≠ .done none := by
  intro hpc
  have hout := h.outOk
  rw [hpc] at hout
  have hadv := h.adv_le
  obtain ⟨hpos, hv⟩ := hout
  rw [List.getElem?_eq_getElem (by omega)] at hv
  cases hv

end Ayubd.Stailq
