import Ayubd.Base.Chain
import Ayubd.Queue.Lfq

/-!
# Ayubd — the representation invariant of `lfq.c`

`Rep q addr lo` is to `Lfq` what `Stailq.Rep` is to the `STAILQ` queue: the nodes from
`first` on are a window of the history, the divider is node number `adv`, and `last` is the
last node, or the one before it between linking a node and publishing it. The consumer needs
no promise to start: comparing the divider with `last` tells it whether a value waits.
-/

namespace Ayubd.Lfq

variable {α : Type} {q : Lfq α} {addr : Nat → Addr} {lo : Nat}

/-! ## The invariant -/

/-- What the producer's program counter knows. -/
def InOk (q : Lfq α) (addr : Nat → Addr) (lo : Nat) : InPc α → Prop
  | .idle | .done | .trimFirst => q.last = some (addr q.enq.length)
  | .setValue _ np => q.last = some (addr q.enq.length) ∧ np ∈ q.live ∧
      Fresh addr lo q.enq.length np
  | .setLink v np => q.last = some (addr q.enq.length) ∧ np ∈ q.live ∧
      Fresh addr lo q.enq.length np ∧ (q.mem np).value = some v
  | .loadLast v np => q.last = some (addr q.enq.length) ∧ np ∈ q.live ∧
      Fresh addr lo q.enq.length np ∧ q.mem np = ⟨some v, none⟩
  | .storeLink v np t => q.last = some (addr q.enq.length) ∧ np ∈ q.live ∧
      Fresh addr lo q.enq.length np ∧ q.mem np = ⟨some v, none⟩ ∧
      t = some (addr q.enq.length)
  | .pubLast => q.last = some (addr (q.enq.length - 1)) ∧ 0 < q.enq.length
  | .pubLink t => q.last = some (addr (q.enq.length - 1)) ∧ 0 < q.enq.length ∧
      t = some (addr (q.enq.length - 1))
  | .pubStore nx => q.last = some (addr (q.enq.length - 1)) ∧ 0 < q.enq.length ∧
      nx = some (addr q.enq.length)
  | .trimTest f => q.last = some (addr q.enq.length) ∧ f = some (addr lo)
  | .trimTmp => q.last = some (addr q.enq.length) ∧ lo < q.adv
  | .trimHead tmp => q.last = some (addr q.enq.length) ∧ tmp = some (addr lo) ∧ lo < q.adv
  | .trimLink tmp f => q.last = some (addr q.enq.length) ∧ tmp = some (addr lo) ∧
      f = some (addr lo) ∧ lo < q.adv
  | .trimStore tmp nx => q.last = some (addr q.enq.length) ∧ tmp = some (addr lo) ∧
      nx = some (addr (lo + 1)) ∧ lo < q.adv
  | .free tmp => q.last = some (addr q.enq.length) ∧
      ∃ a, tmp = some a ∧ a ∈ q.live ∧ Fresh addr lo q.enq.length a

/-- The number of published values: all that are linked, except between linking a node and
moving `last`. -/
def published (q : Lfq α) : Nat :=
  match q.inPc with
  | .pubLast | .pubLink _ | .pubStore _ => q.enq.length - 1
  | _ => q.enq.length

/-- What the consumer's program counter knows once it has seen a published value. -/
def OutOk (addr : Nat → Addr) (adv published : Nat) (enq : List α) : OutPc α → Prop
  | .idle | .loadDiv => True
  | .loadLast d => d = some (addr adv)
  | .resDiv => adv < published
  | .resLink d => adv < published ∧ d = some (addr adv)
  | .resValue nx => adv < published ∧ nx = some (addr (adv + 1))
  | .advDiv r => adv < published ∧ r = enq[adv]?
  | .advLink r d => adv < published ∧ r = enq[adv]? ∧ d = some (addr adv)
  | .advStore r nx => adv < published ∧ r = enq[adv]? ∧ nx = some (addr (adv + 1))
  | .done r => r = none ∨ (0 < adv ∧ r = enq[adv - 1]?)

/-- **The representation invariant.** -/
structure Rep (q : Lfq α) (addr : Nat → Addr) (lo : Nat) : Prop where
  window : Window (fun a => (q.mem a).link) (fun a => (q.mem a).value) (· ∈ q.live) addr lo q.enq
  first : q.first = some (addr lo)
  divider : q.divider = some (addr q.adv)
  lo_le : lo ≤ q.adv
  adv_le : q.adv ≤ q.published
  inOk : InOk q addr lo q.inPc
  outOk : OutOk addr q.adv q.published q.enq q.outPc
  safe : q.fault = false

def Inv (q : Lfq α) : Prop := ∃ addr lo, Rep q addr lo

/-- The node that the tail points to is one of those that were linked. -/
theorem published_le : q.published ≤ q.enq.length := by
  unfold published
  split <;> omega

/-- The tail points to the node of the value that was published last. -/
theorem Rep.last_eq (h : Rep q addr lo) : q.last = some (addr q.published) := by
  have hin := h.inOk
  unfold published
  cases hpc : q.inPc <;> rw [hpc] at hin <;> simp only
  case idle | done | trimFirst => exact hin
  all_goals exact hin.1

/-! ## Accesses to allocated nodes raise no fault -/

theorem touch_of_mem {a : Addr} (h : a ∈ q.live) : q.touch (some a) = q := by
  simp [touch, isLive, h]

theorem node_some (a : Addr) : q.node (some a) = q.mem a := rfl

/-- A new queue has one node, which holds no value, at `d`. -/
theorem rep_new (mem : Addr → LfqNode α) (d : Addr) : Rep (lfqNew mem d) (fun _ => d) 0 := by
  refine ⟨⟨⟨Nat.le_refl _, ?_, ?_, ?_, ?_⟩, ?_⟩, rfl, rfl, Nat.le_refl _, Nat.le_refl _, rfl,
    trivial, rfl⟩
  · intro i _ _
    exact List.mem_singleton_self d
  · intro i j _ hi _ hj _
    simp only [lfqNew, List.length_nil] at hi hj
    omega
  · intro i _ hi
    exact absurd hi (Nat.not_lt_zero i)
  · simp [lfqNew]
  · intro i _ hi
    exact absurd hi (Nat.not_lt_zero i)

/-! ## The producer -/

/-- From the first node on, the links lead to that of the last value that was linked. -/
theorem Rep.chain (h : Rep q addr lo) :
    Chain (fun a => (q.mem a).link) (· ∈ q.live) addr lo q.enq.length := h.window.chain

theorem Rep.adv_le_length (h : Rep q addr lo) : q.adv ≤ q.enq.length :=
  Nat.le_trans h.adv_le published_le

/-- Writing to a node that is not linked yet does not disturb the linked ones. -/
theorem Rep.write (h : Rep q addr lo) {np : Addr} (hfresh : Fresh addr lo q.enq.length np)
    (n : LfqNode α) :
    Window (fun a => (Function.update q.mem np n a).link)
      (fun a => (Function.update q.mem np n a).value) (· ∈ q.live) addr lo q.enq := by
  refine h.window.congr ?_ ?_ h.chain.alive
  · intro i hlo hhi
    rw [Function.update_of_ne (hfresh i hlo hhi)]
  · intro i hlo hhi
    rw [Function.update_of_ne (hfresh i hlo hhi)]

/-- Linking a node behind the last one makes the chain longer by its value. -/
theorem Rep.link (h : Rep q addr lo) {v : α} {np : Addr} (hlive : np ∈ q.live)
    (hfresh : Fresh addr lo q.enq.length np) (hnode : q.mem np = ⟨some v, none⟩) :
    let mem := Function.update q.mem (addr q.enq.length)
      { q.mem (addr q.enq.length) with link := some np }
    Window (fun a => (mem a).link) (fun a => (mem a).value) (· ∈ q.live)
      (Function.update addr (q.enq.length + 1) np) lo (q.enq ++ [v]) := by
  intro mem
  have hnp : np ≠ addr q.enq.length := (hfresh _ h.chain.le (Nat.le_refl _)).symm
  refine h.window.link hlive hfresh ?_ ?_ ?_ ?_ ?_
  · intro i hlo hlt
    have hne : addr i ≠ addr q.enq.length := by
      intro heq
      have := h.chain.inj i _ hlo (by omega) h.chain.le (Nat.le_refl _) heq
      omega
    simp only [mem, Function.update_of_ne hne]
  · simp only [mem, Function.update_self]
  · simp only [mem, Function.update_of_ne hnp, hnode]
  · intro i _ _
    by_cases heq : addr i = addr q.enq.length
    · simp only [mem, heq, Function.update_self]
    · simp only [mem, Function.update_of_ne heq]
  · simp only [mem, Function.update_of_ne hnp, hnode]

/-- What the consumer knows survives the numbering of one more node. -/
theorem OutOk.extend {addr : Nat → Addr} {adv pub : Nat} {enq : List α} {pc : OutPc α}
    (h : OutOk addr adv pub enq pc) (hadv : adv ≤ enq.length) (hpub : pub ≤ enq.length) (v : α)
    (np : Addr) :
    OutOk (Function.update addr (enq.length + 1) np) adv pub (enq ++ [v]) pc := by
  have hkeep : ∀ i, i ≤ enq.length → Function.update addr (enq.length + 1) np i = addr i :=
    fun i hi => Function.update_of_ne (by omega) _ _
  have hget : ∀ i, i < enq.length → (enq ++ [v])[i]? = enq[i]? :=
    fun i hi => List.getElem?_append_left hi
  -- whatever the consumer has loaded is a node, or the value of one, numbered before
  cases pc with
  | idle | loadDiv => trivial
  | loadLast d =>
    simp only [OutOk, hkeep adv hadv] at h ⊢
    exact h
  | resDiv => exact h
  | resLink d => exact ⟨h.1, by rw [hkeep adv hadv]; exact h.2⟩
  | resValue nx =>
    obtain ⟨hlt, hnx⟩ := h
    exact ⟨hlt, by rw [hkeep (adv + 1) (by omega)]; exact hnx⟩
  | advDiv r =>
    obtain ⟨hlt, hr⟩ := h
    exact ⟨hlt, by rw [hget adv (by omega)]; exact hr⟩
  | advLink r d =>
    obtain ⟨hlt, hr, hd⟩ := h
    exact ⟨hlt, by rw [hget adv (by omega)]; exact hr, by rw [hkeep adv hadv]; exact hd⟩
  | advStore r nx =>
    obtain ⟨hlt, hr, hnx⟩ := h
    exact ⟨hlt, by rw [hget adv (by omega)]; exact hr,
      by rw [hkeep (adv + 1) (by omega)]; exact hnx⟩
  | done r =>
    rcases h with hr | ⟨hpos, hr⟩
    · exact .inl hr
    · exact .inr ⟨hpos, by rw [hget (adv - 1) (by omega)]; exact hr⟩

/-- What `lfq_out` has loaded stays right when the producer publishes more. -/
theorem OutOk.publish {addr : Nat → Addr} {adv pub pub' : Nat} {enq : List α} {pc : OutPc α}
    (h : OutOk addr adv pub enq pc) (hle : pub ≤ pub') : OutOk addr adv pub' enq pc := by
  cases pc with
  | resDiv =>
    have hlt : adv < pub := h
    exact Nat.lt_of_lt_of_le hlt hle
  | resLink d => exact ⟨Nat.lt_of_lt_of_le h.1 hle, h.2⟩
  | resValue nx => exact ⟨Nat.lt_of_lt_of_le h.1 hle, h.2⟩
  | advDiv r => exact ⟨Nat.lt_of_lt_of_le h.1 hle, h.2⟩
  | advLink r d => exact ⟨Nat.lt_of_lt_of_le h.1 hle, h.2⟩
  | advStore r nx => exact ⟨Nat.lt_of_lt_of_le h.1 hle, h.2⟩
  | _ => exact h

/-- A call of `lfq_in` begins with a node that no link leads to. -/
theorem Rep.inStart (h : Rep q addr lo) (hpc : q.inPc = .idle) {np : Addr}
    (hnp : np ∉ q.live) (v : α) : Rep (q.inStart v np) addr lo := by
  have hlast := h.inOk
  rw [hpc] at hlast
  have hpub : (q.inStart v np).published = q.published := by
    simp only [published, Lfq.inStart, hpc]
  refine ⟨?_, h.first, h.divider, h.lo_le, by rw [hpub]; exact h.adv_le, ?_,
    by rw [hpub]; exact h.outOk, h.safe⟩
  · exact h.window.congr (fun _ _ _ => rfl) (fun _ _ _ => rfl)
      (fun i hlo hhi => List.mem_cons_of_mem _ (h.chain.alive i hlo hhi))
  · refine ⟨hlast, List.mem_cons_self, ?_⟩
    intro i hlo hhi heq
    exact hnp (heq ▸ h.chain.alive i hlo hhi)

/-- A step of the producer that writes nothing. -/
theorem Rep.setInPc (h : Rep q addr lo) {pc : InPc α} (hok : InOk q addr lo pc)
    (hpub : published { q with inPc := pc } = q.published) : Rep { q with inPc := pc } addr lo :=
  ⟨h.window, h.first, h.divider, h.lo_le, by rw [hpub]; exact h.adv_le, hok,
    by rw [hpub]; exact h.outOk, h.safe⟩

/-- The number of the first node after the producer's next access. -/
def nextLo (q : Lfq α) (lo : Nat) : Nat :=
  match q.inPc with
  | .trimStore .. => lo + 1
  | _ => lo

/-- **The producer keeps the invariant**, and moves the window only where it stores `first`.
One case per access of `lfq_in`. -/
theorem Rep.inStep_nextLo (h : Rep q addr lo) :
    ∃ addr', Rep q.inStep addr' (q.nextLo lo) := by
  have hin := h.inOk
  have hadv := h.adv_le
  have hout := h.outOk
  cases hpc : q.inPc with
  | idle => exact ⟨addr, by simpa only [Lfq.inStep, nextLo, hpc] using h⟩
  | done => exact ⟨addr, by simpa only [Lfq.inStep, nextLo, hpc] using h⟩
  | setValue v np =>
    rw [hpc] at hin
    simp only [published, hpc] at hadv hout
    obtain ⟨hlast, hlive, hfresh⟩ := hin
    have hwindow := h.write hfresh { q.mem np with value := some v }
    refine ⟨addr, ?_⟩
    simp only [Lfq.inStep, nextLo, hpc, touch_of_mem hlive]
    exact ⟨hwindow, h.first, h.divider, h.lo_le, hadv,
      ⟨hlast, hlive, hfresh, by simp only [Function.update_self]⟩, hout, h.safe⟩
  | setLink v np =>
    rw [hpc] at hin
    simp only [published, hpc] at hadv hout
    obtain ⟨hlast, hlive, hfresh, hval⟩ := hin
    have hwindow := h.write hfresh { q.mem np with link := none }
    refine ⟨addr, ?_⟩
    simp only [Lfq.inStep, nextLo, hpc, touch_of_mem hlive]
    exact ⟨hwindow, h.first, h.divider, h.lo_le, hadv,
      ⟨hlast, hlive, hfresh, by simp only [Function.update_self, hval]⟩, hout, h.safe⟩
  | loadLast v np =>
    rw [hpc] at hin
    obtain ⟨hlast, hlive, hfresh, hnode⟩ := hin
    refine ⟨addr, ?_⟩
    simp only [Lfq.inStep, nextLo, hpc]
    exact h.setInPc ⟨hlast, hlive, hfresh, hnode, hlast⟩ (by simp only [published, hpc])
  | storeLink v np t =>
    rw [hpc] at hin
    simp only [published, hpc] at hadv hout
    obtain ⟨hlast, hlive, hfresh, hnode, rfl⟩ := hin
    have htail : addr q.enq.length ∈ q.live := h.chain.alive _ h.chain.le (Nat.le_refl _)
    have hwindow := h.link hlive hfresh hnode
    have hkeep : ∀ i, i ≤ q.enq.length →
        Function.update addr (q.enq.length + 1) np i = addr i :=
      fun i hi => Function.update_of_ne (by omega) _ _
    refine ⟨Function.update addr (q.enq.length + 1) np, ?_⟩
    simp only [Lfq.inStep, nextLo, hpc, touch_of_mem htail, node_some, Option.getD_some]
    refine ⟨hwindow, ?_, ?_, h.lo_le, ?_, ?_, ?_, h.safe⟩
    · rw [hkeep lo h.chain.le]
      exact h.first
    · rw [hkeep q.adv hadv]
      exact h.divider
    · simpa only [published, List.length_append, List.length_singleton, Nat.add_sub_cancel]
        using hadv
    · simp only [InOk, List.length_append, List.length_singleton, Nat.add_sub_cancel,
        hkeep _ (Nat.le_refl _)]
      exact ⟨hlast, Nat.succ_pos _⟩
    · -- the value is linked but not published yet
      simpa only [published, List.length_append, List.length_singleton, Nat.add_sub_cancel]
        using hout.extend hadv (Nat.le_refl _) v np
  | pubLast =>
    rw [hpc] at hin
    refine ⟨addr, ?_⟩
    simp only [Lfq.inStep, nextLo, hpc]
    exact h.setInPc ⟨hin.1, hin.2, hin.1⟩ (by simp only [published, hpc])
  | pubLink t =>
    rw [hpc] at hin
    simp only [published, hpc] at hadv
    obtain ⟨hlast, hpos, rfl⟩ := hin
    have hlo : lo ≤ q.enq.length - 1 := Nat.le_trans h.lo_le hadv
    have hlive : addr (q.enq.length - 1) ∈ q.live := h.chain.alive _ hlo (by omega)
    have hlink : (q.mem (addr (q.enq.length - 1))).link = some (addr q.enq.length) := by
      have := h.chain.link (q.enq.length - 1) hlo (by omega)
      rwa [show q.enq.length - 1 + 1 = q.enq.length by omega] at this
    refine ⟨addr, ?_⟩
    simp only [Lfq.inStep, nextLo, hpc, touch_of_mem hlive, node_some]
    exact h.setInPc ⟨hlast, hpos, hlink⟩ (by simp only [published, hpc])
  | pubStore nx =>
    rw [hpc] at hin
    simp only [published, hpc] at hadv hout
    obtain ⟨-, hpos, rfl⟩ := hin
    refine ⟨addr, ?_⟩
    simp only [Lfq.inStep, nextLo, hpc]
    refine ⟨h.window, h.first, h.divider, h.lo_le, ?_, rfl, ?_, h.safe⟩
    · exact Nat.le_trans hadv (Nat.sub_le _ _)
    · exact hout.publish (Nat.sub_le _ _)
  | trimFirst =>
    rw [hpc] at hin
    refine ⟨addr, ?_⟩
    simp only [Lfq.inStep, nextLo, hpc]
    exact h.setInPc ⟨hin, h.first⟩ (by simp only [published, hpc])
  | trimTest f =>
    rw [hpc] at hin
    obtain ⟨hlast, rfl⟩ := hin
    refine ⟨addr, ?_⟩
    simp only [Lfq.inStep, nextLo, hpc]
    by_cases heq : some (addr lo) = q.divider
    · rw [if_pos heq]
      exact h.setInPc hlast (by simp only [published, hpc])
    · rw [if_neg heq]
      -- the first node is not the divider, so the divider lies behind it
      have hlt : lo < q.adv := by
        rcases Nat.lt_or_ge lo q.adv with hlt | hge
        · exact hlt
        · rw [h.divider, Nat.le_antisymm h.lo_le hge] at heq
          exact absurd rfl heq
      exact h.setInPc ⟨hlast, hlt⟩ (by simp only [published, hpc])
  | trimTmp =>
    rw [hpc] at hin
    refine ⟨addr, ?_⟩
    simp only [Lfq.inStep, nextLo, hpc]
    exact h.setInPc ⟨hin.1, h.first, hin.2⟩ (by simp only [published, hpc])
  | trimHead tmp =>
    rw [hpc] at hin
    obtain ⟨hlast, rfl, hlt⟩ := hin
    refine ⟨addr, ?_⟩
    simp only [Lfq.inStep, nextLo, hpc]
    exact h.setInPc ⟨hlast, rfl, h.first, hlt⟩ (by simp only [published, hpc])
  | trimLink tmp f =>
    rw [hpc] at hin
    obtain ⟨hlast, rfl, rfl, hlt⟩ := hin
    have hlive : addr lo ∈ q.live := h.chain.alive lo (Nat.le_refl _) h.chain.le
    have hlink : (q.mem (addr lo)).link = some (addr (lo + 1)) :=
      h.chain.link lo (Nat.le_refl _) (Nat.lt_of_lt_of_le hlt h.adv_le_length)
    refine ⟨addr, ?_⟩
    simp only [Lfq.inStep, nextLo, hpc, touch_of_mem hlive, node_some]
    exact h.setInPc ⟨hlast, rfl, hlink, hlt⟩ (by simp only [published, hpc])
  | trimStore tmp nx =>
    rw [hpc] at hin
    simp only [published, hpc] at hadv hout
    obtain ⟨hlast, rfl, rfl, hlt⟩ := hin
    refine ⟨addr, ?_⟩
    simp only [Lfq.inStep, nextLo, hpc]
    exact ⟨h.window.tail (Nat.lt_of_lt_of_le hlt hadv), rfl, h.divider, hlt, hadv,
      ⟨hlast, addr lo, rfl, h.chain.alive lo (Nat.le_refl _) h.chain.le, h.chain.fresh_tail⟩,
      hout, h.safe⟩
  | free tmp =>
    rw [hpc] at hin
    simp only [published, hpc] at hadv hout
    obtain ⟨hlast, a, rfl, hlive, hfresh⟩ := hin
    refine ⟨addr, ?_⟩
    simp only [Lfq.inStep, nextLo, hpc, touch_of_mem hlive]
    refine ⟨h.window.erase hfresh ?_, h.first, h.divider, h.lo_le, hadv, hlast, hout, h.safe⟩
    intro c hc hne
    simp only [List.mem_filter, decide_eq_true_eq]
    exact ⟨hc, hne⟩

/-- **The producer keeps the representation**, at each of its accesses; where it unlinks a node, the
window begins one later. -/
theorem Rep.inStep (h : Rep q addr lo) : Inv q.inStep := by
  obtain ⟨addr', h'⟩ := h.inStep_nextLo
  exact ⟨addr', _, h'⟩

/-! ## The consumer -/

/-- What `lfq_in` has loaded stays right when the consumer moves the divider. -/
theorem InOk.advance {pc : InPc α} (h : InOk q addr lo pc) {d : Option Addr} {pc' : OutPc α} :
    InOk { q with divider := d, adv := q.adv + 1, outPc := pc' } addr lo pc := by
  cases pc with
  | trimTmp => exact ⟨h.1, Nat.lt_succ_of_lt h.2⟩
  | trimHead tmp =>
    obtain ⟨hlast, htmp, hlt⟩ := h
    exact ⟨hlast, htmp, Nat.lt_succ_of_lt hlt⟩
  | trimLink tmp f =>
    obtain ⟨hlast, htmp, hf, hlt⟩ := h
    exact ⟨hlast, htmp, hf, Nat.lt_succ_of_lt hlt⟩
  | trimStore tmp nx =>
    obtain ⟨hlast, htmp, hnx, hlt⟩ := h
    exact ⟨hlast, htmp, hnx, Nat.lt_succ_of_lt hlt⟩
  | _ => exact h

/-- A step of the consumer that writes nothing. -/
theorem Rep.setOutPc (h : Rep q addr lo) {pc : OutPc α}
    (hok : OutOk addr q.adv q.published q.enq pc) : Rep { q with outPc := pc } addr lo :=
  ⟨h.window, h.first, h.divider, h.lo_le, h.adv_le, h.inOk, hok, h.safe⟩

/-- **The consumer keeps the invariant.** One case per access of `lfq_out`. -/
theorem Rep.outStep (h : Rep q addr lo) : Rep q.outStep addr lo := by
  have hout := h.outOk
  have hlive : addr q.adv ∈ q.live := h.chain.alive q.adv h.lo_le h.adv_le_length
  have hlink : q.adv < q.published → (q.mem (addr q.adv)).link = some (addr (q.adv + 1)) :=
    fun hlt => h.chain.link q.adv h.lo_le (Nat.lt_of_lt_of_le hlt published_le)
  cases hpc : q.outPc with
  | idle => simpa only [Lfq.outStep, hpc] using h
  | done r => simpa only [Lfq.outStep, hpc] using h
  | loadDiv =>
    simp only [Lfq.outStep, hpc]
    exact h.setOutPc h.divider
  | loadLast d =>
    rw [hpc] at hout
    have hd : d = some (addr q.adv) := hout
    simp only [Lfq.outStep, hpc]
    by_cases hne : d ≠ q.last
    · rw [if_pos hne]
      -- the divider is not the last published node
      refine h.setOutPc (Nat.lt_of_le_of_ne h.adv_le fun heq => hne ?_)
      rw [hd, h.last_eq, heq]
    · rw [if_neg hne]
      exact h.setOutPc (.inl rfl)
  | resDiv =>
    rw [hpc] at hout
    simp only [Lfq.outStep, hpc]
    exact h.setOutPc ⟨hout, h.divider⟩
  | resLink d =>
    rw [hpc] at hout
    obtain ⟨hlt, rfl⟩ := hout
    simp only [Lfq.outStep, hpc, touch_of_mem hlive, node_some]
    exact h.setOutPc ⟨hlt, hlink hlt⟩
  | resValue nx =>
    rw [hpc] at hout
    obtain ⟨hlt, rfl⟩ := hout
    have hlt' : q.adv < q.enq.length := Nat.lt_of_lt_of_le hlt published_le
    have hlive' : addr (q.adv + 1) ∈ q.live :=
      h.chain.alive _ (Nat.le_succ_of_le h.lo_le) hlt'
    have hval : (q.mem (addr (q.adv + 1))).value = q.enq[q.adv]? :=
      h.window.vals q.adv (Nat.le_succ_of_le h.lo_le) hlt'
    simp only [Lfq.outStep, hpc, touch_of_mem hlive', node_some]
    exact h.setOutPc ⟨hlt, hval⟩
  | advDiv r =>
    rw [hpc] at hout
    simp only [Lfq.outStep, hpc]
    exact h.setOutPc ⟨hout.1, hout.2, h.divider⟩
  | advLink r d =>
    rw [hpc] at hout
    obtain ⟨hlt, hr, rfl⟩ := hout
    simp only [Lfq.outStep, hpc, touch_of_mem hlive, node_some]
    exact h.setOutPc ⟨hlt, hr, hlink hlt⟩
  | advStore r nx =>
    rw [hpc] at hout
    obtain ⟨hlt, hr, rfl⟩ := hout
    simp only [Lfq.outStep, hpc]
    exact ⟨h.window, h.first, rfl, Nat.le_succ_of_le h.lo_le, hlt, h.inOk.advance,
      .inr ⟨Nat.succ_pos _, hr⟩, h.safe⟩

/-! ## Leaving the functions -/

/-- `lfq_in` returns. -/
theorem Rep.inFinish (h : Rep q addr lo) (hpc : q.inPc = .done) : Rep q.inFinish addr lo := by
  have hin := h.inOk
  rw [hpc] at hin
  exact h.setInPc hin (by simp only [published, hpc])

/-- A call of `lfq_out` begins. -/
theorem Rep.outStart (h : Rep q addr lo) : Rep q.outStart addr lo := h.setOutPc trivial

/-- `lfq_out` returns. -/
theorem Rep.outFinish (h : Rep q addr lo) : Rep q.outFinish addr lo := h.setOutPc trivial

end Ayubd.Lfq
