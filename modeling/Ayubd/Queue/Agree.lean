import Ayubd.Base.Runs
import Ayubd.Base.SeqQueue
import Ayubd.Queue.LfqInv
import Ayubd.Queue.StailqInv

/-!
# Ayubd — the two queues run by one caller

`main.h` says that `lfq.*` is not required because the `STAILQ` macros do the same. Here both
are run by a single caller, each operation to its end: the loops of `stailq_in_lf_spsc` and
`lfq_in` are the micro-steps of `Ayubd.Stailq` and `Ayubd.Lfq` iterated as often as the number
of allocated nodes can require, and the invariants show that this is often enough.

`lfq.c` is the first-in first-out queue on every list of operations. The `STAILQ` queue is so
exactly as long as it is never dequeued from or tested while nothing waits: its emptiness
test compares the divider with the *link* of the last node, which is `NULL`.
-/

namespace Ayubd

/-- `malloc`: any address that is not allocated. -/
structure Malloc where
  next : List Addr → Addr
  fresh : ∀ live, next live ∉ live

def Malloc.bump : Malloc where
  next live := live.foldr max 0 + 1
  fresh live := by
    have hle : ∀ a ∈ live, a ≤ live.foldr max 0 := by
      intro a ha
      induction live with
      | nil => cases ha
      | cons b live ih =>
        rcases List.mem_cons.mp ha with rfl | ha
        · exact Nat.le_max_left _ _
        · exact Nat.le_trans (ih ha) (Nat.le_max_right _ _)
    intro hmem
    exact absurd (hle _ hmem) (Nat.not_succ_le_self _)

/-- The value at the front of what is pending is the one the divider comes to next. -/
theorem get_of_drop_eq_cons {α : Type} {enq : List α} {adv : Nat} {v : α} {l : List α}
    (hpend : enq.drop adv = v :: l) :
    adv < enq.length ∧ enq[adv]? = some v ∧ enq.drop (adv + 1) = l := by
  have hlt : adv < enq.length := by
    by_contra hge
    rw [List.drop_eq_nil_of_le (by omega)] at hpend
    cases hpend
  rw [List.drop_eq_getElem_cons hlt, List.cons.injEq] at hpend
  exact ⟨hlt, by rw [List.getElem?_eq_getElem hlt, hpend.1], hpend.2⟩

namespace Stailq

variable {α : Type} {q : Stailq α} {addr : Nat → Addr} {lo : Nat}

/-! ## Running `stailq_in_lf_spsc` to its end -/

/-- How far the producer is from the end of the round it is in. -/
def inRank : InPc α → Nat
  | .idle | .done => 0
  | .setVal .. => 12
  | .clearNext .. => 11
  | .loadLast .. => 10
  | .link .. => 9
  | .moveLast _ => 8
  | .trimFirst => 7
  | .trimTest _ => 6
  | .rmFirst _ => 5
  | .rmNext .. => 4
  | .rmStore .. => 3
  | .rmLast _ => 2
  | .free _ => 1

/-- A bound on the accesses the producer has left: each round of the trim loop frees a
node. -/
def inBound (q : Stailq α) : Nat := 7 * q.live.length + inRank q.inPc

/-- `stailq_in_lf_spsc(p, d, v)`, run to its end. -/
def stailqInLfSpsc (m : Malloc) (q : Stailq α) (v : α) : Stailq α :=
  let q := q.inStart v (m.next q.live)
  (inStep^[q.inBound] q).inFinish

/-- `stailq_out_lf_spsc(p, d, v)`, run to its end: eight accesses at most. -/
def stailqOutLfSpsc (q : Stailq α) : Option α × Stailq α :=
  let q := outStep^[8] q.outStart
  (match q.outPc with
    | .done v => v
    | _ => none, q.outFinish)

/-- The queue of `main.h` as its caller sees it. -/
def seq (m : Malloc) : SeqQueue (Stailq α) α where
  enq := stailqInLfSpsc m
  deq := stailqOutLfSpsc
  isEmpty := stailqEmptyLfSpsc
  fault := fault

/-- Each access of `stailq_in_lf_spsc` brings it nearer to its end. -/
theorem Rep.inBound_step (h : Rep q addr lo) (hidle : q.inPc ≠ .idle) (hdone : q.inPc ≠ .done) :
    q.inStep.inBound < q.inBound := by
  have hin := h.inOk
  unfold inBound
  cases hpc : q.inPc with
  | idle => exact absurd hpc hidle
  | done => exact absurd hpc hdone
  | link v np t =>
    cases t <;> simp [Stailq.inStep, hpc, inRank, touchRef, touch, storeRef]
  | trimTest tnp =>
    simp only [Stailq.inStep, hpc]
    split <;> simp [inRank]
  | rmStore tnp nx =>
    simp only [Stailq.inStep, hpc]
    split <;> simp [inRank]
  | free tnp =>
    rw [hpc] at hin
    obtain ⟨-, a, rfl, hlive, -⟩ := hin
    have hlt : (q.live.filter (· ≠ a)).length < q.live.length :=
      List.length_filter_lt_length_iff_exists.mpr ⟨a, hlive, by simp⟩
    simp only [Stailq.inStep, hpc, inRank]
    omega
  | _ => simp [Stailq.inStep, hpc, inRank, touch]

/-- What the caller of `stailq_in_lf_spsc` relies on while it runs: the value is still to be
linked, or has been linked behind `e`. -/
def Inserting (q : Stailq α) (v : α) (e : List α) : Prop :=
  (q.unlinked = true ∧ q.inVal = some v ∧ q.enq = e) ∨ (q.unlinked = false ∧ q.enq = e ++ [v])

theorem Inserting.not_idle {v : α} {e : List α} (h : Inserting q v e) : q.inPc ≠ .idle := by
  intro hidle
  rcases h with ⟨-, hval, -⟩ | ⟨hunl, -⟩
  · simp only [inVal, hidle, reduceCtorEq] at hval
  · simp only [unlinked, hidle, Bool.true_eq_false] at hunl

/-- An access does not change what is being inserted into what. -/
theorem Inserting.step {v : α} {e : List α} (h : Inserting q v e) : Inserting q.inStep v e := by
  obtain ⟨-, -, hcase⟩ := inStep_cases q
  rcases hcase with ⟨henq, hunl, hval⟩ | ⟨hunl, hunl', -, w, hw, henq⟩
  · simpa only [Inserting, henq, hunl, hval] using h
  · rcases h with ⟨-, hval, he⟩ | ⟨hcon, -⟩
    · rw [hw] at hval
      cases hval
      exact .inr ⟨hunl', by rw [henq, he]⟩
    · rw [hunl] at hcon
      cases hcon

/-- Run without a break, `stailq_in_lf_spsc` ends with the value behind all others. -/
theorem inRun {v : α} {e : List α} (hinv : q.Inv) (hins : Inserting q v e) :
    let q' := inStep^[q.inBound] q
    q'.Inv ∧ q'.inPc = .done ∧ q'.enq = e ++ [v] ∧ q'.adv = q.adv ∧ q'.outPc = q.outPc := by
  intro q'
  obtain ⟨⟨hinv', hins', hadv, hout⟩, hdone⟩ := iterate_reaches (f := inStep)
    (fun p => p.Inv ∧ Inserting p v e ∧ p.adv = q.adv ∧ p.outPc = q.outPc)
    (fun p => p.inPc = .done) inBound (s := q) (k := q.inBound) (by
      rintro p ⟨⟨addr, lo, hrep⟩, hp, hadv, hout⟩ hdone
      obtain ⟨hout', hadv', -⟩ := inStep_cases p
      exact ⟨⟨hrep.inStep, hp.step, hadv'.trans hadv, hout'.trans hout⟩,
        hrep.inBound_step hp.not_idle hdone⟩)
    (fun p hp => by simp only [inStep, hp]) ⟨hinv, hins, rfl, rfl⟩ (Nat.le_refl _)
  refine ⟨hinv', hdone, ?_, hadv, hout⟩
  rcases hins' with ⟨hunl, -⟩ | ⟨-, henq⟩
  · simp only [unlinked, hdone, Bool.false_eq_true] at hunl
  · exact henq

/-! ## The queue represents the values that wait -/

/-- Neither thread is in a macro and the values `l` wait. -/
structure Idle (q : Stailq α) (l : List α) : Prop where
  inv : q.Inv
  inPc : q.inPc = .idle
  outPc : q.outPc = .idle
  pending : q.pending = l

/-- Between calls, putting a value in puts it last. -/
theorem Idle.enq {l : List α} (h : Idle q l) (m : Malloc) (v : α) :
    Idle (stailqInLfSpsc m q v) (l ++ [v]) := by
  obtain ⟨addr, lo, hrep⟩ := h.inv
  have hstart := hrep.inStart h.inPc (m.fresh q.live) v
  have hins : Inserting (q.inStart v (m.next q.live)) v q.enq := .inl ⟨rfl, rfl, rfl⟩
  obtain ⟨⟨addr', lo', hrep'⟩, hdone, henq, hadv, hout⟩ :=
    inRun ⟨addr, lo, hstart⟩ hins
  refine ⟨⟨addr', lo', hrep'.inFinish hdone⟩, rfl, hout.trans h.outPc, ?_⟩
  rw [← h.pending]
  simp only [Stailq.pending, stailqInLfSpsc, Stailq.inFinish, henq, hadv]
  exact List.drop_append_of_le_length hrep.adv_le

/-- Between calls, the reference is to the link of the last node. -/
theorem Idle.last {l : List α} (h : Idle q l) {addr : Nat → Addr} {lo : Nat}
    (hrep : Rep q addr lo) : q.last = .next (addr q.enq.length) := by
  have hin := hrep.inOk
  rw [h.inPc] at hin
  exact hin

/-- Where nothing is pending the divider has come to the last node. -/
theorem Idle.nil (h : Idle q []) {addr : Nat → Addr} {lo : Nat} (hrep : Rep q addr lo) :
    q.adv = q.enq.length := by
  have hpend : q.enq.drop q.adv = [] := h.pending
  have := List.drop_eq_nil_iff.mp hpend
  exact Nat.le_antisymm hrep.adv_le this

/-- The representation lasts through the accesses of `stailq_out_lf_spsc`. -/
theorem Rep.outRun (h : Rep q addr lo) (hlt : q.adv < q.enq.length) (k : Nat) :
    Rep (Stailq.outStep^[k] q.outStart) addr lo := by
  induction k with
  | zero => exact h.outStart hlt
  | succ k ih =>
    rw [Function.iterate_succ_apply']
    exact ih.outStep

/-- Dequeuing moves the divider, and changes nothing else. -/
theorem Idle.deq_eq {v : α} {l : List α} (h : Idle q (v :: l)) (hrep : Rep q addr lo) :
    stailqOutLfSpsc q = (some v,
      { q with qdiv := some (addr (q.adv + 1)), adv := q.adv + 1, outPc := .idle }) := by
  obtain ⟨hlt, hv, -⟩ := get_of_drop_eq_cons (h.pending : q.enq.drop q.adv = v :: l)
  have hdiv := hrep.qdiv
  have hlast := h.last hrep
  have hstop : (q.mem (addr q.enq.length)).next = none := hrep.chain.stop
  have hlink : (q.mem (addr q.adv)).next = some (addr (q.adv + 1)) :=
    hrep.chain.link q.adv hrep.lo_le hlt
  have hval : (q.mem (addr (q.adv + 1))).val = some v :=
    (hrep.window.vals q.adv (Nat.le_succ_of_le hrep.lo_le) hlt).trans hv
  have htail := hrep.chain.alive _ hrep.chain.le (Nat.le_refl _)
  have hnode := hrep.chain.alive q.adv hrep.lo_le hrep.adv_le
  have hnode' := hrep.chain.alive (q.adv + 1) (Nat.le_succ_of_le hrep.lo_le) hlt
  -- the link of the last node is null, so the test finds the divider elsewhere
  have hrun : Stailq.outStep^[8] q.outStart
      = { q with qdiv := some (addr (q.adv + 1)), adv := q.adv + 1, outPc := .done (some v) } := by
    simp [Function.iterate_succ_apply, Stailq.outStart, Stailq.outStep, hdiv, hlast, touchRef,
      touch, isLive, loadRef, node, hstop, hlink, hval, htail, hnode, hnode', hrep.safe]
  simp only [stailqOutLfSpsc, hrun, Stailq.outFinish]

/-- Between calls, taking a value out takes the first of those that are pending. -/
theorem Idle.deq {v : α} {l : List α} (h : Idle q (v :: l)) :
    (stailqOutLfSpsc q).1 = some v ∧ Idle (stailqOutLfSpsc q).2 l := by
  obtain ⟨addr, lo, hrep⟩ := h.inv
  obtain ⟨hlt, -, hl⟩ := get_of_drop_eq_cons (h.pending : q.enq.drop q.adv = v :: l)
  have hfin : Rep (stailqOutLfSpsc q).2 addr lo := (hrep.outRun hlt 8).outFinish
  rw [h.deq_eq hrep] at hfin ⊢
  exact ⟨rfl, ⟨addr, lo, hfin⟩, h.inPc, rfl, hl⟩

/-- **The drained queue does not look empty**: dequeuing from it follows a null link. -/
theorem Idle.deq_nil (h : Idle q []) : (stailqOutLfSpsc q).2.fault = true := by
  obtain ⟨addr, lo, hrep⟩ := h.inv
  have hdiv := hrep.qdiv
  have hlast := h.last hrep
  have hstop : (q.mem (addr q.enq.length)).next = none := hrep.chain.stop
  rw [h.nil hrep] at hdiv
  simp [stailqOutLfSpsc, Function.iterate_succ_apply, Stailq.outStart, Stailq.outStep,
    Stailq.outFinish, hdiv, hlast, touchRef, touch, isLive, loadRef, node, hstop]

/-- The queue is never reported to be empty, not even when nothing is pending. -/
theorem Idle.not_empty {l : List α} (h : Idle q l) : stailqEmptyLfSpsc q = false := by
  obtain ⟨addr, lo, hrep⟩ := h.inv
  have hstop : (q.mem (addr q.enq.length)).next = none := hrep.chain.stop
  simp [stailqEmptyLfSpsc, hrep.qdiv, h.last hrep, loadRef, hstop]

/-- As long as nothing is taken out of a drained queue, `stailq` is the FIFO that it stands for. -/
theorem represents (m : Malloc) : (seq (α := α) m).Represents Idle where
  enq q l v h := by
    obtain ⟨addr, lo, hrep⟩ := (h.enq m v).inv
    exact ⟨hrep.safe, h.enq m v⟩
  deq q v l h := by
    obtain ⟨hval, hidle⟩ := h.deq
    obtain ⟨addr, lo, hrep⟩ := hidle.inv
    exact ⟨hrep.safe, hval, hidle⟩
  isEmpty q v l h := h.not_empty

/-- A new queue has nothing pending. -/
theorem idle_new (mem : Addr → StailqNode α) (d : Addr) : Idle (stailqNewLfSpsc mem d) [] :=
  ⟨⟨_, _, rep_new mem d⟩, rfl, rfl, rfl⟩

end Stailq

namespace Lfq

variable {α : Type} {q : Lfq α} {addr : Nat → Addr} {lo : Nat}

/-! ## Running `lfq_in` to its end -/

/-- How far the producer is from the end of the round it is in. -/
def inRank : InPc α → Nat
  | .idle | .done => 0
  | .setValue .. => 14
  | .setLink .. => 13
  | .loadLast .. => 12
  | .storeLink .. => 11
  | .pubLast => 10
  | .pubLink _ => 9
  | .pubStore _ => 8
  | .trimFirst => 7
  | .trimTest _ => 6
  | .trimTmp => 5
  | .trimHead _ => 4
  | .trimLink .. => 3
  | .trimStore .. => 2
  | .free _ => 1

/-- A bound on the accesses the producer has left. -/
def inBound (q : Lfq α) : Nat := 7 * q.live.length + inRank q.inPc

/-- `lfq_in(q, value)`, run to its end. -/
def lfqIn (m : Malloc) (q : Lfq α) (v : α) : Lfq α :=
  let q := q.inStart v (m.next q.live)
  (inStep^[q.inBound] q).inFinish

/-- `lfq_out(q)`, run to its end: eight accesses at most. -/
def lfqOut (q : Lfq α) : Option α × Lfq α :=
  let q := outStep^[8] q.outStart
  (match q.outPc with
    | .done r => r
    | _ => none, q.outFinish)

/-- The queue of `lfq.c` as its caller sees it. -/
def seq (m : Malloc) : SeqQueue (Lfq α) α where
  enq := lfqIn m
  deq := lfqOut
  isEmpty := lfqIsEmpty
  fault := fault

/-- Each access of `lfq_in` brings it nearer to its end. -/
theorem Rep.inBound_step (h : Rep q addr lo) (hidle : q.inPc ≠ .idle) (hdone : q.inPc ≠ .done) :
    q.inStep.inBound < q.inBound := by
  have hin := h.inOk
  unfold inBound
  cases hpc : q.inPc with
  | idle => exact absurd hpc hidle
  | done => exact absurd hpc hdone
  | trimTest f =>
    simp only [Lfq.inStep, hpc]
    split <;> simp [inRank]
  | free tmp =>
    rw [hpc] at hin
    obtain ⟨-, a, rfl, hlive, -⟩ := hin
    have hlt : (q.live.filter (· ≠ a)).length < q.live.length :=
      List.length_filter_lt_length_iff_exists.mpr ⟨a, hlive, by simp⟩
    simp only [Lfq.inStep, hpc, inRank]
    omega
  | _ => simp [Lfq.inStep, hpc, inRank, touch]

/-- What the caller of `lfq_in` relies on while it runs: the value is still to be linked, or
has been linked behind `e`. -/
def Inserting (q : Lfq α) (v : α) (e : List α) : Prop :=
  match q.inPc with
  | .idle => False
  | .setValue w _ | .setLink w _ | .loadLast w _ | .storeLink w _ _ => w = v ∧ q.enq = e
  | _ => q.enq = e ++ [v]

theorem Inserting.not_idle {v : α} {e : List α} (h : Inserting q v e) : q.inPc ≠ .idle := by
  intro hidle
  simp only [Inserting, hidle] at h

/-- An access does not change what is being inserted into what, and leaves the consumer alone. -/
theorem Inserting.step {v : α} {e : List α} (h : Inserting q v e) :
    Inserting q.inStep v e ∧ q.inStep.adv = q.adv ∧ q.inStep.outPc = q.outPc := by
  unfold Inserting at h
  cases hpc : q.inPc <;> rw [hpc] at h <;> simp only at h
  case storeLink w np t =>
    obtain ⟨rfl, henq⟩ := h
    simp [Lfq.inStep, hpc, Inserting, touch, henq]
  case trimTest f =>
    by_cases heq : f = q.divider <;> simp [Lfq.inStep, hpc, Inserting, heq, h]
  case free tmp => cases tmp <;> simpa [Lfq.inStep, hpc, Inserting, touch] using h
  all_goals simpa [Lfq.inStep, hpc, Inserting, touch] using h

/-- Run without a break, `lfq_in` ends with the value behind all others. -/
theorem inRun {v : α} {e : List α} (hinv : q.Inv) (hins : Inserting q v e) :
    let q' := inStep^[q.inBound] q
    q'.Inv ∧ q'.inPc = .done ∧ q'.enq = e ++ [v] ∧ q'.adv = q.adv ∧ q'.outPc = q.outPc := by
  intro q'
  obtain ⟨⟨hinv', hins', hadv, hout⟩, hdone⟩ := iterate_reaches (f := inStep)
    (fun p => p.Inv ∧ Inserting p v e ∧ p.adv = q.adv ∧ p.outPc = q.outPc)
    (fun p => p.inPc = .done) inBound (s := q) (k := q.inBound) (by
      rintro p ⟨⟨addr, lo, hrep⟩, hp, hadv, hout⟩ hdone
      obtain ⟨hp', hadv', hout'⟩ := hp.step
      exact ⟨⟨hrep.inStep, hp', hadv'.trans hadv, hout'.trans hout⟩,
        hrep.inBound_step hp.not_idle hdone⟩)
    (fun p hp => by simp only [inStep, hp]) ⟨hinv, hins, rfl, rfl⟩ (Nat.le_refl _)
  refine ⟨hinv', hdone, ?_, hadv, hout⟩
  have hdone' : (inStep^[q.inBound] q).inPc = .done := hdone
  simpa only [Inserting, hdone'] using hins'

/-! ## The queue represents the values that wait -/

/-- Neither thread is in a function and the values `l` wait. -/
structure Idle (q : Lfq α) (l : List α) : Prop where
  inv : q.Inv
  inPc : q.inPc = .idle
  outPc : q.outPc = .idle
  pending : q.enq.drop q.adv = l

/-- Between calls, putting a value in puts it last. -/
theorem Idle.enq {l : List α} (h : Idle q l) (m : Malloc) (v : α) :
    Idle (lfqIn m q v) (l ++ [v]) := by
  obtain ⟨addr, lo, hrep⟩ := h.inv
  have hstart := hrep.inStart h.inPc (m.fresh q.live) v
  have hins : Inserting (q.inStart v (m.next q.live)) v q.enq := ⟨rfl, rfl⟩
  obtain ⟨⟨addr', lo', hrep'⟩, hdone, henq, hadv, hout⟩ := inRun ⟨addr, lo, hstart⟩ hins
  refine ⟨⟨addr', lo', hrep'.inFinish hdone⟩, rfl, hout.trans h.outPc, ?_⟩
  rw [← h.pending]
  simp only [lfqIn, Lfq.inFinish, henq, hadv]
  exact List.drop_append_of_le_length hrep.adv_le_length

/-- Between calls, the tail points to the last node. -/
theorem Idle.last {l : List α} (h : Idle q l) {addr : Nat → Addr} {lo : Nat}
    (hrep : Rep q addr lo) : q.last = some (addr q.enq.length) := by
  have hin := hrep.inOk
  rw [h.inPc] at hin
  exact hin

/-- The representation lasts through the accesses of `lfq_out`. -/
theorem Rep.outRun (h : Rep q addr lo) (k : Nat) : Rep (Lfq.outStep^[k] q.outStart) addr lo := by
  induction k with
  | zero => exact h.outStart
  | succ k ih =>
    rw [Function.iterate_succ_apply']
    exact ih.outStep

/-- Between calls, taking a value out takes the first of those that are pending. -/
theorem Idle.deq {v : α} {l : List α} (h : Idle q (v :: l)) :
    (lfqOut q).1 = some v ∧ Idle (lfqOut q).2 l := by
  obtain ⟨addr, lo, hrep⟩ := h.inv
  obtain ⟨hlt, hv, hl⟩ := get_of_drop_eq_cons h.pending
  have hdiv := hrep.divider
  have hlast := h.last hrep
  -- `lfq_out` compares two nodes: the divider is not the last one while something waits
  have hne : addr q.adv ≠ addr q.enq.length := by
    intro heq
    have := hrep.chain.inj _ _ hrep.lo_le hrep.adv_le_length hrep.chain.le (Nat.le_refl _) heq
    omega
  have hlink : (q.mem (addr q.adv)).link = some (addr (q.adv + 1)) :=
    hrep.chain.link q.adv hrep.lo_le hlt
  have hval : (q.mem (addr (q.adv + 1))).value = some v :=
    (hrep.window.vals q.adv (Nat.le_succ_of_le hrep.lo_le) hlt).trans hv
  have hnode := hrep.chain.alive q.adv hrep.lo_le hrep.adv_le_length
  have hnode' := hrep.chain.alive (q.adv + 1) (Nat.le_succ_of_le hrep.lo_le) hlt
  have hrun : Lfq.outStep^[8] q.outStart = { q with
      divider := some (addr (q.adv + 1)), adv := q.adv + 1, outPc := .done (some v) } := by
    simp [Function.iterate_succ_apply, Lfq.outStart, Lfq.outStep, hdiv, hlast, hne, touch, isLive,
      node, hlink, hval, hnode, hnode', hrep.safe]
  have hfin := (hrep.outRun 8).outFinish
  rw [hrun] at hfin
  simp only [lfqOut, hrun]
  exact ⟨trivial, ⟨addr, lo, hfin⟩, h.inPc, rfl, hl⟩

/-- Where nothing is pending the divider is the tail, which is what `lfq_out` tests. -/
theorem Idle.drained (h : Idle q []) : q.divider = q.last := by
  obtain ⟨addr, lo, hrep⟩ := h.inv
  have hle := List.drop_eq_nil_iff.mp h.pending
  rw [hrep.divider, h.last hrep, Nat.le_antisymm hrep.adv_le_length hle]

theorem Idle.deq_nil (h : Idle q []) : (lfqOut q).1 = none ∧ Idle (lfqOut q).2 [] := by
  obtain ⟨addr, lo, hrep⟩ := h.inv
  have hrun : Lfq.outStep^[8] q.outStart = { q with outPc := .done none } := by
    simp [Function.iterate_succ_apply, Lfq.outStart, Lfq.outStep, h.drained]
  have hfin := (hrep.outRun 8).outFinish
  rw [hrun] at hfin
  simp only [lfqOut, hrun]
  exact ⟨trivial, ⟨addr, lo, hfin⟩, h.inPc, rfl, h.pending⟩

/-- A queue with something pending is not reported to be empty. -/
theorem Idle.not_empty {v : α} {l : List α} (h : Idle q (v :: l)) : lfqIsEmpty q = false := by
  obtain ⟨addr, lo, hrep⟩ := h.inv
  simp only [lfqIsEmpty, decide_eq_false_iff_not, hrep.divider, h.last hrep, Option.some.injEq]
  intro heq
  have hadv := hrep.chain.inj _ _ hrep.lo_le hrep.adv_le_length hrep.chain.le (Nat.le_refl _) heq
  have hpend := h.pending
  rw [hadv, List.drop_length] at hpend
  cases hpend

/-- `lfq` is the FIFO that it stands for. -/
theorem represents (m : Malloc) : (seq (α := α) m).Represents Idle where
  enq q l v h := by
    obtain ⟨addr, lo, hrep⟩ := (h.enq m v).inv
    exact ⟨hrep.safe, h.enq m v⟩
  deq q v l h := by
    obtain ⟨hval, hidle⟩ := h.deq
    obtain ⟨addr, lo, hrep⟩ := hidle.inv
    exact ⟨hrep.safe, hval, hidle⟩
  isEmpty q v l h := h.not_empty

/-- A new queue has nothing pending. -/
theorem idle_new (mem : Addr → LfqNode α) (d : Addr) : Idle (lfqNew mem d) [] :=
  ⟨⟨_, _, rep_new mem d⟩, rfl, rfl, rfl⟩

/-- **`lfq.c` is a first-in first-out queue** for a single caller. -/
theorem outs_eq_fifo (m : Malloc) (mem : Addr → LfqNode α) (d : Addr)
    (ops : List (QueueOp α)) : (seq m).outs (lfqNew mem d) ops = SeqQueue.fifo.outs [] ops := by
  refine (represents m).outs_eq ?_ ?_ (idle_new mem d) ops
  · intro q h
    obtain ⟨hval, hidle⟩ := h.deq_nil
    obtain ⟨addr, lo, hrep⟩ := hidle.inv
    exact ⟨hrep.safe, hval, hidle⟩
  · intro q h
    simp only [seq, lfqIsEmpty, h.drained, decide_true]

end Lfq

/-! ## Agreement -/

open SeqQueue (Served)

/-- **When the two queues agree.** Run by one caller from fresh queues, with any allocators
and whatever memory held before, the `STAILQ` queue returns at each step what `lfq.c` returns
if and only if no dequeue and no emptiness test is made while nothing waits. -/
theorem stailq_agrees_lfq_iff {α : Type} (m m' : Malloc) (mem : Addr → StailqNode α)
    (mem' : Addr → LfqNode α) (d d' : Addr) (ops : List (QueueOp α)) :
    (Stailq.seq m).outs (Stailq.stailqNewLfSpsc mem d) ops
      = (Lfq.seq m').outs (Lfq.lfqNew mem' d') ops ↔ Served 0 ops := by
  rw [Lfq.outs_eq_fifo]
  refine (Stailq.represents m).outs_eq_iff ?_ ?_ (Stailq.idle_new mem d) ops
  · intro q h
    have hfault : (Stailq.seq m).fault ((Stailq.seq m).deq q).2 = true := h.deq_nil
    simp [SeqQueue.exec, hfault]
  · intro q h
    exact h.not_empty

/-- After one value has gone in and out, a second `stailq_out_lf_spsc` follows a null link
where `lfq_out` returns `NULL`. -/
theorem stailq_disagrees_lfq : ¬ ∀ (m m' : Malloc) (ops : List (QueueOp Nat)),
    (Stailq.seq m).outs (Stailq.stailqNewLfSpsc (fun _ => ⟨none, none⟩) 0) ops
      = (Lfq.seq m').outs (Lfq.lfqNew (fun _ => ⟨none, none⟩) 0) ops := by
  intro hall
  have := hall Malloc.bump Malloc.bump [.enq 7, .deq, .deq]
  revert this
  decide

end Ayubd
