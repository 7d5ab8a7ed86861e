import Ayubd.Daemon.Lane

/-!
# Ayubd — the invariant of a lane

Everything the semaphore protocol of one worker promises: the queue's pointers represent
its history, a thread that is outside a queue macro has no program counter in it, every
linked entry the worker has not claimed is announced by the semaphore or about to be
(`tokens`), and what the worker has handed to `process` is the part of the history it has
taken (`handed`). A worker that starts `stailq_out_lf_spsc` therefore finds a linked entry,
which is what the queue itself asks for.

The references a lane holds on behalf of a hook change by exactly what the label of the
step says (`refs_step`).
-/

namespace Ayubd

namespace Lane

variable {l l' : Lane} {lab : Label}

/-- The worker holds an entry for `h` or is freeing `h` after giving one up. -/
def holds (l : Lane) (h : Nat) : Prop := l.worker.hook = some h ∨ l.worker = .hookFreeReal h

/-- **The lane invariant.** -/
structure Inv (l : Lane) : Prop where
  rep : l.q.Inv
  inIdle : (∀ h, l.stage ≠ .inserting h) → l.q.inPc = .idle
  inVal : ∀ h v, l.stage = .inserting h → l.q.inVal = some v → v = h
  outIdle : l.worker ≠ .stailqOut → l.q.outPc = .idle
  tokens : l.q.enq.length = l.q.adv + l.sem + l.q.claiming.toNat + l.unposted
  handed : l.handed = l.q.enq.take (l.q.adv - l.unhanded)
  held : ∀ h, l.holds h → 0 < l.q.adv ∧ l.q.enq[l.q.adv - 1]? = some h

namespace Inv

theorem adv_le (h : Inv l) : l.q.adv ≤ l.q.enq.length := by
  obtain ⟨addr, lo, hrep⟩ := h.rep
  exact hrep.adv_le

/-- The entry in hand is the last one the divider went over. -/
theorem inHand_q (h : Inv l) {k : Nat} (hk : l.q.inHand = some k) :
    0 < l.q.adv ∧ l.q.enq[l.q.adv - 1]? = some k := by
  obtain ⟨addr, lo, hrep⟩ := h.rep
  have hout := hrep.outOk
  unfold Stailq.inHand at hk
  cases hpc : l.q.outPc <;> rw [hpc] at hk hout <;> simp only [reduceCtorEq] at hk
  case valDiv => exact ⟨hout, hk⟩
  case valLoad d => exact ⟨hout.1, hk⟩
  case done v => exact ⟨hout.1, by rw [← hout.2]; exact hk⟩

theorem inHand_eq (h : Inv l) {k : Nat} (hk : l.inHand = some k) :
    0 < l.q.adv ∧ l.q.enq[l.q.adv - 1]? = some k := by
  unfold inHand at hk
  split at hk
  · exact h.inHand_q hk
  · exact h.held k (.inl hk)

/-- **An appended entry is not yet in hand.** Linking an entry behind the divider leaves
the one in the consumer's hand alone. -/
theorem inHand_append (h : Inv l) {q' : Stailq Nat} (hout : q'.outPc = l.q.outPc)
    (hadv : q'.adv = l.q.adv) {v : Nat} (henq : q'.enq = l.q.enq ++ [v]) :
    q'.inHand = l.q.inHand := by
  obtain ⟨addr, lo, hrep⟩ := h.rep
  have hok := hrep.outOk
  have hle := hrep.adv_le
  unfold Stailq.inHand
  rw [hout, hadv, henq]
  cases hpc : l.q.outPc <;> simp only
  case valDiv =>
    rw [hpc] at hok
    have hpos : 0 < l.q.adv := hok
    exact List.getElem?_append_left (by omega)
  case valLoad d =>
    rw [hpc] at hok
    have hpos : 0 < l.q.adv := hok.1
    exact List.getElem?_append_left (by omega)

end Inv

/-! ## One step keeps the invariant -/

/-- The invariant survives every step of an insertion. -/
theorem Inv.inStep {h : Nat} (hinv : Inv l) (hstage : l.stage = .inserting h) :
    Inv { l with q := l.q.inStep } := by
  obtain ⟨addr, lo, hrep⟩ := hinv.rep
  obtain ⟨hout, hadv, hcase⟩ := Stailq.inStep_cases l.q
  have hle := hrep.adv_le
  have hclaim : l.q.inStep.claiming = l.q.claiming := by simp only [Stailq.claiming, hout]
  rcases hcase with ⟨henq, hunl, hval⟩ | ⟨hunl, hunl', hval, v, hv, henq⟩
  · -- a step before or after the link: the history stands still
    have hhand : l.q.inStep.inHand = l.q.inHand := by
      simp only [Stailq.inHand, hout, hadv, henq]
    refine ⟨hrep.inStep, ?_, ?_, ?_, ?_, ?_, ?_⟩
    · intro hno
      exact absurd hstage (hno h)
    · intro h' w hst hw
      exact hinv.inVal h' w hst (by rw [← hval]; exact hw)
    · intro hw
      rw [hout]
      exact hinv.outIdle hw
    · have := hinv.tokens
      simp only [unposted, hstage, henq, hadv, hclaim, hunl] at this ⊢
      exact this
    · have := hinv.handed
      simp only [unhanded, inHand, henq, hadv, hhand] at this ⊢
      exact this
    · intro k hk
      simp only [henq, hadv]
      exact hinv.held k hk
  · -- the link itself: one entry more, which the producer has not posted yet
    have hhand : l.q.inStep.inHand = l.q.inHand := hinv.inHand_append hout hadv henq
    refine ⟨hrep.inStep, ?_, ?_, ?_, ?_, ?_, ?_⟩
    · intro hno
      exact absurd hstage (hno h)
    · intro h' w _ hw
      simp only [hval, reduceCtorEq] at hw
    · intro hw
      rw [hout]
      exact hinv.outIdle hw
    · have := hinv.tokens
      simp only [unposted, hstage, hunl, if_true] at this
      simp only [unposted, hstage, henq, hadv, hclaim, hunl', List.length_append,
        List.length_singleton]
      simp only [Bool.false_eq_true, if_false]
      omega
    · have := hinv.handed
      simp only [unhanded, inHand, henq, hadv, hhand] at this ⊢
      rw [List.take_append_of_le_length (by omega)]
      exact this
    · intro k hk
      obtain ⟨hpos, hget⟩ := hinv.held k hk
      simp only [henq, hadv]
      exact ⟨hpos, by rw [List.getElem?_append_left (by omega)]; exact hget⟩

/-- The invariant survives every step of a removal. -/
theorem Inv.outStep (hinv : Inv l) (hpc : l.worker = .stailqOut) :
    Inv { l with q := l.q.outStep } := by
  obtain ⟨addr, lo, hrep⟩ := hinv.rep
  obtain ⟨henq, hin, hcase⟩ := hrep.outStep_cases
  have hval : l.q.outStep.inVal = l.q.inVal := by simp only [Stailq.inVal, hin]
  have hunl : l.q.outStep.unlinked = l.q.unlinked := by simp only [Stailq.unlinked, hin]
  have hnone : ∀ k, ¬ Lane.holds { l with q := l.q.outStep } k := by
    intro k hk
    simp only [holds, hpc, WorkerPc.hook, reduceCtorEq, or_self] at hk
  refine ⟨⟨addr, lo, hrep.outStep⟩, ?_, ?_, ?_, ?_, ?_, fun k hk => absurd hk (hnone k)⟩
  · intro hno
    rw [hin]
    exact hinv.inIdle hno
  · intro h v hst hv
    exact hinv.inVal h v hst (by rw [← hval]; exact hv)
  · intro hw
    exact absurd hpc hw
  · have htok := hinv.tokens
    rcases hcase with ⟨hadv, hclaim, -⟩ | ⟨hadv, hclaim, hclaim', -⟩
    · simp only [unposted, hunl, henq, hadv, hclaim] at htok ⊢
      exact htok
    · -- the divider passes the entry the token was taken for
      simp only [unposted, hclaim, Bool.toNat_true] at htok
      simp only [unposted, hunl, henq, hadv, hclaim', Bool.toNat_false]
      omega
  · have hhanded := hinv.handed
    rcases hcase with ⟨hadv, -, hhand⟩ | ⟨hadv, -, -, hhand, hlt, hhand'⟩
    · simp only [unhanded, inHand, hpc, henq, hadv, hhand] at hhanded ⊢
      exact hhanded
    · simp only [unhanded, inHand, hpc, hhand, Option.isSome_none, Bool.false_eq_true, and_false,
        if_false, Nat.sub_zero] at hhanded
      rw [List.getElem?_eq_getElem hlt] at hhand'
      simp only [unhanded, inHand, hpc, WorkerPc.unhanded, henq, hadv, hhand', Option.isSome_some,
        and_self, if_true, Nat.add_sub_cancel]
      exact hhanded

/-- A worker that already has an entry, or none, moves outside the queue macro without
touching the queue, the semaphore or the history. -/
theorem Inv.move (hinv : Inv l) {w : WorkerPc} (hout : l.worker ≠ .stailqOut)
    (hhand : l.worker.unhanded = false) (hhand' : w.unhanded = false)
    (hheld : ∀ h, w.hook = some h ∨ w = .hookFreeReal h → l.holds h) :
    Inv { l with worker := w } where
  rep := hinv.rep
  inIdle := hinv.inIdle
  inVal := hinv.inVal
  outIdle _ := hinv.outIdle hout
  tokens := hinv.tokens
  handed := by
    have := hinv.handed
    simp only [unhanded, hhand, Bool.false_eq_true, false_and, if_false] at this
    simp only [unhanded, hhand', Bool.false_eq_true, false_and, if_false]
    exact this
  held h hh := hinv.held h (hheld h hh)

/-- **One step keeps the lane invariant**, as long as the worker does not let go of an entry
without handing it to `process`. -/
theorem Inv.step (hinv : Inv l) (hstep : Step l lab l')
    (hskip : ∀ h, l.worker = .checkProcess h → lab ≠ .drop h) : Inv l' := by
  obtain ⟨addr, lo, hrep⟩ := hinv.rep
  cases hstep with
  | hookRef h hstage =>
    have hidle : l.q.inPc = .idle := hinv.inIdle (by simp [hstage])
    refine ⟨hinv.rep, fun hno => absurd rfl (hno h), ?_, hinv.outIdle, ?_, hinv.handed,
      hinv.held⟩
    · intro h' v _ hv
      simp only [Stailq.inVal, hidle, reduceCtorEq] at hv
    · have := hinv.tokens
      simp only [unposted, hstage] at this
      simp only [unposted, Stailq.unlinked, hidle, if_true]
      exact this
  | inStart np hstage hpc hnp =>
    next h =>
    refine ⟨⟨addr, lo, hrep.inStart hpc hnp h⟩, fun hno => absurd hstage (hno h), ?_,
      hinv.outIdle, ?_, hinv.handed, hinv.held⟩
    · intro h' v hst hv
      rw [hstage] at hst
      cases hst
      exact (Option.some.inj hv).symm
    · have hun : Lane.unposted { l with q := l.q.inStart h np } = l.unposted := by
        simp only [unposted, hstage, Stailq.unlinked, hpc, Stailq.inStart]
      rw [hun]
      exact hinv.tokens
  | inStep hstage hidle hdone => exact hinv.inStep hstage
  | inFinish hstage hpc =>
    refine ⟨⟨addr, lo, hrep.inFinish hpc⟩, fun _ => rfl, ?_, hinv.outIdle, ?_, hinv.handed,
      hinv.held⟩
    · intro h' v hst
      cases hst
    · have := hinv.tokens
      simp only [unposted, hstage, Stailq.unlinked, hpc, Bool.false_eq_true, if_false] at this
      exact this
  | semPost hstage =>
    refine ⟨hinv.rep, fun _ => hinv.inIdle (by simp [hstage]), ?_, hinv.outIdle, ?_,
      hinv.handed, hinv.held⟩
    · intro h' v hst
      cases hst
    · have := hinv.tokens
      simp only [unposted, hstage] at this ⊢
      omega
  | semWait hpc hsem =>
    have htok := hinv.tokens
    have hout : l.q.outPc = .idle := hinv.outIdle (by simp [hpc])
    have hlt : l.q.adv < l.q.enq.length := by omega
    refine ⟨⟨addr, lo, hrep.outStart hlt⟩, hinv.inIdle, hinv.inVal, fun hw => absurd rfl hw, ?_,
      ?_, ?_⟩
    · simp only [Stailq.claiming, hout, Bool.toNat_false] at htok
      change l.q.enq.length = l.q.adv + (l.sem - 1) + 1 + l.unposted
      omega
    · have := hinv.handed
      simp only [unhanded, hpc, WorkerPc.unhanded, Bool.false_eq_true, false_and, if_false] at this
      simp only [unhanded, inHand, Stailq.inHand, Stailq.outStart, Option.isSome_none,
        Bool.false_eq_true, and_false, if_false]
      exact this
    · intro k hk
      simp only [holds, WorkerPc.hook, reduceCtorEq, or_self] at hk
  | outStep hpc hdone => exact hinv.outStep hpc
  | outEmpty hpc hout => exact absurd hout hrep.done_ne_none
  | outFinish hpc hout =>
    next h =>
    have hget := hinv.inHand_q (k := h) (by simp only [Stailq.inHand, hout])
    refine ⟨⟨addr, lo, hrep.outFinish⟩, hinv.inIdle, hinv.inVal, fun _ => rfl, ?_, ?_, ?_⟩
    · have := hinv.tokens
      simp only [unposted, Stailq.claiming, hout] at this
      exact this
    · have := hinv.handed
      simp only [unhanded, inHand, hpc, WorkerPc.unhanded, Stailq.inHand, hout,
        Option.isSome_some, and_self, if_true] at this
      simp only [unhanded, inHand, WorkerPc.unhanded, WorkerPc.hook, Option.isSome_some, and_self,
        if_true]
      exact this
    · intro k hk
      simp only [holds, WorkerPc.hook, Option.some.injEq, reduceCtorEq, or_false] at hk
      subst hk
      exact hget
  | handle hpc =>
    next h =>
    obtain ⟨hpos, hget⟩ := hinv.held h (.inl (by simp only [hpc, WorkerPc.hook]))
    refine ⟨hinv.rep, hinv.inIdle, hinv.inVal, fun _ => hinv.outIdle (by simp [hpc]),
      hinv.tokens, ?_, ?_⟩
    · have := hinv.handed
      simp only [unhanded, inHand, hpc, WorkerPc.unhanded, WorkerPc.hook, Option.isSome_some,
        and_self, if_true] at this
      simp only [unhanded, WorkerPc.unhanded, Bool.false_eq_true, false_and, if_false,
        Nat.sub_zero, this]
      -- `take adv` is `take (adv - 1)` and the entry in hand
      have htake := List.take_add_one (l := l.q.enq) (i := l.q.adv - 1)
      rw [show l.q.adv - 1 + 1 = l.q.adv by omega, hget] at htake
      exact htake.symm
    · intro k hk
      simp only [holds, WorkerPc.hook, Option.some.injEq, reduceCtorEq, or_false] at hk
      subst hk
      exact ⟨hpos, hget⟩
  | skip hpc => exact absurd rfl (hskip _ hpc)
  | work hpc hne hhand hw hhand' =>
    next h w =>
    refine hinv.move ?_ hhand hhand' ?_
    · intro heq
      simp only [heq, WorkerPc.hook, reduceCtorEq] at hpc
    · rintro k (hk | rfl)
      · exact .inl (by rw [hpc, ← hk, hw])
      · simp only [WorkerPc.hook, reduceCtorEq] at hw
  | hookUnref hpc hw =>
    next h w =>
    rcases hw with rfl | rfl
    · refine hinv.move (by simp [hpc]) (by simp [hpc, WorkerPc.unhanded]) rfl ?_
      rintro k (hk | hk) <;> cases hk
    · refine hinv.move (by simp [hpc]) (by simp [hpc, WorkerPc.unhanded]) rfl ?_
      rintro k (hk | hk)
      · cases hk
      · cases hk
        exact .inl (by simp only [hpc, WorkerPc.hook])
  | free hpc =>
    refine hinv.move (by simp [hpc]) (by simp [hpc, WorkerPc.unhanded]) rfl ?_
    rintro k (hk | hk) <;> cases hk

theorem inv_init {mem : Addr → StailqNode Nat} {d : Addr}
    (hq : l.q = Stailq.stailqNewLfSpsc mem d) (hsem : l.sem = 0) (hworker : l.worker = .semWait)
    (hhanded : l.handed = []) (hstage : l.stage = .away) : Inv l where
  rep := hq ▸ ⟨_, _, Stailq.rep_new mem d⟩
  inIdle _ := by rw [hq]; rfl
  inVal h v hst := by rw [hstage] at hst; cases hst
  outIdle _ := by rw [hq]; rfl
  tokens := by rw [unposted, hstage, hsem, hq]; rfl
  handed := by simp [hhanded, hq, Stailq.stailqNewLfSpsc]
  held h hh := by
    simp only [holds, hworker, WorkerPc.hook, reduceCtorEq, or_self] at hh

/-! ## References -/

/-- What a label does to the number of references for `k`. -/
def Label.delta (k : Nat) : Label → Int
  | .tau => 0
  | .take h => if h = k then 1 else 0
  | .drop h => if h = k then -1 else 0

theorem refs_congr {k : Nat} (hins : l'.inserting k ↔ l.inserting k)
    (hpend : l'.q.pending = l.q.pending) (hhand : l'.inHand = l.inHand) :
    l'.refs k = l.refs k := by
  simp only [refs, hins, hpend, hhand]

theorem inHand_of_hook {h : Nat} (hpc : l.worker.hook = some h) : l.inHand = some h := by
  unfold inHand
  split
  · next heq => simp only [heq, WorkerPc.hook, reduceCtorEq] at hpc
  · exact hpc

theorem refs_tau {k : Nat} (hrefs : l'.refs k = l.refs k) :
    (l'.refs k : Int) = l.refs k + Label.tau.delta k := by
  simp only [hrefs, Label.delta, Int.add_zero]

/-- Giving up the entry in hand drops one reference. -/
theorem refs_drop {h k : Nat} (hstage : l'.stage = l.stage) (hq : l'.q = l.q)
    (hhand : l.inHand = some h) (hhand' : l'.inHand = none) :
    (l'.refs k : Int) = l.refs k + (Label.drop h).delta k := by
  have hins : l'.inserting k ↔ l.inserting k := by simp only [inserting, hstage, hq]
  simp only [refs, hins, hq, hhand, hhand', Label.delta, Option.some.injEq, reduceCtorEq, if_false]
  by_cases hk : h = k
  · simp only [hk, if_true]
    omega
  · simp only [hk, if_false, Int.add_zero]

/-- Linking the entry moves its reference from the producer to the queue. -/
theorem Inv.refs_inStep {h : Nat} (hinv : Inv l) (hstage : l.stage = .inserting h) (k : Nat) :
    Lane.refs { l with q := l.q.inStep } k = l.refs k := by
  obtain ⟨hout, hadv, hcase⟩ := Stailq.inStep_cases l.q
  rcases hcase with ⟨henq, hunl, -⟩ | ⟨hunl, hunl', -, v, hv, henq⟩
  · refine refs_congr ?_ ?_ ?_
    · simp only [inserting, hunl]
    · simp only [Stailq.pending, henq, hadv]
    · simp only [inHand, Stailq.inHand, hout, hadv, henq]
  · obtain rfl := hinv.inVal h v hstage hv
    have hpend : l.q.inStep.pending = l.q.pending ++ [v] := by
      simp only [Stailq.pending, henq, hadv, List.drop_append_of_le_length hinv.adv_le]
    have hhand : Lane.inHand { l with q := l.q.inStep } = l.inHand := by
      simp only [inHand, hinv.inHand_append hout hadv henq]
    rw [refs, refs, hhand]
    simp only [inserting, hstage, hunl, hunl', hpend, List.count_append,
      List.count_singleton, Stage.inserting.injEq, beq_iff_eq, and_true, Bool.false_eq_true,
      and_false, if_false]
    omega

/-- Advancing the divider moves the reference from the queue to the worker's hand. -/
theorem Inv.refs_outStep (hinv : Inv l) (hpc : l.worker = .stailqOut) (k : Nat) :
    Lane.refs { l with q := l.q.outStep } k = l.refs k := by
  obtain ⟨addr, lo, hrep⟩ := hinv.rep
  obtain ⟨henq, hin, hcase⟩ := hrep.outStep_cases
  have hins : Lane.inserting { l with q := l.q.outStep } k ↔ l.inserting k := by
    simp only [inserting, Stailq.unlinked, hin]
  rcases hcase with ⟨hadv, -, hhand⟩ | ⟨hadv, -, -, hhand, hlt, hhand'⟩
  · refine refs_congr hins ?_ ?_
    · simp only [Stailq.pending, henq, hadv]
    · simp only [inHand, hpc, hhand]
  · have hpend : l.q.pending = l.q.enq[l.q.adv] :: l.q.outStep.pending := by
      simp only [Stailq.pending, henq, hadv, List.drop_eq_getElem_cons hlt]
    rw [List.getElem?_eq_getElem hlt] at hhand'
    have hnone : l.inHand = none := by simp only [inHand, hpc, hhand]
    have hsome : Lane.inHand { l with q := l.q.outStep } = some l.q.enq[l.q.adv] := by
      simp only [inHand, hpc, hhand']
    simp only [refs, hins, hnone, hsome, hpend, List.count_cons, beq_iff_eq,
      Option.some.injEq, reduceCtorEq, if_false]
    omega

/-- **References.** A lane step changes the references held for each hook by what its label
says, and by nothing else. -/
theorem Inv.refs_step (hinv : Inv l) (hstep : Step l lab l') (k : Nat) :
    (l'.refs k : Int) = l.refs k + lab.delta k := by
  cases hstep with
  | hookRef h hstage =>
    have hidle : l.q.inPc = .idle := hinv.inIdle (by simp [hstage])
    have hhand : Lane.inHand { l with stage := .inserting h } = l.inHand := rfl
    simp only [refs, hhand, inserting, hstage, Stailq.unlinked, hidle, Label.delta,
      Stage.inserting.injEq, and_true, reduceCtorEq, if_false]
    by_cases hk : h = k
    · simp only [hk, if_true]
      push_cast
      omega
    · simp only [hk, if_false, Int.add_zero]
  | inStart np hstage hpc hnp =>
    refine refs_tau (refs_congr ?_ rfl rfl)
    simp only [inserting, Stailq.unlinked, Stailq.inStart, hpc]
  | inStep hstage hidle hdone => exact refs_tau (hinv.refs_inStep hstage k)
  | inFinish hstage hpc =>
    refine refs_tau (refs_congr ?_ rfl rfl)
    simp [inserting, Stailq.unlinked, hpc]
  | semPost hstage =>
    refine refs_tau (refs_congr ?_ rfl rfl)
    simp [inserting, hstage]
  | semWait hpc hsem =>
    refine refs_tau (refs_congr Iff.rfl rfl ?_)
    simp only [inHand, hpc, Stailq.inHand, Stailq.outStart, WorkerPc.hook]
  | outStep hpc hdone => exact refs_tau (hinv.refs_outStep hpc k)
  | outEmpty hpc hout =>
    -- a worker past `sem_wait` never finds the queue empty
    obtain ⟨addr, lo, hrep⟩ := hinv.rep
    exact absurd hout hrep.done_ne_none
  | outFinish hpc hout =>
    refine refs_tau (refs_congr Iff.rfl rfl ?_)
    simp only [inHand, hpc, Stailq.inHand, hout, WorkerPc.hook]
  | handle hpc =>
    refine refs_tau (refs_congr Iff.rfl rfl ?_)
    simp only [inHand, hpc, WorkerPc.hook]
  | work hpc hne hhand hw hhand' =>
    refine refs_tau (refs_congr Iff.rfl rfl ?_)
    rw [inHand_of_hook hpc]
    exact inHand_of_hook hw
  | skip hpc =>
    exact refs_drop rfl rfl (by simp only [inHand, hpc, WorkerPc.hook]) rfl
  | hookUnref hpc hw =>
    refine refs_drop rfl rfl (by simp only [inHand, hpc, WorkerPc.hook]) ?_
    rcases hw with rfl | rfl <;> rfl
  | free hpc =>
    refine refs_tau (refs_congr Iff.rfl rfl ?_)
    simp only [inHand, hpc, WorkerPc.hook]

end Lane

end Ayubd
