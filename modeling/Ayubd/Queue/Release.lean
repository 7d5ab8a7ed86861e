import Ayubd.Queue.Agree

/-!
# Ayubd — freeing the divider queue

`stailq_free_lf_spsc(p, d, 1)` is `stailq_free(p, 1)`: it frees every node that is still linked
and the value of each of them. In a queue of `stailq_in` and `stailq_out` these are the values
that wait. In the divider queue the divider itself is still linked, and so are nodes before it
until the next `stailq_in_lf_spsc` trims them. The values of these have been delivered; the dummy
node has whatever was in its memory.

* **`free_run`** — every node is freed once, and which values are.
* **`free_releases_iff`** — the values freed are those that wait exactly if nothing has ever been
  dequeued, and the memory of the dummy node held `NULL`.
-/

namespace Ayubd.Stailq

variable {α : Type} {q : Stailq α} {addr : Nat → Addr} {lo : Nat} {garbage : Option α}

/-! ## Freeing -/

/-- A queue that is being freed, and the values freed so far. -/
structure Freeing (α : Type) where
  q : Stailq α
  freed : List α

/-- One round of the loop of `stailq_free(p, 1)`: `STAILQ_REMOVE_HEAD`, then `DO_FREE` for the
value, if any, and for the node. -/
def freeStep (r : Freeing α) : Freeing α :=
  match r.q.first with
  | none => r
  | some np =>
    let q := r.q.touch (some np)
    let nx := (q.mem np).next
    let q := { q with first := nx, last := if nx = none then .first else q.last }
    { q := { q with live := q.live.filter (· ≠ np) }
      freed := r.freed ++ (q.mem np).val.toList }

/-- `stailq_free_lf_spsc(p, d, 1)`, up to freeing the head of the queue: no more rounds are needed
than there are nodes. -/
def stailqFreeLfSpsc (q : Stailq α) : Freeing α := freeStep^[q.live.length] ⟨q, []⟩

/-- **What is expected of it**: the values freed are those that wait, each once; the loop has
come to its end, every node has been freed, and none of them twice. -/
structure Released (waiting : List α) (r : Freeing α) : Prop where
  values : r.freed.Perm waiting
  ended : r.q.first = none
  nodes : r.q.live = []
  safe : r.q.fault = false

/-! ## Which nodes there are -/

/-- The node the producer has in its hands, not linked yet or not linked any more. -/
def inNode (q : Stailq α) : Option Addr :=
  match q.inPc with
  | .setVal _ np | .clearNext _ np | .loadLast _ np | .link _ np _ => some np
  | .free tnp => tnp
  | _ => none

/-- No node is lost, and the dummy, as long as it is there, has the value that its memory held. -/
structure Tight (garbage : Option α) (q : Stailq α) (addr : Nat → Addr) (lo : Nat) : Prop where
  owned : ∀ a ∈ q.live, (∃ i, lo ≤ i ∧ i ≤ q.enq.length ∧ addr i = a) ∨ q.inNode = some a
  dummy : lo = 0 → (q.mem (addr 0)).val = garbage

theorem tight_new (mem : Addr → StailqNode α) (d : Addr) :
    Tight (mem d).val (stailqNewLfSpsc mem d) (fun _ => d) 0 := by
  refine ⟨fun a ha => .inl ⟨0, Nat.le_refl _, Nat.le_refl _, ?_⟩, fun _ => ?_⟩
  · exact (List.mem_singleton.mp ha).symm
  · show (Function.update mem d _ d).val = _
    rw [Function.update_self]

/-- Writing to a node that is not linked. -/
theorem Rep.dummy_write (h : Rep q addr lo) (ht : Tight garbage q addr lo) {np : Addr}
    (hfresh : Fresh addr lo q.enq.length np) (n : StailqNode α) (hlo : lo = 0) :
    (Function.update q.mem np n (addr 0)).val = garbage := by
  subst hlo
  rw [Function.update_of_ne (hfresh 0 (Nat.le_refl _) (Nat.zero_le _))]
  exact ht.dummy rfl

/-- **The producer loses no node.** -/
theorem Tight.inStep (h : Rep q addr lo) (ht : Tight garbage q addr lo) :
    Tight garbage q.inStep (inAddr q addr) (inLo q lo) := by
  have hin := h.inOk
  obtain ⟨howned, hdummy⟩ := ht
  cases hpc : q.inPc with
  | setVal v np =>
    rw [hpc] at hin
    obtain ⟨-, hlive, hfresh⟩ := hin
    simp only [Stailq.inStep, inAddr, inLo, hpc, touch_of_mem hlive]
    refine ⟨fun a ha => ?_, h.dummy_write ⟨howned, hdummy⟩ hfresh _⟩
    simpa only [inNode, hpc] using howned a ha
  | clearNext v np =>
    rw [hpc] at hin
    obtain ⟨-, hlive, hfresh, -⟩ := hin
    simp only [Stailq.inStep, inAddr, inLo, hpc, touch_of_mem hlive]
    refine ⟨fun a ha => ?_, h.dummy_write ⟨howned, hdummy⟩ hfresh _⟩
    simpa only [inNode, hpc] using howned a ha
  | link v np t =>
    rw [hpc] at hin
    obtain ⟨-, hlive, hfresh, -, rfl⟩ := hin
    have htail : addr q.enq.length ∈ q.live := h.chain.alive _ h.chain.le (Nat.le_refl _)
    simp only [Stailq.inStep, inAddr, inLo, hpc, touchRef_of_mem htail, storeRef]
    refine ⟨fun a ha => .inl ?_, fun hlo => ?_⟩
    · -- the node in the producer's hands is the next one of the queue
      rw [List.length_append, List.length_singleton]
      rcases howned a ha with ⟨i, hlo, hhi, rfl⟩ | hnode
      · exact ⟨i, hlo, Nat.le_succ_of_le hhi, Function.update_of_ne (by omega) _ _⟩
      · simp only [inNode, hpc, Option.some.injEq] at hnode
        exact ⟨_, Nat.le_succ_of_le h.chain.le, Nat.le_refl _, by rw [Function.update_self, hnode]⟩
    · rw [Function.update_of_ne (Nat.succ_ne_zero _).symm]
      show (Function.update q.mem _ _ (addr 0)).val = garbage
      by_cases heq : addr 0 = addr q.enq.length
      · rw [heq, Function.update_self, ← heq]
        exact hdummy hlo
      · rw [Function.update_of_ne heq]
        exact hdummy hlo
  -- the dummy is unlinked and is in the producer's hands from here on
  | rmStore tnp nx =>
    rw [hpc] at hin
    obtain ⟨-, rfl, rfl, -⟩ := hin
    simp only [Stailq.inStep, inAddr, inLo, hpc, reduceCtorEq, if_false]
    refine ⟨fun a ha => ?_, fun hlo => absurd hlo (Nat.succ_ne_zero _)⟩
    rcases howned a ha with ⟨i, hlo, hhi, rfl⟩ | hnode
    · rcases Nat.lt_or_eq_of_le hlo with hlt | rfl
      · exact .inl ⟨i, hlt, hhi, rfl⟩
      · exact .inr rfl
    · simp only [inNode, hpc, reduceCtorEq] at hnode
  | rmLast tnp =>
    rw [hpc] at hin
    exact hin.elim
  -- the node in hand is the one that is freed
  | free tnp =>
    rw [hpc] at hin
    obtain ⟨-, a, rfl, hlive, -⟩ := hin
    simp only [Stailq.inStep, inAddr, inLo, hpc, touch_of_mem hlive]
    refine ⟨fun b hb => ?_, hdummy⟩
    simp only [List.mem_filter, decide_eq_true_eq] at hb
    rcases howned b hb.1 with hnode | hnode
    · exact .inl hnode
    · simp only [inNode, hpc, Option.some.injEq] at hnode
      exact absurd hnode.symm hb.2
  | trimTest tnp =>
    simp only [Stailq.inStep, inAddr, inLo, hpc]
    refine ⟨fun a ha => .inl ?_, hdummy⟩
    simpa only [inNode, hpc, reduceCtorEq, or_false] using howned a ha
  | _ =>
    simp only [Stailq.inStep, inAddr, inLo, hpc, touch]
    refine ⟨fun a ha => ?_, hdummy⟩
    simpa only [inNode, hpc] using howned a ha

/-! ## Runs of operations -/

/-- Neither thread is in a macro, the values `l` wait, and no node is lost. -/
structure Settled (garbage : Option α) (q : Stailq α) (l : List α) : Prop where
  idle : Idle q l
  tight : ∃ addr lo, Rep q addr lo ∧ Tight garbage q addr lo

theorem settled_new (mem : Addr → StailqNode α) (d : Addr) :
    Settled (mem d).val (stailqNewLfSpsc mem d) [] :=
  ⟨idle_new mem d, _, _, rep_new mem d, tight_new mem d⟩

/-- Any number of steps of an insertion leaves the queue tight. -/
theorem tight_iterate (h : ∃ addr lo, Rep q addr lo ∧ Tight garbage q addr lo) (k : Nat) :
    ∃ addr lo, Rep (inStep^[k] q) addr lo ∧ Tight garbage (inStep^[k] q) addr lo := by
  induction k with
  | zero => exact h
  | succ k ih =>
    obtain ⟨addr, lo, hrep, ht⟩ := ih
    rw [Function.iterate_succ_apply']
    exact ⟨_, _, hrep.inStep_at, ht.inStep hrep⟩

/-- A settled queue is settled after an insertion, one longer. -/
theorem Settled.enq {l : List α} (h : Settled garbage q l) (m : Malloc) (v : α) :
    Settled garbage (stailqInLfSpsc m q v) (l ++ [v]) ∧ (stailqInLfSpsc m q v).adv = q.adv := by
  obtain ⟨addr, lo, hrep, howned, hdummy⟩ := h.tight
  have hstart := hrep.inStart h.idle.inPc (m.fresh q.live) v
  have htight : Tight garbage (q.inStart v (m.next q.live)) addr lo := by
    refine ⟨fun a ha => ?_, hdummy⟩
    rcases List.mem_cons.mp ha with rfl | ha
    · exact .inr rfl
    · rcases howned a ha with hnode | hnode
      · exact .inl hnode
      · simp only [inNode, h.idle.inPc, reduceCtorEq] at hnode
  obtain ⟨addr', lo', hrep', howned', hdummy'⟩ :=
    tight_iterate ⟨addr, lo, hstart, htight⟩ (q.inStart v (m.next q.live)).inBound
  obtain ⟨-, hdone, -, hadv, -⟩ :=
    inRun ⟨addr, lo, hstart⟩ (.inl ⟨rfl, rfl, rfl⟩ : Inserting (q.inStart v (m.next q.live)) v q.enq)
  refine ⟨⟨h.idle.enq m v, addr', lo', hrep'.inFinish hdone, fun a ha => ?_, hdummy'⟩, hadv⟩
  rcases howned' a ha with hnode | hnode
  · exact .inl hnode
  · simp only [inNode, hdone, reduceCtorEq] at hnode

/-- A settled queue is settled after a removal, one shorter. -/
theorem Settled.deq {v : α} {l : List α} (h : Settled garbage q (v :: l)) :
    Settled garbage (stailqOutLfSpsc q).2 l ∧ (stailqOutLfSpsc q).2.adv = q.adv + 1 := by
  obtain ⟨addr, lo, hrep, ht⟩ := h.tight
  obtain ⟨hlt, -, -⟩ := get_of_drop_eq_cons (h.idle.pending : q.enq.drop q.adv = v :: l)
  have hfin : Rep (stailqOutLfSpsc q).2 addr lo := (hrep.outRun hlt 8).outFinish
  have hidle := h.idle.deq.2
  rw [h.idle.deq_eq hrep] at hfin hidle ⊢
  exact ⟨⟨hidle, addr, lo, hfin, ht.owned, ht.dummy⟩, rfl⟩

/-- **After a list of operations** the values that wait are those of the first-in first-out queue,
and the divider has moved as often as a value was taken. -/
theorem Settled.after (m : Malloc) {l : List α} (h : Settled garbage q l) {ops : List (QueueOp α)}
    (hserved : SeqQueue.Served l.length ops) :
    Settled garbage ((seq m).after q ops) (SeqQueue.fifo.after l ops) ∧
      ((seq m).after q ops).adv = q.adv + ops.countP (· matches .deq) := by
  induction ops generalizing q l with
  | nil => exact ⟨h, rfl⟩
  | cons op ops ih =>
    cases op with
    | enq v =>
      obtain ⟨hnext, hadv⟩ := h.enq m v
      obtain ⟨hs, hcount⟩ := ih hnext (by rw [List.length_append]; exact hserved)
      exact ⟨hs, hcount.trans (by rw [hadv]; rfl)⟩
    | deq =>
      cases l with
      | nil => exact absurd hserved.1 (Nat.lt_irrefl _)
      | cons v l =>
        obtain ⟨hnext, hadv⟩ := h.deq
        obtain ⟨hs, hcount⟩ := ih hnext hserved.2
        refine ⟨hs, hcount.trans ?_⟩
        rw [hadv, List.countP_cons_of_pos rfl]
        omega
    | isEmpty => exact ih h hserved.2

/-! ## The loop -/

/-- The values of the nodes numbered `i … j - 1`. -/
def vals (q : Stailq α) (addr : Nat → Addr) (i j : Nat) : List α :=
  (List.range' i (j - i)).filterMap fun k => (q.mem (addr k)).val

/-- The nodes before number `j` have been freed, and their values; those from there on have
not. -/
structure FreedTo (q : Stailq α) (addr : Nat → Addr) (lo : Nat) (r : Freeing α) (j : Nat) :
    Prop where
  lo_le : lo ≤ j
  le : j ≤ q.enq.length + 1
  mem : r.q.mem = q.mem
  first : r.q.first = if j ≤ q.enq.length then some (addr j) else none
  live : ∀ a, a ∈ r.q.live ↔ ∃ i, j ≤ i ∧ i ≤ q.enq.length ∧ addr i = a
  safe : r.q.fault = false
  freed : r.freed = vals q addr lo j

theorem vals_succ {i j : Nat} (h : i ≤ j) :
    vals q addr i (j + 1) = vals q addr i j ++ (q.mem (addr j)).val.toList := by
  unfold vals
  rw [Nat.succ_sub h, List.range'_1_concat, List.filterMap_append, Nat.add_sub_cancel' h]
  cases hv : (q.mem (addr j)).val <;> simp [hv]

theorem vals_cons {i j : Nat} (h : i < j) :
    vals q addr i j = (q.mem (addr i)).val.toList ++ vals q addr (i + 1) j := by
  unfold vals
  rw [show j - i = j - (i + 1) + 1 by omega, List.range'_succ]
  cases hv : (q.mem (addr i)).val <;> simp [hv]

/-- **One round.** -/
theorem FreedTo.step (hrep : Rep q addr lo) {r : Freeing α} {j : Nat} (h : FreedTo q addr lo r j)
    (hj : j ≤ q.enq.length) :
    FreedTo q addr lo (freeStep r) (j + 1) ∧
      (freeStep r).q.live.length < r.q.live.length := by
  have hfirst : r.q.first = some (addr j) := by rw [h.first, if_pos hj]
  have hlive : addr j ∈ r.q.live := (h.live _).mpr ⟨j, Nat.le_refl _, hj, rfl⟩
  -- the link of a node is the next one, except for the last
  have hnext : (q.mem (addr j)).next =
      if j + 1 ≤ q.enq.length then some (addr (j + 1)) else none := by
    split
    · next hlt => exact hrep.chain.link j h.lo_le hlt
    · next hge => rw [show j = q.enq.length by omega]; exact hrep.chain.stop
  have hstep : freeStep r = ⟨{ r.q with
      first := if j + 1 ≤ q.enq.length then some (addr (j + 1)) else none
      last := if (q.mem (addr j)).next = none then .first else r.q.last
      live := r.q.live.filter (· ≠ addr j) }, r.freed ++ (q.mem (addr j)).val.toList⟩ := by
    simp only [freeStep, hfirst, touch_of_mem hlive, h.mem, ← hnext]
  rw [hstep]
  refine ⟨⟨Nat.le_succ_of_le h.lo_le, Nat.succ_le_succ hj, h.mem, rfl, fun a => ?_, h.safe, ?_⟩, ?_⟩
  · simp only [List.mem_filter, decide_eq_true_eq, h.live a]
    constructor
    · rintro ⟨⟨i, hji, hi, rfl⟩, hne⟩
      rcases Nat.lt_or_eq_of_le hji with hlt | rfl
      · exact ⟨i, hlt, hi, rfl⟩
      · exact absurd rfl hne
    · rintro ⟨i, hji, hi, rfl⟩
      refine ⟨⟨i, by omega, hi, rfl⟩, fun heq => ?_⟩
      -- the node freed is none of those still linked
      have := hrep.chain.inj i j (Nat.le_trans h.lo_le (by omega)) hi h.lo_le hj heq
      omega
  · show r.freed ++ _ = _
    rw [h.freed, vals_succ h.lo_le]
  · exact List.length_filter_lt_length_iff_exists.mpr ⟨addr j, hlive, by simp⟩

/-- **The whole loop** frees every node once. -/
theorem free_run (hrep : Rep q addr lo) (ht : Tight garbage q addr lo) (hidle : q.inPc = .idle) :
    let r := stailqFreeLfSpsc q
    r.q.first = none ∧ r.q.live = [] ∧ r.q.fault = false ∧
      r.freed = vals q addr lo (q.enq.length + 1) := by
  intro r
  have hstart : FreedTo q addr lo ⟨q, []⟩ lo := by
    refine ⟨Nat.le_refl _, Nat.le_succ_of_le hrep.chain.le, rfl, ?_, fun a => ⟨fun ha => ?_, ?_⟩,
      hrep.safe, ?_⟩
    · rw [if_pos hrep.chain.le]
      exact hrep.first
    · rcases ht.owned a ha with hnode | hnode
      · exact hnode
      · simp only [inNode, hidle, reduceCtorEq] at hnode
    · rintro ⟨i, hlo, hi, rfl⟩
      exact hrep.chain.alive i hlo hi
    · unfold vals
      rw [Nat.sub_self]
      rfl
  -- a round frees the node it is at, so fewer are left
  have hround : ∀ s, (∃ j, FreedTo q addr lo s j) → ¬ s.q.first = none →
      (∃ j, FreedTo q addr lo (freeStep s) j) ∧
        (freeStep s).q.live.length < s.q.live.length := by
    rintro s ⟨j, hs⟩ hne
    have hj : j ≤ q.enq.length := by
      by_contra hgt
      exact hne (by rw [hs.first, if_neg hgt])
    obtain ⟨hs', hlt⟩ := hs.step hrep hj
    exact ⟨⟨_, hs'⟩, hlt⟩
  obtain ⟨⟨j, hend⟩, hdone⟩ := iterate_reaches (fun s => ∃ j, FreedTo q addr lo s j)
    (fun s => s.q.first = none) (fun s => s.q.live.length) hround
    (fun s hs => by simp only [freeStep, hs]) ⟨lo, hstart⟩ (Nat.le_refl _)
  -- the loop ends behind the last node
  have hj : j = q.enq.length + 1 := by
    have hfirst := hend.first
    rw [hdone] at hfirst
    split at hfirst
    · cases hfirst
    · have := hend.le
      omega
  subst hj
  refine ⟨hdone, List.eq_nil_iff_forall_not_mem.mpr fun a ha => ?_, hend.safe, hend.freed⟩
  obtain ⟨i, hlo, hhi, -⟩ := (hend.live a).mp ha
  omega

/-! ## The values -/

/-- The nodes behind number `k` carry the values from number `k` on. -/
theorem Rep.vals_succ_eq (h : Rep q addr lo) {k : Nat} (hlo : lo ≤ k + 1) (hk : k ≤ q.enq.length) :
    vals q addr (k + 1) (q.enq.length + 1) = q.enq.drop k := by
  obtain ⟨d, hd⟩ := Nat.exists_eq_add_of_le hk
  induction d generalizing k with
  | zero =>
    rw [hd, vals, Nat.add_zero, Nat.sub_self, List.drop_of_length_le (by omega)]
    rfl
  | succ d ih =>
    have hlt : k < q.enq.length := by omega
    have hval : (q.mem (addr (k + 1))).val = some q.enq[k] := by
      rw [← List.getElem?_eq_getElem hlt]
      exact h.window.vals k hlo hlt
    rw [List.drop_eq_getElem_cons hlt, ← ih (by omega) hlt (by omega),
      vals_cons (Nat.succ_lt_succ hlt), hval]
    rfl

/-- What is freed: the values from that of the first node on, and before the first `in` after a
delivery also what the memory of the dummy node held. -/
theorem Rep.vals_eq (h : Rep q addr lo) (ht : Tight garbage q addr lo) :
    vals q addr lo (q.enq.length + 1) =
      if lo = 0 then garbage.toList ++ q.enq else q.enq.drop (lo - 1) := by
  cases lo with
  | zero =>
    rw [if_pos rfl, vals_cons (Nat.succ_pos _), ht.dummy rfl,
      h.vals_succ_eq (Nat.zero_le _) (Nat.zero_le _), List.drop_zero]
  | succ k =>
    have hle := h.chain.le
    rw [if_neg (Nat.succ_ne_zero k), h.vals_succ_eq (Nat.le_refl _) (by omega)]
    rfl

/-- **Freeing a settled queue** frees the values that wait exactly if the divider has never moved,
and the memory of the dummy node held `NULL`. -/
theorem Settled.released_iff {l : List α} (h : Settled garbage q l) :
    Released l (stailqFreeLfSpsc q) ↔ q.adv = 0 ∧ garbage = none := by
  obtain ⟨addr, lo, hrep, ht⟩ := h.tight
  obtain ⟨hended, hnodes, hsafe, hfreed⟩ := free_run hrep ht h.idle.inPc
  rw [hrep.vals_eq ht] at hfreed
  have hwait : q.enq.drop q.adv = l := h.idle.pending
  have hlo := hrep.lo_le
  have hadv := hrep.adv_le
  constructor
  · -- the values that wait are too few otherwise
    intro hreleased
    have hlen := hreleased.values.length_eq
    rw [hfreed, ← hwait, List.length_drop] at hlen
    split at hlen
    · rw [List.length_append] at hlen
      refine ⟨by omega, ?_⟩
      cases garbage with
      | none => rfl
      | some v => rw [Option.toList_some, List.length_singleton] at hlen; omega
    · rw [List.length_drop] at hlen
      omega
  · rintro ⟨hzero, rfl⟩
    rw [hzero] at hlo hwait
    refine ⟨?_, hended, hnodes, hsafe⟩
    rw [hfreed, if_pos (Nat.le_zero.mp hlo), ← hwait]
    exact List.Perm.refl _

/-- **When freeing the queue frees what it owns**: after any operations, exactly if none of them
has taken a value out, and the memory of the dummy node held `NULL`. -/
theorem free_releases_iff (m : Malloc) (mem : Addr → StailqNode α) (d : Addr)
    (ops : List (QueueOp α)) (hserved : SeqQueue.Served 0 ops) :
    Released (SeqQueue.fifo.after [] ops)
        (stailqFreeLfSpsc ((seq m).after (stailqNewLfSpsc mem d) ops)) ↔
      (∀ op ∈ ops, op ≠ .deq) ∧ (mem d).val = none := by
  obtain ⟨hs, hadv⟩ := (settled_new mem d).after m hserved
  have hstart : (stailqNewLfSpsc mem d).adv = 0 := rfl
  rw [hs.released_iff, hadv, hstart, Nat.zero_add, List.countP_eq_zero]
  refine and_congr_left fun _ => forall₂_congr fun op _ => ?_
  cases op <;> simp

/-- Two values that wait. -/
theorem free_releases_two :
    Released [10, 20] (stailqFreeLfSpsc ((seq .bump).after
      (stailqNewLfSpsc (fun _ => ⟨none, none⟩) 1) [.enq 10, .enq 20])) :=
  (free_releases_iff .bump (fun _ => ⟨none, none⟩) 1 [.enq 10, .enq 20] (by decide)).mpr
    ⟨by decide, rfl⟩

/-- One value is enqueued and delivered: nothing waits, and the value is freed a second time. -/
theorem free_frees_delivered :
    (stailqOutLfSpsc ((seq .bump).after (stailqNewLfSpsc (fun _ => ⟨none, none⟩) 1) [.enq 10])).1 =
        some 10 ∧
      SeqQueue.fifo.after [] [.enq 10, .deq] = [] ∧
      (stailqFreeLfSpsc ((seq .bump).after (stailqNewLfSpsc (fun _ => ⟨none, none⟩) 1)
        [.enq 10, .deq])).freed = [10] ∧
      ¬ Released (SeqQueue.fifo.after [] [.enq 10, .deq]) (stailqFreeLfSpsc ((seq .bump).after
        (stailqNewLfSpsc (fun _ => ⟨none, none⟩) 1) [.enq 10, .deq])) := by
  have hfreed : (stailqFreeLfSpsc ((seq .bump).after (stailqNewLfSpsc (fun _ => ⟨none, none⟩) 1)
      [.enq 10, .deq])).freed = [10] := by decide
  have hwait : SeqQueue.fifo.after [] [QueueOp.enq 10, .deq] = [] := by decide
  refine ⟨by decide, hwait, hfreed, fun hreleased => ?_⟩
  have hlen := hreleased.values.length_eq
  rw [hfreed, hwait] at hlen
  cases hlen

end Ayubd.Stailq
