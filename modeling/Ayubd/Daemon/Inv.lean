import Ayubd.Daemon.Hooks
import Ayubd.Daemon.LaneInv

/-!
# Ayubd — the invariant of the daemon, and dispatch

`Inv n s` puts the lanes, the main thread's hooks and the *homes* together: every entry ever
queued for worker `x` is a session hook whose descriptor number selects `x` and whose
`process` is set. It holds in every reachable state (`inv_of_reachable`), for every number
of workers and every interleaving. `dispatch_fifo` reads off what the semaphores and the
divider queues promise together: each worker handles exactly what was queued for it, in
order, and nobody touches a queue node that has been freed.
-/

namespace Ayubd

namespace Lane

variable {l l' : Lane} {lab : Label}

/-- An entry of the history was there before the step, or is the one being inserted. -/
theorem Inv.enq_step (hinv : Inv l) (hstep : Step l lab l') {k : Nat} (hk : k ∈ l'.q.enq) :
    k ∈ l.q.enq ∨ l.stage = .inserting k := by
  obtain ⟨addr, lo, hrep⟩ := hinv.rep
  cases hstep with
  | inStep hstage hidle hdone =>
    next h =>
    obtain ⟨-, -, hcase⟩ := Stailq.inStep_cases l.q
    rcases hcase with ⟨henq, -⟩ | ⟨-, -, -, v, hv, henq⟩
    · exact .inl (by rw [← henq]; exact hk)
    · simp only [henq, List.mem_append, List.mem_singleton] at hk
      rcases hk with hk | rfl
      · exact .inl hk
      · exact .inr (by rw [hinv.inVal h k hstage hv]; exact hstage)
  | outStep hpc hdone =>
    obtain ⟨henq, -⟩ := hrep.outStep_cases
    exact .inl (by rw [← henq]; exact hk)
  | _ => exact .inl hk

/-- What is held or in hand was enqueued. -/
theorem Inv.mem_enq (hinv : Inv l) {h : Nat} (hh : l.holds h ∨ l.inHand = some h) :
    h ∈ l.q.enq := by
  rcases hh with hh | hh
  · exact List.mem_of_getElem? (hinv.held h hh).2
  · exact List.mem_of_getElem? (hinv.inHand_eq hh).2

/-- What a worker was handed is a prefix of what was enqueued. -/
theorem Inv.handed_isPrefix (hinv : Inv l) : l.handed <+: l.q.enq := by
  rw [hinv.handed]
  exact List.take_prefix _ _

/-- A worker at rest with a semaphore of zero was handed everything. -/
theorem Inv.handed_eq (hinv : Inv l) (hpc : l.worker = .semWait) (hsem : l.sem = 0)
    (hstage : l.stage = .away) : l.handed = l.q.enq := by
  have hout : l.q.outPc = .idle := hinv.outIdle (by simp [hpc])
  have htok := hinv.tokens
  simp only [unposted, hstage, hsem, Stailq.claiming, hout, Bool.toNat_false] at htok
  have hhanded := hinv.handed
  simp only [unhanded, hpc, WorkerPc.unhanded, Bool.false_eq_true, false_and, if_false] at hhanded
  rw [hhanded]
  exact List.take_of_length_le (by omega)

end Lane

/-- The main thread inserts into the lane it picked only. -/
theorem MainPc.stage_inserting {m : MainPc} {x h : Nat} (hstage : m.stage x = .inserting h) :
    ∃ evs, m = .stailqIn h x evs := by
  cases m <;> simp only [MainPc.stage, reduceCtorEq] at hstage
  case stailqIn h' y evs =>
    split at hstage
    · next hy =>
      cases hstage
      exact ⟨evs, by rw [hy]⟩
    · cases hstage
  case semPost y evs => split at hstage <;> cases hstage

namespace Daemon

variable {n : Nat} {s s' : Daemon} {a : Act} {lab : Label}

/-! ## Homes -/

/-- Hook `h` is served by worker `x`: its descriptor selects `x` and `process` is set. -/
structure Home (n : Nat) (s : Daemon) (h x : Nat) : Prop where
  lt : h < s.nhooks
  fd : (s.hooks h).fd % n = x
  process : (s.hooks h).process = true

theorem Home.step {h x : Nat} (hh : Home n s h x) (hstep : Step n s a lab s') : Home n s' h x := by
  have hlater := hook_step hstep hh.lt
  exact ⟨Nat.lt_of_lt_of_le hh.lt (nhooks_le hstep), by rw [hlater.fd]; exact hh.fd,
    hlater.process hh.process⟩

/-- The main thread picks the lane of the hook's descriptor. -/
theorem target_step (hstep : Step n s a lab s') {h x : Nat}
    (ht : s'.main.target = some (h, x)) :
    s.main.target = some (h, x) ∨
      ((s.hooks h).process = true ∧ (s.hooks h).fd % n = x ∧ h ∈ s.main.hooks) := by
  cases hstep with
  | dispatch hmain hproc =>
    cases ht
    exact .inr ⟨hproc, rfl, by simp [hmain, MainPc.hooks]⟩
  | hookRef hmain =>
    cases ht
    exact .inl (by simp [hmain, MainPc.target])
  | hookFree hmain =>
    simp only at ht
    split at ht <;> cases ht
  | _ =>
    first
      | exact .inl ht
      | cases ht

/-- **The invariant of the daemon.** -/
structure Inv (n : Nat) (s : Daemon) : Prop where
  lanes : ∀ x, (s.lane x).Inv
  owned : Owned s
  entry : ∀ x h, h ∈ (s.q x).enq → Home n s h x
  target : ∀ h x, s.main.target = some (h, x) → Home n s h x

/-- A worker that holds an entry finds its `process` set. -/
theorem Inv.no_skip (hinv : Inv n s) (hstep : Step n s a lab s') (x : Nat) :
    ∀ h, s.worker x = .checkProcess h → lab.lane x ≠ .drop h := by
  intro h hpc hlab
  have hmem : h ∈ (s.q x).enq :=
    (hinv.lanes x).mem_enq (.inl (.inl (by simp only [lane, hpc, WorkerPc.hook])))
  cases hstep with
  | skip hx hpc' hproc =>
    next y k =>
    simp only [Label.lane] at hlab
    split at hlab
    · next hy =>
      -- the entry was queued after `hook_on_data` had set `process`
      subst hy
      rw [hpc] at hpc'
      cases hpc'
      rw [(hinv.entry y h hmem).process] at hproc
      cases hproc
    · cases hlab
  | hookUnref hx hpc' =>
    simp only [Label.lane] at hlab
    split at hlab
    · next hy =>
      subst hy
      rw [hpc] at hpc'
      cases hpc'
    · cases hlab
  | hookRef hmain =>
    simp only [Label.lane] at hlab
    split at hlab <;> cases hlab
  | _ => cases hlab

/-- **One step keeps the invariant of the daemon.** -/
theorem Inv.step (hinv : Inv n s) (hstep : Step n s a lab s') : Inv n s' := by
  refine ⟨?_, hinv.owned.step hstep, ?_, ?_⟩
  · intro x
    rcases lane_step hstep x with ⟨hl, -⟩ | hl
    · rw [hl]
      exact hinv.lanes x
    · exact (hinv.lanes x).step hl (hinv.no_skip hstep x)
  · intro x h hh
    rcases lane_step hstep x with ⟨hl, -⟩ | hl
    · have hq : s'.q x = s.q x := congrArg Lane.q hl
      exact (hinv.entry x h (hq ▸ hh)).step hstep
    · rcases (hinv.lanes x).enq_step hl hh with hold | hnew
      · exact (hinv.entry x h hold).step hstep
      · obtain ⟨evs, hmain⟩ := MainPc.stage_inserting hnew
        exact (hinv.target h x (by simp only [hmain, MainPc.target])).step hstep
  · intro h x ht
    rcases target_step hstep ht with hold | ⟨hproc, hfd, hmem⟩
    · exact (hinv.target h x hold).step hstep
    · exact Home.step ⟨(hinv.owned.held h hmem).1, hfd, hproc⟩ hstep

theorem inv_init (hinit : Init s) : Inv n s := by
  refine ⟨?_, ⟨?_, ?_, ?_⟩, ?_, ?_⟩
  · intro x
    obtain ⟨mem, d, hq⟩ := hinit.q x
    exact Lane.inv_init hq (hinit.sem x) (hinit.worker x) (hinit.handed x)
      (by simp only [lane, hinit.main, MainPc.stage])
  · rw [hinit.main]
    exact List.nodup_nil
  · intro h hh
    rw [hinit.main] at hh
    cases hh
  · intro h hh
    rw [hinit.added h] at hh
    cases hh
  · intro x h hh
    obtain ⟨mem, d, hq⟩ := hinit.q x
    rw [hq] at hh
    cases hh
  · intro h x ht
    rw [hinit.main] at ht
    cases ht

theorem inv_of_reachable (hs : (daemon n).Reachable s) : Inv n s := by
  refine System.Reach.invariant ?_ ?_ hs
  · intro t (hinit : Init t)
    exact inv_init hinit
  · intro t a t' _ hinv _ hstep
    obtain ⟨lab, hstep⟩ := step_cases hstep
    exact hinv.step hstep

/-! ## Dispatch -/

/-- The hook a worker works on is at home there. -/
theorem Inv.home_of_hook (hinv : Inv n s) {x h : Nat} (hpc : (s.worker x).hook = some h) :
    Home n s h x :=
  hinv.entry x h ((hinv.lanes x).mem_enq (.inl (.inl hpc)))

/-- **Dispatch is a family of FIFO channels.** In every reachable state of a daemon with at
least one worker: what worker `x` has handed to `process` is a prefix of what was queued for
it, and all of it once the worker waits with its semaphore at zero and the main thread is
not in the middle of queueing for it; every entry for a hook is in the queue that its
descriptor number selects, so no two workers work on one hook; no worker finds `NULL` after
`sem_wait`; and the queues' pointers represent their history with no access to a freed
node. -/
theorem dispatch_fifo (hn : 0 < n) (hs : (daemon n).Reachable s) :
    (∀ x, s.handed x <+: (s.q x).enq) ∧
    (∀ x, s.worker x = .semWait → s.sem x = 0 → s.main.stage x = .away →
      s.handed x = (s.q x).enq) ∧
    (∀ x h, h ∈ (s.q x).enq → x = (s.hooks h).fd % n ∧ x < n) ∧
    (∀ x y h, (s.worker x).hook = some h → (s.worker y).hook = some h → x = y) ∧
    (∀ x, (s.q x).outPc ≠ .done none) ∧
    (∀ x, (s.q x).fault = false ∧ (s.q x).Inv) := by
  have hinv := inv_of_reachable hs
  refine ⟨fun x => (hinv.lanes x).handed_isPrefix, ?_, ?_, ?_, ?_, ?_⟩
  · intro x hpc hsem hstage
    exact (hinv.lanes x).handed_eq hpc hsem hstage
  · intro x h hh
    have hfd := (hinv.entry x h hh).fd
    exact ⟨hfd.symm, hfd ▸ Nat.mod_lt _ hn⟩
  · intro x y h hx hy
    exact (hinv.home_of_hook hx).fd.symm.trans (hinv.home_of_hook hy).fd
  · intro x
    obtain ⟨addr, lo, hrep⟩ := (hinv.lanes x).rep
    exact hrep.done_ne_none
  · intro x
    obtain ⟨addr, lo, hrep⟩ := (hinv.lanes x).rep
    exact ⟨hrep.safe, addr, lo, hrep⟩

/-- One client connects on descriptor `5`, sends ten bytes, and its session is queued and
taken by the only worker, which is about to read. -/
def serveOne : List Act :=
  [.poll [none], .main, .accept (some 5) false, .hookNew true true, .main, .accept none false,
    .main, .arrive 5 10, .poll [some 0]] ++ List.replicate 5 .main ++ [.malloc 1]
    ++ List.replicate 9 .main ++ List.replicate 11 (.worker 0 false)

/-- The main thread takes the next event of its batch and queues the session, in a node at `np`;
on the way it removes `trim` nodes that the divider has passed. -/
def queueNext (np : Addr) (trim : Nat) : List Act :=
  List.replicate 5 .main ++ [.malloc np] ++ List.replicate (9 + 6 * trim) .main

/-- Two clients connect on descriptors `5` and `6` and send, and both sessions are queued for the
only worker. It serves the first and takes the second; then the first has sent more and is queued
again. -/
def serveBoth : List Act :=
  List.flatten
    [[.poll [none], .main, .accept (some 5) false, .hookNew true true, .main,
        .accept (some 6) false, .hookNew true true, .main, .accept none false, .main,
        .arrive 5 10, .arrive 6 10, .poll [some 0, some 1]],
      queueNext 1 0, queueNext 2 0, [.main], List.replicate 25 (.worker 0 false),
      [.arrive 5 10, .poll [some 0]], queueNext 3 2]

/-- After `serveBoth` the worker has handed on the first two of the three entries, in the order in
which they were queued, and the two nodes behind the divider have been freed. -/
theorem dispatch_fifo_serveBoth : ∃ s, (daemon 1).run boot serveBoth = some s ∧
    s.worker 0 = .recvmsg 1 ∧ s.handed 0 = [0, 1] ∧ (s.q 0).enq = [0, 1, 0] ∧
    (s.q 0).live = [3, 2] ∧ s.handed 0 <+: (s.q 0).enq ∧ (s.q 0).fault = false := by
  have hrun : ((daemon 1).run boot serveBoth).map (fun s => decide (s.worker 0 = .recvmsg 1 ∧
      s.handed 0 = [0, 1] ∧ (s.q 0).enq = [0, 1, 0] ∧ (s.q 0).live = [3, 2])) = some true := by
    decide
  obtain ⟨s, hs, hobs⟩ := Option.map_eq_some_iff.mp hrun
  obtain ⟨hpc, hhanded, henq, hlive⟩ := of_decide_eq_true hobs
  have hfifo := dispatch_fifo Nat.one_pos (System.Reachable.run (.init init_boot) hs)
  exact ⟨s, hs, hpc, hhanded, henq, hlive, hfifo.1 0, (hfifo.2.2.2.2.2 0).1⟩

end Daemon

end Ayubd
