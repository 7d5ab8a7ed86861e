import Ayubd.Daemon.Inv
import Mathlib.Algebra.BigOperators.Group.Finset.Basic

/-!
# Ayubd — reference counts and the lifetime of a session hook

The references to a session hook are the main thread's own (until `hook_close` drops it),
one for each entry that is being inserted or waits in a queue, and one for the entry a
worker has in hand. `Counted` says that `refcnt` is their number and that `hook_free_real`
has run, or is the very next thing the thread that dropped the last reference does, exactly
when there is none left. Every field access is made by a thread that still owns a reference
or is about to free the hook, so none comes after the free.

All entries of a hook live in one lane, the one its descriptor selects (`Home`); that lane's
references are the only ones that change, and the totals over all workers are its totals.
-/

namespace Ayubd

/-- The main thread has dropped the last reference to `h` and turns to `hook_free_real`. -/
def MainPc.freeing (h : Nat) : MainPc → Nat
  | .hookFreeReal k _ => if k = h then 1 else 0
  | _ => 0

/-- A worker has dropped the last reference to `h` and turns to `hook_free_real`. -/
def WorkerPc.freeing (h : Nat) : WorkerPc → Nat
  | .hookFreeReal k => if k = h then 1 else 0
  | _ => 0

namespace Daemon

variable {n : Nat} {s s' : Daemon} {a : Act} {lab : Label}

/-- The lane that serves hook `h`. -/
def home (n : Nat) (s : Daemon) (h : Nat) : Lane := s.lane ((s.hooks h).fd % n)

def openRef (s : Daemon) (h : Nat) : Nat := if (s.hooks h).closed then 0 else 1

/-- Threads that have dropped the last reference to `h` and have yet to free it. -/
def freeing (n : Nat) (s : Daemon) (h : Nat) : Nat :=
  s.main.freeing h + (s.home n h).worker.freeing h

/-- **The reference count invariant.** -/
structure Counted (n : Nat) (s : Daemon) : Prop where
  refcnt : ∀ h, h < s.nhooks → (s.hooks h).refcnt = (s.openRef h + (s.home n h).refs h : Nat)
  frees : ∀ h, h < s.nhooks →
    (s.hooks h).frees + s.freeing n h = if (s.hooks h).refcnt = 0 then 1 else 0
  lt : ∀ h evs, s.main = .hookFreeReal h evs → h < s.nhooks
  safe : s.fault = false

/-! ## References keep a hook alive -/

/-- A hook with a reference has not been freed and is not being freed. -/
theorem Counted.frees_of_pos (hc : Counted n s) {h : Nat} (hlt : h < s.nhooks)
    (hpos : 0 < s.openRef h + (s.home n h).refs h) :
    (s.hooks h).frees = 0 ∧ s.freeing n h = 0 := by
  have hf := hc.frees h hlt
  have hr := hc.refcnt h hlt
  rw [if_neg (by omega)] at hf
  omega

theorem openRef_of_open {h : Nat} (ho : s.Open h) : s.openRef h = 1 := by
  simp only [openRef, ho.2, Bool.false_eq_true, if_false]

/-- A hook the main thread works on has not been freed. -/
theorem Counted.alive_main (hc : Counted n s) (hinv : Inv n s) {h : Nat}
    (hh : h ∈ s.main.hooks) : (s.hooks h).frees = 0 := by
  have ho := hinv.owned.held h hh
  exact (hc.frees_of_pos ho.1 (by rw [openRef_of_open ho]; omega)).1

/-- A worker's hook is a reference of its lane. -/
theorem refs_pos_of_hook {l : Lane} {h : Nat} (hpc : l.worker.hook = some h) : 0 < l.refs h := by
  have hhand : l.inHand = some h := by
    unfold Lane.inHand
    split
    · next heq => simp only [heq, WorkerPc.hook, reduceCtorEq] at hpc
    · exact hpc
  simp only [Lane.refs, hhand, if_true]
  omega

/-- A hook is held by its home lane only. -/
theorem Inv.home_lane (hinv : Inv n s) {x h : Nat} (hh : (s.lane x).holds h) :
    h < s.nhooks ∧ s.home n h = s.lane x := by
  have hhome := hinv.entry x h ((hinv.lanes x).mem_enq (.inl hh))
  exact ⟨hhome.lt, by rw [home, hhome.fd]⟩

/-- A hook a worker works on has not been freed. -/
theorem Counted.alive_worker (hc : Counted n s) (hinv : Inv n s) {x h : Nat}
    (hpc : (s.worker x).hook = some h) : (s.hooks h).frees = 0 := by
  obtain ⟨hlt, hhome⟩ := hinv.home_lane (x := x) (h := h) (.inl hpc)
  refine (hc.frees_of_pos hlt ?_).1
  rw [hhome]
  have := refs_pos_of_hook (l := s.lane x) hpc
  omega

/-- A hook about to be freed has not been freed yet. -/
theorem Counted.alive_freeing (hc : Counted n s) {h : Nat} (hlt : h < s.nhooks)
    (hf : 0 < s.freeing n h) : (s.hooks h).frees = 0 := by
  have := hc.frees h hlt
  split at this <;> omega

/-! ## One step keeps the count -/

/-- The lane label of the home lane and the effect on `refcnt` agree, the main thread's own
reference apart. -/
theorem Inv.delta_home (hinv : Inv n s) (hstep : Step n s a lab s') {h : Nat} :
    (lab.lane ((s.hooks h).fd % n)).delta h
      = lab.refcnt h + (if lab.closes h then 1 else 0) := by
  cases hstep with
  | hookRef hmain =>
    next k x evs =>
    have hhome := hinv.target k x (by simp only [hmain, MainPc.target])
    by_cases hk : k = h
    · subst hk
      simp [Label.lane, Label.refcnt, Label.closes, Lane.Label.delta, hhome.fd]
    · simp only [Label.lane, Label.refcnt, Label.closes, hk, if_false]
      split <;> simp [Lane.Label.delta, hk]
  | hookUnref hx hpc =>
    next x k =>
    have hhome := hinv.home_of_hook (x := x) (h := k) (by simp only [hpc, WorkerPc.hook])
    by_cases hk : k = h
    · subst hk
      simp [Label.lane, Label.refcnt, Label.closes, Lane.Label.delta, hhome.fd]
    · simp only [Label.lane, Label.refcnt, Label.closes, hk, if_false]
      split <;> simp [Lane.Label.delta, hk]
  | skip hx hpc hproc =>
    -- the branch that would lose a reference is never taken
    next x k =>
    have hhome := hinv.home_of_hook (x := x) (h := k) (by simp only [hpc, WorkerPc.hook])
    rw [hhome.process] at hproc
    cases hproc
  | hookFree hmain =>
    next k evs =>
    by_cases hk : k = h <;> simp [Label.lane, Label.refcnt, Label.closes, Lane.Label.delta, hk]
  | _ => rfl

theorem home_step (hstep : Step n s a lab s') {h : Nat} (hlt : h < s.nhooks) :
    s'.home n h = s'.lane ((s.hooks h).fd % n) := by
  rw [home, (hook_step hstep hlt).fd]

/-- The references of the home lane change by what the step does to `refcnt`, the main
thread's own reference apart. -/
theorem Inv.refs_home (hinv : Inv n s) (hstep : Step n s a lab s') {h : Nat}
    (hlt : h < s.nhooks) :
    ((s'.home n h).refs h : Int) = (s.home n h).refs h + lab.refcnt h
      + (if lab.closes h then 1 else 0) := by
  rw [home_step hstep hlt, Int.add_assoc, ← hinv.delta_home hstep]
  rcases lane_step hstep ((s.hooks h).fd % n) with ⟨hl, hlab⟩ | hl
  · rw [hl, hlab, home]
    simp only [Lane.Label.delta, Int.add_zero]
  · exact (hinv.lanes _).refs_step hl h

/-- A hook is closed only while its descriptor is open. -/
theorem Inv.closes_open (hinv : Inv n s) (hstep : Step n s a lab s') {h : Nat}
    (hcl : lab.closes h = true) : s.Open h := by
  cases hstep with
  | hookFree hmain =>
    next k evs =>
    simp only [Label.closes, decide_eq_true_eq] at hcl
    subst hcl
    exact hinv.owned.held k (by simp [hmain, MainPc.hooks])
  | _ => cases hcl

/-- No lane holds a hook which is not made yet. -/
theorem Inv.refs_fresh (hinv : Inv n s) (x : Nat) : (s.lane x).refs s.nhooks = 0 := by
  have hno : s.nhooks ∉ (s.q x).enq := by
    intro hmem
    exact absurd (hinv.entry x _ hmem).lt (Nat.lt_irrefl _)
  have hins : ¬ (s.lane x).inserting s.nhooks := by
    rintro ⟨hstage, -⟩
    obtain ⟨evs, hmain⟩ := MainPc.stage_inserting hstage
    exact absurd (hinv.target s.nhooks x (by simp only [hmain, MainPc.target])).lt
      (Nat.lt_irrefl _)
  have hpend : (s.lane x).q.pending.count s.nhooks = 0 :=
    List.count_eq_zero.mpr fun hmem => hno (List.mem_of_mem_drop hmem)
  have hhand : (s.lane x).inHand ≠ some s.nhooks := fun hh =>
    hno ((hinv.lanes x).mem_enq (.inr hh))
  simp only [Lane.refs, hins, hpend, hhand, if_false]

theorem lane_create (hstep : Step n s a .create s') (x : Nat) : s'.lane x = s.lane x := by
  rcases lane_step hstep x with ⟨hl, -⟩ | hl
  · exact hl
  · obtain ⟨fd, conn, evs, hoda, hmain, rfl⟩ := create_step hstep
    exact lane_eq_of rfl rfl rfl rfl (by simp only [hmain, MainPc.stage])

/-- **`refcnt` counts the references**, after one more step. -/
theorem Counted.refcnt_step (hc : Counted n s) (hinv : Inv n s) (hstep : Step n s a lab s')
    {h : Nat} (hlt : h < s'.nhooks) :
    (s'.hooks h).refcnt = (s'.openRef h + (s'.home n h).refs h : Nat) := by
  rcases lt_nhooks_step hstep hlt with hold | ⟨rfl, rfl⟩
  · have hlater := hook_step hstep hold
    have hrefs := hinv.refs_home hstep hold
    have hr := hc.refcnt h hold
    have hopen : (s'.openRef h : Int) = s.openRef h - (if lab.closes h then 1 else 0) := by
      cases hcl : lab.closes h with
      | false => simp [openRef, hlater.closed, hcl]
      | true => simp [openRef, hlater.closed, hcl, (hinv.closes_open hstep hcl).2]
    rw [hlater.refcnt, hr]
    push_cast
    rw [hopen, hrefs]
    omega
  · have hrefs : (s'.home n s.nhooks).refs s.nhooks = 0 := by
      rw [home, lane_create hstep]
      exact hinv.refs_fresh _
    rw [hrefs]
    obtain ⟨fd, conn, evs, hoda, hmain, rfl⟩ := create_step hstep
    simp [openRef, setHook, newHook]

/-! ## One step keeps the frees -/

theorem freeing_update {x y h : Nat} {w : WorkerPc} (hold : (s.worker x).freeing h = 0)
    (hnew : w.freeing h = 0) :
    (Function.update s.worker x w y).freeing h = (s.worker y).freeing h := by
  by_cases hy : y = x
  · subst hy
    rw [Function.update_self, hold, hnew]
  · rw [Function.update_of_ne hy]

/-- **Who frees.** A thread turns to `hook_free_real` exactly by dropping the last reference,
and leaves it by having freed the hook. -/
theorem Inv.freeing_step (hinv : Inv n s) (hstep : Step n s a lab s') {h : Nat}
    (hlt : h < s.nhooks) :
    s'.freeing n h + lab.frees h
      = s.freeing n h + if lab.refcnt h = -1 ∧ (s.hooks h).refcnt = 1 then 1 else 0 := by
  have hhome := home_step hstep hlt
  rw [freeing, freeing, hhome, home]
  clear hhome
  simp only [lane]
  cases hstep with
  | hookFree hmain =>
    next k evs =>
    have hpc : s.main.freeing h = 0 := by simp only [hmain, MainPc.freeing]
    rw [hpc]
    by_cases hk : k = h
    · subst hk
      by_cases hr : (s.hooks k).refcnt = 1
      · simp only [setHook, touch, Label.frees, Label.refcnt, hr, Int.sub_self, if_true, and_self,
          MainPc.freeing]
        omega
      · have hr' : ¬ (s.hooks k).refcnt - 1 = 0 := by omega
        simp only [setHook, touch, Label.frees, hr, hr', if_false, and_false, MainPc.freeing,
          Nat.add_zero]
    · have hnone : (if (s.hooks k).refcnt - 1 = 0 then MainPc.hookFreeReal k evs
          else .next evs).freeing h = 0 := by
        split <;> simp [MainPc.freeing, hk]
      simp only [setHook, touch, hnone, Label.frees, Label.refcnt, hk, if_false]
      simp
  | hookFreeReal hmain =>
    next k evs =>
    simp only [setHook, touch, hmain, MainPc.freeing, Label.frees, Label.refcnt]
    simp
    omega
  | hookUnref hx hpc =>
    next x k =>
    have hhome := (hinv.home_of_hook (x := x) (h := k) (by simp only [hpc, WorkerPc.hook])).fd
    have hold : (s.worker x).freeing h = 0 := by simp only [hpc, WorkerPc.freeing]
    by_cases hk : k = h
    · subst hk
      rw [hhome, hold]
      by_cases hr : (s.hooks k).refcnt = 1
      · simp [setWorker, setHook, touch, Label.frees, Label.refcnt, hr, WorkerPc.freeing]
      · have hr' : ¬ (s.hooks k).refcnt - 1 = 0 := by omega
        simp [setWorker, setHook, touch, Label.frees, hr, hr', WorkerPc.freeing]
    · have hnew : (if (s.hooks k).refcnt - 1 = 0 then WorkerPc.hookFreeReal k
          else .semWait).freeing h = 0 := by
        split <;> simp [WorkerPc.freeing, hk]
      simp only [setWorker, setHook, touch, freeing_update hold hnew, Label.frees, Label.refcnt,
        hk, if_false]
      simp
  | workerFree hx hpc =>
    next x k =>
    have hhome := (hinv.home_lane (x := x) (h := k) (.inr hpc))
    by_cases hk : k = h
    · subst hk
      have hfd : (s.hooks k).fd % n = x := (hinv.entry x k
        ((hinv.lanes x).mem_enq (.inl (.inr hpc)))).fd
      simp [setWorker, setHook, touch, hfd, hpc, Label.frees, Label.refcnt, WorkerPc.freeing]
    · have hold : (s.worker x).freeing h = 0 := by simp [hpc, WorkerPc.freeing, hk]
      simp only [setWorker, setHook, touch, Label.frees, Label.refcnt, hk, if_false]
      simp [freeing_update (w := .semWait) hold rfl]
  | hookRef hmain =>
    next k x evs =>
    -- taking a reference is not dropping one
    have hne : Label.refcnt h (.ref k x) ≠ -1 := by
      simp only [Label.refcnt]
      split <;> omega
    simp [setHook, touch, hmain, MainPc.freeing, Label.frees, hne]
  | recvmsg hx hpc =>
    next x k =>
    have hold : (s.worker x).freeing h = 0 := by simp only [hpc, WorkerPc.freeing]
    have hnew : (if s.recvCount k = 0 then WorkerPc.hookUnref k else .onData k).freeing h = 0 := by
      split <;> rfl
    simp [setWorker, recvFrom, touch, freeing_update hold hnew, Label.frees, Label.refcnt]
  | onData response hx hpc =>
    next x k =>
    have hold : (s.worker x).freeing h = 0 := by simp only [hpc, WorkerPc.freeing]
    have hnew : (if response then WorkerPc.sendmsg k else .hookUnref k).freeing h = 0 := by
      split <;> rfl
    simp [setWorker, touch, freeing_update hold hnew, Label.frees, Label.refcnt]
  | semWait hx hpc hsem | outEmpty hx hpc hout | outFinish hx hpc hout | handle hx hpc hproc
  | skip hx hpc hproc | sendmsg hx hpc =>
    have hold := congrArg (WorkerPc.freeing h) hpc
    simp only [setWorker, setQueue, touch, Label.frees, Label.refcnt]
    exact congrArg _ (freeing_update hold rfl)
  | inStart np hmain hpc hnp | inStep hmain hidle hdone | outStep hx hpc hdone
  | arrive c k hc | hangup c e hc => rfl
  | poll hs hmain hcan | hookNew hoda hmain | accepted fd hmain hfd | acceptedZero fd hmain hfd
  | dispatch hmain hproc | noProcess hmain hproc | inFinish hmain hpc
  | batchDone hmain | nextListener hmain | nextSession hmain | setEvents hmain
  | onDataClose hmain | onDataReady hmain | close hmain | semPost hmain
  | acceptAgain hmain | acceptDone hmain | hookNewFail hmain | evqAdd hmain =>
    simp [setHook, setQueue, touch, deliver, hmain, MainPc.freeing, Label.frees, Label.refcnt]

/-- A reference is taken only while the descriptor is open. -/
theorem Inv.open_of_ref (hinv : Inv n s) (hstep : Step n s a lab s') {h : Nat}
    (href : 0 < lab.refcnt h) : s.Open h := by
  cases hstep with
  | hookRef hmain =>
    next k x evs =>
    simp only [Label.refcnt] at href
    split at href
    · next hk => exact hinv.owned.held h (by simp [hmain, MainPc.hooks, hk])
    · omega
  | hookUnref hx hpc =>
    simp only [Label.refcnt] at href
    split at href <;> omega
  | hookFree hmain =>
    simp only [Label.refcnt] at href
    split at href <;> omega
  | _ => exact absurd href (Int.lt_irrefl 0)

/-- A step changes a counter by one at most. -/
theorem Label.refcnt_cases (lab : Label) (h : Nat) :
    lab.refcnt h = 0 ∨ lab.refcnt h = 1 ∨ lab.refcnt h = -1 := by
  cases lab with
  | ref k x | unref k x =>
    simp only [Label.refcnt]
    split <;> simp
  | release k =>
    simp only [Label.refcnt]
    split <;> simp
  | _ => exact .inl rfl

/-- **`hook_free_real` runs once, when the count is zero**, after one more step. -/
theorem Counted.frees_step (hc : Counted n s) (hinv : Inv n s) (hstep : Step n s a lab s')
    {h : Nat} (hlt : h < s'.nhooks) :
    (s'.hooks h).frees + s'.freeing n h = if (s'.hooks h).refcnt = 0 then 1 else 0 := by
  rcases lt_nhooks_step hstep hlt with hold | ⟨rfl, rfl⟩
  · have hlater := hook_step hstep hold
    have hfreeing := hinv.freeing_step hstep hold
    have hf := hc.frees h hold
    have hr := hc.refcnt h hold
    have hr' := hc.refcnt_step hinv hstep hlt
    rw [hlater.refcnt] at hr' ⊢
    rw [hlater.frees]
    rcases lab.refcnt_cases h with hlab | hlab | hlab
    · rw [hlab] at hfreeing ⊢
      rw [if_neg (by omega)] at hfreeing
      simp only [Int.add_zero]
      rw [← hf]
      omega
    · -- a reference is only added to a hook that is still open
      have ho := openRef_of_open (hinv.open_of_ref hstep (h := h) (by omega))
      rw [hlab] at hfreeing ⊢
      rw [if_neg (by omega)] at hf hfreeing ⊢
      omega
    · rw [hlab] at hfreeing hr' ⊢
      rw [if_neg (by omega)] at hf
      -- dropping the last one is what makes a thread turn to the free
      by_cases hone : (s.hooks h).refcnt = 1
      · rw [if_pos (by omega)]
        rw [if_pos ⟨rfl, hone⟩] at hfreeing
        omega
      · rw [if_neg (by omega)]
        rw [if_neg (fun hcon => hone hcon.2)] at hfreeing
        omega
  · -- nobody is freeing a hook that did not exist
    have hworker : ∀ x, (s.worker x).freeing s.nhooks = 0 := by
      intro x
      cases hpc : s.worker x <;> simp only [WorkerPc.freeing]
      case hookFreeReal k =>
        rw [if_neg]
        rintro rfl
        exact absurd (hinv.home_lane (x := x) (.inr hpc)).1 (Nat.lt_irrefl _)
    obtain ⟨fd, conn, evs, hoda, hmain, rfl⟩ := create_step hstep
    simp [freeing, home, lane, setHook, newHook, MainPc.freeing, hworker]

theorem touch_fault {h : Nat} (hf : (s.hooks h).frees = 0) : (s.touch h).fault = s.fault := by
  simp [touch, hf]

/-- **No access after the free**, for one more step: the thread that reads or writes a hook
holds it or is about to free it. -/
theorem Counted.safe_step (hc : Counted n s) (hinv : Inv n s) (hstep : Step n s a lab s') :
    s'.fault = false := by
  rw [← hc.safe]
  cases hstep with
  | setEvents hmain | onDataClose hmain | onDataReady hmain | close hmain | hookFree hmain
  | hookRef hmain | evqAdd hmain =>
    exact touch_fault (hc.alive_main hinv (by simp [hmain, MainPc.hooks]))
  | dispatch hmain hproc | noProcess hmain hproc =>
    exact touch_fault (hc.alive_main hinv (by simp [hmain, MainPc.hooks]))
  | hookFreeReal hmain =>
    next h evs =>
    refine touch_fault (hc.alive_freeing (hc.lt h evs hmain) ?_)
    simp only [freeing, hmain, MainPc.freeing, if_true]
    omega
  | handle hx hpc hproc | skip hx hpc hproc | recvmsg hx hpc | onData response hx hpc
  | sendmsg hx hpc | hookUnref hx hpc =>
    exact touch_fault (hc.alive_worker hinv (by rw [hpc]; rfl))
  | workerFree hx hpc =>
    next x h =>
    obtain ⟨hlt, hhome⟩ := hinv.home_lane (x := x) (h := h) (.inr hpc)
    refine touch_fault (hc.alive_freeing hlt ?_)
    simp only [freeing, hhome, lane, hpc, WorkerPc.freeing, if_true]
    omega
  | _ => rfl

/-- The main thread frees only a hook it was working on. -/
theorem main_hookFreeReal_step (hstep : Step n s a lab s') {h : Nat} {evs : List Ev}
    (hmain' : s'.main = .hookFreeReal h evs) :
    s.main = .hookFreeReal h evs ∨ h ∈ s.main.hooks := by
  cases hstep with
  | hookFree hmain =>
    next k evs' =>
    simp only at hmain'
    split at hmain'
    · cases hmain'
      exact .inr (by simp [hmain, MainPc.hooks])
    · cases hmain'
  | _ =>
    first
      | exact .inl hmain'
      | cases hmain'

/-- The count survives every step. -/
theorem Counted.step (hc : Counted n s) (hinv : Inv n s) (hstep : Step n s a lab s') :
    Counted n s' where
  refcnt _ hlt := hc.refcnt_step hinv hstep hlt
  frees _ hlt := hc.frees_step hinv hstep hlt
  lt h evs hmain := by
    rcases main_hookFreeReal_step hstep hmain with hold | hmem
    · exact Nat.lt_of_lt_of_le (hc.lt h evs hold) (nhooks_le hstep)
    · exact Nat.lt_of_lt_of_le (hinv.owned.held h hmem).1 (nhooks_le hstep)
  safe := hc.safe_step hinv hstep

theorem counted_of_reachable (hs : (daemon n).Reachable s) : Counted n s := by
  refine System.Reach.invariant ?_ ?_ hs
  · intro t (hinit : Init t)
    have hno : ∀ h, ¬ h < t.nhooks := by
      intro h
      rw [hinit.nhooks]
      exact Nat.not_lt_zero h
    refine ⟨fun h hlt => absurd hlt (hno h), fun h hlt => absurd hlt (hno h), ?_, hinit.fault⟩
    intro h evs hmain
    rw [hinit.main] at hmain
    cases hmain
  · intro t a t' ht hc _ hstep
    obtain ⟨lab, hstep⟩ := step_cases hstep
    exact hc.step (inv_of_reachable ht) hstep

/-! ## The totals over all workers -/

/-- Undelivered queue entries for `h`, one that is being inserted included. -/
def entries (n : Nat) (s : Daemon) (h : Nat) : Nat :=
  ∑ x ∈ Finset.range n,
    ((if (s.lane x).inserting h then 1 else 0) + (s.q x).pending.count h)

/-- Some worker has dequeued `h` and not executed `hook_unref` yet. -/
def inWork (n : Nat) (s : Daemon) (h : Nat) : Prop := ∃ x < n, (s.lane x).inHand = some h

instance (n : Nat) (s : Daemon) (h : Nat) : Decidable (inWork n s h) :=
  inferInstanceAs (Decidable (∃ x < n, (s.lane x).inHand = some h))

/-- A worker which is not the hook's home has nothing of the hook. -/
theorem Inv.elsewhere (hinv : Inv n s) {x h : Nat} (hx : (s.hooks h).fd % n ≠ x) :
    ¬ (s.lane x).inserting h ∧ (s.q x).pending.count h = 0 ∧ (s.lane x).inHand ≠ some h := by
  refine ⟨?_, ?_, ?_⟩
  · rintro ⟨hstage, -⟩
    obtain ⟨evs, hmain⟩ := MainPc.stage_inserting hstage
    exact hx (hinv.target h x (by simp only [hmain, MainPc.target])).fd
  · exact List.count_eq_zero.mpr fun hmem => hx (hinv.entry x h (List.mem_of_mem_drop hmem)).fd
  · intro hhand
    exact hx (hinv.entry x h ((hinv.lanes x).mem_enq (.inr hhand))).fd

/-- The references a lane has to a hook are its queue's entries and the one in work. -/
theorem Inv.refs_total (hinv : Inv n s) (hn : 0 < n) (h : Nat) :
    (s.home n h).refs h = s.entries n h + if s.inWork n h then 1 else 0 := by
  have hlt : (s.hooks h).fd % n < n := Nat.mod_lt _ hn
  have hentries : s.entries n h = (if (s.home n h).inserting h then 1 else 0)
      + (s.home n h).q.pending.count h := by
    refine Finset.sum_eq_single_of_mem _ (Finset.mem_range.mpr hlt) ?_
    intro x _ hx
    obtain ⟨hins, hpend, -⟩ := hinv.elsewhere (Ne.symm hx)
    simp only [if_neg hins, hpend, Nat.add_zero]
  have hwork : s.inWork n h ↔ (s.home n h).inHand = some h := by
    constructor
    · rintro ⟨x, -, hhand⟩
      by_cases hx : (s.hooks h).fd % n = x
      · rw [home, hx]
        exact hhand
      · exact absurd hhand (hinv.elsewhere hx).2.2
    · intro hhand
      exact ⟨_, hlt, hhand⟩
  simp only [Lane.refs, hentries, hwork]

/-- **The lifetime of a session hook.** In every reachable state of a daemon with at least
one worker, `refcnt` of every session hook is the main thread's reference (until it closes
the hook) plus the undelivered queue entries plus the entry in a worker's hand;
`hook_free_real` has run, or is about to be run by exactly one thread, precisely when none of
these references is left, so it never runs twice; and no field of a hook has been read or
written after it. -/
theorem refcnt_counts (hn : 0 < n) (hs : (daemon n).Reachable s) :
    (∀ h, h < s.nhooks →
      (s.hooks h).refcnt
        = ((if (s.hooks h).closed then 0 else 1) + s.entries n h
            + (if s.inWork n h then 1 else 0) : Nat) ∧
      ((s.hooks h).frees + s.freeing n h
        = if (s.hooks h).closed = true ∧ s.entries n h = 0 ∧ ¬ s.inWork n h then 1 else 0)) ∧
    s.fault = false := by
  have hinv := inv_of_reachable hs
  have hc := counted_of_reachable hs
  refine ⟨fun h hlt => ?_, hc.safe⟩
  have hr := hc.refcnt h hlt
  have hf := hc.frees h hlt
  rw [hinv.refs_total hn, ← Nat.add_assoc, openRef] at hr
  refine ⟨hr, ?_⟩
  rw [hf]
  refine if_congr ?_ rfl rfl
  rw [hr]
  by_cases hcl : (s.hooks h).closed = true
  · by_cases hw : s.inWork n h
    · simp only [hcl, hw, if_true, not_true, and_false, iff_false]
      omega
    · simp only [hcl, hw, if_true, if_false, not_false_iff, and_true, true_and]
      omega
  · simp only [hcl, Bool.false_eq_true, if_false, false_and, iff_false]
    omega

/-- After `serveBoth` the first client hangs up and the main thread closes its session, which is
still queued. -/
def closeQueued : List Act :=
  List.flatten [serveBoth, [.main, .hangup 5 ⟨false, true, true, false⟩, .poll [some 0]],
    List.replicate 6 .main]

/-- Then the worker finishes with the second session, takes the first and lets go of it. -/
def freeQueued : List Act := closeQueued ++ List.replicate 17 (.worker 0 false)

/-- After `closeQueued` the closed session has the reference of its entry and the other one has two,
the main thread's and the worker's; after `freeQueued` the closed session has been freed, once. -/
theorem refcnt_counts_freeQueued :
    (∃ s, (daemon 1).run boot closeQueued = some s ∧
      (s.hooks 0).refcnt = 1 ∧ (s.hooks 1).refcnt = 2 ∧ ∀ h < 2,
        (s.hooks h).refcnt = ((if (s.hooks h).closed then 0 else 1) + s.entries 1 h
          + (if s.inWork 1 h then 1 else 0) : Nat)) ∧
    ∃ s, (daemon 1).run boot freeQueued = some s ∧
      (s.hooks 0).refcnt = 0 ∧ (s.hooks 0).frees = 1 ∧ s.entries 1 0 = 0 ∧ ¬ s.inWork 1 0 ∧
      s.fault = false := by
  have hclose : ((daemon 1).run boot closeQueued).map (fun s =>
      decide (s.nhooks = 2 ∧ (s.hooks 0).refcnt = 1 ∧ (s.hooks 1).refcnt = 2)) = some true := by
    decide +kernel
  have hfree : ((daemon 1).run boot freeQueued).map (fun s =>
      decide (s.nhooks = 2 ∧ (s.hooks 0).refcnt = 0 ∧ (s.hooks 0).frees = 1)) = some true := by
    decide +kernel
  constructor
  · obtain ⟨s, hs, hobs⟩ := Option.map_eq_some_iff.mp hclose
    obtain ⟨hn, h0, h1⟩ := of_decide_eq_true hobs
    have hcount := refcnt_counts Nat.one_pos (System.Reachable.run (.init init_boot) hs)
    exact ⟨s, hs, h0, h1, fun h hlt => (hcount.1 h (hn ▸ hlt)).1⟩
  · obtain ⟨s, hs, hobs⟩ := Option.map_eq_some_iff.mp hfree
    obtain ⟨hn, h0, hfrees⟩ := of_decide_eq_true hobs
    have hcount := refcnt_counts Nat.one_pos (System.Reachable.run (.init init_boot) hs)
    obtain ⟨-, hfreed⟩ := hcount.1 0 (by rw [hn]; decide)
    -- freed once, so none of the references is left
    rw [hfrees] at hfreed
    obtain ⟨-, hentries, hwork⟩ : (s.hooks 0).closed = true ∧ s.entries 1 0 = 0 ∧
        ¬ s.inWork 1 0 := by
      by_contra hnot
      rw [if_neg hnot] at hfreed
      omega
    exact ⟨s, hs, h0, hfrees, hentries, hwork, hcount.2⟩

end Daemon

end Ayubd
