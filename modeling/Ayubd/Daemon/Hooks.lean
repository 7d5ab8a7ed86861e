import Ayubd.Daemon.Step
import Mathlib.Data.List.Nodup

/-!
# Ayubd — what the steps do to the hooks

`hook_step` is the effect table of the transitions on an existing hook: its descriptor and
connection never change, `process` is never unset, and the count, the close mark and the
number of frees change by what the label says. `Owned` is what the main thread can rely on
for the hooks it is holding a pointer to: the one whose event it handles, and those of the
rest of the batch `epoll_wait` returned. They are pairwise distinct and none has been
closed, because closing takes a hook out of the epoll instance.
-/

namespace Ayubd

/-- The session an event is for. -/
def Ev.hook : Ev → Option Nat
  | .listener => none
  | .session h _ => some h

def sessions (evs : List Ev) : List Nat := evs.filterMap Ev.hook

@[simp] theorem sessions_nil : sessions [] = [] := rfl

@[simp] theorem sessions_listener (evs : List Ev) :
    sessions (.listener :: evs) = sessions evs := rfl

@[simp] theorem sessions_session (h : Nat) (e : Events) (evs : List Ev) :
    sessions (.session h e :: evs) = h :: sessions evs := rfl

/-- The hooks the main thread has pointers to and has not closed. -/
def MainPc.hooks : MainPc → List Nat
  | .poll => []
  | .next evs | .semPost _ evs | .accept evs | .hookNew _ _ evs | .hookFreeReal _ evs =>
    sessions evs
  | .setEvents h _ evs | .onData h evs | .close h evs | .hookFree h evs | .checkProcess h evs
  | .hookRef h _ evs | .stailqIn h _ evs | .evqAdd h evs => h :: sessions evs

/-- The hook the main thread is about to queue, and the queue. -/
def MainPc.target : MainPc → Option (Nat × Nat)
  | .hookRef h x _ | .stailqIn h x _ => some (h, x)
  | _ => none

namespace Daemon

/-! ## The effect table -/

namespace Label

/-- What a step adds to the `refcnt` of hook `k`. -/
def refcnt (k : Nat) : Label → Int
  | .ref h _ => if h = k then 1 else 0
  | .unref h _ | .release h => if h = k then -1 else 0
  | _ => 0

/-- The step drops the main thread's reference to hook `k`. -/
def closes (k : Nat) : Label → Bool
  | .release h => decide (h = k)
  | _ => false

def frees (k : Nat) : Label → Nat
  | .free h => if h = k then 1 else 0
  | _ => 0

end Label

variable {n : Nat} {s s' : Daemon} {a : Act} {lab : Label}

/-- A later version of a hook after a step with label `lab`. -/
structure Later (k : Nat) (lab : Label) (hook hook' : Hook) : Prop where
  fd : hook'.fd = hook.fd
  conn : hook'.conn = hook.conn
  process : hook.process = true → hook'.process = true
  refcnt : hook'.refcnt = hook.refcnt + lab.refcnt k
  closed : hook'.closed = (hook.closed || lab.closes k)
  frees : hook'.frees = hook.frees + lab.frees k

theorem later_refl {k : Nat} {hook : Hook} (hr : lab.refcnt k = 0) (hc : lab.closes k = false)
    (hf : lab.frees k = 0) : Later k lab hook hook :=
  ⟨rfl, rfl, id, by rw [hr, Int.add_zero], by rw [hc, Bool.or_false], by rw [hf, Nat.add_zero]⟩

/-- Writing one hook: the written one is a later version of itself, the others are not in
the label. -/
theorem later_update {h : Nat} {hook : Hook} (hself : Later h lab (s.hooks h) hook)
    (hother : ∀ k, h ≠ k → lab.refcnt k = 0 ∧ lab.closes k = false ∧ lab.frees k = 0) (k : Nat) :
    Later k lab (s.hooks k) (Function.update s.hooks h hook k) := by
  by_cases hk : h = k
  · subst hk
    simpa only [Function.update_self] using hself
  · simp only [Function.update_of_ne (Ne.symm hk)]
    obtain ⟨hr, hc, hf⟩ := hother k hk
    exact later_refl hr hc hf

/-- **The effect table.** What any step does to an existing hook. -/
theorem hook_step (hstep : Step n s a lab s') {k : Nat} (hk : k < s.nhooks) :
    Later k lab (s.hooks k) (s'.hooks k) := by
  cases hstep with
  | setEvents hmain =>
    refine later_update ?_ (fun _ _ => ⟨rfl, rfl, rfl⟩) k
    exact ⟨rfl, rfl, id, (Int.add_zero _).symm, (Bool.or_false _).symm, rfl⟩
  | onDataReady hmain =>
    refine later_update ?_ (fun _ _ => ⟨rfl, rfl, rfl⟩) k
    exact ⟨rfl, rfl, fun _ => rfl, (Int.add_zero _).symm, (Bool.or_false _).symm, rfl⟩
  -- the three steps that change `refcnt`, and the two that free
  | hookFree hmain =>
    refine later_update ?_ (fun k hk => ?_) k
    · refine ⟨rfl, rfl, id, ?_, ?_, rfl⟩
      · simp only [Label.refcnt, if_true]
        omega
      · simp only [Label.closes, decide_true, Bool.or_true]
    · simp [Label.refcnt, Label.closes, Label.frees, hk]
  | hookFreeReal hmain =>
    refine later_update ?_ (fun k hk => ?_) k
    · refine ⟨rfl, rfl, id, (Int.add_zero _).symm, (Bool.or_false _).symm, ?_⟩
      simp only [Label.frees, if_true]
    · simp [Label.refcnt, Label.closes, Label.frees, hk]
  | hookRef hmain =>
    refine later_update ?_ (fun k hk => ?_) k
    · refine ⟨rfl, rfl, id, ?_, (Bool.or_false _).symm, rfl⟩
      simp only [Label.refcnt, if_true]
    · simp [Label.refcnt, Label.closes, Label.frees, hk]
  | hookUnref hx hpc =>
    refine later_update ?_ (fun k hk => ?_) k
    · refine ⟨rfl, rfl, id, ?_, (Bool.or_false _).symm, rfl⟩
      simp only [Label.refcnt, if_true]
      omega
    · simp [Label.refcnt, Label.closes, Label.frees, hk]
  | workerFree hx hpc =>
    refine later_update ?_ (fun k hk => ?_) k
    · refine ⟨rfl, rfl, id, (Int.add_zero _).symm, (Bool.or_false _).symm, ?_⟩
      simp only [Label.frees, if_true]
    · simp [Label.refcnt, Label.closes, Label.frees, hk]
  | hookNew hoda hmain =>
    simp only [setHook, Function.update_of_ne (Nat.ne_of_lt hk)]
    exact later_refl rfl rfl rfl
  | _ => exact later_refl rfl rfl rfl

/-- Only the step which makes a hook adds one. -/
theorem nhooks_step (hstep : Step n s a lab s') :
    s'.nhooks = s.nhooks ∨ (lab = .create ∧ s'.nhooks = s.nhooks + 1) := by
  cases hstep with
  | hookNew hoda hmain => exact .inr ⟨rfl, rfl⟩
  | _ => exact .inl rfl

theorem nhooks_le (hstep : Step n s a lab s') : s.nhooks ≤ s'.nhooks := by
  rcases nhooks_step hstep with h | ⟨-, h⟩ <;> omega

/-- The new hook takes the next index with a count of one. -/
theorem create_step (hstep : Step n s a .create s') : ∃ fd conn evs hoda,
    s.main = .hookNew fd conn evs ∧ s' = { s.setHook s.nhooks (newHook fd conn hoda) with
      nhooks := s.nhooks + 1, main := .evqAdd s.nhooks evs } := by
  cases hstep with
  | hookNew hoda hmain => exact ⟨_, _, _, hoda, hmain, rfl⟩

theorem lt_nhooks_step (hstep : Step n s a lab s') {k : Nat} (hk : k < s'.nhooks) :
    k < s.nhooks ∨ (lab = .create ∧ k = s.nhooks) := by
  rcases nhooks_step hstep with h | ⟨hlab, h⟩
  · exact .inl (h ▸ hk)
  · rcases Nat.lt_or_ge k s.nhooks with hlt | hge
    · exact .inl hlt
    · exact .inr ⟨hlab, by omega⟩

/-! ## The hooks in the main thread's hands -/

/-- A hook whose `hook_close` has not dropped the main thread's reference yet. -/
def Open (s : Daemon) (h : Nat) : Prop := h < s.nhooks ∧ (s.hooks h).closed = false

/-- A descriptor stays open unless the step closes it. -/
theorem Open.step {h : Nat} (ho : s.Open h) (hstep : Step n s a lab s')
    (hlab : lab.closes h = false) : s'.Open h := by
  refine ⟨Nat.lt_of_lt_of_le ho.1 (nhooks_le hstep), ?_⟩
  rw [(hook_step hstep ho.1).closed, ho.2, hlab]
  rfl

/-- An open descriptor was open before, unless the step made it. -/
theorem Open.of_step {h : Nat} (ho : s'.Open h) (hstep : Step n s a lab s') :
    s.Open h ∨ (lab = .create ∧ h = s.nhooks) := by
  rcases lt_nhooks_step hstep ho.1 with hlt | hnew
  · have hclosed := ho.2
    rw [(hook_step hstep hlt).closed, Bool.or_eq_false_iff] at hclosed
    exact .inl ⟨hlt, hclosed.1⟩
  · exact .inr hnew

/-- What the main thread knows about the hooks it holds and the epoll instance. -/
structure Owned (s : Daemon) : Prop where
  nodup : s.main.hooks.Nodup
  held : ∀ h ∈ s.main.hooks, s.Open h
  added : ∀ h, s.added h = true → s.Open h ∧ ∀ evs, s.main ≠ .hookFree h evs

/-- A step that closes nothing, adds nothing to the epoll instance and lets go of some of
the main thread's hooks. -/
theorem Owned.shrink (howned : Owned s) (hstep : Step n s a lab s')
    (hlab : ∀ h, lab.closes h = false) (hsub : s'.main.hooks.Sublist s.main.hooks)
    (hadded : s'.added = s.added) (hfree : ∀ h evs, s'.main = .hookFree h evs → s'.main = s.main) :
    Owned s' where
  nodup := howned.nodup.sublist hsub
  held h hh := (howned.held h (hsub.mem hh)).step hstep (hlab h)
  added h hh := by
    obtain ⟨ho, hne⟩ := howned.added h (by rw [← hadded]; exact hh)
    refine ⟨ho.step hstep (hlab h), fun evs heq => ?_⟩
    exact hne evs (by rw [← hfree h evs heq]; exact heq)

theorem mem_sessions_event {hs : List (Option Nat)} {h : Nat} :
    h ∈ sessions (hs.map s.event) ↔ some h ∈ hs := by
  simp only [sessions, List.filterMap_map, List.mem_filterMap, Function.comp]
  constructor
  · rintro ⟨o, ho, heq⟩
    cases o with
    | none => cases heq
    | some k => cases heq; exact ho
  · intro hmem
    exact ⟨some h, hmem, rfl⟩

theorem nodup_sessions_event {hs : List (Option Nat)} (hnd : hs.Nodup) :
    (sessions (hs.map s.event)).Nodup := by
  rw [sessions, List.filterMap_map]
  refine List.Nodup.filterMap ?_ hnd
  intro o o' h hh hh'
  cases o with
  | none => cases hh
  | some k =>
    cases o' with
    | none => cases hh'
    | some k' => cases hh; cases hh'; rfl

/-- What `epoll_wait` reports is registered and has something pending. -/
theorem canDeliver_mem {hs : List (Option Nat)} (hcan : s.canDeliver hs = true) {h : Nat}
    (hh : some h ∈ hs) :
    s.added h = true ∧ s.pend (s.hooks h).conn ≠ Events.zero := by
  simp only [canDeliver, Bool.and_eq_true, List.all_eq_true] at hcan
  have := hcan.2 (some h) hh
  simp only [Bool.and_eq_true, decide_eq_true_eq] at this
  exact ⟨this.1.2, this.2⟩

/-- **One step keeps the main thread's hooks open and distinct.** -/
theorem Owned.step (howned : Owned s) (hstep : Step n s a lab s') : Owned s' := by
  have hstep' := hstep
  cases hstep with
  | poll hs hmain hcan =>
    have hnd : hs.Nodup := by
      simp only [canDeliver, Bool.and_eq_true, decide_eq_true_eq] at hcan
      exact hcan.1
    -- the kernel reports only descriptors that are in the set, each once
    refine ⟨nodup_sessions_event hnd, ?_, ?_⟩
    · intro h hh
      exact (howned.added h (canDeliver_mem hcan (mem_sessions_event.mp hh)).1).1
    · intro h hh
      exact ⟨(howned.added h hh).1, fun evs heq => by cases heq⟩
  | close hmain =>
    next h evs =>
    have hnd := howned.nodup
    have hheld := howned.held
    rw [hmain] at hnd hheld
    refine ⟨hnd, hheld, ?_⟩
    intro k hk
    by_cases hkh : k = h
    · subst hkh
      simp only [Function.update_self, Bool.false_eq_true] at hk
    · simp only [Function.update_of_ne hkh] at hk
      refine ⟨(howned.added k hk).1, ?_⟩
      intro evs' heq
      cases heq
      exact hkh rfl
  | hookFree hmain =>
    next h evs =>
    have hnd := howned.nodup
    have hheld := howned.held
    rw [hmain] at hnd hheld
    -- the freed session stands in no other place, so the rest stays open
    obtain ⟨hnot, hnd⟩ := List.nodup_cons.mp hnd
    have hhooks : ∀ m : MainPc, m = .hookFreeReal h evs ∨ m = .next evs →
        m.hooks = sessions evs ∧ ∀ k evs', m ≠ .hookFree k evs' := by
      rintro m (rfl | rfl) <;> exact ⟨rfl, fun _ _ heq => by cases heq⟩
    obtain ⟨hhooks, hne⟩ := hhooks
      (if (s.hooks h).refcnt - 1 = 0 then .hookFreeReal h evs else .next evs)
      (by split <;> simp)
    refine ⟨by rw [hhooks]; exact hnd, ?_, ?_⟩
    · intro k hk
      rw [hhooks] at hk
      refine (hheld k (List.mem_cons_of_mem _ hk)).step hstep' ?_
      simp only [Label.closes, decide_eq_false_iff_not]
      rintro rfl
      exact hnot hk
    · intro k hk
      obtain ⟨ho, hnefree⟩ := howned.added k hk
      refine ⟨ho.step hstep' ?_, hne k⟩
      simp only [Label.closes, decide_eq_false_iff_not]
      rintro rfl
      exact hnefree evs hmain
  | hookNew hoda hmain =>
    next fd conn evs =>
    have hnd := howned.nodup
    have hheld := howned.held
    rw [hmain] at hnd hheld
    refine ⟨List.nodup_cons.mpr ⟨fun hmem => ?_, hnd⟩, ?_, ?_⟩
    · -- the new hook's number was not in use
      exact absurd (hheld _ hmem).1 (Nat.lt_irrefl _)
    · intro k hk
      rcases List.mem_cons.mp hk with rfl | hk
      · exact ⟨Nat.lt_succ_self _, by simp only [setHook, Function.update_self, newHook]⟩
      · exact (hheld k hk).step hstep' rfl
    · intro k hk
      exact ⟨(howned.added k hk).1.step hstep' rfl, fun _ heq => by cases heq⟩
  | evqAdd hmain =>
    next h evs =>
    have hnd := howned.nodup
    have hheld := howned.held
    rw [hmain] at hnd hheld
    refine ⟨(List.nodup_cons.mp hnd).2, fun k hk => hheld k (List.mem_cons_of_mem _ hk), ?_⟩
    intro k hk
    refine ⟨?_, fun _ heq => by cases heq⟩
    by_cases hkh : k = h
    · exact hheld k (hkh ▸ List.mem_cons_self)
    · simp only [Function.update_of_ne hkh] at hk
      exact (howned.added k hk).1
  | _ =>
    refine howned.shrink hstep' (fun _ => rfl) ?_ rfl ?_
    · first
        | exact List.Sublist.refl _
        | simp [*, MainPc.hooks]
    · intro k evs' heq
      first
        | rfl
        | cases heq

end Daemon

end Ayubd
