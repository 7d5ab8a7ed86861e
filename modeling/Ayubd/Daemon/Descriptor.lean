import Ayubd.Daemon.Refcount

/-!
# Ayubd — descriptors and the connections they denote

`hook_close` runs on the main thread and closes the descriptor at once, whatever the workers
are doing with the session: only the memory of the hook is protected by the reference count.
`accept` may hand the number out again before a worker that still has an entry for the old
session calls `recvmsg` or `sendmsg` on it.

`Denotes` is what does hold in every run: the descriptor of a session that has not been
closed denotes the connection the session was created for, and connections are never shared.
`QuietClose` is the condition the code lacks: a session is closed only while no entry for it
is waiting and its worker is not between taking one and the end of its I/O.
-/

namespace Ayubd

namespace Lane

variable {l l' : Lane} {lab : Label}

/-- An entry for `h` is waiting, or the worker has taken one and has not finished its I/O. -/
def busy (l : Lane) (h : Nat) : Prop :=
  h ∈ l.q.pending ∨ (l.inHand = some h ∧ l.worker ≠ .hookUnref h)

instance (l : Lane) (h : Nat) : Decidable (l.busy h) := instDecidableOr

/-- A lane which keeps its queue and its hand stays busy with a hook. -/
theorem busy_mono {h : Nat} (hb : l'.busy h) (hpend : l'.q.pending = l.q.pending)
    (hhand : l'.inHand = some h → l.inHand = some h ∧ l.worker ≠ .hookUnref h) : l.busy h := by
  rcases hb with hb | ⟨hb, -⟩
  · exact .inl (hpend ▸ hb)
  · exact .inr (hhand hb)

/-- A lane becomes busy with a hook only when an entry for it is linked. -/
theorem Inv.busy_step (hinv : Inv l) (hstep : Step l lab l') {h : Nat} (hb : l'.busy h) :
    l.busy h ∨ l.inserting h := by
  cases hstep with
  | inStep hstage hidle hdone =>
    next k =>
    obtain ⟨hout, hadv, hcase⟩ := Stailq.inStep_cases l.q
    rcases hcase with ⟨henq, -, -⟩ | ⟨hunl, -, -, v, hv, henq⟩
    · left
      simpa only [busy, inHand, Stailq.inHand, Stailq.pending, hout, hadv, henq] using hb
    · obtain rfl := hinv.inVal k v hstage hv
      simp only [busy, inHand, Stailq.pending, hinv.inHand_append hout hadv henq, hadv, henq,
        List.drop_append_of_le_length hinv.adv_le, List.mem_append, List.mem_singleton] at hb
      rcases hb with (hb | rfl) | hb
      · exact .inl (.inl hb)
      · exact .inr ⟨hstage, hunl⟩
      · exact .inl (.inr hb)
  -- taking an entry out of the queue puts it into the worker's hand
  | outStep hpc hdone =>
    obtain ⟨addr, lo, hrep⟩ := hinv.rep
    obtain ⟨henq, -, hcase⟩ := hrep.outStep_cases
    left
    rcases hcase with ⟨hadv, -, hhand⟩ | ⟨hadv, -, -, -, hlt, hhand⟩
    · simpa only [busy, inHand, hpc, Stailq.pending, henq, hadv, hhand] using hb
    · -- the value the divider passes was waiting
      rw [List.getElem?_eq_getElem hlt] at hhand
      left
      simp only [Stailq.pending, List.drop_eq_getElem_cons hlt, List.mem_cons]
      rcases hb with hb | ⟨hb, -⟩
      · simp only [Stailq.pending, henq, hadv] at hb
        exact .inr hb
      · simp only [inHand, hpc, hhand, Option.some.injEq] at hb
        exact .inl hb.symm
  | outFinish hpc hout =>
    refine .inl (busy_mono hb rfl fun hh => ⟨?_, by simp [hpc]⟩)
    simpa only [inHand, hpc, Stailq.inHand, hout, WorkerPc.hook] using hh
  | handle hpc =>
    refine .inl (busy_mono hb rfl fun hh => ⟨?_, by simp [hpc]⟩)
    simpa only [inHand, hpc, WorkerPc.hook] using hh
  -- the worker goes on with the entry in its hand
  | work hpc hne hhand hw hhand' =>
    next k w =>
    refine .inl (busy_mono hb rfl fun hh => ?_)
    rw [inHand_of_hook (l := { l with worker := w }) hw] at hh
    cases hh
    exact ⟨inHand_of_hook hpc, hne⟩
  | hookUnref hpc hw =>
    refine .inl (busy_mono hb rfl fun hh => ?_)
    rcases hw with rfl | rfl <;> cases hh
  | semWait hpc hsem | outEmpty hpc hout | skip hpc | free hpc =>
    refine .inl (busy_mono hb rfl fun hh => ?_)
    cases hh
  | _ => exact .inl hb

end Lane

namespace Daemon

variable {n : Nat} {s s' : Daemon} {a : Act} {lab : Label}

/-! ## What holds in every run -/

/-- A session whose `hook_close` has not closed the descriptor yet. -/
def Connected (s : Daemon) (h : Nat) : Prop := s.Open h ∧ ∀ evs, s.main ≠ .hookFree h evs

/-- What the descriptor table has to do with the hooks. -/
structure Denotes (s : Daemon) : Prop where
  fdt_lt : ∀ fd c, s.fdt fd = some c → c < s.nconns
  conn_lt : ∀ h, h < s.nhooks → (s.hooks h).conn < s.nconns
  conn_inj : ∀ h k, h < s.nhooks → k < s.nhooks → (s.hooks h).conn = (s.hooks k).conn → h = k
  connected : ∀ h, s.Connected h → s.fdt (s.hooks h).fd = some (s.hooks h).conn
  fresh : ∀ fd c evs, s.main = .hookNew fd c evs →
    s.fdt fd = some c ∧ ∀ h, h < s.nhooks → (s.hooks h).conn ≠ c

/-- Two connected hooks with one descriptor number are one hook. -/
theorem Denotes.fd_inj (hd : Denotes s) {h k : Nat} (hh : s.Connected h) (hk : s.Connected k)
    (hfd : (s.hooks h).fd = (s.hooks k).fd) : h = k := by
  refine hd.conn_inj h k hh.1.1 hk.1.1 ?_
  have hc := hd.connected h hh
  rw [hfd, hd.connected k hk] at hc
  exact (Option.some.inj hc).symm

/-- The main thread leaves `hook_free` by closing the hook only. -/
theorem main_step_hookFree {h : Nat} {evs : List Ev} (hmain : s.main = .hookFree h evs)
    (hstep : Step n s a lab s') : s'.main = s.main ∨ lab.closes h = true := by
  cases hstep with
  | hookFree hmain' =>
    rw [hmain] at hmain'
    cases hmain'
    exact .inr (by simp only [Label.closes, decide_true])
  | _ =>
    first
      | exact .inl rfl
      | simp_all only [reduceCtorEq]

/-- No step connects a hook again. -/
theorem Connected.of_step {h : Nat} (hh : s'.Connected h) (hstep : Step n s a lab s')
    (hlt : h < s.nhooks) : s.Connected h := by
  have hopen := hh.1.of_step hstep
  refine ⟨hopen.resolve_right fun hnew => by omega, fun evs hmain => ?_⟩
  rcases main_step_hookFree hmain hstep with hsame | hcl
  · exact hh.2 evs (hsame.trans hmain)
  · have hclosed := hh.1.2
    rw [(hook_step hstep hlt).closed, hcl, Bool.or_true] at hclosed
    cases hclosed

/-- A step that accepts no connection and creates no hook, and closes at most a descriptor
that no session connected after it uses. -/
theorem Denotes.keep (hd : Denotes s) (hstep : Step n s a lab s') (hlab : lab ≠ .create)
    (hn : s'.nconns = s.nconns) (hfdt : ∀ fd c, s'.fdt fd = some c → s.fdt fd = some c)
    (hheld : ∀ h, s.Connected h → s'.Connected h →
      s'.fdt (s.hooks h).fd = s.fdt (s.hooks h).fd)
    (hnew : ∀ fd c evs, s'.main = .hookNew fd c evs → s'.main = s.main ∧ s'.fdt = s.fdt) :
    Denotes s' := by
  have hlt : ∀ {h}, h < s'.nhooks → h < s.nhooks := fun {h} hh =>
    (lt_nhooks_step hstep hh).resolve_right fun hcon => hlab hcon.1
  refine ⟨?_, ?_, ?_, ?_, ?_⟩
  · intro fd c hc
    rw [hn]
    exact hd.fdt_lt fd c (hfdt fd c hc)
  · intro h hh
    rw [(hook_step hstep (hlt hh)).conn, hn]
    exact hd.conn_lt h (hlt hh)
  · intro h k hh hk hconn
    rw [(hook_step hstep (hlt hh)).conn, (hook_step hstep (hlt hk)).conn] at hconn
    exact hd.conn_inj h k (hlt hh) (hlt hk) hconn
  · intro h hh
    have hlt' := hlt hh.1.1
    have hold : s.Connected h := hh.of_step hstep hlt'
    rw [(hook_step hstep hlt').conn, (hook_step hstep hlt').fd, hheld h hold hh]
    exact hd.connected h hold
  · intro fd c evs hmain
    obtain ⟨hsame, htable⟩ := hnew fd c evs hmain
    obtain ⟨hfd, hne⟩ := hd.fresh fd c evs (hsame.symm.trans hmain)
    refine ⟨by rw [htable]; exact hfd, fun h hh => ?_⟩
    rw [(hook_step hstep (hlt hh)).conn]
    exact hne h (hlt hh)

theorem fdt_of_update_none {fdt : Nat → Option Nat} {fd fd' c : Nat}
    (hc : Function.update fdt fd none fd' = some c) : fdt fd' = some c := by
  rw [Function.update_apply] at hc
  split at hc
  · cases hc
  · exact hc

/-- A new hook denotes the connection just accepted. -/
theorem Denotes.create (hd : Denotes s) {fd c : Nat} {hoda : Bool} {evs : List Ev}
    (hmain : s.main = .hookNew fd c evs) {s' : Daemon} (hfdt : s'.fdt = s.fdt)
    (hn : s'.nconns = s.nconns) (hnhooks : s'.nhooks = s.nhooks + 1)
    (hhooks : s'.hooks = Function.update s.hooks s.nhooks (newHook fd c hoda))
    (hconn : ∀ h, h < s.nhooks → s'.Connected h → s.Connected h)
    (hnew : ∀ fd c evs, s'.main ≠ .hookNew fd c evs) : Denotes s' := by
  obtain ⟨hfd, hne⟩ := hd.fresh fd c evs hmain
  -- only the last hook is new
  have hold : ∀ k, k < s.nhooks → s'.hooks k = s.hooks k := by
    intro k hk
    rw [hhooks]
    exact Function.update_of_ne (Nat.ne_of_lt hk) _ _
  have hlast : s'.hooks s.nhooks = newHook fd c hoda := by
    rw [hhooks]
    exact Function.update_self _ _ _
  have hcases : ∀ k, k < s'.nhooks → k < s.nhooks ∨ k = s.nhooks := by
    intro k hk
    omega
  refine ⟨?_, ?_, ?_, ?_, fun fd' c' evs' heq => absurd heq (hnew fd' c' evs')⟩
  · intro fd' c' hc
    rw [hn]
    exact hd.fdt_lt fd' c' (hfdt ▸ hc)
  · intro k hk
    rw [hn]
    rcases hcases k hk with hlt | rfl
    · rw [hold k hlt]
      exact hd.conn_lt k hlt
    · rw [hlast]
      exact hd.fdt_lt fd c hfd
  · -- the only new pairs have the new hook on one side, and no older hook has its connection
    intro h k hh hk hconn
    rcases hcases h hh with hlt | rfl
    · rcases hcases k hk with hlt' | rfl
      · rw [hold h hlt, hold k hlt'] at hconn
        exact hd.conn_inj h k hlt hlt' hconn
      · rw [hold h hlt, hlast] at hconn
        exact absurd hconn (hne h hlt)
    · rcases hcases k hk with hlt' | rfl
      · rw [hold k hlt', hlast] at hconn
        exact absurd hconn.symm (hne k hlt')
      · rfl
  · intro k hk
    rw [hfdt]
    rcases hcases k hk.1.1 with hlt | rfl
    · rw [hold k hlt]
      exact hd.connected k (hconn k hlt hk)
    · rw [hlast]
      exact hfd

/-- `accept` hands out a descriptor no connected hook has. -/
theorem Denotes.accept (hd : Denotes s) {fd : Nat} (hfd : s.fdt fd = none) {m : MainPc}
    {evs : List Ev} (hmain : s.main = .accept evs)
    (hm : m = .hookNew fd s.nconns evs ∨ m = .next evs) :
    Denotes { s with
      fdt := Function.update s.fdt fd (some s.nconns), nconns := s.nconns + 1, main := m } := by
  refine ⟨?_, ?_, hd.conn_inj, ?_, ?_⟩
  · intro fd' c hc
    simp only [Function.update_apply] at hc
    split at hc
    · cases hc
      exact Nat.lt_succ_self _
    · exact Nat.lt_succ_of_lt (hd.fdt_lt fd' c hc)
  · intro h hh
    exact Nat.lt_succ_of_lt (hd.conn_lt h hh)
  · intro h hh
    have hold := hd.connected h ⟨hh.1, fun evs' heq => by rw [hmain] at heq; cases heq⟩
    have hne : (s.hooks h).fd ≠ fd := by
      intro heq
      rw [heq, hfd] at hold
      cases hold
    simpa only [Function.update_of_ne hne] using hold
  · intro fd' c evs' heq
    rcases hm with rfl | rfl
    · cases heq
      refine ⟨by simp only [Function.update_self], fun h hh hconn => ?_⟩
      exact absurd (hd.conn_lt h hh) (Nat.not_lt.mpr (Nat.le_of_eq hconn.symm))
    · cases heq

/-- **Descriptors denote what they were accepted for**, after one more step. -/
theorem Denotes.step (hd : Denotes s) (howned : Owned s) (hstep : Step n s a lab s') :
    Denotes s' := by
  have hstep' := hstep
  cases hstep with
  | close hmain =>
    next h evs =>
    have hh : s.Connected h := by
      refine ⟨howned.held h (by simp [hmain, MainPc.hooks]), fun evs' heq => ?_⟩
      rw [hmain] at heq
      cases heq
    refine hd.keep hstep' (by simp) rfl (fun _ _ hc => fdt_of_update_none hc) ?_
      fun fd c evs' heq => by cases heq
    intro k hold hk
    -- another connected session has another descriptor
    refine Function.update_of_ne (fun hfd => ?_) _ _
    obtain rfl := hd.fd_inj hold hh hfd
    exact hk.2 evs rfl
  | hookNewFail hmain =>
    next fd c evs =>
    obtain ⟨hfd, hne⟩ := hd.fresh fd c evs hmain
    refine hd.keep hstep' (by simp) rfl (fun _ _ hc => fdt_of_update_none hc) ?_
      fun fd' c' evs' heq => by cases heq
    intro k hold hk
    -- no session was created for the connection that is dropped
    refine Function.update_of_ne (fun heq => ?_) _ _
    have hconn := hd.connected k hold
    rw [heq, hfd] at hconn
    exact hne k hold.1.1 (Option.some.inj hconn).symm
  | hookNew hoda hmain =>
    exact hd.create hmain rfl rfl rfl rfl (fun h hlt hh => hh.of_step hstep' hlt)
      fun fd' c' evs' heq => by cases heq
  | accepted fd hmain hfd => exact hd.accept hfd hmain (.inl rfl)
  | acceptedZero fd hmain hfd => exact hd.accept hfd hmain (.inr rfl)
  | hookFree hmain =>
    refine hd.keep hstep' (by simp) rfl (fun _ _ hc => hc) (fun _ _ _ => rfl) ?_
    intro fd c evs' heq
    simp only at heq
    split at heq <;> cases heq
  | _ =>
    refine hd.keep hstep' (by simp) rfl (fun _ _ hc => hc) (fun _ _ _ => rfl) ?_
    intro fd c evs' heq
    first
      | exact ⟨rfl, rfl⟩
      | cases heq

/-- In every reachable state a connected hook's descriptor is its own connection. -/
theorem denotes_of_reachable (hs : (daemon n).Reachable s) : Denotes s := by
  refine System.Reach.invariant ?_ ?_ hs
  · intro t (hinit : Init t)
    have hno : ∀ h, ¬ h < t.nhooks := by
      intro h
      rw [hinit.nhooks]
      exact Nat.not_lt_zero h
    refine ⟨hinit.fdt, fun h hh => absurd hh (hno h), fun h k hh => absurd hh (hno h),
      fun h hh => absurd hh.1.1 (hno h), ?_⟩
    intro fd c evs hmain
    rw [hinit.main] at hmain
    cases hmain
  · intro t a t' ht hd _ hstep
    obtain ⟨lab, hstep⟩ := step_cases hstep
    exact hd.step (inv_of_reachable ht).owned hstep

/-! ## Closing under the workers' hands -/

/-- The main thread closes the descriptor of `h` in this step. -/
def closing (s : Daemon) (h : Nat) : Act → Prop
  | .main => ∃ evs, s.main = .close h evs
  | _ => False

/-- **The missing condition.** A session is closed only while the queue its descriptor
selects holds no entry for it and that queue's worker is not between taking one and the end
of its I/O. -/
def QuietClose (n : Nat) (s : Daemon) (a : Act) : Prop :=
  ∀ h, s.closing h a → ¬ (s.home n h).busy h

/-- The main thread arrives at `hook_free` by a step which closes the hook. -/
theorem closing_of_step (hstep : Step n s a lab s') {h : Nat} {evs : List Ev}
    (hmain' : s'.main = .hookFree h evs) : s.main = .hookFree h evs ∨ s.closing h a := by
  cases hstep with
  | close hmain =>
    cases hmain'
    exact .inr ⟨evs, hmain⟩
  | hookFree hmain =>
    simp only at hmain'
    split at hmain' <;> cases hmain'
  | _ =>
    first
      | exact .inl hmain'
      | cases hmain'

theorem main_of_closes (hstep : Step n s a lab s') {h : Nat} (hcl : lab.closes h = true) :
    ∃ evs, s.main = .hookFree h evs := by
  cases hstep with
  | hookFree hmain =>
    simp only [Label.closes, decide_eq_true_eq] at hcl
    subst hcl
    exact ⟨_, hmain⟩
  | _ => cases hcl

/-- A hook is disconnected by the step which closes it only. -/
theorem disconnect_step (hstep : Step n s a lab s') {h : Nat} (hlt : h < s'.nhooks)
    (hnot : ¬ s'.Connected h) : (h < s.nhooks ∧ ¬ s.Connected h) ∨ s.closing h a := by
  rcases lt_nhooks_step hstep hlt with hold | ⟨rfl, rfl⟩
  · by_cases hconn : s.Connected h
    · right
      by_contra hncl
      refine hnot ⟨hconn.1.step hstep (Bool.eq_false_iff.mpr fun hcl => ?_), fun evs hmain' => ?_⟩
      · obtain ⟨evs, hmain⟩ := main_of_closes hstep hcl
        exact hconn.2 evs hmain
      · rcases closing_of_step hstep hmain' with hmain | hclosing
        · exact hconn.2 evs hmain
        · exact hncl hclosing
    · exact .inl ⟨hold, hconn⟩
  · obtain ⟨fd, conn, evs, hoda, hmain, rfl⟩ := create_step hstep
    refine absurd ⟨⟨hlt, ?_⟩, fun evs' heq => by cases heq⟩ hnot
    simp only [setHook, Function.update_self, newHook]

/-- Nothing is left to do for a session that has lost its connection. -/
def Quiet (n : Nat) (s : Daemon) : Prop :=
  ∀ h, h < s.nhooks → ¬ s.Connected h → ¬ (s.home n h).busy h

/-- The main thread is not inserting an entry for a session that is not connected, nor for
one it is closing. -/
theorem Inv.not_inserting (hinv : Inv n s) {h x : Nat}
    (hh : ¬ s.Connected h ∨ s.closing h a) : ¬ (s.lane x).inserting h := by
  rintro ⟨hstage, -⟩
  obtain ⟨evs, hmain⟩ := MainPc.stage_inserting hstage
  rcases hh with hh | hh
  · refine hh ⟨hinv.owned.held h (by simp [hmain, MainPc.hooks]), fun evs' heq => ?_⟩
    rw [hmain] at heq
    cases heq
  · cases a <;> simp [closing, hmain] at hh

/-- **One quiet step keeps the disconnected sessions quiet.** -/
theorem Quiet.step (hq : Quiet n s) (hinv : Inv n s) (hguard : QuietClose n s a)
    (hstep : Step n s a lab s') : Quiet n s' := by
  intro h hlt hnot hbusy
  have hcase := disconnect_step hstep hlt hnot
  have hold : h < s.nhooks := by
    rcases hcase with hcase | hcase
    · exact hcase.1
    · cases a <;> simp only [closing] at hcase
      obtain ⟨evs, hmain⟩ := hcase
      exact (hinv.owned.held h (by simp [hmain, MainPc.hooks])).1
  -- quiet before: by the invariant, or by the guard on the step that closes it
  have hidle : ¬ (s.home n h).busy h := by
    rcases hcase with hcase | hcase
    · exact hq h hcase.1 hcase.2
    · exact hguard h hcase
  have hins : ¬ (s.home n h).inserting h := hinv.not_inserting (hcase.imp And.right id)
  rw [home_step hstep hold] at hbusy
  rcases lane_step hstep ((s.hooks h).fd % n) with ⟨hl, -⟩ | hl
  · rw [hl] at hbusy
    exact hidle hbusy
  · rcases (hinv.lanes _).busy_step hl hbusy with hb | hb
    · exact hidle hb
    · exact hins hb

/-- Where every close is quiet, no worker is busy with a closed hook. -/
theorem quiet_of_reach (hs : (daemon n).Reach (QuietClose n) s) : Quiet n s := by
  refine System.Reach.invariant ?_ ?_ hs
  · intro t (hinit : Init t) h hlt
    rw [hinit.nhooks] at hlt
    exact absurd hlt (Nat.not_lt_zero h)
  · intro t a t' ht hq hguard hstep
    obtain ⟨lab, hstep⟩ := step_cases hstep
    exact hq.step (inv_of_reachable ht.reachable) hguard hstep

/-- **I/O reaches the session's own connection** in every run whose closes are quiet: when
a worker is about to call `recvmsg` or `sendmsg` for a session, the descriptor denotes the
connection the session was created for. -/
theorem io_on_own_connection (hs : (daemon n).Reach (QuietClose n) s) {x h : Nat}
    (hpc : s.worker x = .recvmsg h ∨ s.worker x = .sendmsg h) :
    s.fdt (s.hooks h).fd = some (s.hooks h).conn := by
  have hinv := inv_of_reachable hs.reachable
  have hhook : (s.lane x).worker.hook = some h := by
    rcases hpc with hpc | hpc <;> simp only [lane, hpc, WorkerPc.hook]
  obtain ⟨hlt, hhome⟩ := hinv.home_lane (x := x) (.inl hhook)
  refine (denotes_of_reachable hs.reachable).connected h ?_
  by_contra hnot
  refine quiet_of_reach hs h hlt hnot ?_
  rw [hhome]
  refine .inr ⟨Lane.inHand_of_hook hhook, ?_⟩
  rcases hpc with hpc | hpc <;> simp [lane, hpc]

/-- `QuietClose` as a check on the state. -/
def quietClose (n : Nat) (s : Daemon) (_ : Act) : Bool :=
  match s.main with
  | .close h _ => decide (¬ (s.home n h).busy h)
  | _ => true

/-- The computed check on a step implies its condition. -/
theorem quietClose_sound (s : Daemon) (a : Act) (hcheck : quietClose n s a = true) :
    QuietClose n s a := by
  intro h hcl
  cases a <;> simp only [closing] at hcl
  obtain ⟨evs, hmain⟩ := hcl
  simpa only [quietClose, hmain, decide_eq_true_eq] using hcheck

/-- The worker finishes with the first client, whose hangup then closes its session; a second
client is accepted on the same descriptor and served. -/
def serveTwo : List Act :=
  serveOne ++ List.replicate 3 (.worker 0 false)
    ++ [.main, .hangup 5 ⟨false, true, true, false⟩, .poll [some 0]] ++ List.replicate 7 .main
    ++ [.poll [none], .main, .accept (some 5) false, .hookNew true true, .main,
      .accept none false, .main, .arrive 6 10, .poll [some 1]] ++ List.replicate 5 .main
    ++ [.malloc 2] ++ List.replicate 15 .main ++ List.replicate 11 (.worker 0 false)

/-- In `serveTwo` the closes are quiet, and the worker reads from the second client. -/
theorem io_on_own_connection_serveTwo : ∃ s,
    (daemon 1).runChecked (quietClose 1) boot serveTwo = some s ∧ s.worker 0 = .recvmsg 1 ∧
      (s.hooks 0).fd = (s.hooks 1).fd ∧ s.fdt (s.hooks 1).fd = some (s.hooks 1).conn := by
  have hrun : ((daemon 1).runChecked (quietClose 1) boot serveTwo).map
      (fun s => (s.worker 0, (s.hooks 0).fd, (s.hooks 1).fd)) = some (.recvmsg 1, 5, 5) := by
    decide
  obtain ⟨s, hs, hobs⟩ := Option.map_eq_some_iff.mp hrun
  have hpc : s.worker 0 = .recvmsg 1 := congrArg Prod.fst hobs
  refine ⟨s, hs, hpc, ?_, ?_⟩
  · exact (congrArg (fun o => o.2.1) hobs).trans (congrArg (fun o => o.2.2) hobs).symm
  · exact io_on_own_connection
      (System.Reach.runChecked quietClose_sound (.init init_boot) hs) (.inl hpc)

/-- After `serveOne` the client hangs up, the main thread closes the session while the
worker is about to read, and a second client is accepted on the same descriptor. -/
def reuse : List Act :=
  serveOne ++ [.main, .hangup 5 ⟨false, true, true, false⟩, .poll [some 0]]
    ++ List.replicate 6 .main ++ [.poll [none], .main, .accept (some 5) false]

/-- Without the condition, a worker reads from another client's connection. -/
theorem io_on_reused_descriptor : ¬ ∀ s, (daemon 1).Reachable s → ∀ x h,
    s.worker x = .recvmsg h ∨ s.worker x = .sendmsg h →
      s.fdt (s.hooks h).fd = some (s.hooks h).conn := by
  have hrun : ((daemon 1).run boot reuse).map
      (fun s => (s.worker 0, (s.hooks 0).conn, s.fdt (s.hooks 0).fd))
        = some (.recvmsg 0, 5, some 6) := by decide
  obtain ⟨s, hs, hobs⟩ := Option.map_eq_some_iff.mp hrun
  intro hall
  have hown := hall s (System.Reachable.run (.init init_boot) hs) 0 0
    (.inl (congrArg Prod.fst hobs))
  have hconn : (s.hooks 0).conn = 5 := congrArg (fun o => o.2.1) hobs
  have hfdt : s.fdt (s.hooks 0).fd = some 6 := congrArg (fun o => o.2.2) hobs
  rw [hconn, hfdt] at hown
  cases hown

end Daemon

end Ayubd
