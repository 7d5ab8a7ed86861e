import Ayubd.Daemon.Descriptor

/-!
# Ayubd — readiness of edge-triggered sessions

A session is registered with `EPOLLET`: bytes that arrive raise an event once, and bytes
left unread raise none. A worker reads a session with one `recvmsg` into two buffers of
`IOV_CHUNK` bytes and does not read again, so what does not fit stays behind without an
event (`stuck_bytes`). `Ready` is the invariant of the runs in which it always fits: unread
bytes of a connected session are announced by an undelivered event, by an event the main
thread has still to act on, or by an entry a worker has still to read for.
-/

namespace Ayubd

/-- The worker has an entry and has not read for it yet. -/
def WorkerPc.reading : WorkerPc → Bool
  | .stailqOut | .checkProcess _ | .recvmsg _ => true
  | _ => false

/-- The sessions whose event the main thread has still to act on. -/
def MainPc.todo : MainPc → List Nat
  | .poll => []
  | .setEvents h _ evs | .onData h evs | .close h evs | .checkProcess h evs
  | .hookRef h _ evs => h :: sessions evs
  | .next evs | .hookFree _ evs | .hookFreeReal _ evs | .stailqIn _ _ evs | .semPost _ evs
  | .accept evs | .hookNew _ _ evs | .evqAdd _ evs => sessions evs

namespace Lane

variable {l l' : Lane} {lab : Label}

/-- An entry for `h` that will be read for: on its way into the queue, in it, or in the
worker's hand before its `recvmsg`. -/
def awaits (l : Lane) (h : Nat) : Prop :=
  l.inserting h ∨ h ∈ l.q.pending ∨ (l.inHand = some h ∧ l.worker.reading = true)

/-- A hook in a lane's queue stays there until the worker takes it. -/
theorem awaits_keep {h : Nat} (hw : l.awaits h) (hins : l.inserting h → l'.inserting h)
    (hpend : l'.q.pending = l.q.pending)
    (hhand : l.inHand = some h → l.worker.reading = true →
      l'.inHand = some h ∧ l'.worker.reading = true) : l'.awaits h := by
  rcases hw with hw | hw | ⟨hw, hread⟩
  · exact .inl (hins hw)
  · exact .inr (.inl (hpend ▸ hw))
  · exact .inr (.inr (hhand hw hread))

/-- Linking the entry that was being inserted, or any other access of the producer. -/
theorem Inv.awaits_inStep (hinv : Inv l) {h k : Nat} (hstage : l.stage = .inserting k)
    (hw : l.awaits h) : Lane.awaits { l with q := l.q.inStep } h := by
  obtain ⟨hout, hadv, hcase⟩ := Stailq.inStep_cases l.q
  rcases hcase with ⟨henq, hunl, -⟩ | ⟨hunl, -, -, v, hv, henq⟩
  · simpa only [awaits, inserting, inHand, Stailq.inHand, Stailq.pending, hout, hadv, henq,
      hunl] using hw
  · obtain rfl := hinv.inVal k v hstage hv
    have hpend : l.q.inStep.pending = l.q.pending ++ [v] := by
      simp only [Stailq.pending, henq, hadv, List.drop_append_of_le_length hinv.adv_le]
    rcases hw with ⟨hst, -⟩ | hw | hw
    · rw [hstage] at hst
      cases hst
      exact .inr (.inl (by simp [hpend]))
    · exact .inr (.inl (by simp [hpend, hw]))
    · refine .inr (.inr ⟨?_, hw.2⟩)
      simpa only [inHand, hinv.inHand_append hout hadv henq] using hw.1

/-- A removal moves the hook from the queue to the hand. -/
theorem Inv.awaits_outStep (hinv : Inv l) {h : Nat} (hpc : l.worker = .stailqOut)
    (hw : l.awaits h) : Lane.awaits { l with q := l.q.outStep } h := by
  obtain ⟨addr, lo, hrep⟩ := hinv.rep
  obtain ⟨henq, hin, hcase⟩ := hrep.outStep_cases
  rcases hcase with ⟨hadv, -, hhand⟩ | ⟨hadv, -, -, hnone, hlt, hhand⟩
  · simpa only [awaits, inserting, inHand, hpc, Stailq.unlinked, Stailq.pending, hin, henq,
      hadv, hhand] using hw
  · rw [List.getElem?_eq_getElem hlt] at hhand
    rcases hw with hw | hw | ⟨hw, -⟩
    · exact .inl (by simpa only [inserting, Stailq.unlinked, hin] using hw)
    · simp only [Stailq.pending, List.drop_eq_getElem_cons hlt, List.mem_cons] at hw
      rcases hw with rfl | hw
      · exact .inr (.inr ⟨by simp only [inHand, hpc, hhand], by simp only [hpc, WorkerPc.reading]⟩)
      · exact .inr (.inl (by simpa only [Stailq.pending, henq, hadv] using hw))
    · simp only [inHand, hpc, hnone, reduceCtorEq] at hw

/-- An entry is read for: only the worker's `recvmsg` ends the wait. -/
theorem Inv.awaits_step (hinv : Inv l) (hstep : Step l lab l')
    (hskip : ∀ h, l.worker = .checkProcess h → lab ≠ .drop h) {h : Nat} (hw : l.awaits h) :
    l'.awaits h ∨ l.worker = .recvmsg h := by
  cases hstep with
  | hookRef k hstage =>
    refine .inl (awaits_keep hw (fun hst => ?_) rfl fun hh hr => ⟨hh, hr⟩)
    simp only [inserting, hstage, reduceCtorEq, false_and] at hst
  | inStart np hstage hpc hnp =>
    exact .inl (awaits_keep hw (fun hst => ⟨hst.1, rfl⟩) rfl fun hh hr => ⟨hh, hr⟩)
  | inStep hstage hidle hdone => exact .inl (hinv.awaits_inStep hstage hw)
  | inFinish hstage hpc =>
    refine .inl (awaits_keep hw (fun hst => ?_) rfl fun hh hr => ⟨hh, hr⟩)
    simp only [inserting, Stailq.unlinked, hpc, Bool.false_eq_true, and_false] at hst
  -- an entry on its way is on its way before the post, so not in this step
  | semPost hstage =>
    refine .inl (awaits_keep hw (fun hst => ?_) rfl fun hh hr => ⟨hh, hr⟩)
    simp only [inserting, hstage, reduceCtorEq, false_and] at hst
  | semWait hpc hsem =>
    refine .inl (awaits_keep hw id rfl fun hh _ => ?_)
    simp only [inHand, hpc, WorkerPc.hook, reduceCtorEq] at hh
  | outStep hpc hdone => exact .inl (hinv.awaits_outStep hpc hw)
  -- the queue is not empty when the semaphore has been taken
  | outEmpty hpc hout =>
    obtain ⟨addr, lo, hrep⟩ := hinv.rep
    exact absurd hout hrep.done_ne_none
  | outFinish hpc hout =>
    refine .inl (awaits_keep hw id rfl fun hh _ => ⟨?_, rfl⟩)
    simpa only [inHand, hpc, Stailq.inHand, hout, WorkerPc.hook] using hh
  | handle hpc =>
    refine .inl (awaits_keep hw id rfl fun hh _ => ⟨?_, rfl⟩)
    simpa only [inHand, hpc, WorkerPc.hook] using hh
  | skip hpc => exact absurd rfl (hskip _ hpc)
  | work hpc hne hhand hw' hhand' =>
    by_cases hrecv : l.worker = .recvmsg h
    · exact .inr hrecv
    · -- of the places after the hand-over only `recvmsg` is before the read
      refine .inl (awaits_keep hw id rfl fun hh hread => absurd hrecv ?_)
      rw [inHand_of_hook hpc] at hh
      cases hh
      cases hworker : l.worker <;>
        simp_all only [WorkerPc.reading, WorkerPc.hook, WorkerPc.unhanded, reduceCtorEq,
          Bool.true_eq_false, Bool.false_eq_true, Option.some.injEq, not_true, not_false_iff]
  | hookUnref hpc hw' =>
    refine .inl (awaits_keep hw id rfl fun _ hread => ?_)
    simp only [hpc, WorkerPc.reading, Bool.false_eq_true] at hread
  | free hpc =>
    refine .inl (awaits_keep hw id rfl fun _ hread => ?_)
    simp only [hpc, WorkerPc.reading, Bool.false_eq_true] at hread

end Lane

namespace Daemon

variable {n : Nat} {s s' : Daemon} {a : Act} {lab : Label}

/-- Unread bytes are announced. -/
structure Ready (n : Nat) (s : Daemon) : Prop where
  announced : ∀ h, s.Connected h → 0 < s.rcv (s.hooks h).conn →
    s.pend (s.hooks h).conn ≠ Events.zero ∨ h ∈ s.main.todo ∨ (s.home n h).awaits h
  unhooked : ∀ c, (∀ h, h < s.nhooks → (s.hooks h).conn ≠ c) → 0 < s.rcv c →
    s.pend c ≠ Events.zero
  checked : ∀ h evs, s.main = .checkProcess h evs → (s.hooks h).process = true

/-- A read empties the receive buffer when what is in it fits the two buffers. -/
def RoomyRead (s : Daemon) : Act → Prop
  | .worker x _ => ∀ h c, s.worker x = .recvmsg h → s.fdt (s.hooks h).fd = some c →
      s.rcv c ≤ 2 * iovChunk
  | _ => True

/-- An entry for a session survives a step in which its worker does not read. -/
theorem Inv.awaits_home (hinv : Inv n s) (hstep : Step n s a lab s') {h : Nat} (hlt : h < s.nhooks)
    (hread : ∀ x, s.worker x = .recvmsg h → s'.worker x = .recvmsg h)
    (hw : (s.home n h).awaits h) : (s'.home n h).awaits h := by
  rw [home_step hstep hlt]
  rcases lane_step hstep ((s.hooks h).fd % n) with ⟨hl, -⟩ | hl
  · rw [hl]
    exact hw
  · rcases (hinv.lanes _).awaits_step hl (hinv.no_skip hstep _) hw with hw' | hpc
    · exact hw'
    · have hpc' := hread _ hpc
      refine .inr (.inr ⟨Lane.inHand_of_hook ?_, ?_⟩) <;>
        simp only [lane, hpc', WorkerPc.hook, WorkerPc.reading]

/-- A step which reads nothing and reports nothing keeps the claim on unread bytes. -/
theorem Ready.keep (hr : Ready n s) (hinv : Inv n s) (hstep : Step n s a lab s')
    (hlab : lab ≠ .create) (hrcv : s'.rcv = s.rcv) (hpend : s'.pend = s.pend)
    (hread : ∀ x h, s.worker x = .recvmsg h → s'.worker x = .recvmsg h)
    (htodo : ∀ h, s'.Connected h → h ∈ s.main.todo → h ∈ s'.main.todo ∨ (s'.home n h).awaits h)
    (hcheck : ∀ h evs, s'.main = .checkProcess h evs → (s'.hooks h).process = true) :
    Ready n s' := by
  have hlt : ∀ {h}, h < s'.nhooks → h < s.nhooks := fun {h} hh =>
    (lt_nhooks_step hstep hh).resolve_right fun hcon => hlab hcon.1
  refine ⟨?_, ?_, hcheck⟩
  · intro h hh hpos
    have hold := hlt hh.1.1
    rw [(hook_step hstep hold).conn, hrcv] at hpos
    rw [(hook_step hstep hold).conn, hpend]
    rcases hr.announced h (hh.of_step hstep hold) hpos with hev | hdo | hw
    · exact .inl hev
    · exact .inr (htodo h hh hdo)
    · exact .inr (.inr (hinv.awaits_home hstep hold (fun x => hread x h) hw))
  · intro c hno hpos
    rw [hrcv] at hpos
    rw [hpend]
    refine hr.unhooked c (fun h hh => ?_) hpos
    have := hno h (Nat.lt_of_lt_of_le hh (nhooks_le hstep))
    rwa [(hook_step hstep hh).conn] at this

/-- The main thread goes on to enqueue a hook which has a handler only. -/
theorem Ready.checked_step (hr : Ready n s) (hinv : Inv n s) (hstep : Step n s a lab s')
    (h : Nat) (evs : List Ev) (hmain' : s'.main = .checkProcess h evs) :
    (s'.hooks h).process = true := by
  have hkeep : s'.main = s.main → (s'.hooks h).process = true := by
    intro hsame
    have hmain : s.main = .checkProcess h evs := hsame.symm.trans hmain'
    have hlt := (hinv.owned.held h (by simp [hmain, MainPc.hooks])).1
    exact (hook_step hstep hlt).process (hr.checked h evs hmain)
  cases hstep with
  | onDataReady hmain =>
    cases hmain'
    simp only [setHook, Function.update_self]
  | hookFree hmain =>
    simp only at hmain'
    split at hmain' <;> cases hmain'
  | _ =>
    first
      | exact hkeep rfl
      | cases hmain'

theorem recvmsg_update {x y h : Nat} {w : WorkerPc} (hpc : ∀ k, s.worker x ≠ .recvmsg k)
    (hy : s.worker y = .recvmsg h) : Function.update s.worker x w y = .recvmsg h := by
  rw [Function.update_of_ne, hy]
  rintro rfl
  exact hpc h hy

theorem Events.or_ne_zero {a b : Events} (ha : a ≠ Events.zero) : a.or b ≠ Events.zero := by
  intro h
  apply ha
  cases a
  simp only [Events.or, Events.zero, Events.mk.injEq, Bool.or_eq_false_iff] at h ⊢
  exact ⟨h.1.1, h.2.1.1, h.2.2.1.1, h.2.2.2.1⟩

/-- Reporting an event takes it from the pending ones of that connection only. -/
theorem deliver_pend (hs : List (Option Nat)) (c : Nat) :
    (s.deliver hs).pend c = s.pend c ∨ ∃ k, some k ∈ hs ∧ (s.hooks k).conn = c := by
  simp only [deliver]
  split
  · next hany =>
    right
    obtain ⟨o, ho, heq⟩ := List.any_eq_true.mp hany
    cases o with
    | none => cases heq
    | some k => exact ⟨k, ho, of_decide_eq_true heq⟩
  · exact .inl rfl

/-- `epoll_wait` moves undelivered events into the main thread's hands. -/
theorem Ready.poll (hr : Ready n s) (hinv : Inv n s) (hd : Denotes s) {hs : List (Option Nat)}
    (hmain : s.main = .poll) (hcan : s.canDeliver hs = true) :
    Ready n { s.deliver hs with main := .next (hs.map s.event) } := by
  have hstep : Step n s _ .tau _ := .poll hs hmain hcan
  have hlt : ∀ k, some k ∈ hs → k < s.nhooks := fun k hk =>
    (hinv.owned.added k (canDeliver_mem hcan hk).1).1.1
  refine ⟨?_, ?_, fun h evs heq => by cases heq⟩
  · intro h hh hpos
    have hold : s.Connected h := hh.of_step hstep hh.1.1
    rcases deliver_pend (s := s) hs (s.hooks h).conn with hsame | ⟨k, hk, hconn⟩
    · rcases hr.announced h hold hpos with hev | hdo | hw
      · exact .inl (by rw [← hsame] at hev; exact hev)
      · rw [hmain] at hdo
        cases hdo
      · exact .inr (.inr (hinv.awaits_home hstep hold.1.1 (fun _ hpc => hpc) hw))
    · -- the event delivered is the session's own
      refine .inr (.inl ?_)
      rw [← hd.conn_inj k h (hlt k hk) hold.1.1 hconn]
      exact mem_sessions_event.mpr hk
  · intro c hno hpos
    rcases deliver_pend (s := s) hs c with hsame | ⟨k, hk, hconn⟩
    · exact fun heq => hr.unhooked c hno hpos (by rw [← hsame]; exact heq)
    · exact absurd hconn (hno k (hlt k hk))

/-- A new hook takes over a connection whose bytes are announced. -/
theorem Ready.create (hr : Ready n s) (hinv : Inv n s) (hd : Denotes s)
    (hstep : Step n s a .create s') : Ready n s' := by
  have hchecked := hr.checked_step hinv hstep
  have hhome := fun h hlt => hinv.awaits_home hstep (h := h) hlt
  have hconn := fun h hh => Connected.of_step (h := h) hh hstep
  obtain ⟨fd, c, evs, hoda, hmain, rfl⟩ := create_step hstep
  have hold : ∀ k, k < s.nhooks → Function.update s.hooks s.nhooks (newHook fd c hoda) k
      = s.hooks k := fun k hk => Function.update_of_ne (Nat.ne_of_lt hk) _ _
  refine ⟨?_, ?_, hchecked⟩
  · intro h hh hpos
    rcases Nat.lt_or_ge h s.nhooks with hlt | hge
    · simp only [setHook, hold h hlt] at hpos ⊢
      rcases hr.announced h (hconn h hh hlt) hpos with hev | hdo | hw
      · exact .inl hev
      · rw [hmain] at hdo
        exact .inr (.inl hdo)
      · exact .inr (.inr (hhome h hlt (fun _ hpc => hpc) hw))
    · -- bytes that came before the hook left their event behind
      have hnew : h = s.nhooks := Nat.le_antisymm (Nat.le_of_lt_succ hh.1.1) hge
      subst hnew
      simp only [setHook, Function.update_self, newHook] at hpos ⊢
      exact .inl (hr.unhooked c (hd.fresh fd c evs hmain).2 hpos)
  · intro c' hno hpos
    refine hr.unhooked c' (fun h hlt => ?_) hpos
    have := hno h (Nat.lt_succ_of_lt hlt)
    simpa only [setHook, hold h hlt] using this

/-- Bytes that arrive raise an event; events pile up. -/
theorem Ready.arrival (hr : Ready n s) (hinv : Inv n s) (hstep : Step n s a lab s')
    (hmain : s'.main = s.main) (hhooks : s'.hooks = s.hooks) (hn : s'.nhooks = s.nhooks)
    (hworker : s'.worker = s.worker)
    (hpend : ∀ c, s.pend c ≠ Events.zero → s'.pend c ≠ Events.zero)
    (hrcv : ∀ c, s'.rcv c = s.rcv c ∨ s'.pend c ≠ Events.zero) : Ready n s' := by
  refine ⟨?_, ?_, ?_⟩
  · intro h hh hpos
    have hlt : h < s.nhooks := hn ▸ hh.1.1
    rw [hhooks] at hpos ⊢
    rcases hrcv (s.hooks h).conn with hsame | hev
    · rw [hsame] at hpos
      rcases hr.announced h (hh.of_step hstep hlt) hpos with hev | hdo | hw
      · exact .inl (hpend _ hev)
      · exact .inr (.inl (by rw [hmain]; exact hdo))
      · exact .inr (.inr (hinv.awaits_home hstep hlt (fun x hx => by rw [hworker]; exact hx) hw))
    · exact .inl hev
  · intro c hno hpos
    rcases hrcv c with hsame | hev
    · exact hpend c (hr.unhooked c (fun h hlt => by rw [← hhooks]; exact hno h (hn ▸ hlt))
        (hsame ▸ hpos))
    · exact hev
  · intro h evs hm
    rw [hhooks]
    exact hr.checked h evs (hmain ▸ hm)

/-- A read that empties the buffer leaves nothing to announce. -/
theorem Ready.read (hr : Ready n s) (hinv : Inv n s) (hd : Denotes s) {x h : Nat} (hx : x < n)
    (hpc : s.worker x = .recvmsg h)
    (hroom : ∀ c, s.fdt (s.hooks h).fd = some c → s.rcv c ≤ 2 * iovChunk) :
    Ready n (((s.touch h).recvFrom h).setWorker x
      (if s.recvCount h = 0 then .hookUnref h else .onData h)) := by
  have hstep : Step n s (.worker x false) .tau _ := .recvmsg hx hpc
  -- a read never adds bytes, and takes all of the connection it reads from
  have hrcv : ∀ c, ((s.touch h).recvFrom h).rcv c ≤ s.rcv c ∧
      (s.fdt (s.hooks h).fd = some c → ((s.touch h).recvFrom h).rcv c = 0) := by
    intro c
    simp only [recvFrom, touch, recvCount]
    cases hfd : s.fdt (s.hooks h).fd with
    | none => exact ⟨Nat.le_refl _, fun heq => by cases heq⟩
    | some c' =>
      have hle := hroom c' hfd
      by_cases hc : c = c'
      · subst hc
        simp only [Function.update_self]
        exact ⟨Nat.sub_le _ _, fun _ => by omega⟩
      · simp only [Function.update_of_ne hc, Option.some.injEq]
        exact ⟨Nat.le_refl _, fun heq => absurd heq.symm hc⟩
  refine ⟨?_, ?_, hr.checked⟩
  · intro k hk hpos
    have hold : s.Connected k := hk.of_step hstep hk.1.1
    have hpos' := Nat.lt_of_lt_of_le hpos (hrcv (s.hooks k).conn).1
    rcases hr.announced k hold hpos' with hev | hdo | hw
    · exact .inl hev
    · exact .inr (.inl hdo)
    · by_cases hkh : k = h
      · subst hkh
        have hzero := (hrcv (s.hooks k).conn).2 (hd.connected k hold)
        exact absurd hpos (Nat.not_lt.mpr (Nat.le_of_eq hzero))
      · refine .inr (.inr (hinv.awaits_home hstep hold.1.1 (fun y hy => ?_) hw))
        simp only [setWorker]
        rw [Function.update_of_ne]
        · exact hy
        · rintro rfl
          rw [hpc] at hy
          cases hy
          exact hkh rfl
  · intro c hno hpos
    exact hr.unhooked c hno (Nat.lt_of_lt_of_le hpos (hrcv c).1)

/-- Before the main thread's own steps and after them, the same sessions are still to be
acted on, except that one is closed or its entry is being inserted. -/
theorem Ready.todo_step (hr : Ready n s) (hinv : Inv n s) (hstep : Step n s a lab s') {h : Nat}
    (hh : s'.Connected h) (hdo : h ∈ s.main.todo) (hpoll : s.main ≠ .poll) :
    h ∈ s'.main.todo ∨ (s'.home n h).awaits h := by
  have hstep' := hstep
  cases hstep with
  | close hmain =>
    next k evs =>
    simp only [hmain, MainPc.todo, List.mem_cons] at hdo
    rcases hdo with rfl | hdo
    · -- the session being closed is not connected any more
      exact absurd rfl (hh.2 evs)
    · exact .inl hdo
  | noProcess hmain hproc =>
    -- `hook_on_data` sets `process` before the main thread tests it
    rw [hr.checked _ _ hmain] at hproc
    cases hproc
  | hookRef hmain =>
    next k x evs =>
    simp only [hmain, MainPc.todo, List.mem_cons] at hdo
    rcases hdo with rfl | hdo
    · -- the entry is now in the hands of the producer of the session's own lane
      have htarget := hinv.target h x (by simp only [hmain, MainPc.target])
      have hidle : (s.q x).inPc = .idle :=
        (hinv.lanes x).inIdle (by simp [lane, hmain, MainPc.stage])
      refine .inr (.inl ?_)
      rw [home_step hstep' htarget.lt, htarget.fd]
      exact ⟨by simp [lane, MainPc.stage], by simp [lane, setHook, touch, Stailq.unlinked, hidle]⟩
    · exact .inl hdo
  | hookFree hmain =>
    left
    simp only [hmain, MainPc.todo] at hdo
    simp only
    split <;> exact hdo
  | poll hs hmain hcan => exact absurd hmain hpoll
  | batchDone hmain =>
    rw [hmain] at hdo
    cases hdo
  | nextListener hmain | nextSession hmain | setEvents hmain
  | onDataClose hmain | onDataReady hmain | hookFreeReal hmain | semPost hmain
  | acceptAgain hmain | acceptDone hmain | hookNewFail hmain | evqAdd hmain
  | dispatch hmain hproc | inFinish hmain hpc | accepted fd hmain hfd
  | acceptedZero fd hmain hfd | hookNew hoda hmain =>
    left
    simpa [hmain, MainPc.todo] using hdo
  | _ => exact .inl hdo

/-- **One roomy step keeps every unread byte announced.** -/
theorem Ready.step (hr : Ready n s) (hinv : Inv n s) (hd : Denotes s) (hguard : RoomyRead s a)
    (hstep : Step n s a lab s') : Ready n s' := by
  have hstep' := hstep
  have hchecked := hr.checked_step hinv hstep
  cases hstep with
  | poll hs hmain hcan => exact hr.poll hinv hd hmain hcan
  | hookNew hoda hmain => exact hr.create hinv hd hstep'
  -- bytes that arrive raise an event of their connection
  | arrive c k hc =>
    refine hr.arrival hinv hstep' rfl rfl rfl rfl ?_ ?_
    · intro c' hev
      simp only [Function.update_apply]
      split
      · next hcc => exact Events.or_ne_zero (hcc ▸ hev)
      · exact hev
    · intro c'
      by_cases hcc : c' = c
      · subst hcc
        right
        simp [Events.or, Events.zero]
      · exact .inl (Function.update_of_ne hcc _ _)
  | hangup c e hc =>
    refine hr.arrival hinv hstep' rfl rfl rfl rfl ?_ (fun _ => .inl rfl)
    intro c' hev
    simp only [Function.update_apply]
    split
    · next hcc => exact Events.or_ne_zero (hcc ▸ hev)
    · exact hev
  -- the read empties the receive buffer, which is where the guard is used
  | recvmsg hx hpc => exact hr.read hinv hd hx hpc fun c hc => hguard _ c hpc hc
  | semWait hx hpc hsem | outEmpty hx hpc hout | outFinish hx hpc hout | handle hx hpc hproc
  | skip hx hpc hproc | onData response hx hpc | sendmsg hx hpc | hookUnref hx hpc
  | workerFree hx hpc =>
    refine hr.keep hinv hstep' (by simp) rfl rfl ?_ (fun h _ hdo => .inl hdo) hchecked
    intro y h hy
    refine recvmsg_update (s := s) (fun k hk => ?_) hy
    cases hpc.symm.trans hk
  | _ =>
    refine hr.keep hinv hstep' (by simp) rfl rfl (fun _ _ hy => hy) ?_ hchecked
    intro h hh hdo
    refine hr.todo_step hinv hstep' hh hdo ?_
    intro hpoll
    rw [hpoll] at hdo
    cases hdo

/-! ## No lost readiness -/

/-- Where every read has room, unread bytes have an event or an entry under way. -/
theorem ready_of_reach (hs : (daemon n).Reach RoomyRead s) : Ready n s := by
  refine System.Reach.invariant ?_ ?_ hs
  · intro t (hinit : Init t)
    refine ⟨?_, ?_, ?_⟩
    · intro h _ hpos
      rw [hinit.rcv] at hpos
      exact absurd hpos (Nat.lt_irrefl 0)
    · intro c _ hpos
      rw [hinit.rcv] at hpos
      exact absurd hpos (Nat.lt_irrefl 0)
    · intro h evs hmain
      rw [hinit.main] at hmain
      cases hmain
  · intro t a t' ht hr hguard hstep
    obtain ⟨lab, hstep⟩ := step_cases hstep
    exact hr.step (inv_of_reachable ht.reachable) (denotes_of_reachable ht.reachable) hguard
      hstep

/-- **No lost readiness** in every run whose reads are roomy: a connected session that has
no undelivered event, none the main thread has still to act on, no queue entry and no
worker, has no unread bytes. -/
theorem no_lost_readiness (hn : 0 < n) (hs : (daemon n).Reach RoomyRead s) {h : Nat}
    (hh : s.Connected h) (hpend : s.pend (s.hooks h).conn = Events.zero)
    (htodo : h ∉ s.main.todo) (hentries : s.entries n h = 0) (hwork : ¬ s.inWork n h) :
    s.rcv (s.hooks h).conn = 0 := by
  have hinv := inv_of_reachable hs.reachable
  have hready := ready_of_reach hs
  by_contra hpos
  have hrefs : (s.home n h).refs h = 0 := by
    rw [hinv.refs_total hn, hentries, if_neg hwork]
  rcases hready.announced h hh (by omega) with hev | hdo | hw
  · exact hev hpend
  · exact htodo hdo
  · -- an entry somebody will read for is one of the lane's references
    simp only [Lane.refs] at hrefs
    rcases hw with hins | hmem | ⟨hhand, -⟩
    · rw [if_pos hins] at hrefs
      omega
    · have := List.count_pos_iff.mpr hmem
      omega
    · rw [if_pos hhand] at hrefs
      omega

/-- `RoomyRead` as a check on the state. -/
def roomyRead (s : Daemon) : Act → Bool
  | .worker x _ =>
    match s.worker x with
    | .recvmsg h =>
      match s.fdt (s.hooks h).fd with
      | none => true
      | some c => decide (s.rcv c ≤ 2 * iovChunk)
    | _ => true
  | _ => true

/-- The computed check on a read implies its condition. -/
theorem roomyRead_sound (s : Daemon) (a : Act) (hcheck : roomyRead s a = true) :
    RoomyRead s a := by
  cases a with
  | worker x response =>
    intro h c hpc hfd
    simpa only [roomyRead, hpc, hfd, decide_eq_true_eq] using hcheck
  | _ => trivial

/-- The worker reads for the one client of `serveOne`, answers nothing and waits again; the
main thread polls. -/
def readOne : List Act := serveOne ++ List.replicate 3 (.worker 0 false) ++ [.main]

/-- After `readOne` the ten bytes have been read. -/
theorem no_lost_readiness_readOne : ∃ s,
    (daemon 1).runChecked roomyRead boot readOne = some s ∧ s.worker 0 = .semWait ∧
      s.main = .poll ∧ s.rcv (s.hooks 0).conn = 0 := by
  have hrun : ((daemon 1).runChecked roomyRead boot readOne).map
      (fun s => decide (s.worker 0 = .semWait ∧ s.main = .poll ∧ s.nhooks = 1 ∧
        (s.hooks 0).closed = false ∧ s.pend (s.hooks 0).conn = Events.zero ∧
        s.entries 1 0 = 0 ∧ ¬ s.inWork 1 0)) = some true := by decide +kernel
  obtain ⟨s, hs, hobs⟩ := Option.map_eq_some_iff.mp hrun
  rw [decide_eq_true_eq] at hobs
  obtain ⟨hworker, hmain, hn, hclosed, hpend, hentries, hwork⟩ := hobs
  refine ⟨s, hs, hworker, hmain, ?_⟩
  refine no_lost_readiness Nat.one_pos
    (System.Reach.runChecked roomyRead_sound (.init init_boot) hs) ⟨⟨by omega, hclosed⟩, ?_⟩ hpend
    ?_ hentries hwork
  · simp [hmain]
  · simp [hmain, MainPc.todo]

/-- As `readOne`, but the client sends 10000 bytes, more than one read takes. -/
def readBurst : List Act :=
  [.poll [none], .main, .accept (some 5) false, .hookNew true true, .main, .accept none false,
    .main, .arrive 5 10000, .poll [some 0]] ++ List.replicate 5 .main ++ [.malloc 1]
    ++ List.replicate 9 .main ++ List.replicate 11 (.worker 0 false)
    ++ List.replicate 3 (.worker 0 false) ++ [.main]

/-- After `readBurst` 1808 bytes are left unread with nothing to announce them. -/
theorem stuck_bytes : ¬ ∀ s, (daemon 1).Reachable s → ∀ h, s.Connected h →
    s.pend (s.hooks h).conn = Events.zero → h ∉ s.main.todo → s.entries 1 h = 0 →
      ¬ s.inWork 1 h → s.rcv (s.hooks h).conn = 0 := by
  have hrun : ((daemon 1).run boot readBurst).map
      (fun s => decide (s.main = .poll ∧ s.nhooks = 1 ∧ (s.hooks 0).closed = false ∧
        s.pend (s.hooks 0).conn = Events.zero ∧ s.entries 1 0 = 0 ∧ ¬ s.inWork 1 0 ∧
        s.rcv (s.hooks 0).conn = 1808)) = some true := by decide +kernel
  obtain ⟨s, hs, hobs⟩ := Option.map_eq_some_iff.mp hrun
  rw [decide_eq_true_eq] at hobs
  obtain ⟨hmain, hn, hclosed, hpend, hentries, hwork, hrcv⟩ := hobs
  intro hall
  have hzero := hall s (System.Reachable.run (.init init_boot) hs) 0
    ⟨⟨by omega, hclosed⟩, by simp [hmain]⟩ hpend (by simp [hmain, MainPc.todo]) hentries hwork
  rw [hrcv] at hzero
  cases hzero

end Daemon

end Ayubd
