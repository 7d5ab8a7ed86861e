import Ayubd.Daemon.State

/-!
# Ayubd — the steps of the daemon

`mainStep`, `workerStep` and the environment's moves are put together in `step n`, for a
daemon with `n` workers; `daemon n` is the transition system. `Step` lists once what a step
can do, one constructor per transition with its guard and the state it leads to, and
`step_cases` says that the list is complete. The invariants are proved by cases on `Step`.
-/

namespace Ayubd.Daemon

/-! ## The main thread -/

/-- `ioqueue_socket_on_data(hp)` up to its `hook_close`: `none` for return value `0` (the
hook is to be closed), otherwise the hook with its `process` set. -/
def ioqueueSocketOnData (hook : Hook) : Option Hook :=
  if hook.events.hangup then none
  else if !hook.process then
    if hook.hoda then some { hook with process := true } else none
  else some hook

/-- The session hook `ioqueue_socket_on_connect` sets up for an accepted descriptor. -/
def newHook (fd conn : Nat) (hoda : Bool) : Hook where
  fd := fd
  hoda := hoda
  process := false
  events := ⟨true, true, false, false⟩
  refcnt := 1
  conn := conn
  closed := false
  frees := 0

/-- The steps of the main thread that leave nothing to choose. -/
def mainStep (n : Nat) (s : Daemon) : Option Daemon :=
  match s.main with
  | .poll => none
  | .next [] => some { s with main := .poll }
  | .next (.listener :: evs) => some { s with main := .accept evs }
  | .next (.session h e :: evs) => some { s with main := .setEvents h e evs }
  | .setEvents h e evs =>
    let s := (s.touch h).setHook h { s.hooks h with events := e }
    some { s with main := .onData h evs }
  | .onData h evs =>
    let s := s.touch h
    match ioqueueSocketOnData (s.hooks h) with
    | none => some { s with main := .close h evs }
    | some hook => some { s.setHook h hook with main := .checkProcess h evs }
  | .close h evs =>
    let s := s.touch h
    some { s with fdt := Function.update s.fdt (s.hooks h).fd none
                  added := Function.update s.added h false
                  main := .hookFree h evs }
  | .hookFree h evs =>
    let s := s.touch h
    let s := s.setHook h { s.hooks h with refcnt := (s.hooks h).refcnt - 1, closed := true }
    some { s with main := if (s.hooks h).refcnt = 0 then .hookFreeReal h evs else .next evs }
  | .hookFreeReal h evs =>
    let s := s.touch h
    let s := s.setHook h { s.hooks h with frees := (s.hooks h).frees + 1 }
    some { s with main := .next evs }
  | .checkProcess h evs =>
    let s := s.touch h
    if (s.hooks h).process then some { s with main := .hookRef h ((s.hooks h).fd % n) evs }
    else some { s with main := .next evs }
  | .hookRef h x evs =>
    let s := s.touch h
    let s := s.setHook h { s.hooks h with refcnt := (s.hooks h).refcnt + 1 }
    some { s with main := .stailqIn h x evs }
  | .stailqIn _ x evs =>
    match (s.q x).inPc with
    | .idle => none
    | .done => some { s.setQueue x (s.q x).inFinish with main := .semPost x evs }
    | _ => some (s.setQueue x (s.q x).inStep)
  | .semPost x evs =>
    some { s with sem := Function.update s.sem x (s.sem x + 1), main := .next evs }
  | .accept _ => none
  | .hookNew .. => none
  | .evqAdd h evs =>
    let s := s.touch h
    some { s with added := Function.update s.added h true, main := .accept evs }

/-- `while ((connfd = ACCEPT(...)) > 0 || errno == EINTR)` with `if (connfd == -1) continue`.
A descriptor numbered `0` passes the loop test only through a stale `errno`. -/
def acceptStep (s : Daemon) (r : Option Nat) (eintr : Bool) : Option Daemon :=
  match s.main, r with
  | .accept evs, none => some { s with main := if eintr then .accept evs else .next evs }
  | .accept evs, some fd =>
    if s.fdt fd = none then
      some { s with fdt := Function.update s.fdt fd (some s.nconns)
                    nconns := s.nconns + 1
                    main := if 0 < fd ∨ eintr then .hookNew fd s.nconns evs else .next evs }
    else none
  | _, _ => none

/-- `hook_new(hs)` and, if it succeeds, the initialisation of `hs`; else `close(connfd)`. -/
def hookNewStep (s : Daemon) (ok hoda : Bool) : Option Daemon :=
  match s.main with
  | .hookNew fd conn evs =>
    if ok then
      some { s.setHook s.nhooks (newHook fd conn hoda) with
        nhooks := s.nhooks + 1, main := .evqAdd s.nhooks evs }
    else some { s with fdt := Function.update s.fdt fd none, main := .accept evs }
  | _ => none

/-- `DO_MALLOC(sizeof(*np))` in `stailq_in_lf_spsc`: any address that is not allocated. -/
def mallocStep (s : Daemon) (np : Addr) : Option Daemon :=
  match s.main with
  | .stailqIn h x _ =>
    if (s.q x).inPc = .idle ∧ np ∉ (s.q x).live then
      some (s.setQueue x ((s.q x).inStart h np))
    else none
  | _ => none

/-! ## The workers -/

/-- The bytes one `recvmsg` takes from connection `c`: the two io vectors hold
`2 * IOV_CHUNK` bytes. -/
def recvCount (s : Daemon) (h : Nat) : Nat :=
  match s.fdt (s.hooks h).fd with
  | none => 0
  | some c => min (s.rcv c) (2 * iovChunk)

/-- `recvmsg(hp->fd, imsg, 0)`: takes bytes of whatever connection the descriptor denotes. -/
def recvFrom (s : Daemon) (h : Nat) : Daemon :=
  { s with rcv :=
      match s.fdt (s.hooks h).fd with
      | none => s.rcv
      | some c => Function.update s.rcv c (s.rcv c - s.recvCount h) }

def workerStep (s : Daemon) (x : Nat) (response : Bool) : Option Daemon :=
  match s.worker x with
  | .semWait =>
    if 0 < s.sem x then
      let s := s.setQueue x (s.q x).outStart
      some ({ s with sem := Function.update s.sem x (s.sem x - 1) }.setWorker x .stailqOut)
    else none
  | .stailqOut =>
    match (s.q x).outPc with
    | .done none => some ((s.setQueue x (s.q x).outFinish).setWorker x .semWait)
    | .done (some h) => some ((s.setQueue x (s.q x).outFinish).setWorker x (.checkProcess h))
    | _ => some (s.setQueue x (s.q x).outStep)
  | .checkProcess h =>
    let s := s.touch h
    if (s.hooks h).process then
      some ({ s with handed := Function.update s.handed x (s.handed x ++ [h]) }.setWorker x
        (.recvmsg h))
    else some (s.setWorker x .semWait)
  | .recvmsg h =>
    -- `if (n <= 0) goto cleanup`
    let s := s.touch h
    some ((s.recvFrom h).setWorker x (if s.recvCount h = 0 then .hookUnref h else .onData h))
  | .onData h =>
    some ((s.touch h).setWorker x (if response then .sendmsg h else .hookUnref h))
  | .sendmsg h => some ((s.touch h).setWorker x (.hookUnref h))
  | .hookUnref h =>
    let s := s.touch h
    let s := s.setHook h { s.hooks h with refcnt := (s.hooks h).refcnt - 1 }
    some (s.setWorker x (if (s.hooks h).refcnt = 0 then .hookFreeReal h else .semWait))
  | .hookFreeReal h =>
    let s := s.touch h
    let s := s.setHook h { s.hooks h with frees := (s.hooks h).frees + 1 }
    some (s.setWorker x .semWait)

/-! ## The system -/

def step (n : Nat) (s : Daemon) : Act → Option Daemon
  | .poll hs =>
    if s.main = .poll ∧ s.canDeliver hs then
      some { s.deliver hs with main := .next (hs.map s.event) }
    else none
  | .accept r eintr => s.acceptStep r eintr
  | .hookNew ok hoda => s.hookNewStep ok hoda
  | .malloc np => s.mallocStep np
  | .main => s.mainStep n
  | .worker x response => if x < n then s.workerStep x response else none
  | .arrive c k =>
    if c < s.nconns ∧ 0 < k then
      some { s with rcv := Function.update s.rcv c (s.rcv c + k)
                    pend := Function.update s.pend c
                      ((s.pend c).or ⟨true, false, false, false⟩) }
    else none
  | .hangup c e =>
    if c < s.nconns then
      some { s with pend := Function.update s.pend c ((s.pend c).or e) }
    else none

/-- The daemon after `ayubd_init` and the module's start: every queue is new, the workers
wait, no session exists; descriptors may be open already (standard streams, the epoll
instance, the listening sockets). -/
structure Init (s : Daemon) : Prop where
  fdt : ∀ fd c, s.fdt fd = some c → c < s.nconns
  nhooks : s.nhooks = 0
  main : s.main = .poll
  q : ∀ x, ∃ mem d, s.q x = Stailq.stailqNewLfSpsc mem d
  sem : ∀ x, s.sem x = 0
  worker : ∀ x, s.worker x = .semWait
  handed : ∀ x, s.handed x = []
  rcv : ∀ c, s.rcv c = 0
  pend : ∀ c, s.pend c = Events.zero
  added : ∀ h, s.added h = false
  fault : s.fault = false

/-- The transition system of a daemon with `n` workers. -/
def daemon (n : Nat) : System Daemon Act where
  init := Init
  step := step n

/-- A daemon that has just started: the standard streams, the epoll instance and one
listening socket are open. -/
def boot : Daemon where
  fdt fd := if fd < 5 then some fd else none
  nconns := 5
  rcv _ := 0
  pend _ := Events.zero
  added _ := false
  hooks _ := newHook 0 0 false
  nhooks := 0
  main := .poll
  q _ := Stailq.stailqNewLfSpsc (fun _ => ⟨none, none⟩) 0
  sem _ := 0
  worker _ := .semWait
  handed _ := []
  fault := false

theorem init_boot : Init boot where
  fdt fd c h := by
    simp only [boot] at h ⊢
    split at h
    · cases h
      assumption
    · cases h
  nhooks := rfl
  main := rfl
  q _ := ⟨_, _, rfl⟩
  sem _ := rfl
  worker _ := rfl
  handed _ := rfl
  rcv _ := rfl
  pend _ := rfl
  added _ := rfl
  fault := rfl

/-! ## What a step can do -/

/-- What a step does to the hooks' lifetimes. -/
inductive Label where
  | tau
  /-- `hook_new` -/
  | create
  /-- `hook_ref(h)` before `h` is put on queue `x` -/
  | ref (h x : Nat)
  /-- `hook_unref(h)` by worker `x` -/
  | unref (h x : Nat)
  /-- worker `x` lets go of `h` without `hook_unref` -/
  | skip (h x : Nat)
  /-- the main thread's `hook_free` of `hook_close(h)` -/
  | release (h : Nat)
  /-- `hook_free_real(h)` -/
  | free (h : Nat)

/-- The transitions of the daemon with `n` workers: action, guard and what it leads to. -/
inductive Step (n : Nat) (s : Daemon) : Act → Label → Daemon → Prop where
  | poll (hs : List (Option Nat)) (hmain : s.main = .poll) (hcan : s.canDeliver hs = true) :
      Step n s (.poll hs) .tau { s.deliver hs with main := .next (hs.map s.event) }
  | batchDone (hmain : s.main = .next []) : Step n s .main .tau { s with main := .poll }
  | nextListener {evs} (hmain : s.main = .next (.listener :: evs)) :
      Step n s .main .tau { s with main := .accept evs }
  | nextSession {h e evs} (hmain : s.main = .next (.session h e :: evs)) :
      Step n s .main .tau { s with main := .setEvents h e evs }
  | setEvents {h e evs} (hmain : s.main = .setEvents h e evs) :
      Step n s .main .tau { (s.touch h).setHook h { s.hooks h with events := e } with
        main := .onData h evs }
  | onDataClose {h evs} (hmain : s.main = .onData h evs) :
      Step n s .main .tau { s.touch h with main := .close h evs }
  | onDataReady {h evs} (hmain : s.main = .onData h evs) :
      Step n s .main .tau { (s.touch h).setHook h { s.hooks h with process := true } with
        main := .checkProcess h evs }
  | close {h evs} (hmain : s.main = .close h evs) :
      Step n s .main .tau { s.touch h with
        fdt := Function.update s.fdt (s.hooks h).fd none
        added := Function.update s.added h false
        main := .hookFree h evs }
  | hookFree {h evs} (hmain : s.main = .hookFree h evs) :
      Step n s .main (.release h) { (s.touch h).setHook h
          { s.hooks h with refcnt := (s.hooks h).refcnt - 1, closed := true } with
        main := if (s.hooks h).refcnt - 1 = 0 then .hookFreeReal h evs else .next evs }
  | hookFreeReal {h evs} (hmain : s.main = .hookFreeReal h evs) :
      Step n s .main (.free h) { (s.touch h).setHook h
          { s.hooks h with frees := (s.hooks h).frees + 1 } with main := .next evs }
  | dispatch {h evs} (hmain : s.main = .checkProcess h evs)
      (hproc : (s.hooks h).process = true) :
      Step n s .main .tau { s.touch h with main := .hookRef h ((s.hooks h).fd % n) evs }
  | noProcess {h evs} (hmain : s.main = .checkProcess h evs)
      (hproc : (s.hooks h).process = false) :
      Step n s .main .tau { s.touch h with main := .next evs }
  | hookRef {h x evs} (hmain : s.main = .hookRef h x evs) :
      Step n s .main (.ref h x) { (s.touch h).setHook h
          { s.hooks h with refcnt := (s.hooks h).refcnt + 1 } with main := .stailqIn h x evs }
  | inStart {h x evs} (np : Addr) (hmain : s.main = .stailqIn h x evs)
      (hpc : (s.q x).inPc = .idle) (hnp : np ∉ (s.q x).live) :
      Step n s (.malloc np) .tau (s.setQueue x ((s.q x).inStart h np))
  | inStep {h x evs} (hmain : s.main = .stailqIn h x evs)
      (hidle : (s.q x).inPc ≠ .idle) (hdone : (s.q x).inPc ≠ .done) :
      Step n s .main .tau (s.setQueue x (s.q x).inStep)
  | inFinish {h x evs} (hmain : s.main = .stailqIn h x evs) (hpc : (s.q x).inPc = .done) :
      Step n s .main .tau { s.setQueue x (s.q x).inFinish with main := .semPost x evs }
  | semPost {x evs} (hmain : s.main = .semPost x evs) :
      Step n s .main .tau { s with sem := Function.update s.sem x (s.sem x + 1), main := .next evs }
  | acceptAgain {evs} (hmain : s.main = .accept evs) :
      Step n s (.accept none true) .tau { s with main := .accept evs }
  | acceptDone {evs} (hmain : s.main = .accept evs) :
      Step n s (.accept none false) .tau { s with main := .next evs }
  | accepted {eintr evs} (fd : Nat) (hmain : s.main = .accept evs) (hfd : s.fdt fd = none) :
      Step n s (.accept (some fd) eintr) .tau { s with
        fdt := Function.update s.fdt fd (some s.nconns)
        nconns := s.nconns + 1
        main := .hookNew fd s.nconns evs }
  | acceptedZero {eintr evs} (fd : Nat) (hmain : s.main = .accept evs) (hfd : s.fdt fd = none) :
      Step n s (.accept (some fd) eintr) .tau { s with
        fdt := Function.update s.fdt fd (some s.nconns)
        nconns := s.nconns + 1
        main := .next evs }
  | hookNew {fd conn evs} (hoda : Bool) (hmain : s.main = .hookNew fd conn evs) :
      Step n s (.hookNew true hoda) .create { s.setHook s.nhooks (newHook fd conn hoda) with
        nhooks := s.nhooks + 1, main := .evqAdd s.nhooks evs }
  | hookNewFail {hoda fd conn evs} (hmain : s.main = .hookNew fd conn evs) :
      Step n s (.hookNew false hoda) .tau { s with
        fdt := Function.update s.fdt fd none, main := .accept evs }
  | evqAdd {h evs} (hmain : s.main = .evqAdd h evs) :
      Step n s .main .tau { s.touch h with
        added := Function.update s.added h true, main := .accept evs }
  | semWait {response x} (hx : x < n) (hpc : s.worker x = .semWait) (hsem : 0 < s.sem x) :
      Step n s (.worker x response) .tau ({ s.setQueue x (s.q x).outStart with
        sem := Function.update s.sem x (s.sem x - 1) }.setWorker x .stailqOut)
  | outStep {response x} (hx : x < n) (hpc : s.worker x = .stailqOut)
      (hdone : ∀ v, (s.q x).outPc ≠ .done v) :
      Step n s (.worker x response) .tau (s.setQueue x (s.q x).outStep)
  | outEmpty {response x} (hx : x < n) (hpc : s.worker x = .stailqOut)
      (hout : (s.q x).outPc = .done none) :
      Step n s (.worker x response) .tau ((s.setQueue x (s.q x).outFinish).setWorker x .semWait)
  | outFinish {response x h} (hx : x < n) (hpc : s.worker x = .stailqOut)
      (hout : (s.q x).outPc = .done (some h)) :
      Step n s (.worker x response) .tau
        ((s.setQueue x (s.q x).outFinish).setWorker x (.checkProcess h))
  | handle {response x h} (hx : x < n) (hpc : s.worker x = .checkProcess h)
      (hproc : (s.hooks h).process = true) :
      Step n s (.worker x response) .tau ({ s.touch h with
        handed := Function.update s.handed x (s.handed x ++ [h]) }.setWorker x (.recvmsg h))
  | skip {response x h} (hx : x < n) (hpc : s.worker x = .checkProcess h)
      (hproc : (s.hooks h).process = false) :
      Step n s (.worker x response) (.skip h x) ((s.touch h).setWorker x .semWait)
  | recvmsg {response x h} (hx : x < n) (hpc : s.worker x = .recvmsg h) :
      Step n s (.worker x response) .tau (((s.touch h).recvFrom h).setWorker x
        (if s.recvCount h = 0 then .hookUnref h else .onData h))
  | onData {x h} (response : Bool) (hx : x < n) (hpc : s.worker x = .onData h) :
      Step n s (.worker x response) .tau
        ((s.touch h).setWorker x (if response then .sendmsg h else .hookUnref h))
  | sendmsg {response x h} (hx : x < n) (hpc : s.worker x = .sendmsg h) :
      Step n s (.worker x response) .tau ((s.touch h).setWorker x (.hookUnref h))
  | hookUnref {response x h} (hx : x < n) (hpc : s.worker x = .hookUnref h) :
      Step n s (.worker x response) (.unref h x) (((s.touch h).setHook h
          { s.hooks h with refcnt := (s.hooks h).refcnt - 1 }).setWorker x
        (if (s.hooks h).refcnt - 1 = 0 then .hookFreeReal h else .semWait))
  | workerFree {response x h} (hx : x < n) (hpc : s.worker x = .hookFreeReal h) :
      Step n s (.worker x response) (.free h) (((s.touch h).setHook h
        { s.hooks h with frees := (s.hooks h).frees + 1 }).setWorker x .semWait)
  | arrive (c k : Nat) (hc : c < s.nconns) :
      Step n s (.arrive c k) .tau { s with
        rcv := Function.update s.rcv c (s.rcv c + k)
        pend := Function.update s.pend c ((s.pend c).or ⟨true, false, false, false⟩) }
  | hangup (c : Nat) (e : Events) (hc : c < s.nconns) :
      Step n s (.hangup c e) .tau { s with pend := Function.update s.pend c ((s.pend c).or e) }

/-- A hook that `ioqueue_socket_on_data` does not close leaves it with `process` set. -/
theorem ioqueueSocketOnData_some {hook hook' : Hook}
    (h : ioqueueSocketOnData hook = some hook') : hook' = { hook with process := true } := by
  unfold ioqueueSocketOnData at h
  split at h
  · cases h
  · split at h
    · split at h
      · exact (Option.some.inj h).symm
      · cases h
    · next hproc =>
      obtain rfl := Option.some.inj h
      cases hook
      simp_all

/-- What a step of the main thread does. -/
theorem mainStep_cases {n : Nat} {s s' : Daemon} (hstep : s.mainStep n = some s') :
    ∃ lab, Step n s .main lab s' := by
  unfold mainStep at hstep
  cases hmain : s.main with
  | poll => simp only [hmain, reduceCtorEq] at hstep
  | next evs =>
    cases evs with
    | nil =>
      simp only [hmain, Option.some.injEq] at hstep
      obtain rfl := hstep
      exact ⟨_, .batchDone hmain⟩
    | cons e evs =>
      cases e with
      | listener =>
        simp only [hmain, Option.some.injEq] at hstep
        obtain rfl := hstep
        exact ⟨_, .nextListener hmain⟩
      | session h e =>
        simp only [hmain, Option.some.injEq] at hstep
        obtain rfl := hstep
        exact ⟨_, .nextSession hmain⟩
  | setEvents h e evs =>
    simp only [hmain, Option.some.injEq] at hstep
    obtain rfl := hstep
    exact ⟨_, .setEvents hmain⟩
  -- `ioqueue_socket_on_data` either asks for a close or says which hook is ready
  | onData h evs =>
    simp only [hmain] at hstep
    split at hstep
    · obtain rfl := Option.some.inj hstep
      exact ⟨_, .onDataClose hmain⟩
    · next hook hsome =>
      rw [ioqueueSocketOnData_some hsome] at hstep
      obtain rfl := Option.some.inj hstep
      exact ⟨_, .onDataReady hmain⟩
  | close h evs =>
    simp only [hmain, Option.some.injEq] at hstep
    obtain rfl := hstep
    exact ⟨_, .close hmain⟩
  | hookFree h evs =>
    simp only [hmain, setHook, Function.update_self, Option.some.injEq] at hstep
    obtain rfl := hstep
    exact ⟨_, .hookFree hmain⟩
  | hookFreeReal h evs =>
    simp only [hmain, Option.some.injEq] at hstep
    obtain rfl := hstep
    exact ⟨_, .hookFreeReal hmain⟩
  | checkProcess h evs =>
    simp only [hmain] at hstep
    split at hstep
    · next hproc =>
        obtain rfl := Option.some.inj hstep
        exact ⟨_, .dispatch hmain hproc⟩
    · next hproc =>
        obtain rfl := Option.some.inj hstep
        exact ⟨_, .noProcess hmain (Bool.eq_false_iff.mpr hproc)⟩
  | hookRef h x evs =>
    simp only [hmain, Option.some.injEq] at hstep
    obtain rfl := hstep
    exact ⟨_, .hookRef hmain⟩
  -- the macro runs access by access until it is done
  | stailqIn h x evs =>
    simp only [hmain] at hstep
    split at hstep
    · cases hstep
    · next hpc =>
        obtain rfl := Option.some.inj hstep
        exact ⟨_, .inFinish hmain hpc⟩
    · next hidle hdone =>
        obtain rfl := Option.some.inj hstep
        exact ⟨_, .inStep hmain hidle hdone⟩
  | semPost x evs =>
    simp only [hmain, Option.some.injEq] at hstep
    obtain rfl := hstep
    exact ⟨_, .semPost hmain⟩
  | accept evs => simp only [hmain, reduceCtorEq] at hstep
  | hookNew fd conn evs => simp only [hmain, reduceCtorEq] at hstep
  | evqAdd h evs =>
    simp only [hmain, Option.some.injEq] at hstep
    obtain rfl := hstep
    exact ⟨_, .evqAdd hmain⟩

/-- What a step of a worker does. -/
theorem workerStep_cases {n : Nat} {s s' : Daemon} {x : Nat} {response : Bool} (hx : x < n)
    (hstep : s.workerStep x response = some s') : ∃ lab, Step n s (.worker x response) lab s' := by
  unfold workerStep at hstep
  cases hpc : s.worker x with
  | semWait =>
    simp only [hpc] at hstep
    split at hstep
    · next hsem =>
        obtain rfl := Option.some.inj hstep
        exact ⟨_, .semWait hx hpc hsem⟩
    · cases hstep
  -- the macro has found the queue empty, has a value, or has accesses left
  | stailqOut =>
    simp only [hpc] at hstep
    split at hstep
    · next hout =>
        obtain rfl := Option.some.inj hstep
        exact ⟨_, .outEmpty hx hpc hout⟩
    · next h hout =>
        obtain rfl := Option.some.inj hstep
        exact ⟨_, .outFinish hx hpc hout⟩
    · next hnone hsome =>
      obtain rfl := Option.some.inj hstep
      refine ⟨_, .outStep hx hpc ?_⟩
      intro v hv
      cases v with
      | none => exact hnone hv
      | some h => exact hsome h hv
  | checkProcess h =>
    simp only [hpc] at hstep
    split at hstep
    · next hproc =>
        obtain rfl := Option.some.inj hstep
        exact ⟨_, .handle hx hpc hproc⟩
    · next hproc =>
        obtain rfl := Option.some.inj hstep
        exact ⟨_, .skip hx hpc (Bool.eq_false_iff.mpr hproc)⟩
  | recvmsg h =>
    simp only [hpc, Option.some.injEq] at hstep
    obtain rfl := hstep
    exact ⟨_, .recvmsg hx hpc⟩
  | onData h =>
    simp only [hpc, Option.some.injEq] at hstep
    obtain rfl := hstep
    exact ⟨_, .onData response hx hpc⟩
  | sendmsg h =>
    simp only [hpc, Option.some.injEq] at hstep
    obtain rfl := hstep
    exact ⟨_, .sendmsg hx hpc⟩
  | hookUnref h =>
    simp only [hpc, setHook, Function.update_self, Option.some.injEq] at hstep
    obtain rfl := hstep
    exact ⟨_, .hookUnref hx hpc⟩
  | hookFreeReal h =>
    simp only [hpc, Option.some.injEq] at hstep
    obtain rfl := hstep
    exact ⟨_, .workerFree hx hpc⟩

/-- What a return of `accept` does. -/
theorem acceptStep_cases {n : Nat} {s s' : Daemon} {r : Option Nat} {eintr : Bool}
    (hstep : s.acceptStep r eintr = some s') : ∃ lab, Step n s (.accept r eintr) lab s' := by
  unfold acceptStep at hstep
  split at hstep
  · next evs hmain =>
    obtain rfl := Option.some.inj hstep
    cases eintr
    · exact ⟨_, .acceptDone hmain⟩
    · exact ⟨_, .acceptAgain hmain⟩
  · next evs fd hmain =>
    split at hstep
    · next hfd =>
      obtain rfl := Option.some.inj hstep
      split
      · exact ⟨_, .accepted fd hmain hfd⟩
      · exact ⟨_, .acceptedZero fd hmain hfd⟩
    · cases hstep
  · cases hstep

/-- **A step is one of the transitions.** -/
theorem step_cases {n : Nat} {s s' : Daemon} {a : Act} (hstep : step n s a = some s') :
    ∃ lab, Step n s a lab s' := by
  cases a with
  | poll hs =>
    simp only [step] at hstep
    split at hstep
    · next hcan =>
        obtain rfl := Option.some.inj hstep
        exact ⟨_, .poll hs hcan.1 hcan.2⟩
    · cases hstep
  | accept r eintr => exact acceptStep_cases hstep
  -- an allocation that fails closes the descriptor, one that succeeds makes the hook
  | hookNew ok hoda =>
    simp only [step, hookNewStep] at hstep
    split at hstep
    · next fd conn evs hmain =>
      cases ok
      · obtain rfl := Option.some.inj hstep
        exact ⟨_, .hookNewFail hmain⟩
      · obtain rfl := Option.some.inj hstep
        exact ⟨_, .hookNew hoda hmain⟩
    · cases hstep
  | malloc np =>
    simp only [step, mallocStep] at hstep
    split at hstep
    · next h x evs hmain =>
      split at hstep
      · next hok =>
          obtain rfl := Option.some.inj hstep
          exact ⟨_, .inStart np hmain hok.1 hok.2⟩
      · cases hstep
    · cases hstep
  | main => exact mainStep_cases hstep
  | worker x response =>
    simp only [step] at hstep
    split at hstep
    · next hx => exact workerStep_cases hx hstep
    · cases hstep
  | arrive c k =>
    simp only [step] at hstep
    split at hstep
    · next hc =>
        obtain rfl := Option.some.inj hstep
        exact ⟨_, .arrive c k hc.1⟩
    · cases hstep
  | hangup c e =>
    simp only [step] at hstep
    split at hstep
    · next hc =>
        obtain rfl := Option.some.inj hstep
        exact ⟨_, .hangup c e hc⟩
    · cases hstep

end Ayubd.Daemon
