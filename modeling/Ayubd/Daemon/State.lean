import Ayubd.Base.Runs
import Ayubd.Config
import Ayubd.Queue.Stailq

/-!
# Ayubd — the daemon: event loop, workers and kernel

The state machine of `main.c`: the main thread runs `ayubd_run` (and, through the `ready`
callbacks, `ioqueue_socket_on_connect` and `ioqueue_socket_on_data`), worker `x` runs
`ayubd_worker`, and the kernel keeps the descriptor table, the receive buffers and the
epoll instance. One step is one access to what the threads share: a field of a session
hook, a system call, a semaphore operation, or one pointer access of the queue macros
(`Ayubd.Stailq`). Steps of different parties interleave freely.

What the kernel is assumed to do:

* `accept` returns any descriptor number that is not open, and `close` makes the number
  reusable at once;
* closing a descriptor removes it from the epoll instance, and one `epoll_wait` batch holds
  at most one event per hook;
* a readiness event is generated when bytes arrive (and when the peer hangs up), and stays
  undelivered until an `epoll_wait` returns it (`EPOLLET`);
* `epoll_ctl` succeeds, so every session that is set up is in the epoll instance;
* `recvmsg` takes all the bytes that are there, up to the `2 * IOV_CHUNK` that its two io vectors
  hold. This is how it reads in-band data: no client sends urgent data, at whose mark a read would
  stop, although `EPOLLPRI` is registered for it.

The HTTP layer is not looked into here: whether handling a request produces a response is
left open, so the worker may or may not call `sendmsg` after a successful `recvmsg`.
Allocations of queue nodes succeed, the semaphores do not overflow, and `refcnt`, an `int` in the
source, stays below `INT_MAX`: a hook has fewer entries in its queue.
-/

namespace Ayubd

/-- The `events` bits of `struct epoll_event` the code looks at. -/
structure Events where
  epollin : Bool
  epollrdhup : Bool
  epollhup : Bool
  epollerr : Bool
  deriving DecidableEq, Repr

def Events.zero : Events := ⟨false, false, false, false⟩

/-- Bitwise or: what is reported together once several things have happened. -/
def Events.or (a b : Events) : Events :=
  ⟨a.epollin || b.epollin, a.epollrdhup || b.epollrdhup, a.epollhup || b.epollhup,
    a.epollerr || b.epollerr⟩

def Events.hangup (e : Events) : Bool := e.epollrdhup || e.epollhup || e.epollerr

/-- `hook_t` of a session, as far as the run loop, the `ready` callback and the workers
read and write it. `conn` is the connection it was created for, `closed` says that
`hook_close` has dropped the main thread's reference, and `frees` counts the executions of
`hook_free_real`; the code has none of the three. -/
structure Hook where
  fd : Nat
  /-- `data` holds the key `"hoda"` -/
  hoda : Bool
  /-- `process` is set -/
  process : Bool
  events : Events
  refcnt : Int
  conn : Nat
  closed : Bool
  frees : Nat

/-- An element of `sys->events`: the listening socket's hook or a session's. -/
inductive Ev where
  | listener
  | session (h : Nat) (events : Events)
  deriving DecidableEq

/-- Where the main thread is, with the events of the batch it has not looked at yet. -/
inductive MainPc where
  /-- `EVQ_POLL` -/
  | poll
  /-- the head of the loop over the batch -/
  | next (evs : List Ev)
  /-- `hp->ev.events = ev.events` -/
  | setEvents (h : Nat) (events : Events) (evs : List Ev)
  /-- `hp->ready(hp)` of a session: `ioqueue_socket_on_data` up to its `hook_close` -/
  | onData (h : Nat) (evs : List Ev)
  /-- `hook_close`: `close((ptr)->fd)` -/
  | close (h : Nat) (evs : List Ev)
  /-- `hook_close`: `ATOMIC_SUB((ptr)->refcnt,1) == 0` -/
  | hookFree (h : Nat) (evs : List Ev)
  | hookFreeReal (h : Nat) (evs : List Ev)
  /-- `hp->process` and `x = hp->fd % sys->nworkers` -/
  | checkProcess (h : Nat) (evs : List Ev)
  | hookRef (h x : Nat) (evs : List Ev)
  /-- `stailq_in_lf_spsc(sys->q[x], sys->qdiv[x], hp)` -/
  | stailqIn (h x : Nat) (evs : List Ev)
  /-- `sem_post(&sys->sem[x])` -/
  | semPost (x : Nat) (evs : List Ev)
  /-- `ioqueue_socket_on_connect`: the next `ACCEPT` -/
  | accept (evs : List Ev)
  /-- `ioqueue_socket_on_connect`: `hook_new(hs)` for the descriptor just accepted -/
  | hookNew (fd conn : Nat) (evs : List Ev)
  /-- `ioqueue_socket_on_connect`: `EVQ_ADD(sys->eventfd, hs->fd, &hs->ev)` -/
  | evqAdd (h : Nat) (evs : List Ev)
  deriving DecidableEq

/-- Where a worker is. -/
inductive WorkerPc where
  /-- `sem_wait(&sys->sem[x])` -/
  | semWait
  /-- `stailq_out_lf_spsc(sys->q[x], sys->qdiv[x], s)` and the test `s == NULL` -/
  | stailqOut
  /-- `if (s->process)` -/
  | checkProcess (h : Nat)
  /-- `recvmsg(hp->fd, imsg, 0)` -/
  | recvmsg (h : Nat)
  /-- `http_on_data_default` -/
  | onData (h : Nat)
  /-- `sendmsg(hp->fd, imsg, 0)` -/
  | sendmsg (h : Nat)
  /-- `hook_unref(s)`: `ATOMIC_SUB((ptr)->refcnt,1) == 0` -/
  | hookUnref (h : Nat)
  | hookFreeReal (h : Nat)
  deriving DecidableEq

/-- The daemon and the kernel objects it uses. Hooks and connections are numbered in the
order of their creation. `handed x` is the history of the hooks worker `x` has handed to
their `process` function. -/
structure Daemon where
  /-- the descriptor table: what an open descriptor denotes -/
  fdt : Nat → Option Nat
  nconns : Nat
  /-- unread bytes in the receive buffer of a connection -/
  rcv : Nat → Nat
  /-- the undelivered readiness event of a connection -/
  pend : Nat → Events
  /-- hooks in the epoll instance -/
  added : Nat → Bool
  hooks : Nat → Hook
  nhooks : Nat
  main : MainPc
  q : Nat → Stailq Nat
  sem : Nat → Nat
  worker : Nat → WorkerPc
  handed : Nat → List Nat
  /-- a field of a hook has been read or written after the hook was freed -/
  fault : Bool

/-- What the scheduler and the environment choose. -/
inductive Act where
  /-- `epoll_wait` returns; `none` stands for the listening socket -/
  | poll (hs : List (Option Nat))
  /-- `accept` returns a descriptor or `-1`; `eintr` says that `errno` is `EINTR` -/
  | accept (r : Option Nat) (eintr : Bool)
  /-- `hook_new` succeeds or not; `hoda` says what the listener's `data` holds -/
  | hookNew (ok hoda : Bool)
  /-- the address `malloc` returns in `stailq_in_lf_spsc` -/
  | malloc (np : Addr)
  /-- the next step of the main thread, where nothing is chosen -/
  | main
  /-- the next step of worker `x`; `response` is looked at in `http_on_data_default` only -/
  | worker (x : Nat) (response : Bool)
  /-- `k` bytes arrive on connection `c` -/
  | arrive (c k : Nat)
  /-- the peer of connection `c` hangs up or an error is raised on it -/
  | hangup (c : Nat) (events : Events)

namespace Daemon

/-- An access to a field of hook `h`: a fault once `h` has been freed. -/
def touch (s : Daemon) (h : Nat) : Daemon :=
  { s with fault := s.fault || decide ((s.hooks h).frees ≠ 0) }

def setHook (s : Daemon) (h : Nat) (hook : Hook) : Daemon :=
  { s with hooks := Function.update s.hooks h hook }

def setQueue (s : Daemon) (x : Nat) (q : Stailq Nat) : Daemon :=
  { s with q := Function.update s.q x q }

def setWorker (s : Daemon) (x : Nat) (pc : WorkerPc) : Daemon :=
  { s with worker := Function.update s.worker x pc }

/-- The event `epoll_wait` returns for a hook. -/
def event (s : Daemon) : Option Nat → Ev
  | none => .listener
  | some h => .session h (s.pend (s.hooks h).conn)

/-- The kernel may return the hooks `hs` together: each is in the epoll instance with an
undelivered event, and none occurs twice. -/
def canDeliver (s : Daemon) (hs : List (Option Nat)) : Bool :=
  decide hs.Nodup && hs.all fun
    | none => true
    | some h => decide (h < s.nhooks) && s.added h &&
        decide (s.pend (s.hooks h).conn ≠ Events.zero)

/-- The events returned are no longer undelivered. -/
def deliver (s : Daemon) (hs : List (Option Nat)) : Daemon :=
  { s with pend := fun c =>
      if hs.any (fun o => match o with
        | none => false
        | some h => decide ((s.hooks h).conn = c)) then Events.zero
      else s.pend c }

end Daemon

end Ayubd
