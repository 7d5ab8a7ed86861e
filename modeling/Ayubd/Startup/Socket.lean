import Mathlib.Data.List.Basic

/-!
# Ayubd — server sockets

`ioqueue_socket_prepare` creates and binds a socket for each address of a queue, and
`ioqueue_socket_deploy` makes them listen and registers them in the event queue. What the
system calls return is an input of the model; the sockets created, which of them were closed
again and which were registered are its output.

The array `iq->fd` is taken to hold what is written to it, also where it has been requested too
small. When that is, is `fd_array_sound_iff`; `load_propagates_iff` and `args_alive_iff` are about
runs in which the bytes behind the array happen to be free.
-/

namespace Ayubd.Startup

/-! ## The io queue -/

/-- The bits of `ioqueue_t.flags`. -/
structure Flags where
  tcp : Bool := false
  udp : Bool := false
  ip4 : Bool := false
  ip6 : Bool := false
  ip46 : Bool := false
  unix : Bool := false
  active : Bool := false
  passive : Bool := false
deriving Repr, DecidableEq

/-- A socket of a queue: its descriptor, and whether `bind` was called for it. -/
structure Sock where
  fd : Nat
  bound : Bool
deriving Repr, DecidableEq

/-- `ioqueue_t`: `fd` is `iq->fd[0..fdlen)` and `fdBytes` the size last requested for it. -/
structure IoQueue where
  flags : Flags
  fd : List Sock
  fdBytes : Nat
deriving Repr, DecidableEq

/-- `ioqueue_new`, when its allocation succeeds. -/
def ioqueueNew (flags : Flags) : IoQueue := { flags, fd := [], fdBytes := 0 }

/-! ## Creating and binding -/

/-- An address to bind to, with the outcomes of `socket` (the descriptor, or −1), `bind` and
`realloc` when its turn comes. -/
structure Addr where
  socket : Option Nat
  bind : Bool
  realloc : Bool
deriving Repr, DecidableEq

/-- What `ioqueue_socket_prepare` meets: whether an old UNIX socket is there and cannot be
removed, the UNIX address, and the result of `getaddrinfo`. -/
structure Resolution where
  unlinkFails : Bool
  unixAddr : Addr
  getaddrinfo : Option (List Addr)
deriving Repr, DecidableEq

/-- The flags `ioqueue_socket_prepare` adds before it looks for an old UNIX socket. -/
def familyFlags (f : Flags) : Flags :=
  let f := if f.udp then f else { f with tcp := true }
  if f.ip4 || f.ip6 || f.unix then f else { f with ip46 := true }

/-- All the flags that it adds. -/
def defaultFlags (f : Flags) : Flags :=
  let f := familyFlags f
  if f.active then f else { f with passive := true }

/-- `access(node, F_OK) != -1 && unlink(node) == -1`, for a UNIX socket. -/
def Resolution.unlinkStops (r : Resolution) (f : Flags) : Bool :=
  f.unix && !f.ip4 && !f.ip6 && r.unlinkFails

/-- The addresses that are walked; `none` is an early return of −1. -/
def Resolution.addresses (r : Resolution) (f : Flags) : Option (List Addr) :=
  if r.unlinkStops f then none
  else if f.unix then some [r.unixAddr]
  else r.getaddrinfo

/-- A socket that was created, and whether it was closed again. -/
structure Creation where
  sock : Sock
  closed : Bool
deriving Repr, DecidableEq

/-- A queue, and every socket created for it so far. -/
abbrev Prepared := IoQueue × List Creation

def prepareAddr (st : Prepared) (a : Addr) : Prepared :=
  let (iq, log) := st
  match a.socket with
  | none => (iq, log)
  | some sockfd =>
    if iq.flags.passive && !a.bind then (iq, log ++ [⟨⟨sockfd, false⟩, true⟩])
    else
      let sock := ⟨sockfd, iq.flags.passive⟩
      if a.realloc then
        ({ iq with fd := iq.fd ++ [sock], fdBytes := iq.fd.length + 1 }, log ++ [⟨sock, false⟩])
      else (iq, log ++ [⟨sock, true⟩])

/-- `ioqueue_socket_prepare`, with the value it returns. -/
def ioqueueSocketPrepare (st : Prepared) (r : Resolution) : Prepared × Int :=
  let (iq, log) := st
  let iq := { iq with flags := familyFlags iq.flags }
  if r.unlinkStops iq.flags then ((iq, log), -1)
  else
    let iq := { iq with flags := defaultFlags iq.flags }
    match r.addresses iq.flags with
    | none => ((iq, log), -1)
    | some addrs => (addrs.foldl prepareAddr (iq, log), 0)

/-! ## Listening and registering -/

/-- The outcomes of the calls of `listen`, `hook_new` and `EVQ_ADD` for the `i`-th socket. -/
structure Deployment where
  listen : Nat → Bool
  hookNew : Nat → Bool
  evqAdd : Nat → Bool

/-- A socket that `ioqueue_socket_deploy` has come to. -/
structure Deployed where
  sock : Sock
  listening : Bool
  registered : Bool
deriving Repr, DecidableEq

/-- The loop of `ioqueue_socket_deploy` from its `i`-th turn on. -/
def deployFrom (passive : Bool) (o : Deployment) : Nat → List Sock → List Deployed × Int
  | _, [] => ([], 0)
  | i, sock :: socks =>
    if passive && !o.listen i then ([⟨sock, false, false⟩], -1)
    else if o.hookNew i then
      -- the result of `epoll_ctl` is not looked at
      let (ds, ret) := deployFrom passive o (i + 1) socks
      (⟨sock, passive, o.evqAdd i⟩ :: ds, ret)
    else ([⟨sock, passive, false⟩], -1)

def ioqueueSocketDeploy (iq : IoQueue) (o : Deployment) : List Deployed × Int :=
  deployFrom iq.flags.passive o 0 iq.fd

/-! ## What prepare leaves -/

theorem defaultFlags_familyFlags (f : Flags) : defaultFlags (familyFlags f) = defaultFlags f := by
  obtain ⟨tcp, udp, ip4, ip6, ip46, unix, active, passive⟩ := f
  cases udp <;> cases ip4 <;> cases ip6 <;> cases unix <;> rfl

theorem defaultFlags_idem (f : Flags) : defaultFlags (defaultFlags f) = defaultFlags f := by
  obtain ⟨tcp, udp, ip4, ip6, ip46, unix, active, passive⟩ := f
  cases udp <;> cases ip4 <;> cases ip6 <;> cases unix <;> cases active <;> rfl

theorem Resolution.unlinkStops_familyFlags (r : Resolution) (f : Flags) :
    r.unlinkStops (familyFlags f) = r.unlinkStops (defaultFlags f) := by
  obtain ⟨tcp, udp, ip4, ip6, ip46, unix, active, passive⟩ := f
  cases udp <;> cases ip4 <;> cases ip6 <;> cases unix <;> cases active <;> rfl

/-- The flags of a queue after a call. -/
def Resolution.flagsAfter (r : Resolution) (f : Flags) : Flags :=
  if r.unlinkStops (defaultFlags f) then familyFlags f else defaultFlags f

/-- However a call has ended, the next one sets the same flags. -/
theorem defaultFlags_flagsAfter (r : Resolution) (f : Flags) :
    defaultFlags (r.flagsAfter f) = defaultFlags f := by
  unfold Resolution.flagsAfter
  split
  · exact defaultFlags_familyFlags f
  · exact defaultFlags_idem f

/-- A call either returns early, or walks its addresses with all the flags set. -/
theorem ioqueueSocketPrepare_eq (st : Prepared) (r : Resolution) :
    ioqueueSocketPrepare st r =
      match r.addresses (defaultFlags st.1.flags) with
      | none => (({ st.1 with flags := r.flagsAfter st.1.flags }, st.2), -1)
      | some addrs =>
        (addrs.foldl prepareAddr ({ st.1 with flags := defaultFlags st.1.flags }, st.2), 0) := by
  simp only [ioqueueSocketPrepare, Resolution.flagsAfter, Resolution.unlinkStops_familyFlags,
    defaultFlags_familyFlags]
  by_cases hstop : r.unlinkStops (defaultFlags st.1.flags) = true
  · simp only [hstop, if_true, Resolution.addresses]
  · simp only [hstop, if_false, Bool.false_eq_true]

/-- The socket an address adds to the queue, if `socket`, `bind` (of a passive queue) and
`realloc` all succeed. -/
def Addr.kept (passive : Bool) (a : Addr) : Option Sock :=
  match a.socket with
  | none => none
  | some sockfd => if (passive && !a.bind) || !a.realloc then none else some ⟨sockfd, passive⟩

/-- One turn: an address that is kept is added, with one more byte asked for; any other leaves
the queue as it is, and its socket, if there is one, is closed. -/
theorem prepareAddr_cases (iq : IoQueue) (log : List Creation) (a : Addr) :
    (∃ sock, a.kept iq.flags.passive = some sock ∧ prepareAddr (iq, log) a =
        (⟨iq.flags, iq.fd ++ [sock], iq.fd.length + 1⟩, log ++ [⟨sock, false⟩]) ∧
        sock.bound = iq.flags.passive) ∨
      (a.kept iq.flags.passive = none ∧ ∃ more, prepareAddr (iq, log) a = (iq, log ++ more) ∧
        ∀ c ∈ more, c.closed = true) := by
  unfold Addr.kept prepareAddr
  cases hsock : a.socket with
  | none => exact Or.inr ⟨rfl, [], by rw [List.append_nil], by simp⟩
  | some sockfd =>
    simp only
    cases hbind : (iq.flags.passive && !a.bind) with
    | true =>
      rw [if_pos rfl, Bool.true_or, if_pos rfl]
      exact Or.inr ⟨rfl, [⟨⟨sockfd, false⟩, true⟩], rfl, by simp⟩
    | false =>
      rw [if_neg Bool.false_ne_true, Bool.false_or]
      cases hrealloc : a.realloc with
      | true => exact Or.inl ⟨⟨sockfd, iq.flags.passive⟩, rfl, rfl, rfl⟩
      | false => exact Or.inr ⟨rfl, [⟨⟨sockfd, iq.flags.passive⟩, true⟩], rfl, by simp⟩

/-- The loop over the addresses keeps the flags and files the sockets it keeps. -/
theorem foldl_prepareAddr (iq : IoQueue) (log : List Creation) (addrs : List Addr) :
    (addrs.foldl prepareAddr (iq, log)).1.flags = iq.flags ∧
      (addrs.foldl prepareAddr (iq, log)).1.fd =
        iq.fd ++ addrs.filterMap (Addr.kept iq.flags.passive) := by
  induction addrs generalizing iq log with
  | nil => exact ⟨rfl, (List.append_nil _).symm⟩
  | cons a addrs ih =>
    rw [List.foldl_cons, List.filterMap_cons]
    rcases prepareAddr_cases iq log a with ⟨sock, hkept, hstep, -⟩ | ⟨hkept, more, hstep, -⟩
    · obtain ⟨hflags, hfd⟩ := ih ⟨iq.flags, iq.fd ++ [sock], iq.fd.length + 1⟩ (log ++ [⟨sock, false⟩])
      rw [hstep, hkept]
      exact ⟨hflags, by rw [hfd, List.append_assoc]; rfl⟩
    · rw [hstep, hkept]
      exact ih iq (log ++ more)

/-- A passive socket which is kept is bound. -/
theorem bound_of_mem_kept {addrs : List Addr} {sock : Sock}
    (h : sock ∈ addrs.filterMap (Addr.kept true)) : sock.bound = true := by
  obtain ⟨a, -, hkept⟩ := List.mem_filterMap.mp h
  unfold Addr.kept at hkept
  split at hkept
  · cases hkept
  · split at hkept
    · cases hkept
    · cases hkept
      rfl

/-! ## What deploy registers -/

/-- When some socket of a passive queue gets registered: the sockets up to it listen and get a
hook, and its own registration succeeds. -/
theorem deployFrom_registered {o : Deployment} {socks : List Sock} (i : Nat)
    (hbound : ∀ s ∈ socks, s.bound = true) :
    (∃ d ∈ (deployFrom true o i socks).1,
        d.sock.bound = true ∧ d.listening = true ∧ d.registered = true) ↔
      ∃ k < socks.length, (∀ j ≤ k, o.listen (i + j) = true ∧ o.hookNew (i + j) = true) ∧
        o.evqAdd (i + k) = true := by
  induction socks generalizing i with
  | nil => simp [deployFrom]
  | cons sock socks ih =>
    have hrest := ih (i + 1) fun s hs => hbound s (List.mem_cons_of_mem sock hs)
    have hsock := hbound sock List.mem_cons_self
    -- a failure at `i` ends the loop with nothing registered
    by_cases hgood : o.listen i = true ∧ o.hookNew i = true
    case neg =>
      constructor
      · rintro ⟨d, hd, -, -, hreg⟩
        rw [deployFrom] at hd
        split at hd
        · rw [List.mem_singleton.mp hd] at hreg
          cases hreg
        · next hlisten =>
          rw [if_neg fun hnew => hgood ⟨by simpa using hlisten, hnew⟩] at hd
          rw [List.mem_singleton.mp hd] at hreg
          cases hreg
      · rintro ⟨k, -, hall, -⟩
        exact absurd (hall 0 (Nat.zero_le k)) hgood
    case pos =>
      simp only [deployFrom, hgood.1, hgood.2, Bool.not_true, Bool.and_false, Bool.false_eq_true,
        if_false, if_true]
      constructor
      · rintro ⟨d, hd, hdone⟩
        rcases List.mem_cons.mp hd with rfl | hd
        · exact ⟨0, Nat.zero_lt_succ _, fun j hj => by rw [Nat.le_zero.mp hj]; exact hgood, hdone.2.2⟩
        · obtain ⟨k, hk, hall, hadd⟩ := hrest.mp ⟨d, hd, hdone⟩
          refine ⟨k + 1, Nat.succ_lt_succ hk, ?_, by rwa [Nat.add_assoc, Nat.add_comm 1 k] at hadd⟩
          intro j hj
          cases j with
          | zero => exact hgood
          | succ j =>
            have := hall j (Nat.le_of_succ_le_succ hj)
            rwa [Nat.add_assoc, Nat.add_comm 1 j] at this
      · rintro ⟨k, hk, hall, hadd⟩
        cases k with
        | zero => exact ⟨_, List.mem_cons_self, hsock, rfl, hadd⟩
        | succ k =>
          have hall' : ∀ j ≤ k, o.listen (i + 1 + j) = true ∧ o.hookNew (i + 1 + j) = true := by
            intro j hj
            rw [Nat.add_assoc, Nat.add_comm 1 j]
            exact hall (j + 1) (Nat.succ_le_succ hj)
          rw [Nat.add_comm k 1, ← Nat.add_assoc] at hadd
          obtain ⟨d, hd, hdone⟩ := hrest.mpr ⟨k, Nat.lt_of_succ_lt_succ hk, hall', hadd⟩
          exact ⟨d, List.mem_cons_of_mem _ hd, hdone⟩

/-- A socket is registered only where it listens. -/
theorem deployFrom_listening {o : Deployment} {socks : List Sock} {i : Nat} {d : Deployed}
    (hd : d ∈ (deployFrom true o i socks).1) (hreg : d.registered = true) :
    d.sock ∈ socks ∧ d.listening = true := by
  induction socks generalizing i with
  | nil => cases hd
  | cons sock socks ih =>
    rw [deployFrom] at hd
    split at hd
    · rw [List.mem_singleton.mp hd] at hreg
      cases hreg
    · split at hd
      · rcases List.mem_cons.mp hd with rfl | hd
        · exact ⟨List.mem_cons_self, rfl⟩
        · obtain ⟨hmem, hlisten⟩ := ih hd
          exact ⟨List.mem_cons_of_mem sock hmem, hlisten⟩
      · rw [List.mem_singleton.mp hd] at hreg
        cases hreg

/-- The loop fails exactly if some socket does not listen or gets no hook. -/
theorem deployFrom_fails {o : Deployment} {socks : List Sock} (i : Nat) :
    (deployFrom true o i socks).2 ≠ 0 ↔
      ∃ k < socks.length, ¬ (o.listen (i + k) = true ∧ o.hookNew (i + k) = true) := by
  induction socks generalizing i with
  | nil => simp [deployFrom]
  | cons sock socks ih =>
    by_cases hgood : o.listen i = true ∧ o.hookNew i = true
    · simp only [deployFrom, hgood.1, hgood.2, Bool.not_true, Bool.and_false, Bool.false_eq_true,
        if_false, if_true, ih (i + 1)]
      constructor
      · rintro ⟨k, hk, hbad⟩
        exact ⟨k + 1, Nat.succ_lt_succ hk, by rwa [Nat.add_assoc, Nat.add_comm 1 k] at hbad⟩
      · rintro ⟨k, hk, hbad⟩
        cases k with
        | zero => exact absurd hgood hbad
        | succ k =>
          rw [Nat.add_comm k 1, ← Nat.add_assoc] at hbad
          exact ⟨k, Nat.lt_of_succ_lt_succ hk, hbad⟩
    · -- the loop returns at the first socket it cannot deploy
      refine ⟨fun _ => ⟨0, Nat.zero_lt_succ _, hgood⟩, fun _ => ?_⟩
      rw [deployFrom]
      split
      · exact (show (-1 : Int) ≠ 0 by decide)
      · next hlisten =>
        rw [if_neg fun hnew => hgood ⟨by simpa using hlisten, hnew⟩]
        exact (show (-1 : Int) ≠ 0 by decide)

end Ayubd.Startup
