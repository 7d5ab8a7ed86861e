import Ayubd.Base.Buffer

/-!
# Ayubd — the address of a new session

`ioqueue_socket_on_connect` accepts all connections that are waiting, and copies the address of
each peer to the `msg_name` of the new session. The length it hands to `accept` is a value-result
argument: on the way in it bounds what `accept` copies, on the way out it is the true length of
the address. It is set once, before the loop, so what one peer leaves there bounds the copy of
the next one. What is not copied remains in `remote_addr` from the peers before, or from the
stack.

* **`own_iff_covered`** — which sessions have the address of their own peer.
* **`session_names_iff`** — they all do, whatever the addresses are, exactly if no address is
  longer than the one accepted just before it.
-/

namespace Ayubd.Session

open Ayubd

def sockaddrStorage : Nat := 128

/-- An address of any family: a `struct sockaddr` of some length. -/
structure SockAddr where
  bytes : Bytes
  fits : bytes.length ≤ sockaddrStorage
  deriving DecidableEq

/-- What happens at one `accept`. `errno` is `EINTR` after it, or is not; for a descriptor it may
still be so from a call before. `hook_new` has memory for the session, or has not. -/
inductive Accept where
  | fail (eintr : Bool)
  | conn (fd : Nat) (addr : SockAddr) (eintr hookNew : Bool)

/-- The variables `remote_addr` and `addrlen`. -/
structure Locals where
  remoteAddr : Buf sockaddrStorage
  addrlen : Nat
  fits : addrlen ≤ sockaddrStorage

/-- The variables at the start of the function; `remote_addr` is not initialised. -/
def Locals.start (stack : Buf sockaddrStorage) : Locals := ⟨stack, sockaddrStorage, Nat.le_refl _⟩

/-- `accept(fd, &remote_addr, &addrlen)` copies at most `addrlen` bytes of the address, and stores
its length. -/
def Locals.accept (l : Locals) (addr : SockAddr) : Locals where
  remoteAddr := l.remoteAddr.write (addr.bytes.take l.addrlen) (by
    rw [List.length_take]
    exact Nat.le_trans (Nat.min_le_right _ _) addr.fits)
  addrlen := addr.bytes.length
  fits := addr.fits

/-- A block from `hook_zalloc` into which these bytes have been copied. -/
def nameOf (bytes : Bytes) (h : bytes.length ≤ sockaddrStorage) : Buf sockaddrStorage :=
  (Buf.zero sockaddrStorage).write bytes h

/-- `memcpy(imsg->msg_name, &remote_addr, addrlen)` -/
def Locals.msgName (l : Locals) : Buf sockaddrStorage :=
  nameOf (l.remoteAddr.read l.addrlen) (by rw [l.remoteAddr.length_read l.fits]; exact l.fits)

/-- A session hook, as far as it is set up here. -/
structure New where
  fd : Nat
  msgName : Buf sockaddrStorage

/-- The loop condition for a descriptor: `connfd > 0 || errno == EINTR`. -/
def goesOn (fd : Nat) (eintr : Bool) : Prop := 0 < fd ∨ eintr = true

instance (fd : Nat) (eintr : Bool) : Decidable (goesOn fd eintr) :=
  inferInstanceAs (Decidable (0 < fd ∨ eintr = true))

/-- `ioqueue_socket_on_connect`: the sessions it sets up. Without memory for a session the
connection is closed. -/
def ioqueueSocketOnConnect (l : Locals) : List Accept → List New
  | [] => []
  | .fail eintr :: rest => if eintr then ioqueueSocketOnConnect l rest else []
  | .conn fd addr eintr hookNew :: rest =>
    let l := l.accept addr
    if goesOn fd eintr then
      if hookNew then ⟨fd, l.msgName⟩ :: ioqueueSocketOnConnect l rest
      else ioqueueSocketOnConnect l rest
    else []

def peers : List Accept → List (Nat × SockAddr)
  | [] => []
  | .fail eintr :: rest => if eintr then peers rest else []
  | .conn fd addr eintr hookNew :: rest =>
    if goesOn fd eintr then
      if hookNew then (fd, addr) :: peers rest else peers rest
    else []

/-- Every session has the complete address of its own peer, and nothing else. -/
def Own (stack : Buf sockaddrStorage) (accepts : List Accept) : Prop :=
  ioqueueSocketOnConnect (.start stack) accepts =
    (peers accepts).map fun peer => ⟨peer.1, nameOf peer.2.bytes peer.2.fits⟩

/-! ## One session -/

/-- What `accept` will not copy of the address is in `remote_addr` already. -/
def Locals.Has (l : Locals) (addr : SockAddr) : Prop :=
  (l.remoteAddr.read addr.bytes.length).drop l.addrlen = addr.bytes.drop l.addrlen

section
variable {l : Locals} {addr : SockAddr}

/-- A shorter address is copied as a whole. -/
theorem Locals.has_of_le (h : addr.bytes.length ≤ l.addrlen) : l.Has addr := by
  show List.drop _ _ = List.drop _ _
  rw [List.drop_of_length_le h, List.drop_of_length_le]
  rw [l.remoteAddr.length_read addr.fits]
  exact h

/-- What is in `remote_addr` after an `accept`. -/
theorem Locals.read_accept (l : Locals) (addr : SockAddr) :
    (l.accept addr).remoteAddr.read addr.bytes.length =
      addr.bytes.take l.addrlen ++ (l.remoteAddr.read addr.bytes.length).drop l.addrlen := by
  show (addr.bytes.take l.addrlen ++ _).take _ = _ ++ (List.take _ _).drop _
  rw [List.take_append, List.take_take, List.length_take, List.drop_take]
  rcases Nat.le_total l.addrlen addr.bytes.length with h | h
  · rw [Nat.min_eq_right h, Nat.min_eq_left h]
  · rw [Nat.min_eq_left h, Nat.min_eq_right h, Nat.sub_self, Nat.sub_eq_zero_of_le h,
      List.take_zero, List.take_zero, List.take_of_length_le h, List.take_length]

/-- Names of one length are equal exactly where their bytes are. -/
theorem nameOf_inj {bytes bytes' : Bytes} {h h'} (hlen : bytes.length = bytes'.length) :
    nameOf bytes h = nameOf bytes' h' ↔ bytes = bytes' := by
  constructor
  · intro heq
    have hdata := congrArg Buf.data heq
    exact (List.append_inj hdata hlen).1
  · rintro rfl
    rfl

/-- **One session** has the address of its peer exactly if what `accept` does not copy of it is
there by chance. -/
theorem msgName_accept_iff :
    (l.accept addr).msgName = nameOf addr.bytes addr.fits ↔ l.Has addr := by
  have hlen : ((l.accept addr).remoteAddr.read addr.bytes.length).length = addr.bytes.length :=
    (l.accept addr).remoteAddr.length_read addr.fits
  refine (nameOf_inj hlen).trans ?_
  show (l.accept addr).remoteAddr.read addr.bytes.length = addr.bytes ↔ _
  rw [l.read_accept addr]
  constructor
  · intro heq
    exact List.append_cancel_left (heq.trans (List.take_append_drop l.addrlen addr.bytes).symm)
  · intro hhas
    rw [hhas, List.take_append_drop]

end

/-! ## All sessions of a call -/

/-- Of every address that goes to a session, what `accept` does not copy is there by chance. -/
def Covered (l : Locals) : List Accept → Prop
  | [] => True
  | .fail eintr :: rest => eintr = true → Covered l rest
  | .conn fd addr eintr hookNew :: rest =>
    goesOn fd eintr → (hookNew = true → l.Has addr) ∧ Covered (l.accept addr) rest

/-- No address that goes to a session is longer than the one accepted just before it, `before`
for the first. -/
def NotLonger (before : Nat) : List Accept → Prop
  | [] => True
  | .fail eintr :: rest => eintr = true → NotLonger before rest
  | .conn fd addr eintr hookNew :: rest =>
    goesOn fd eintr → (hookNew = true → addr.bytes.length ≤ before) ∧
      NotLonger addr.bytes.length rest

/-- The same outcome but for what the bytes of the address are. -/
inductive SameShape : Accept → Accept → Prop
  | fail (eintr) : SameShape (.fail eintr) (.fail eintr)
  | conn {addr addr' : SockAddr} (fd eintr hookNew)
      (h : addr'.bytes.length = addr.bytes.length) :
      SameShape (.conn fd addr eintr hookNew) (.conn fd addr' eintr hookNew)

theorem SameShape.refl (x : Accept) : SameShape x x := by
  cases x with
  | fail eintr => exact .fail eintr
  | conn fd addr eintr hookNew => exact .conn fd eintr hookNew rfl

/-- **Which sessions have their own address**, for any input. -/
theorem own_iff_covered (l : Locals) (accepts : List Accept) :
    ioqueueSocketOnConnect l accepts =
        (peers accepts).map (fun peer => ⟨peer.1, nameOf peer.2.bytes peer.2.fits⟩) ↔
      Covered l accepts := by
  induction accepts generalizing l with
  | nil => exact iff_of_true rfl trivial
  | cons x rest ih =>
    cases x with
    | fail eintr =>
      cases eintr with
      | true => exact (ih l).trans ⟨fun h _ => h, fun h => h rfl⟩
      | false => exact iff_of_true rfl nofun
    | conn fd addr eintr hookNew =>
      unfold ioqueueSocketOnConnect peers Covered
      by_cases hgoes : goesOn fd eintr
      · rw [if_pos hgoes, if_pos hgoes, ← ih, ← msgName_accept_iff]
        cases hookNew with
        | true =>
          rw [if_pos rfl, if_pos rfl, List.map_cons, List.cons_eq_cons, New.mk.injEq]
          simp only [hgoes, true_and, true_implies]
        | false => simp only [hgoes, Bool.false_eq_true, if_false, false_implies, true_and,
            true_implies]
      · rw [if_neg hgoes, if_neg hgoes]
        exact iff_of_true rfl fun h => absurd h hgoes

/-- Names which are not longer than the length given are covered. -/
theorem NotLonger.covered {l : Locals} {accepts : List Accept} (h : NotLonger l.addrlen accepts) :
    Covered l accepts := by
  induction accepts generalizing l with
  | nil => trivial
  | cons x rest ih =>
    cases x with
    | fail eintr => exact fun heintr => ih (h heintr)
    | conn fd addr eintr hookNew =>
      intro hgoes
      obtain ⟨hle, hrest⟩ := h hgoes
      exact ⟨fun hnew => l.has_of_le (hle hnew), ih hrest⟩

/-- The condition on lengths depends on the lengths only. -/
theorem NotLonger.congr {before : Nat} {accepts accepts' : List Accept}
    (hshape : List.Forall₂ SameShape accepts accepts') (h : NotLonger before accepts) :
    NotLonger before accepts' := by
  induction hshape generalizing before with
  | nil => trivial
  | cons hx _ ih =>
    cases hx with
    | fail eintr => exact fun heintr => ih (h heintr)
    | conn fd eintr hookNew hlen =>
      intro hgoes
      obtain ⟨hle, hrest⟩ := h hgoes
      rw [hlen]
      exact ⟨hle, ih hrest⟩

/-! ## What the order of the lengths decides -/

/-- Accepting an address that is in `remote_addr` already changes the length only. -/
theorem accept_read (stack : Buf sockaddrStorage) {n k : Nat} (hn : n ≤ sockaddrStorage)
    (hk : k ≤ sockaddrStorage) (h : (stack.read k).length ≤ sockaddrStorage) :
    (Locals.mk stack n hn).accept ⟨stack.read k, h⟩ = ⟨stack, k, hk⟩ := by
  have hprefix : (stack.read k).take n <+: stack.data :=
    (List.take_prefix _ _).trans (List.take_prefix _ _)
  have hbuf : ((Locals.mk stack n hn).accept ⟨stack.read k, h⟩).remoteAddr = stack := by
    obtain ⟨data, size⟩ := stack
    exact (Buf.mk.injEq _ _ _ _).mpr (List.prefix_iff_eq_append.mp hprefix)
  exact (Locals.mk.injEq _ _ _ _ _ _).mpr ⟨hbuf, stack.length_read hk⟩

/-- An address that is too long need not be in `remote_addr`. -/
theorem exists_not_has {n k : Nat} (hn : n ≤ sockaddrStorage) (hk : k ≤ sockaddrStorage)
    (hlt : n < k) : ∃ stack : Buf sockaddrStorage, ∃ addr : SockAddr, addr.bytes.length = k ∧
      ¬ (Locals.mk stack n hn).Has addr := by
  refine ⟨Buf.zero _, ⟨List.replicate k 1, by rwa [List.length_replicate]⟩, List.length_replicate,
    fun hhas => ?_⟩
  have hget := congrArg (fun bs => bs[0]?) hhas
  simp only [Buf.read, Buf.zero, List.length_replicate, List.take_replicate, List.drop_replicate,
    Nat.min_eq_left hk] at hget
  rw [List.getElem?_replicate_of_lt (by omega), List.getElem?_replicate_of_lt (by omega)] at hget
  cases hget

/-- If all addresses of these lengths are covered, none is longer than the one before: what is in
`remote_addr` can be anything at each `accept`. -/
theorem notLonger_of_covered {n : Nat} (hn : n ≤ sockaddrStorage) {accepts : List Accept}
    (h : ∀ stack accepts', List.Forall₂ SameShape accepts accepts' →
      Covered ⟨stack, n, hn⟩ accepts') : NotLonger n accepts := by
  induction accepts generalizing n with
  | nil => trivial
  | cons x rest ih =>
    cases x with
    | fail eintr =>
      intro heintr
      exact ih hn fun stack rest' hrest => h stack _ (.cons (.fail eintr) hrest) heintr
    | conn fd addr eintr hookNew =>
      intro hgoes
      constructor
      · intro hnew
        by_contra hlt
        obtain ⟨stack, addr', hlen, hnot⟩ := exists_not_has hn addr.fits (Nat.lt_of_not_le hlt)
        have hrest : List.Forall₂ SameShape rest rest :=
          List.forall₂_same.mpr fun y _ => SameShape.refl y
        have hcovered := h stack _ (.cons (.conn fd eintr hookNew hlen) hrest)
        exact hnot ((hcovered hgoes).1 hnew)
      · refine ih addr.fits fun stack rest' hrest => ?_
        have hlen := stack.length_read addr.fits
        have hfits : (stack.read addr.bytes.length).length ≤ sockaddrStorage := by
          rw [hlen]
          exact addr.fits
        have hshape : SameShape (.conn fd addr eintr hookNew)
          (.conn fd ⟨_, hfits⟩ eintr hookNew) := .conn fd eintr hookNew hlen
        rw [← accept_read stack hn addr.fits hfits]
        exact (h stack _ (.cons hshape hrest) hgoes).2

/-- **When sessions have the address of their own peer.** For given peers, exactly if `accept`
copies all that `remote_addr` does not hold by chance. For peers with addresses of given lengths,
exactly if none is longer than the one accepted just before it. -/
theorem session_names_iff (accepts : List Accept) :
    (∀ stack, Own stack accepts ↔ Covered (.start stack) accepts) ∧
      ((∀ stack accepts', List.Forall₂ SameShape accepts accepts' → Own stack accepts') ↔
        NotLonger sockaddrStorage accepts) := by
  refine ⟨fun stack => own_iff_covered _ _, fun hown => ?_, fun hle stack accepts' hshape => ?_⟩
  · apply notLonger_of_covered (Nat.le_refl _)
    intro stack accepts' hshape
    exact (own_iff_covered _ _).mp (hown stack accepts' hshape)
  · apply (own_iff_covered _ _).mpr
    have hle' : NotLonger (Locals.start stack).addrlen accepts' := hle.congr hshape
    exact hle'.covered

/-- Three clients of a Unix socket: one bound to `/a`, one without a name, and one bound to `/b`,
whose session is given the address of the first. -/
def unixClients : List Accept :=
  [.conn 5 ⟨[1, 0] ++ ascii "/a\x00", by decide⟩ false true,
    .conn 6 ⟨[1, 0], by decide⟩ false true,
    .conn 7 ⟨[1, 0] ++ ascii "/b\x00", by decide⟩ false true]

/-- Three clients of a Unix socket; the third session is named like the first. -/
theorem session_name_of_other :
    (ioqueueSocketOnConnect (.start (Buf.zero _)) unixClients).map (·.msgName.read 5) =
        [[1, 0] ++ ascii "/a\x00", [1, 0, 0, 0, 0], [1, 0] ++ ascii "/a\x00"] ∧
      ¬ Own (Buf.zero _) unixClients := by
  have hnames : (ioqueueSocketOnConnect (.start (Buf.zero _)) unixClients).map
      (·.msgName.read 5) =
        [[1, 0] ++ ascii "/a\x00", [1, 0, 0, 0, 0], [1, 0] ++ ascii "/a\x00"] := by decide
  refine ⟨hnames, fun hown => ?_⟩
  rw [hown] at hnames
  revert hnames
  decide

end Ayubd.Session
