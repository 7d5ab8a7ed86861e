import Ayubd.Startup.Socket

/-!
# Ayubd — the descriptor array of an io queue

`ioqueue_socket_prepare` grows `iq->fd` with `realloc(iq->fd, iq->fdlen+1)`, a number of
elements where `realloc` takes a number of bytes. `fd_array_sound_iff` says for which calls
the array is nevertheless large enough, and holds the right sockets, all the time: those that
add nothing to it. Only the size is wrong: what is written to the array, and which sockets are
closed, is right for every call on a passive queue, `filed_of_visits`.
-/

namespace Ayubd.Startup

/-! ## The states of a queue -/

/-- The states of one loop, before its first turn and after each. -/
def turns : Prepared → List Addr → List Prepared
  | st, [] => [st]
  | st, a :: addrs => st :: turns (prepareAddr st a) addrs

/-- The states of a queue through successive calls of `ioqueue_socket_prepare`. -/
def visits : Prepared → List Resolution → List Prepared
  | st, [] => [st]
  | st, r :: rs =>
    (match r.addresses (defaultFlags st.1.flags) with
      | none => [st]
      | some addrs => turns ({ st.1 with flags := defaultFlags st.1.flags }, st.2) addrs) ++
    visits (ioqueueSocketPrepare st r).1 rs

def sizeofInt : Nat := 4

/-- The array has room for its elements, holds in order the sockets that were created, bound
and not closed, and every other socket was closed. -/
structure Sound (st : Prepared) : Prop where
  room : st.1.fd.length * sizeofInt ≤ st.1.fdBytes
  holds : st.1.fd = (st.2.filter fun c => c.sock.bound && !c.closed).map Creation.sock
  closes : ∀ c ∈ st.2, (c.sock.bound && !c.closed) = false → c.closed = true

/-- What `Sound` says but for the room: the array holds the right sockets, and the others were
closed. -/
structure Filed (st : Prepared) : Prop where
  holds : st.1.fd = (st.2.filter fun c => c.sock.bound && !c.closed).map Creation.sock
  closes : ∀ c ∈ st.2, (c.sock.bound && !c.closed) = false → c.closed = true

theorem mem_turns (st : Prepared) (addrs : List Addr) : st ∈ turns st addrs := by
  cases addrs <;> exact List.mem_cons_self

/-- The state in which the loop ends is the last of those it goes through. -/
theorem foldl_mem_turns (st : Prepared) (addrs : List Addr) :
    addrs.foldl prepareAddr st ∈ turns st addrs := by
  induction addrs generalizing st with
  | nil => exact List.mem_cons_self
  | cons a addrs ih => exact List.mem_cons_of_mem st (ih _)

/-! ## Invariants of the loop and of all calls -/

/-- What a turn keeps holds in all states of the loop. -/
theorem turns_invariant {P : Prepared → Prop} {f : Flags}
    (hturn : ∀ st a, st.1.flags = f → P st → P (prepareAddr st a)) {st : Prepared}
    (hf : st.1.flags = f) (hst : P st) (addrs : List Addr) : ∀ st' ∈ turns st addrs, P st' := by
  induction addrs generalizing st with
  | nil =>
    intro st' h
    rw [List.mem_singleton.mp h]
    exact hst
  | cons a addrs ih =>
    intro st' h
    rcases List.mem_cons.mp h with rfl | h
    · exact hst
    · exact ih ((foldl_prepareAddr st.1 st.2 [a]).1.trans hf) (hturn st a hf hst) st' h

/-- What the loop of every call keeps holds in all states of the queue, if it does not depend on
the flags. A call leaves the flags so that the next one reads them the same. -/
theorem visits_invariant {P : Prepared → Prop} {f : Flags}
    (hflags : ∀ iq log g, P (iq, log) → P ({ iq with flags := g }, log)) {calls : List Resolution}
    (hloop : ∀ r ∈ calls, ∀ addrs, r.addresses f = some addrs → ∀ st, st.1.flags = f → P st →
      ∀ st' ∈ turns st addrs, P st')
    {st : Prepared} (hf : defaultFlags st.1.flags = f) (hst : P st) :
    ∀ st' ∈ visits st calls, P st' := by
  induction calls generalizing st with
  | nil =>
    intro st' h
    rw [List.mem_singleton.mp h]
    exact hst
  | cons r rs ih =>
    intro st' h
    have hrest : ∀ r' ∈ rs, ∀ addrs, r'.addresses f = some addrs → ∀ st, st.1.flags = f → P st →
        ∀ st' ∈ turns st addrs, P st' := fun r' hr' => hloop r' (List.mem_cons_of_mem r hr')
    rw [visits, ioqueueSocketPrepare_eq, hf] at h
    cases haddrs : r.addresses f with
    | none =>
      -- an early return: only flags have been set
      simp only [haddrs] at h
      rcases List.mem_append.mp h with h | h
      · rw [List.mem_singleton.mp h]
        exact hst
      · exact ih hrest ((defaultFlags_flagsAfter r _).trans hf) (hflags _ _ _ hst) st' h
    | some addrs =>
      simp only [haddrs] at h
      have hturns := hloop r List.mem_cons_self addrs haddrs ({ st.1 with flags := f }, st.2) rfl
        (hflags st.1 st.2 f hst)
      rcases List.mem_append.mp h with h | h
      · exact hturns st' h
      · refine ih hrest ?_ (hturns _ (foldl_mem_turns _ _)) st' h
        rw [(foldl_prepareAddr _ _ addrs).1]
        show defaultFlags f = f
        rw [← hf, defaultFlags_idem]

/-! ## One byte for each element -/

/-- The number of bytes that are asked for is the number of elements. -/
theorem fdBytes_prepareAddr (st : Prepared) (a : Addr) (h : st.1.fdBytes = st.1.fd.length) :
    (prepareAddr st a).1.fdBytes = (prepareAddr st a).1.fd.length := by
  rcases prepareAddr_cases st.1 st.2 a with ⟨sock, -, hstep, -⟩ | ⟨-, more, hstep, -⟩
  · rw [hstep]
    simp only [List.length_append, List.length_singleton]
  · rw [hstep]
    exact h

/-- So many bytes are enough for an empty array only. -/
theorem Sound.fd_eq_nil {st : Prepared} (h : Sound st) (hbytes : st.1.fdBytes = st.1.fd.length) :
    st.1.fd = [] := by
  have hroom : st.1.fd.length * 4 ≤ st.1.fdBytes := h.room
  exact List.eq_nil_of_length_eq_zero (by omega)

/-! ## What is written and what is closed -/

/-- On a passive queue a turn adds the socket it has bound and keeps open, or closes what it has
created. -/
theorem Filed.prepareAddr {st : Prepared} (hpassive : st.1.flags.passive = true) (h : Filed st)
    (a : Addr) : Filed (prepareAddr st a) := by
  rcases prepareAddr_cases st.1 st.2 a with ⟨sock, -, hstep, hbound⟩ | ⟨-, more, hstep, hmore⟩
  · rw [hpassive] at hbound
    rw [hstep]
    refine ⟨?_, fun c hc hclosed => ?_⟩
    · simp only [List.filter_append, List.map_append, h.holds]
      simp [hbound]
    · rcases List.mem_append.mp hc with hc | hc
      · exact h.closes c hc hclosed
      · rw [List.mem_singleton.mp hc] at hclosed
        simp [hbound] at hclosed
  · rw [hstep]
    have hnone : more.filter (fun c => c.sock.bound && !c.closed) = [] := by
      refine List.filter_eq_nil_iff.mpr fun c hc => ?_
      simp [hmore c hc]
    refine ⟨?_, fun c hc hclosed => ?_⟩
    · simp only [List.filter_append, hnone, List.append_nil, h.holds]
    · rcases List.mem_append.mp hc with hc | hc
      · exact h.closes c hc hclosed
      · exact hmore c hc

/-- **Only the size is wrong**: on a queue that is passive, as those of a server are, the array
always holds the sockets that were bound and not closed, in order, and all others are closed. -/
theorem filed_of_visits {flags : Flags} (hpassive : (defaultFlags flags).passive = true)
    (calls : List Resolution) : ∀ st ∈ visits (ioqueueNew flags, []) calls, Filed st := by
  refine visits_invariant (fun _ _ _ h => ⟨h.holds, h.closes⟩) ?_ rfl
    ⟨rfl, fun c hc => absurd hc List.not_mem_nil⟩
  intro r _ addrs _ st hf hst
  exact turns_invariant (fun st a hf h => h.prepareAddr (by rw [hf]; exact hpassive) a) hf hst addrs

/-! ## Nothing added -/

/-- Nothing in the array, and every socket closed. -/
structure Bare (st : Prepared) : Prop where
  fd : st.1.fd = []
  closed : ∀ c ∈ st.2, c.closed = true

theorem Bare.sound {st : Prepared} (h : Bare st) : Sound st where
  room := by
    rw [h.fd]
    exact Nat.le_trans (Nat.le_of_eq (Nat.zero_mul _)) (Nat.zero_le _)
  holds := by
    have hnone : st.2.filter (fun c => c.sock.bound && !c.closed) = [] := by
      refine List.filter_eq_nil_iff.mpr fun c hc => ?_
      simp [h.closed c hc]
    rw [h.fd, hnone, List.map_nil]
  closes c hc _ := h.closed c hc

/-- Addresses of which none is kept leave the array empty. -/
theorem Bare.turns {f : Flags} {addrs : List Addr} (hkept : ∀ a ∈ addrs, a.kept f.passive = none)
    {st : Prepared} (hf : st.1.flags = f) (h : Bare st) : ∀ st' ∈ turns st addrs, Bare st' := by
  induction addrs generalizing st with
  | nil =>
    intro st' hst'
    rw [List.mem_singleton.mp hst']
    exact h
  | cons a addrs ih =>
    intro st' hst'
    rcases List.mem_cons.mp hst' with rfl | hst'
    · exact h
    · rcases prepareAddr_cases st.1 st.2 a with ⟨sock, hsome, -⟩ | ⟨-, more, hstep, hmore⟩
      · rw [hf, hkept a List.mem_cons_self] at hsome
        cases hsome
      · rw [hstep] at hst'
        have hbare : Bare (st.1, st.2 ++ more) := by
          refine ⟨h.fd, fun c hc => ?_⟩
          rcases List.mem_append.mp hc with hc | hc
          · exact h.closed c hc
          · exact hmore c hc
        refine ih (fun a' ha' => hkept a' (List.mem_cons_of_mem a ha')) ?_ hbare st' hst'
        exact hf

/-- Where the array stays empty no address is kept. -/
theorem kept_of_turns (iq : IoQueue) (log : List Creation) {addrs : List Addr}
    (h : ∀ st ∈ turns (iq, log) addrs, st.1.fd = []) :
    ∀ a ∈ addrs, a.kept iq.flags.passive = none := by
  induction addrs generalizing log with
  | nil =>
    intro a ha
    cases ha
  | cons a addrs ih =>
    rcases prepareAddr_cases iq log a with ⟨sock, -, hstep, -⟩ | ⟨hnone, more, hstep, -⟩
    · have hfd := h _ (List.mem_cons_of_mem _ (mem_turns (prepareAddr (iq, log) a) addrs))
      rw [hstep] at hfd
      exact absurd hfd (by simp)
    · intro a' ha'
      rcases List.mem_cons.mp ha' with rfl | ha'
      · exact hnone
      · refine ih (log ++ more) (fun st hst => h st (List.mem_cons_of_mem _ ?_)) a' ha'
        rw [hstep]
        exact hst

/-! ## All calls -/

/-- No call adds a socket. -/
def NothingKept (f : Flags) (calls : List Resolution) : Prop :=
  ∀ r ∈ calls, ∀ addrs, r.addresses f = some addrs → ∀ a ∈ addrs, a.kept f.passive = none

/-- If the array stays empty through all calls, none of them has added a socket. -/
theorem nothingKept_of_visits {f : Flags} {st : Prepared} {calls : List Resolution}
    (hf : defaultFlags st.1.flags = f) (h : ∀ st' ∈ visits st calls, st'.1.fd = []) :
    NothingKept f calls := by
  induction calls generalizing st with
  | nil =>
    intro r hr
    cases hr
  | cons r rs ih =>
    rw [visits] at h
    -- a call leaves the flags at their defaults, so the next one reads them the same
    have hrest : NothingKept f rs := by
      refine ih ?_ fun st' hst' => h st' (List.mem_append_right _ hst')
      rw [ioqueueSocketPrepare_eq]
      cases r.addresses (defaultFlags st.1.flags) with
      | none => exact (defaultFlags_flagsAfter r _).trans hf
      | some addrs =>
        simp only
        rw [(foldl_prepareAddr _ _ addrs).1]
        exact (defaultFlags_idem _).trans hf
    intro r' hr' addrs haddrs
    rcases List.mem_cons.mp hr' with rfl | hr'
    · rw [← hf] at haddrs ⊢
      simp only [haddrs] at h
      exact kept_of_turns _ _ fun st' hst' => h st' (List.mem_append_left _ hst')
    · exact hrest r' hr' addrs haddrs

/-- **When the descriptor array is sound all the time**: no call adds a socket. -/
theorem fd_array_sound_iff (flags : Flags) (calls : List Resolution) :
    (∀ st ∈ visits (ioqueueNew flags, []) calls, Sound st) ↔
      NothingKept (defaultFlags flags) calls := by
  constructor
  · intro h
    have hbytes : ∀ st ∈ visits (ioqueueNew flags, []) calls, st.1.fdBytes = st.1.fd.length := by
      refine visits_invariant (P := fun st => st.1.fdBytes = st.1.fd.length) (fun _ _ _ h => h) ?_
        rfl rfl
      intro r _ addrs _ st hf hst
      exact turns_invariant (fun st a _ => fdBytes_prepareAddr st a) hf hst addrs
    exact nothingKept_of_visits rfl fun st hst => (h st hst).fd_eq_nil (hbytes st hst)
  · intro h st hst
    have hbare : ∀ st ∈ visits (ioqueueNew flags, []) calls, Bare st :=
      visits_invariant (fun _ _ _ h => ⟨h.fd, h.closed⟩)
        (fun r hr addrs haddrs st hf => Bare.turns (h r hr addrs haddrs) hf) rfl
        ⟨rfl, fun c hc => absurd hc List.not_mem_nil⟩
    exact (hbare st hst).sound

def oneAddress : Resolution := ⟨false, ⟨none, false, false⟩, some [⟨some 5, true, true⟩]⟩

/-- A single socket is more than the array has room for. -/
theorem oneAddress_not_sound :
    ¬ ∀ st ∈ visits (ioqueueNew {}, []) [oneAddress], Sound st := by
  intro h
  have hroom := (h (⟨defaultFlags {}, [⟨5, true⟩], 1⟩, [⟨⟨5, true⟩, false⟩]) (by decide)).room
  revert hroom
  decide

end Ayubd.Startup
