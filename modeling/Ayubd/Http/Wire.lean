import Ayubd.Http.Connection

/-!
# Ayubd — responses on the wire

`ioqueue_socket_sendmsg` is called once for a response, whatever part of it the kernel takes,
and the next response is built in the same io vectors. `wire_in_order_iff` says when the bytes
the socket has accepted are nevertheless a prefix of the responses, none of them begun while
bytes of an earlier one are unsent.
-/

namespace Ayubd.Http

open Ayubd

/-! ## Sending -/

/-- One round of the data hook: a read, and what `sendmsg` returns if it comes to that: −1, or
a number of bytes. -/
structure Round where
  read : Read
  sendmsg : Option Nat

/-- The bytes of a message that the kernel has taken. -/
def ioqueueSocketSendmsg (message : Bytes) (result : Option Nat) : Bytes :=
  message.take (result.getD 0)

/-- A connection with every message handed to `sendmsg` so far and what was taken of it. -/
structure Wire where
  conn : Conn
  log : List (Bytes × Bytes)

def Wire.fresh : Wire := ⟨Conn.fresh, []⟩

def Wire.round (H : HttpParser) (w : Wire) (e : Round) : Option Wire :=
  match w.conn.serve H e.read with
  | none => none
  | some (conn, out) =>
    match out.message with
    | none => some { w with conn }
    | some message =>
      some { conn, log := w.log ++ [(message, ioqueueSocketSendmsg message e.sendmsg)] }

def Wire.run (H : HttpParser) : Wire → List Round → Option Wire
  | w, [] => some w
  | w, e :: es =>
    match w.round H e with
    | none => none
    | some w => w.run H es

/-- The responses of a log, one after the other. -/
def built (log : List (Bytes × Bytes)) : Bytes := (log.map Prod.fst).flatten

/-- The bytes the socket has accepted. -/
def accepted (log : List (Bytes × Bytes)) : Bytes := (log.map Prod.snd).flatten

/-- The accepted bytes are a prefix of the responses, and whenever a response was begun, every
byte of the earlier ones had been accepted. -/
def InOrder (log : List (Bytes × Bytes)) : Prop :=
  accepted log <+: built log ∧
    ∀ earlier p later, log = earlier ++ p :: later →
      (accepted earlier).length = (built earlier).length

/-- At every moment of these rounds, the wire is in order. -/
def AlwaysInOrder (H : HttpParser) (es : List Round) : Prop :=
  ∀ pre, pre <+: es → ∃ w, Wire.fresh.run H pre = some w ∧ InOrder w.log

/-! ## What is sent -/

/-- The rounds of a session that send a response, with what `sendmsg` returns. -/
def sends (H : HttpParser) : Memo → List Round → List (Bytes × Option Nat)
  | _, [] => []
  | m, e :: es =>
    ((answer H e.read.rnd (ask H (m.heard H e.read).url)).map fun message =>
      (message, e.sendmsg)).toList ++ sends H (m.next H e.read) es

/-- The kernel takes the whole of a message. -/
def Whole (p : Bytes × Option Nat) : Prop := p.1.length ≤ p.2.getD 0

instance (p : Bytes × Option Nat) : Decidable (Whole p) :=
  inferInstanceAs (Decidable (p.1.length ≤ p.2.getD 0))

def entry (p : Bytes × Option Nat) : Bytes × Bytes := (p.1, ioqueueSocketSendmsg p.1 p.2)

section
variable {H : HttpParser}

/-- A run logs one entry for each response, with what `sendmsg` took of it. -/
theorem Wire.run_spec {w : Wire} (hT : Routes w.conn.table) (es : List Round) :
    ∃ w', w.run H es = some w' ∧
      w'.log = w.log ++ (sends H w.conn.session.memo es).map entry := by
  induction es generalizing w with
  | nil => exact ⟨w, rfl, (List.append_nil _).symm⟩
  | cons e es ih =>
    obtain ⟨conn, out, hserve, hT', hmemo, hserved⟩ := w.conn.serve_spec (H := H) hT e.read
    simp only [run, round, hserve, hserved.message, sends, ← hmemo]
    cases answer H e.read.rnd (ask H (w.conn.session.memo.heard H e.read).url) with
    | none =>
      obtain ⟨w', hrun, hlog⟩ := ih (w := { w with conn }) hT'
      exact ⟨w', hrun, hlog⟩
    | some message =>
      obtain ⟨w', hrun, hlog⟩ := ih (w := { conn, log := w.log ++ [(message,
        ioqueueSocketSendmsg message e.sendmsg)] }) hT'
      refine ⟨w', hrun, ?_⟩
      rw [hlog, List.append_assoc]
      rfl

theorem sends_prefix (m : Memo) {pre es : List Round} (h : pre <+: es) :
    sends H m pre <+: sends H m es := by
  obtain ⟨post, rfl⟩ := h
  induction pre generalizing m with
  | nil => exact List.nil_prefix
  | cons e pre ih =>
    rw [List.cons_append, sends, sends]
    exact (List.prefix_append_right_inj _).mpr (ih _)

/-! ## Order on the wire -/

/-- No more is accepted than was built. -/
theorem length_accepted_le (ps : List (Bytes × Option Nat)) :
    (accepted (ps.map entry)).length ≤ (built (ps.map entry)).length := by
  induction ps with
  | nil => exact Nat.le_refl _
  | cons p ps ih =>
    simp only [accepted, built, List.map_cons, List.flatten_cons, List.length_append] at ih ⊢
    have hle : (entry p).2.length ≤ (entry p).1.length := List.length_take_le' _ _
    omega

/-- Where every `sendmsg` takes its message, all that was built is on the wire. -/
theorem accepted_of_whole {ps : List (Bytes × Option Nat)} (h : ∀ p ∈ ps, Whole p) :
    accepted (ps.map entry) = built (ps.map entry) := by
  induction ps with
  | nil => rfl
  | cons p ps ih =>
    have hhead : (entry p).2 = (entry p).1 := List.take_of_length_le (h p List.mem_cons_self)
    have hrest := ih fun q hq => h q (List.mem_cons_of_mem p hq)
    simp only [accepted, built, List.map_cons, List.flatten_cons] at hrest ⊢
    rw [hhead, hrest]

theorem accepted_append (xs ys : List (Bytes × Bytes)) :
    accepted (xs ++ ys) = accepted xs ++ accepted ys := by
  rw [accepted, List.map_append, List.flatten_append]
  rfl

theorem built_append (xs ys : List (Bytes × Bytes)) : built (xs ++ ys) = built xs ++ built ys := by
  rw [built, List.map_append, List.flatten_append]
  rfl

/-- Short counts at the last response only leave the wire in order. -/
theorem inOrder_of_whole {ps : List (Bytes × Option Nat)} (h : ∀ p ∈ ps.dropLast, Whole p) :
    InOrder (ps.map entry) := by
  constructor
  · rcases List.eq_nil_or_concat ps with rfl | ⟨init, last, rfl⟩
    · exact List.prefix_refl _
    · rw [List.concat_eq_append, List.dropLast_concat] at h
      rw [List.concat_eq_append, List.map_append, accepted_append, built_append,
        accepted_of_whole h]
      refine (List.prefix_append_right_inj _).mpr ?_
      simp only [accepted, built, List.map_cons, List.map_nil, List.flatten_singleton]
      exact List.take_prefix _ _
  · intro earlier p later hsplit
    obtain ⟨before, after, rfl, rfl, hafter⟩ := List.map_eq_append_iff.mp hsplit
    have hne : after ≠ [] := by
      rintro rfl
      cases hafter
    rw [List.dropLast_append_of_ne_nil hne] at h
    rw [accepted_of_whole fun q hq => h q (List.mem_append_left _ hq)]

/-- Where the wire is in order, every response but the last was taken as a whole. -/
theorem whole_of_inOrder {ps : List (Bytes × Option Nat)} (h : InOrder (ps.map entry)) :
    ∀ p ∈ ps.dropLast, Whole p := by
  intro p hp
  have hne : ps ≠ [] := by
    rintro rfl
    cases hp
  obtain ⟨before, after, hsplit⟩ := List.append_of_mem hp
  -- the response begun after `p` finds the bytes of `p` accepted
  have hps : ps = (before ++ [p]) ++ (after ++ [ps.getLast hne]) := by
    rw [← List.append_assoc, List.append_assoc before, List.singleton_append, ← hsplit,
      List.dropLast_append_getLast]
  obtain ⟨next, later, hnext⟩ : ∃ next later, after ++ [ps.getLast hne] = next :: later := by
    cases after with
    | nil => exact ⟨_, _, rfl⟩
    | cons q after => exact ⟨_, _, rfl⟩
  have hlen := h.2 ((before ++ [p]).map entry) (entry next) (later.map entry) (by
    rw [← List.map_cons, ← hnext, ← List.map_append, ← hps])
  rw [List.map_append, accepted_append, built_append, List.length_append, List.length_append] at hlen
  have hbefore := length_accepted_le before
  simp only [accepted, built, entry, ioqueueSocketSendmsg, List.map_cons, List.map_nil,
    List.flatten_singleton, List.length_take] at hlen hbefore
  show p.1.length ≤ p.2.getD 0
  omega

theorem Wire.fresh_run (es : List Round) :
    ∃ w, Wire.fresh.run H es = some w ∧ w.log = (sends H Memo.fresh es).map entry := by
  obtain ⟨w, hrun, hlog⟩ := Wire.run_spec (H := H) (w := Wire.fresh) routes_self es
  exact ⟨w, hrun, hlog⟩

/-- If the wire is in order at the end, every send but the last was whole. -/
theorem AlwaysInOrder.whole {es : List Round} (h : AlwaysInOrder H es) :
    ∀ p ∈ (sends H Memo.fresh es).dropLast, Whole p := by
  obtain ⟨w, hrun, horder⟩ := h es (List.prefix_refl es)
  obtain ⟨w', hrun', hlog⟩ := Wire.fresh_run (H := H) es
  rw [hrun, Option.some.injEq] at hrun'
  rw [hrun', hlog] at horder
  exact whole_of_inOrder horder

end

/-- **When the wire is always in order**: every `sendmsg` but the last takes the whole of its
response. -/
theorem wire_in_order_iff (H : HttpParser) (es : List Round) :
    AlwaysInOrder H es ↔ ∀ p ∈ (sends H Memo.fresh es).dropLast, Whole p := by
  constructor
  · exact AlwaysInOrder.whole
  · intro h pre hpre
    obtain ⟨w, hrun, hlog⟩ := Wire.fresh_run (H := H) pre
    refine ⟨w, hrun, ?_⟩
    rw [hlog]
    refine inOrder_of_whole fun p hp => h p ?_
    -- what is not last among fewer sends is not last among all
    obtain ⟨post, hpost⟩ := sends_prefix (H := H) Memo.fresh hpre
    rw [← hpost]
    by_cases hnil : post = []
    · rw [hnil, List.append_nil]
      exact hp
    · rw [List.dropLast_append_of_ne_nil hnil]
      exact List.mem_append_left _ (List.dropLast_subset _ hp)

/-- Two requests; the kernel takes five bytes of the first response and all of the second. -/
def shortWrite : List Round :=
  [⟨readOf "GET /app/get HTTP/1.1\r\n\r\n" 7 (by decide), some 5⟩,
   ⟨readOf "GET /app/get HTTP/1.1\r\n\r\n" 8 (by decide), some 4096⟩]

/-- A short write leaves the wire out of order. -/
theorem shortWrite_out_of_order : ¬ AlwaysInOrder .getOnly shortWrite := by
  intro h
  have hwhole := h.whole
  revert hwhole
  decide +kernel

end Ayubd.Http
