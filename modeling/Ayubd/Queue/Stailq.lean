import Mathlib.Logic.Function.Basic
import Mathlib.Tactic.Common

/-!
# Ayubd — the `STAILQ` divider queue, one memory access at a time

`main.h` builds a queue for one producer and one consumer out of the `STAILQ` macros of
`sys/queue.h`: `stailq_new_lf_spsc`, `stailq_in_lf_spsc`, `stailq_trim_lf_spsc`,
`stailq_empty_lf_spsc` and `stailq_out_lf_spsc`. A *divider* node separates what the
consumer has taken (the divider and everything before it) from what it has not; the
producer frees the nodes before the divider.

This module embeds the macros at the granularity of single pointer reads and writes, each
one sequentially consistent step. The producer's place in `stailq_in_lf_spsc` is an
`InPc`, the consumer's place in `stailq_out_lf_spsc` an `OutPc`; a program counter is named
after the access it is about to make and carries the values already loaded.

A node that is read, written or freed while it is not allocated, and a dereference of
`NULL`, raise the sticky `fault` flag. Memory handed out by `malloc` keeps whatever it
held, and an address may be handed out again once it has been freed.
-/

namespace Ayubd

abbrev Addr := Nat

/-- `struct stailq_node`: a value pointer and the `STAILQ_ENTRY` link. -/
structure StailqNode (α : Type) where
  val : Option α
  next : Option Addr

/-- What `stqh_last` points at: the head's own `stqh_first`, or a node's `stqe_next`. -/
inductive LastRef where
  | first
  | next (a : Addr)
  deriving DecidableEq, Repr

/-- Where the producer is in `stailq_in_lf_spsc(p, d, v)`. -/
inductive InPc (α : Type) where
  | idle
  /-- `np->val = (v)` -/
  | setVal (v : α) (np : Addr)
  /-- `STAILQ_INSERT_TAIL`: `(elm)->field.stqe_next = NULL` -/
  | clearNext (v : α) (np : Addr)
  /-- `STAILQ_INSERT_TAIL`: load `(head)->stqh_last` -/
  | loadLast (v : α) (np : Addr)
  /-- `STAILQ_INSERT_TAIL`: `*(head)->stqh_last = (elm)` -/
  | link (v : α) (np : Addr) (t : LastRef)
  /-- `STAILQ_INSERT_TAIL`: `(head)->stqh_last = &(elm)->field.stqe_next` -/
  | moveLast (np : Addr)
  /-- trim: `tnp = STAILQ_FIRST((p))` -/
  | trimFirst
  /-- trim: load `(d)` and compare it with `tnp` -/
  | trimTest (tnp : Option Addr)
  /-- `STAILQ_REMOVE_HEAD`: load `(head)->stqh_first` -/
  | rmFirst (tnp : Option Addr)
  /-- `STAILQ_REMOVE_HEAD`: load `stqh_first->field.stqe_next` -/
  | rmNext (tnp f : Option Addr)
  /-- `STAILQ_REMOVE_HEAD`: store `(head)->stqh_first` and compare it with `NULL` -/
  | rmStore (tnp nx : Option Addr)
  /-- `STAILQ_REMOVE_HEAD`: `(head)->stqh_last = &(head)->stqh_first` -/
  | rmLast (tnp : Option Addr)
  /-- trim: `DO_FREE(tnp)` -/
  | free (tnp : Option Addr)
  | done
  deriving DecidableEq, Repr

/-- Where the consumer is in `stailq_out_lf_spsc(p, d, v)`. -/
inductive OutPc (α : Type) where
  | idle
  /-- `stailq_empty_lf_spsc`: load `(d)` -/
  | loadDiv
  /-- `stailq_empty_lf_spsc`: load `(p)->stqh_last` -/
  | loadLast (d : Option Addr)
  /-- `stailq_empty_lf_spsc`: load `*(p)->stqh_last` and compare it with `(d)` -/
  | loadTail (d : Option Addr) (t : LastRef)
  /-- `(d) = STAILQ_NEXT((d), stailq_link)`: load `(d)` -/
  | advDiv
  /-- `(d) = STAILQ_NEXT((d), stailq_link)`: load the link -/
  | advNext (d : Option Addr)
  /-- `(d) = STAILQ_NEXT((d), stailq_link)`: store `(d)` -/
  | advStore (nx : Option Addr)
  /-- `(v) = (d)->val`: load `(d)` -/
  | valDiv
  /-- `(v) = (d)->val`: load the value -/
  | valLoad (d : Option Addr)
  | done (v : Option α)
  deriving DecidableEq, Repr

/-- The queue head, its nodes, the divider and the two threads' places. `enq` is the
history of the values linked so far and `adv` the number of times the divider moved; the
code has neither. -/
structure Stailq (α : Type) where
  mem : Addr → StailqNode α
  live : List Addr
  first : Option Addr
  last : LastRef
  qdiv : Option Addr
  inPc : InPc α
  outPc : OutPc α
  fault : Bool
  enq : List α
  adv : Nat

namespace Stailq

variable {α : Type}

/-- `stailq_new_lf_spsc(p, d)`: `STAILQ_INIT`, then the dummy node `d` is inserted at the
tail. `mem` is what memory holds and `d` the address `malloc` gives for the dummy. -/
def stailqNewLfSpsc (mem : Addr → StailqNode α) (d : Addr) : Stailq α where
  mem := Function.update mem d { mem d with next := none }
  live := [d]
  first := some d
  last := .next d
  qdiv := some d
  inPc := .idle
  outPc := .idle
  fault := false
  enq := []
  adv := 0

def isLive (q : Stailq α) : Option Addr → Bool
  | none => false
  | some a => decide (a ∈ q.live)

/-- An access to the node behind `p`: a fault unless it is allocated. -/
def touch (q : Stailq α) (p : Option Addr) : Stailq α :=
  { q with fault := q.fault || !q.isLive p }

/-- The node behind a pointer (what an access to `NULL` loads is never used). -/
def node (q : Stailq α) (p : Option Addr) : StailqNode α := q.mem (p.getD 0)

/-- The node whose link a reference designates, if it is not the head's own field. -/
def touchRef (q : Stailq α) : LastRef → Stailq α
  | .first => q
  | .next a => q.touch (some a)

/-- `*t` as an rvalue. -/
def loadRef (q : Stailq α) : LastRef → Option Addr
  | .first => q.first
  | .next a => (q.mem a).next

/-- `*t = p`. -/
def storeRef (q : Stailq α) (t : LastRef) (p : Option Addr) : Stailq α :=
  match t with
  | .first => { q with first := p }
  | .next a => { q with mem := Function.update q.mem a { q.mem a with next := p } }

/-- `stailq_in_lf_spsc(p, d, v)` is called and its `DO_MALLOC` returns `np`. -/
def inStart (q : Stailq α) (v : α) (np : Addr) : Stailq α :=
  { q with live := np :: q.live, inPc := .setVal v np }

def inStep (q : Stailq α) : Stailq α :=
  match q.inPc with
  | .idle => q
  | .setVal v np =>
    let q := q.touch (some np)
    { q with mem := Function.update q.mem np { q.mem np with val := some v }
             inPc := .clearNext v np }
  | .clearNext v np =>
    let q := q.touch (some np)
    { q with mem := Function.update q.mem np { q.mem np with next := none }
             inPc := .loadLast v np }
  | .loadLast v np => { q with inPc := .link v np q.last }
  | .link v np t =>
    let q := (q.touchRef t).storeRef t (some np)
    { q with enq := q.enq ++ [v], inPc := .moveLast np }
  | .moveLast np => { q with last := .next np, inPc := .trimFirst }
  | .trimFirst => { q with inPc := .trimTest q.first }
  | .trimTest tnp => { q with inPc := if tnp = q.qdiv then .done else .rmFirst tnp }
  | .rmFirst tnp => { q with inPc := .rmNext tnp q.first }
  | .rmNext tnp f => { q.touch f with inPc := .rmStore tnp (q.node f).next }
  | .rmStore tnp nx =>
    { q with first := nx, inPc := if nx = none then .rmLast tnp else .free tnp }
  | .rmLast tnp => { q with last := .first, inPc := .free tnp }
  | .free tnp =>
    -- `free(NULL)` does nothing
    match tnp with
    | none => { q with inPc := .trimFirst }
    | some a =>
      { q.touch (some a) with live := q.live.filter (· ≠ a), inPc := .trimFirst }
  | .done => q

def inFinish (q : Stailq α) : Stailq α := { q with inPc := .idle }

def outStart (q : Stailq α) : Stailq α := { q with outPc := .loadDiv }

def outStep (q : Stailq α) : Stailq α :=
  match q.outPc with
  | .idle => q
  | .loadDiv => { q with outPc := .loadLast q.qdiv }
  | .loadLast d => { q with outPc := .loadTail d q.last }
  | .loadTail d t =>
    { q.touchRef t with outPc := if d = q.loadRef t then .done none else .advDiv }
  | .advDiv => { q with outPc := .advNext q.qdiv }
  | .advNext d => { q.touch d with outPc := .advStore (q.node d).next }
  | .advStore nx => { q with qdiv := nx, adv := q.adv + 1, outPc := .valDiv }
  | .valDiv => { q with outPc := .valLoad q.qdiv }
  | .valLoad d => { q.touch d with outPc := .done (q.node d).val }
  | .done _ => q

/-- The caller of `stailq_out_lf_spsc` goes on with the value it got. -/
def outFinish (q : Stailq α) : Stailq α := { q with outPc := .idle }

/-- `stailq_empty_lf_spsc(p, d)`, run with no access of the producer in between. -/
def stailqEmptyLfSpsc (q : Stailq α) : Bool := decide (q.qdiv = q.loadRef q.last)

/-- The values linked and not yet passed by the divider. -/
def pending (q : Stailq α) : List α := q.enq.drop q.adv

/-- The value the divider has passed and the consumer has not yet returned from
`stailq_out_lf_spsc`. -/
def inHand (q : Stailq α) : Option α :=
  match q.outPc with
  | .valDiv | .valLoad _ => q.enq[q.adv - 1]?
  | .done v => v
  | _ => none

/-- The value the producer carries to the link. -/
def inVal (q : Stailq α) : Option α :=
  match q.inPc with
  | .setVal v _ | .clearNext v _ | .loadLast v _ | .link v _ _ => some v
  | _ => none

/-- The producer has not linked its node yet. -/
def unlinked (q : Stailq α) : Bool :=
  match q.inPc with
  | .idle | .setVal .. | .clearNext .. | .loadLast .. | .link .. => true
  | _ => false

/-- The consumer is in `stailq_out_lf_spsc` and has not yet moved the divider. -/
def claiming (q : Stailq α) : Bool :=
  match q.outPc with
  | .loadDiv | .loadLast _ | .loadTail .. | .advDiv | .advNext _ | .advStore _ => true
  | _ => false

end Stailq

end Ayubd
