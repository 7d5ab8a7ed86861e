import Ayubd.Queue.Stailq

/-!
# Ayubd — the queue of `lfq.c`, one memory access at a time

The queue the `STAILQ` macros replaced (`main.h`: "lfq.* not required"). Its `last` points
at the last *node*, and moving it is what publishes a value: the consumer compares the
divider with `last`. Like `Ayubd.Stailq` this module embeds the functions at the granularity
of single pointer reads and writes; `InPc` is the producer's place in `lfq_in`, `OutPc` the
consumer's in `lfq_out`.
-/

namespace Ayubd

structure LfqNode (α : Type) where
  value : Option α
  link : Option Addr

namespace Lfq

/-- Where the producer is in `lfq_in(q, value)`. -/
inductive InPc (α : Type) where
  | idle
  /-- `lfq_node_new`: `node->value = value` -/
  | setValue (v : α) (np : Addr)
  /-- `lfq_node_new`: `node->link = NULL` -/
  | setLink (v : α) (np : Addr)
  /-- `q->last->link = …`: load `q->last` -/
  | loadLast (v : α) (np : Addr)
  /-- `q->last->link = …`: store the link -/
  | storeLink (v : α) (np : Addr) (t : Option Addr)
  /-- `q->last = q->last->link`: load `q->last` -/
  | pubLast
  /-- `q->last = q->last->link`: load the link -/
  | pubLink (t : Option Addr)
  /-- `q->last = q->last->link`: store `q->last` -/
  | pubStore (nx : Option Addr)
  /-- `while (q->first != q->divider)`: load `q->first` -/
  | trimFirst
  /-- `while (q->first != q->divider)`: load `q->divider` and compare -/
  | trimTest (f : Option Addr)
  /-- `tmp = q->first` -/
  | trimTmp
  /-- `q->first = q->first->link`: load `q->first` -/
  | trimHead (tmp : Option Addr)
  /-- `q->first = q->first->link`: load the link -/
  | trimLink (tmp f : Option Addr)
  /-- `q->first = q->first->link`: store `q->first` -/
  | trimStore (tmp nx : Option Addr)
  /-- `DO_FREE(tmp)` -/
  | free (tmp : Option Addr)
  | done
  deriving DecidableEq, Repr

/-- Where the consumer is in `lfq_out(q)`. -/
inductive OutPc (α : Type) where
  | idle
  /-- `q->divider != q->last`: load `q->divider` -/
  | loadDiv
  /-- `q->divider != q->last`: load `q->last` and compare -/
  | loadLast (d : Option Addr)
  /-- `result = q->divider->link->value`: load `q->divider` -/
  | resDiv
  /-- `result = q->divider->link->value`: load the link -/
  | resLink (d : Option Addr)
  /-- `result = q->divider->link->value`: load the value -/
  | resValue (nx : Option Addr)
  /-- `q->divider = q->divider->link`: load `q->divider` -/
  | advDiv (r : Option α)
  /-- `q->divider = q->divider->link`: load the link -/
  | advLink (r : Option α) (d : Option Addr)
  /-- `q->divider = q->divider->link`: store `q->divider` -/
  | advStore (r : Option α) (nx : Option Addr)
  | done (r : Option α)
  deriving DecidableEq, Repr

end Lfq

/-- `struct lfq`, its nodes and the two threads' places. `enq` and `adv` are history: the
values linked so far and the number of times the divider moved. -/
structure Lfq (α : Type) where
  mem : Addr → LfqNode α
  live : List Addr
  first : Option Addr
  divider : Option Addr
  last : Option Addr
  inPc : Lfq.InPc α
  outPc : Lfq.OutPc α
  fault : Bool
  enq : List α
  adv : Nat

namespace Lfq

variable {α : Type}

/-- `lfq_new()`: `mem` is what memory holds and `d` the address of the dummy node. -/
def lfqNew (mem : Addr → LfqNode α) (d : Addr) : Lfq α where
  mem := Function.update mem d ⟨none, none⟩
  live := [d]
  first := some d
  divider := some d
  last := some d
  inPc := .idle
  outPc := .idle
  fault := false
  enq := []
  adv := 0

def isLive (q : Lfq α) : Option Addr → Bool
  | none => false
  | some a => decide (a ∈ q.live)

/-- An access to the node behind `p`: a fault unless it is allocated. -/
def touch (q : Lfq α) (p : Option Addr) : Lfq α :=
  { q with fault := q.fault || !q.isLive p }

/-- The node behind a pointer (what an access to `NULL` loads is never used). -/
def node (q : Lfq α) (p : Option Addr) : LfqNode α := q.mem (p.getD 0)

/-- `lfq_in(q, v)` is called and the `DO_MALLOC` of `lfq_node_new` returns `np`. -/
def inStart (q : Lfq α) (v : α) (np : Addr) : Lfq α :=
  { q with live := np :: q.live, inPc := .setValue v np }

def inStep (q : Lfq α) : Lfq α :=
  match q.inPc with
  | .idle => q
  | .setValue v np =>
    let q := q.touch (some np)
    { q with mem := Function.update q.mem np { q.mem np with value := some v }
             inPc := .setLink v np }
  | .setLink v np =>
    let q := q.touch (some np)
    { q with mem := Function.update q.mem np { q.mem np with link := none }
             inPc := .loadLast v np }
  | .loadLast v np => { q with inPc := .storeLink v np q.last }
  | .storeLink v np t =>
    let q := q.touch t
    { q with mem := Function.update q.mem (t.getD 0) { q.node t with link := some np }
             enq := q.enq ++ [v]
             inPc := .pubLast }
  | .pubLast => { q with inPc := .pubLink q.last }
  | .pubLink t => { q.touch t with inPc := .pubStore (q.node t).link }
  | .pubStore nx => { q with last := nx, inPc := .trimFirst }
  | .trimFirst => { q with inPc := .trimTest q.first }
  | .trimTest f => { q with inPc := if f = q.divider then .done else .trimTmp }
  | .trimTmp => { q with inPc := .trimHead q.first }
  | .trimHead tmp => { q with inPc := .trimLink tmp q.first }
  | .trimLink tmp f => { q.touch f with inPc := .trimStore tmp (q.node f).link }
  | .trimStore tmp nx => { q with first := nx, inPc := .free tmp }
  | .free tmp =>
    match tmp with
    | none => { q with inPc := .trimFirst }
    | some a =>
      { q.touch (some a) with live := q.live.filter (· ≠ a), inPc := .trimFirst }
  | .done => q

def inFinish (q : Lfq α) : Lfq α := { q with inPc := .idle }

def outStart (q : Lfq α) : Lfq α := { q with outPc := .loadDiv }

def outStep (q : Lfq α) : Lfq α :=
  match q.outPc with
  | .idle => q
  | .loadDiv => { q with outPc := .loadLast q.divider }
  | .loadLast d => { q with outPc := if d ≠ q.last then .resDiv else .done none }
  | .resDiv => { q with outPc := .resLink q.divider }
  | .resLink d => { q.touch d with outPc := .resValue (q.node d).link }
  | .resValue nx => { q.touch nx with outPc := .advDiv (q.node nx).value }
  | .advDiv r => { q with outPc := .advLink r q.divider }
  | .advLink r d => { q.touch d with outPc := .advStore r (q.node d).link }
  | .advStore r nx => { q with divider := nx, adv := q.adv + 1, outPc := .done r }
  | .done _ => q

def outFinish (q : Lfq α) : Lfq α := { q with outPc := .idle }

def lfqIsEmpty (q : Lfq α) : Bool := decide (q.divider = q.last)

end Lfq

end Ayubd
