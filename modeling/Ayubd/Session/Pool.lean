import Ayubd.Http.Session
import Ayubd.Queue.Agree
import Ayubd.Session.Accept

/-!
# Ayubd — the memory of a session

Everything a session uses is allocated when it is first needed and entered into the list `mp` of
its hook; `hook_free_real` frees that list. What has been allocated already is remembered in the
slots of `udata`, which `ioqueue_socket_on_connect` copies from the listening hook. Allocation
happens in three functions: `ioqueue_socket_on_connect`, `ioqueue_socket_recvmsg` and
`http_on_data_default`.

This module embeds these with pointers. A block is known by its address; what is in it is read
through the address, so two hooks with the same pointer in a slot would share the block. The
functions of `Ayubd.Http` say what is computed from the contents. `malloc` hands out any address
that is not allocated, and is not modelled to fail, which the code does not check.
-/

namespace Ayubd.Session

open Ayubd

/-! ## Blocks and hooks -/

/-- What a block was allocated for. A `chunk` has `IOV_CHUNK` bytes: the buffers of the io vectors,
and those of the request and of the response. -/
inductive Kind where
  | msghdr
  | name
  | vectors
  | chunk
  | settings
  | parser
  | req
  | resp
  deriving DecidableEq, Repr

/-- A block that is allocated, with the hook it was obtained for. -/
structure Block where
  addr : Addr
  hook : Nat
  kind : Kind
  deriving DecidableEq, Repr

structure Msghdr where
  msgName : Option Addr
  msgNamelen : Nat
  msgIov : Option Addr
  msgIovlen : Nat

structure Iovec where
  iovBase : Addr
  iovLen : Nat
  deriving DecidableEq, Repr

/-- What is in a block, for each of the ways in which blocks are read. The request array is kept
together with its buffers, and so is the response array. -/
structure Cell where
  msghdr : Msghdr
  vectors : List Iovec
  chunk : Buf iovChunk
  req : Http.Req
  resp : Http.Resp

def Cell.zero : Cell := ⟨⟨none, 0, none, 0⟩, [], Buf.zero iovChunk, .zalloc, .zalloc⟩

/-- The blocks that are allocated, what is in them, and whether something was freed that is not
allocated or written behind the end of a buffer. -/
structure Mem where
  live : List Block
  cell : Addr → Cell
  fault : Bool

def Mem.addrs (mem : Mem) : List Addr := mem.live.map Block.addr

/-- The slots of `udata` that a session has for itself: `UD_CORE_MSGHDR`, `UD_MOD_HS`, `UD_MOD_HP`,
`UD_MOD_REQ` and `UD_MOD_RESP`, number 4 and 9 to 12. -/
inductive Slot where
  | msghdr
  | hs
  | hp
  | req
  | resp
  deriving DecidableEq, Repr

/-- `hook_t`: its memory pool, `UD_CORE_NREAD` and the private slots; and whether a `sprintf` has
written behind its buffer. -/
structure Hook where
  mp : List Addr
  nread : Int
  own : Slot → Option Addr
  overflow : Bool

def Hook.new : Hook := ⟨[], 0, fun _ => none, false⟩

/-- A function at work on a hook, whose number is `id`. -/
structure Proc where
  id : Nat
  mem : Mem
  hook : Hook

namespace Proc

/-- `hook_malloc`: the block is entered into the list of the hook. -/
def hookMalloc (m : Malloc) (kind : Kind) (p : Proc) : Addr × Proc :=
  let a := m.next p.mem.addrs
  (a, { p with mem := { p.mem with live := ⟨a, p.id, kind⟩ :: p.mem.live }
               hook := { p.hook with mp := a :: p.hook.mp } })

def setCell (p : Proc) (a : Addr) (f : Cell → Cell) : Proc :=
  { p with mem := { p.mem with cell := Function.update p.mem.cell a (f (p.mem.cell a)) } }

def hookZalloc (m : Malloc) (kind : Kind) (p : Proc) : Addr × Proc :=
  let (a, p) := p.hookMalloc m kind
  (a, p.setCell a fun _ => .zero)

def setSlot (p : Proc) (slot : Slot) (a : Addr) : Proc :=
  { p with hook := { p.hook with own := Function.update p.hook.own slot (some a) } }

/-- Allocate what a slot is for, unless it is there already. -/
def ensure (slot : Slot) (make : Proc → Addr × Proc) (p : Proc) : Addr × Proc :=
  match p.hook.own slot with
  | some a => (a, p)
  | none =>
    let (a, p) := make p
    (a, p.setSlot slot a)

/-- The header with its address storage. -/
def makeMsghdr (m : Malloc) (p : Proc) : Addr × Proc :=
  let (imsg, p) := p.hookZalloc m .msghdr
  let (name, p) := p.hookZalloc m .name
  (imsg, p.setCell imsg fun c => { c with msghdr := { c.msghdr with
    msgName := some name, msgNamelen := sockaddrStorage } })

/-- The request array with its four buffers. -/
def makeReq (m : Malloc) (p : Proc) : Addr × Proc :=
  let (req, p) := p.hookZalloc m .req
  let (_, p) := p.hookZalloc m .chunk
  let (_, p) := p.hookZalloc m .chunk
  let (_, p) := p.hookZalloc m .chunk
  let (_, p) := p.hookZalloc m .chunk
  (req, p)

/-- The response array with its scratch buffer. -/
def makeResp (m : Malloc) (p : Proc) : Addr × Proc :=
  let (resp, p) := p.hookZalloc m .resp
  let (_, p) := p.hookZalloc m .chunk
  (resp, p)

/-! ## Receiving -/

/-- `hook_zalloc_iov` for `n` io vectors. -/
def hookZallocIov (m : Malloc) : Nat → Proc → List Iovec × Proc
  | 0, p => ([], p)
  | n + 1, p =>
    let (base, p) := p.hookZalloc m .chunk
    let (vs, p) := hookZallocIov m n p
    (⟨base, iovChunk⟩ :: vs, p)

/-- The array of io vectors and their buffers. -/
def newVectors (m : Malloc) (imsg : Addr) (p : Proc) : Proc :=
  let (iov, p) := p.hookZalloc m .vectors
  let (vs, p) := p.hookZallocIov m 2
  let p := p.setCell iov fun c => { c with vectors := vs }
  p.setCell imsg fun c => { c with msghdr := { c.msghdr with msgIov := some iov, msgIovlen := 2 } }

/-- The io vectors as they are before `recvmsg` is called: allocated, or `IOV_RESET`. -/
def resetVectors (m : Malloc) (imsg : Addr) (p : Proc) : Proc :=
  let hdr := (p.mem.cell imsg).msghdr
  match hdr.msgIov with
  | none => p.newVectors m imsg
  | some iov =>
    if hdr.msgIovlen = 0 then p.newVectors m imsg
    else p.setCell iov fun c => { c with vectors := c.vectors.map fun v => ⟨v.iovBase, iovChunk⟩ }

def vectors (p : Proc) (imsg : Addr) : List Iovec :=
  match (p.mem.cell imsg).msghdr.msgIov with
  | none => []
  | some iov => (p.mem.cell iov).vectors

/-- The kernel fills the io vectors one after the other. -/
def scatter : List Iovec → Bytes → Proc → Proc
  | [], _, p => p
  | v :: vs, bytes, p =>
    if h : (bytes.take v.iovLen).length ≤ iovChunk then
      scatter vs (bytes.drop v.iovLen)
        (p.setCell v.iovBase fun c => { c with chunk := c.chunk.write (bytes.take v.iovLen) h })
    else { p with mem := { p.mem with fault := true } }

end Proc

/-- What a header hands to the kernel. -/
structure Passed where
  msgIovlen : Nat
  vectors : List Iovec

/-- What `recvmsg` or `sendmsg` is given when it is called with this header. -/
def Proc.passed (p : Proc) (imsg : Addr) : Passed :=
  ⟨(p.mem.cell imsg).msghdr.msgIovlen, p.vectors imsg⟩

/-- `ioqueue_socket_recvmsg`: what it has handed to `recvmsg`, and what it returns. -/
def ioqueueSocketRecvmsg (m : Malloc) (recv : Http.Recv) (p : Proc) : Passed × Int × Proc :=
  let (imsg, p) := p.ensure .msghdr (Proc.makeMsghdr m)
  let p := p.resetVectors m imsg
  match recv with
  | .error => (p.passed imsg, -1, p)
  | .data bytes _ => (p.passed imsg, bytes.length, p.scatter (p.vectors imsg) bytes)

/-! ## Handling and sending -/

/-- An io vector with its buffer. -/
def Proc.iov (p : Proc) (v : Iovec) : Http.Iov := ⟨(p.mem.cell v.iovBase).chunk, v.iovLen⟩

/-- The buffers and the lengths of the two io vectors after they have been formatted. -/
def Proc.setIovs (p : Proc) (iov : Addr) (x0 x1 : Iovec) (v0 v1 : Http.Iov) : Proc :=
  let p := p.setCell x1.iovBase fun c => { c with chunk := v1.base }
  let p := p.setCell x0.iovBase fun c => { c with chunk := v0.base }
  p.setCell iov fun c => { c with vectors := [⟨x0.iovBase, v0.len⟩, ⟨x1.iovBase, v1.len⟩] }

section
variable {α : Type} (H : HttpParser) (act : α → Http.Req → Http.Resp → Int32 → Http.Resp × Bool)

/-- What routing leaves in the request and the response array. -/
def Proc.store (p : Proc) (req resp : Addr) (r : Http.Routed α) : Proc :=
  let p := p.setCell req fun c => { c with req := r.req }
  let p := p.setCell resp fun c => { c with resp := r.resp }
  { p with hook := { p.hook with overflow := p.hook.overflow || r.overflow } }

/-- The end of `http_on_data_default`, once everything is allocated: parse, look for an action and
respond. (The source parses before it allocates the response array, which makes no difference.) -/
def respond (route : Option (Assoc α)) (behind : Bytes) (rnd : Int32) (req resp iov : Addr)
    (x0 x1 : Iovec) (p : Proc) : Proc × Nat :=
  let urls := H.execute (Http.parserInput (p.iov x0) p.hook.nread behind)
  let r := Http.httpRoute H act route (urls.foldl Http.onUrlCb (p.mem.cell req).req)
    (p.mem.cell resp).resp rnd
  let p := p.store req resp r
  let out := Http.httpRespond H (p.iov x0) (p.iov x1) r.code r.str r.strlen
  (p.setIovs iov x0 x1 out.1 out.2.1, out.2.2)

/-- `http_on_data_default`; `none` is a failed assertion, or an access behind the array of io
vectors. -/
def httpOnDataDefault (m : Malloc) (route : Option (Assoc α)) (behind : Bytes) (rnd : Int32)
    (p : Proc) : Option (Proc × Nat) :=
  match p.hook.own .msghdr with
  | none => none
  | some imsg =>
    if (p.mem.cell imsg).msghdr.msgIovlen = 2 then
      let (_, p) := p.ensure .hs (Proc.hookMalloc m .settings)
      let (req, p) := p.ensure .req (Proc.makeReq m)
      let (_, p) := p.ensure .hp (Proc.hookMalloc m .parser)
      let (resp, p) := p.ensure .resp (Proc.makeResp m)
      match (p.mem.cell imsg).msghdr.msgIov, p.vectors imsg with
      | some iov, [x0, x1] => some (respond H act route behind rnd req resp iov x0 x1 p)
      | _, _ => none
    else none

/-- What one call of the data hook has handed to `recvmsg`, and to `sendmsg` together with the value
that `http_on_data_default` had returned. -/
structure Calls where
  recv : Passed
  send : Option (Passed × Nat)

/-- `hook_on_data_test`; `none` is a failed assertion. What `sendmsg` returns is not used. -/
def hookOnDataTest (m : Malloc) (route : Option (Assoc α)) (recv : Http.Recv) (behind : Bytes)
    (rnd : Int32) (p : Proc) : Option (Proc × Calls) :=
  let (passed, n, p) := ioqueueSocketRecvmsg m recv p
  let p := { p with hook := { p.hook with nread := n } }
  if n ≤ 0 then some (p, ⟨passed, none⟩)
  else
    match httpOnDataDefault H act m route behind rnd p with
    | none => none
    | some (p, ret) =>
      if ret > 0 then
        match p.hook.own .msghdr with
        | none => none
        | some imsg => some (p, ⟨passed, some (p.passed imsg, ret)⟩)
      else some (p, ⟨passed, none⟩)

end

/-! ## Sessions -/

/-- `ioqueue_socket_on_connect` for one connection: a new hook with a header, and with the slots of
the listening hook. -/
def newSession (m : Malloc) (listener : Hook) (id : Nat) (mem : Mem) : Proc :=
  let (imsg, p) := Proc.hookZalloc m .msghdr ⟨id, mem, .new⟩
  let p := { p with hook := { p.hook with own := listener.own, nread := listener.nread } }
  let (name, p) := p.hookZalloc m .name
  let p := p.setCell imsg fun c => { c with msghdr := { c.msghdr with
    msgName := some name, msgNamelen := sockaddrStorage } }
  p.setSlot .msghdr imsg

def Mem.free (mem : Mem) (a : Addr) : Mem :=
  if a ∈ mem.addrs then { mem with live := mem.live.filter (·.addr ≠ a) }
  else { mem with fault := true }

/-- `hook_free_real`: the memory afterwards. -/
def hookFreeReal (mem : Mem) (hook : Hook) : Mem := hook.mp.foldl Mem.free mem

/-- The memory, the listening hook, and the hooks of the sessions. -/
structure World where
  mem : Mem
  listener : Hook
  sessions : Nat → Option Hook

/-- What happens: a connection is accepted, a session has something to read, or its hook is freed.
The route table is whatever `UD_MOD_HTTP_ROUTE` points to at that moment. -/
inductive Action (α : Type) where
  | accept (m : Malloc) (id : Nat)
  | data (m : Malloc) (id : Nat) (route : Option (Assoc α)) (recv : Http.Recv) (behind : Bytes)
      (rnd : Int32)
  | close (id : Nat)

namespace World

/-- No session yet. `ioqueue_socket_deploy` sets no slot of the listening hook but `UD_CORE_SYSPTR`
and `UD_MOD_HTTP_ROUTE`. -/
def start (cell : Addr → Cell) : World := ⟨⟨[], cell, false⟩, .new, fun _ => none⟩

/-- The world once a function is done with a hook. -/
def put (w : World) (p : Proc) : World :=
  { w with mem := p.mem, sessions := Function.update w.sessions p.id (some p.hook) }

section
variable {α : Type} (H : HttpParser) (act : α → Http.Req → Http.Resp → Int32 → Http.Resp × Bool)

/-- The data hook for a session that is open. -/
def data (w : World) (m : Malloc) (id : Nat) (hook : Hook) (route : Option (Assoc α))
    (recv : Http.Recv) (behind : Bytes) (rnd : Int32) : Option (World × Calls) :=
  (hookOnDataTest H act m route recv behind rnd ⟨id, w.mem, hook⟩).map fun (p, calls) =>
    (w.put p, calls)

/-- One step; `none` for what cannot happen, or fails an assertion. -/
def step (w : World) : Action α → Option World
  | .accept m id =>
    match w.sessions id with
    | some _ => none
    | none => some (w.put (newSession m w.listener id w.mem))
  | .data m id route recv behind rnd =>
    match w.sessions id with
    | none => none
    | some hook => (w.data H act m id hook route recv behind rnd).map Prod.fst
  | .close id =>
    match w.sessions id with
    | none => none
    | some hook => some
      { w with mem := hookFreeReal w.mem hook, sessions := Function.update w.sessions id none }

end

end World

end Ayubd.Session
