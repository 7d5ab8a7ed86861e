import Ayubd.Assoc
import Ayubd.Config
import Ayubd.Http.Parser

/-!
# Ayubd — one HTTP session

The data hook of `mod_http.c`: `hook_on_data_test` reads once into the session's two io
vectors, `http_on_data_default` parses what it has read, looks the path up in the route table
and leaves a response in the same two vectors, and `hook_on_data_test` sends them. The
request and response arrays, `UD_MOD_REQ` and `UD_MOD_RESP`, are allocated by the first
request and reused by every later one; the route table is shared by all sessions.

The route actions are a parameter: `act a` is what calling the action `a` does.
`mod_http.c` has two of them, `captcha_get` and `captcha_verify`.
-/

namespace Ayubd.Http

open Ayubd

theorem iovChunk_pos : 0 < iovChunk := by decide

/-! ## The session's data -/

/-- `value_t *req`: the slots of the request array that the module uses. Each length stays
below the size of its buffer. -/
structure Req where
  uri : Buf iovChunk
  ulen : Nat
  path : Buf iovChunk
  plen : Nat
  query : Buf iovChunk
  qlen : Nat
  ulen_lt : ulen < iovChunk
  plen_lt : plen < iovChunk
  qlen_lt : qlen < iovChunk

/-- `hook_zalloc` of the request array and of its buffers. -/
def Req.zalloc : Req where
  uri := Buf.zero iovChunk
  ulen := 0
  path := Buf.zero iovChunk
  plen := 0
  query := Buf.zero iovChunk
  qlen := 0
  ulen_lt := iovChunk_pos
  plen_lt := iovChunk_pos
  qlen_lt := iovChunk_pos

/-- `value_t *resp`. `str` is the string `D_MOD_RESP_STR` points to, empty while the pointer
is `NULL`. -/
structure Resp where
  code : Int
  str : Bytes
  len : Nat
  scratch : Buf iovChunk

/-- `hook_zalloc` of the response array and of its scratch buffer. -/
def Resp.zalloc : Resp := { code := 0, str := [], len := 0, scratch := Buf.zero iovChunk }

/-- `struct iovec` over a buffer of `IOV_CHUNK` bytes. -/
structure Iov where
  base : Buf iovChunk
  len : Nat

def Iov.zalloc : Iov := ⟨Buf.zero iovChunk, iovChunk⟩

def Iov.reset (v : Iov) : Iov := { v with len := iovChunk }

/-- `IOV_PRINTF`: `snprintf` into the buffer, `iov_len = MIN(…, IOV_CHUNK)`. -/
def Iov.printf (v : Iov) (text : Bytes) : Iov :=
  ⟨v.base.snprintf text iovChunk_pos, min text.length iovChunk⟩

/-- The bytes `sendmsg` takes from an io vector. -/
def Iov.bytes (v : Iov) : Bytes := v.base.read v.len

/-- The udata slots of a session hook: `UD_CORE_NREAD`, the io vectors of `UD_CORE_MSGHDR`,
`UD_MOD_REQ` and `UD_MOD_RESP`; and whether a `sprintf` has written behind its buffer. -/
structure Session where
  nread : Int
  iov : Option (Iov × Iov)
  req : Option Req
  resp : Option Resp
  overflow : Bool

/-- A session as `ioqueue_socket_on_connect` leaves it. -/
def Session.fresh : Session :=
  { nread := 0, iov := none, req := none, resp := none, overflow := false }

/-! ## Reading and parsing -/

/-- What `recvmsg` returns: −1, or the bytes it has read (none at the end of the stream). -/
inductive Recv where
  | error
  | data (bytes : Bytes) (fits : bytes.length ≤ 2 * iovChunk)

/-- The io vectors at the `recvmsg` call: allocated by the first, reset by every later one. -/
def Session.vectors (s : Session) : Iov × Iov :=
  match s.iov with
  | none => (Iov.zalloc, Iov.zalloc)
  | some (v0, v1) => (v0.reset, v1.reset)

/-- `ioqueue_socket_recvmsg`: fills the first vector, then the second. -/
def ioqueueSocketRecvmsg (s : Session) : Recv → Session × Int
  | .error => ({ s with iov := some s.vectors }, -1)
  | .data bytes fits =>
    let (v0, v1) := s.vectors
    let v0 := { v0 with base := v0.base.write (bytes.take iovChunk) (List.length_take_le _ _) }
    let v1 := { v1 with base := v1.base.write (bytes.drop iovChunk) (by
      rw [List.length_drop]
      omega) }
    ({ s with iov := some (v0, v1) }, bytes.length)

def onUrlCb (req : Req) (buf : Bytes) : Req :=
  { req with
    uri := req.uri.store buf iovChunk_pos
    ulen := min buf.length (iovChunk - 1)
    ulen_lt := by
      have := iovChunk_pos
      omega }

/-- The copy of `UF_PATH` into `D_MOD_REQ_PATH`. -/
def Req.storePath (req : Req) (f : UrlFields) : Req :=
  { req with
    path := req.path.store ((req.uri.data.drop f.pathOff).take f.pathLen) iovChunk_pos
    plen := min f.pathLen (iovChunk - 1)
    plen_lt := by
      have := iovChunk_pos
      omega }

/-- The copy of `UF_QUERY` into `D_MOD_REQ_QUERY`, only when it is not empty. -/
def Req.storeQuery (req : Req) (f : UrlFields) : Req :=
  if f.queryLen > 0 then
    { req with
      query := req.query.store ((req.uri.data.drop f.queryOff).take f.queryLen) iovChunk_pos
      qlen := min f.queryLen (iovChunk - 1)
      qlen_lt := by
        have := iovChunk_pos
        omega }
  else req

/-! ## The route actions -/

/-- The common body of the two captcha actions: an unbounded `sprintf` of the path and a
random number into the scratch buffer. -/
def captcha (req : Req) (resp : Resp) (rnd : Int32) : Resp × Bool :=
  let text := ascii "PATH [" ++ req.path.str ++ ascii "], RND [" ++ decInt rnd.toInt ++ ascii "]!"
  let len := min text.length (iovChunk - 1)
  let scratch := (resp.scratch.sprintf text).1.terminate len
  ({ code := 200, str := scratch.str, len := len, scratch := scratch },
    (resp.scratch.sprintf text).2)

def captchaGet : Req → Resp → Int32 → Resp × Bool := captcha

def captchaVerify : Req → Resp → Int32 → Resp × Bool := captcha

/-- The actions that `module_start` registers. -/
inductive Captcha where
  | get
  | verify
deriving Repr, DecidableEq

def Captcha.act : Captcha → Req → Resp → Int32 → Resp × Bool
  | .get => captchaGet
  | .verify => captchaVerify

def routes : Assoc Captcha :=
  Assoc.arraySet (Assoc.arraySet ∅ (ascii "/app/get") .get) (ascii "/app/verify") .verify

/-! ## Handling what has been read -/

def hrRespIov0 (code : Int) (status : Bytes) (len : Nat) (ctype : Bytes) : Bytes :=
  ascii "HTTP/1.1 " ++ decInt code ++ ascii " " ++ status ++ ascii "\r\n" ++
  ascii "Server: nixtec-ws/0.9/ayub\r\n" ++
  ascii "Content-Length: " ++ dec len ++ ascii "\r\n" ++
  ascii "Connection: keep-alive\r\n" ++
  ascii "Content-Type: " ++ ctype ++ ascii "\r\n\r\n"

/-- The text of the answer when the path has no action. -/
def noAction : Bytes := ascii "No action defined against route. Please contact support."

/-- The text of the answer when the session has no route table. -/
def noRoute : Bytes := ascii "No route defined. Please contact support."

/-- What `http_on_data_default` knows once it has looked for an action: the shared table, the
two arrays, the action it has called with the request it was given, and its locals
`resp_code`, `resp_str` and `resp_strlen`. -/
structure Routed (α : Type) where
  route : Option (Assoc α)
  req : Req
  resp : Resp
  overflow : Bool
  called : Option (α × Req)
  code : Int
  str : Bytes
  strlen : Nat

section
variable {α : Type} (H : HttpParser) (act : α → Req → Resp → Int32 → Resp × Bool)

/-- The locals as they are initialised: no action, no response. -/
def Routed.quiet (route : Option (Assoc α)) (req : Req) (resp : Resp) : Routed α :=
  { route, req, resp, overflow := false, called := none, code := 200, str := [], strlen := 0 }

/-- The middle of `http_on_data_default`: take the URL apart and dispatch on its path. -/
def httpRoute (route : Option (Assoc α)) (req : Req) (resp : Resp) (rnd : Int32) : Routed α :=
  match route with
  | none =>
    { Routed.quiet none req resp with code := 503, str := noRoute, strlen := noRoute.length }
  | some table =>
    match H.parseUrl (req.uri.read req.ulen) with
    | none => Routed.quiet (some table) req resp
    | some f =>
      if f.pathLen > 0 then
        let req := (req.storePath f).storeQuery f
        match table.arrayGet req.path.str with
        | (some a, table) =>
          let (resp, overflow) := act a req resp rnd
          { route := some table, req, resp, overflow, called := some (a, req),
            code := resp.code, str := resp.str, strlen := resp.len }
        | (none, table) =>
          { Routed.quiet (some table) req resp with
            code := 403, str := noAction, strlen := noAction.length }
      else Routed.quiet (some table) req resp

/-- The end of `http_on_data_default`: body into the second vector, header into the first.
Also the value returned. -/
def httpRespond (v0 v1 : Iov) (code : Int) (str : Bytes) (strlen : Nat) : Iov × Iov × Nat :=
  if strlen > 0 then
    let v1 := v1.printf str
    let v0 := v0.printf (hrRespIov0 code (H.statusStr code) v1.len (ascii "text/plain"))
    (v0, v1, v1.len + v0.len)
  else (v0, v1, 0)

/-- What `http_on_data_default` leaves: the shared table, the session, the action it has
called, and the value it returns. -/
structure Handled (α : Type) where
  route : Option (Assoc α)
  session : Session
  called : Option (α × Req)
  ret : Nat

/-- What `http_parser_execute` is given: `n` bytes from the start of a vector, so beyond its
`IOV_CHUNK` bytes what lies `behind` it in memory. -/
def parserInput (v : Iov) (n : Int) (behind : Bytes) : Bytes := (v.base.data ++ behind).take n.toNat

/-- `http_on_data_default`; `none` is a failed assertion. -/
def httpOnDataDefault (route : Option (Assoc α)) (s : Session) (behind : Bytes) (rnd : Int32) :
    Option (Handled α) :=
  match s.iov with
  | none => none
  | some (v0, v1) =>
    let req := s.req.getD Req.zalloc
    let req := (H.execute (parserInput v0 s.nread behind)).foldl onUrlCb req
    let resp := s.resp.getD Resp.zalloc
    let r := httpRoute H act route req resp rnd
    let (v0, v1, ret) := httpRespond H v0 v1 r.code r.str r.strlen
    some
      { route := r.route
        session :=
          { nread := s.nread, iov := some (v0, v1), req := some r.req, resp := some r.resp,
            overflow := s.overflow || r.overflow }
        called := r.called
        ret := ret }

/-- What one call of the data hook leaves: the shared table, the session, the action that has
been called and the message handed to `sendmsg`. -/
structure Served (α : Type) where
  route : Option (Assoc α)
  session : Session
  called : Option (α × Req)
  message : Option Bytes

/-- `hook_on_data_test` up to its `sendmsg`, which changes nothing in the session; `none` is a
failed assertion. -/
def hookOnDataTest (route : Option (Assoc α)) (s : Session) (recv : Recv) (behind : Bytes)
    (rnd : Int32) : Option (Served α) :=
  let (s, n) := ioqueueSocketRecvmsg s recv
  let s := { s with nread := n }
  if n ≤ 0 then some { route, session := s, called := none, message := none }
  else
    match httpOnDataDefault H act route s behind rnd with
    | none => none
    | some h =>
      if h.ret > 0 then
        match h.session.iov with
        | none => none
        | some (v0, v1) =>
          some { route := h.route, session := h.session, called := h.called,
                 message := some (v0.bytes ++ v1.bytes) }
      else some { route := h.route, session := h.session, called := h.called, message := none }

end

end Ayubd.Http
