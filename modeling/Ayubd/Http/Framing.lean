import Ayubd.Http.Answer

/-!
# Ayubd — framing of a response

Whatever an action leaves in `D_MOD_RESP_STR`, the handler formats it into the second io
vector and a header into the first. `IOV_PRINTF` takes the length `snprintf` would have liked,
bounded by `IOV_CHUNK`, so the body of a text that does not fit ends with the NUL that
`snprintf` has put there: `response_framed_iff`. The actions are any, not only the two of
`mod_http.c`.
-/

namespace Ayubd.Http

open Ayubd

/-! ## What a well-framed response is -/

def crlf : Bytes := ascii "\r\n"

/-- A header with these lines, followed by the empty line. -/
def headerOf (lines : List Bytes) : Bytes := (lines.map (· ++ crlf)).flatten ++ crlf

/-- The field name that announces the length of the body. -/
def contentLength : Bytes := ascii "Content-Length: "

/-- The two vectors carry a text: a cut of it without a NUL as the body, and a header of
non-empty lines with one empty line after them, of which exactly one announces a length, the
body's. -/
structure Framed (w0 w1 : Iov) (ret : Nat) (text : Bytes) : Prop where
  body : w1.bytes = text.take (min text.length (iovChunk - 1))
  noNul : (0 : UInt8) ∉ w1.bytes
  header : ∃ lines, w0.bytes = headerOf lines ∧
    (∀ line ∈ lines, line ≠ [] ∧ (13 : UInt8) ∉ line ∧ (10 : UInt8) ∉ line) ∧
    lines.filter (contentLength.isPrefixOf ·) = [contentLength ++ dec w1.len]
  ret : ret = w0.len + w1.len

/-! ## The header -/

def respLines (code : Int) (status : Bytes) (len : Nat) : List Bytes :=
  [ascii "HTTP/1.1 " ++ decInt code ++ ascii " " ++ status,
    ascii "Server: nixtec-ws/0.9/ayub",
    contentLength ++ dec len,
    ascii "Connection: keep-alive",
    ascii "Content-Type: text/plain"]

/-- The header is the status line and its fields, each ended by CR LF. -/
theorem hrRespIov0_eq (code : Int) (status : Bytes) (len : Nat) :
    hrRespIov0 code status len (ascii "text/plain") = headerOf (respLines code status len) := by
  have hserver : ascii "Server: nixtec-ws/0.9/ayub\r\n" =
      ascii "Server: nixtec-ws/0.9/ayub" ++ crlf := by decide
  have hconn : ascii "Connection: keep-alive\r\n" = ascii "Connection: keep-alive" ++ crlf := by
    decide
  have htype : ascii "Content-Type: text/plain" = ascii "Content-Type: " ++ ascii "text/plain" := by
    decide
  have hend : ascii "\r\n\r\n" = crlf ++ crlf := by decide
  simp only [hrRespIov0, headerOf, respLines, List.map_cons, List.map_nil, List.flatten_cons,
    List.flatten_nil, List.append_assoc, hserver, hconn, htype, hend, List.append_nil]
  rfl

/-- No header line holds a CR or LF, unless the status does. -/
theorem not_mem_respLines {code : Int} {status : Bytes} {len : Nat} {b : UInt8}
    (hb : b = 13 ∨ b = 10) (hstatus : b ∉ status) :
    ∀ line ∈ respLines code status len, b ∉ line := by
  have hdigit : ∀ d, d < 10 → b ≠ (48 + d).toUInt8 := by
    rcases hb with rfl | rfl <;> decide
  have hminus : b ≠ 45 := by
    rcases hb with rfl | rfl <;> decide
  have hcode : b ∉ decInt code := not_mem_decInt hdigit hminus
  have hlen : b ∉ dec len := not_mem_dec hdigit
  intro line hline
  simp only [respLines, List.mem_cons, List.not_mem_nil, or_false] at hline
  rcases hline with rfl | rfl | rfl | rfl | rfl
  · simp only [List.mem_append, not_or]
    refine ⟨⟨⟨?_, hcode⟩, ?_⟩, hstatus⟩ <;> rcases hb with rfl | rfl <;> decide
  · rcases hb with rfl | rfl <;> decide
  · simp only [List.mem_append, not_or]
    refine ⟨?_, hlen⟩
    rcases hb with rfl | rfl <;> decide
  · rcases hb with rfl | rfl <;> decide
  · rcases hb with rfl | rfl <;> decide

theorem respLines_ne_nil {code : Int} {status : Bytes} {len : Nat} :
    ∀ line ∈ respLines code status len, line ≠ [] := by
  intro line hline hnil
  simp only [respLines, List.mem_cons, List.not_mem_nil, or_false] at hline
  -- every line begins with a text of its own
  rcases hline with rfl | rfl | rfl | rfl | rfl <;> cases hnil

/-- There is one `Content-Length`, with the length given. -/
theorem filter_respLines (code : Int) (status : Bytes) (len : Nat) :
    (respLines code status len).filter (contentLength.isPrefixOf ·) =
      [contentLength ++ dec len] := rfl

theorem length_respLines {code : Int} {status : Bytes} {len : Nat} (hlo : -2 ^ 31 ≤ code)
    (hhi : code < 2 ^ 31) (hstatus : status.length ≤ 1024) (hlen : len ≤ iovChunk) :
    (headerOf (respLines code status len)).length < iovChunk := by
  have hcode := length_decInt_le hlo hhi
  have hchunk : iovChunk = 4096 := rfl
  have hdec : (dec len).length ≤ 4 := length_dec_le (by omega) (by omega)
  simp only [headerOf, respLines, List.map_cons, List.map_nil, List.flatten_cons,
    List.flatten_nil, List.length_append, List.length_nil]
  have h1 : (ascii "HTTP/1.1 ").length = 9 := by decide
  have h2 : (ascii " ").length = 1 := by decide
  have h3 : (ascii "Server: nixtec-ws/0.9/ayub").length = 26 := by decide
  have h4 : contentLength.length = 16 := by decide
  have h5 : (ascii "Connection: keep-alive").length = 22 := by decide
  have h6 : (ascii "Content-Type: text/plain").length = 24 := by decide
  have h7 : crlf.length = 2 := by decide
  omega

/-! ## The handler -/

section
variable {α : Type} {H : HttpParser} {act : α → Req → Resp → Int32 → Resp × Bool}

/-- When an action is called, the response is taken from what it leaves in the array. -/
theorem httpRoute_called {route : Option (Assoc α)} {req₀ : Req} {resp₀ : Resp} {rnd : Int32}
    {a : α} {req : Req} (h : (httpRoute H act route req₀ resp₀ rnd).called = some (a, req)) :
    let r := httpRoute H act route req₀ resp₀ rnd
    r.resp = (act a req resp₀ rnd).1 ∧ r.code = r.resp.code ∧ r.str = r.resp.str ∧
      r.strlen = r.resp.len := by
  unfold httpRoute at h ⊢
  cases route with
  | none => cases h
  | some table =>
    cases hf : H.parseUrl (req₀.uri.read req₀.ulen) with
    | none =>
      simp only [hf] at h
      cases h
    | some f =>
      simp only [hf] at h ⊢
      by_cases hpos : f.pathLen > 0
      · simp only [if_pos hpos] at h ⊢
        cases hget : table.arrayGet ((req₀.storePath f).storeQuery f).path.str with
        | mk found table' =>
          cases found with
          | none =>
            simp only [hget] at h
            cases h
          | some b =>
            -- the only branch that calls an action
            simp only [hget] at h ⊢
            cases h
            exact ⟨rfl, trivial, trivial, trivial⟩
      · simp only [if_neg hpos] at h
        cases h

/-- What a called action leaves is what is written to the vectors. -/
theorem httpOnDataDefault_called {route : Option (Assoc α)} {s : Session} {behind : Bytes}
    {rnd : Int32} {h : Handled α} {a : α} {req : Req}
    (hh : httpOnDataDefault H act route s behind rnd = some h) (hcalled : h.called = some (a, req)) :
    ∃ v0 v1 resp₀ w0 w1, h.session.resp = some (act a req resp₀ rnd).1 ∧
      h.session.iov = some (w0, w1) ∧
      httpRespond H v0 v1 (act a req resp₀ rnd).1.code (act a req resp₀ rnd).1.str
        (act a req resp₀ rnd).1.len = (w0, w1, h.ret) := by
  unfold httpOnDataDefault at hh
  cases hiov : s.iov with
  | none =>
    rw [hiov] at hh
    cases hh
  | some v =>
    obtain ⟨v0, v1⟩ := v
    simp only [hiov, Option.some.injEq] at hh
    subst hh
    obtain ⟨hresp, hcode, hstr, hlen⟩ := httpRoute_called hcalled
    rw [hresp] at hcode hstr hlen
    refine ⟨v0, v1, s.resp.getD Resp.zalloc, _, _, congrArg some hresp, rfl, ?_⟩
    rw [← hcode, ← hstr, ← hlen]

theorem iovText_of_lt {text : Bytes} (h : text.length < iovChunk) : iovText text = text := by
  rw [iovText, List.take_of_length_le (show text.length ≤ iovChunk - 1 by omega), List.take_left]

/-- A text which fills the vector has a `NUL` for its last byte. -/
theorem nul_mem_iovText {text : Bytes} (h : iovChunk ≤ text.length) :
    (0 : UInt8) ∈ iovText text := by
  have hchunk := iovChunk_pos
  have hlen : (text.take (iovChunk - 1) ++ [(0 : UInt8)]).length ≤ text.length := by
    rw [List.length_append, List.length_take, List.length_singleton]
    omega
  rw [iovText, List.take_of_length_le hlen]
  exact List.mem_append_right _ List.mem_cons_self

/-- The two vectors and the value returned, for a text that is sent. -/
theorem httpRespond_eq (H : HttpParser) (v0 v1 : Iov) (code : Int) (text : Bytes) {len : Nat}
    (hlen : 0 < len) {w0 w1 : Iov} {ret : Nat}
    (h : httpRespond H v0 v1 code text len = (w0, w1, ret)) :
    w1.bytes = iovText text ∧ w1.len = min text.length iovChunk ∧
      w0.bytes = iovText (headerOf (respLines code (H.statusStr code) w1.len)) ∧
      ret = w0.len + w1.len := by
  rw [httpRespond, if_pos hlen] at h
  cases h
  refine ⟨bytes_printf v1 text, rfl, ?_, Nat.add_comm _ _⟩
  rw [bytes_printf, hrRespIov0_eq]

theorem httpRespond_silent (H : HttpParser) (v0 v1 : Iov) (code : Int) (text : Bytes) :
    httpRespond H v0 v1 code text 0 = (v0, v1, 0) := rfl

theorem length_bytes_le (v : Iov) : v.bytes.length ≤ v.len := by
  unfold Iov.bytes Buf.read
  exact List.length_take_le _ _

theorem Framed.ret_pos {w0 w1 : Iov} {ret : Nat} {text : Bytes} (h : Framed w0 w1 ret text) :
    0 < ret := by
  obtain ⟨lines, hheader, -⟩ := h.header
  have hpos : 2 ≤ w0.bytes.length := by
    rw [hheader, headerOf, List.length_append, show crlf.length = 2 by decide]
    exact Nat.le_add_left _ _
  have hle := length_bytes_le w0
  rw [h.ret]
  omega

end

/-- **When a response is well framed**: exactly if the action has left one and its text is
shorter than `IOV_CHUNK`. The text is any string, with any status code; of `http_status_str` it
is assumed that it is a short line. -/
theorem response_framed_iff {α : Type} (H : HttpParser)
    (act : α → Req → Resp → Int32 → Resp × Bool) (route : Option (Assoc α)) (s : Session)
    (behind : Bytes) (rnd : Int32) {h : Handled α} {a : α} {req : Req} {resp : Resp}
    (hh : httpOnDataDefault H act route s behind rnd = some h) (hcalled : h.called = some (a, req))
    (hresp : h.session.resp = some resp) (htext : (0 : UInt8) ∉ resp.str)
    (hcode : -2 ^ 31 ≤ resp.code ∧ resp.code < 2 ^ 31)
    (hshort : (H.statusStr resp.code).length ≤ 1024)
    (hline : (13 : UInt8) ∉ H.statusStr resp.code ∧ (10 : UInt8) ∉ H.statusStr resp.code) :
    ∃ w0 w1, h.session.iov = some (w0, w1) ∧
      (Framed w0 w1 h.ret resp.str ↔ 0 < resp.len ∧ resp.str.length < iovChunk) := by
  obtain ⟨v0, v1, resp₀, w0, w1, hresp', hiov, hrespond⟩ := httpOnDataDefault_called hh hcalled
  rw [hresp, Option.some.injEq] at hresp'
  rw [← hresp'] at hrespond
  refine ⟨w0, w1, hiov, ?_, ?_⟩
  · intro hframed
    have hlen : 0 < resp.len := by
      -- without a length nothing is formatted and 0 is returned
      by_contra hzero
      rw [Nat.eq_zero_of_not_pos hzero, httpRespond_silent] at hrespond
      have hret : 0 = h.ret := congrArg (·.2.2) hrespond
      have hpos := hframed.ret_pos
      omega
    obtain ⟨hbody, -⟩ := httpRespond_eq H v0 v1 resp.code resp.str hlen hrespond
    refine ⟨hlen, ?_⟩
    by_contra hge
    have hnul := nul_mem_iovText (Nat.le_of_not_lt hge)
    rw [← hbody] at hnul
    exact hframed.noNul hnul
  · rintro ⟨hlen, hlt⟩
    obtain ⟨hbody, hwlen, hheader, hret⟩ := httpRespond_eq H v0 v1 resp.code resp.str hlen hrespond
    rw [iovText_of_lt hlt] at hbody
    refine ⟨?_, by rw [hbody]; exact htext, ⟨respLines resp.code (H.statusStr resp.code) w1.len, ?_,
      ?_, filter_respLines _ _ _⟩, hret⟩
    · rw [hbody, Nat.min_eq_left (by omega), List.take_length]
    · rw [hheader, iovText_of_lt (length_respLines hcode.1 hcode.2 hshort (by omega))]
    · intro line hmem
      exact ⟨respLines_ne_nil line hmem, not_mem_respLines (Or.inl rfl) hline.1 line hmem,
        not_mem_respLines (Or.inr rfl) hline.2 line hmem⟩

/-! ## A text that fits and one that does not -/

def oneRoute : Assoc Unit := Assoc.arraySet ∅ (ascii "/x") ()

/-- An action that leaves a text. -/
def leave (text : Bytes) (_ : Unit) (_ : Req) (resp : Resp) (_ : Int32) : Resp × Bool :=
  ({ resp with code := 200, str := text, len := text.length }, false)

/-- A session that has read a request for `/x`. -/
def askedX : Session :=
  let (s, n) := ioqueueSocketRecvmsg Session.fresh
    (.data (ascii "GET /x HTTP/1.1\r\n\r\n") (by decide))
  { s with nread := n }

/-- The action which leaves a given text is called on the sample request. -/
theorem leave_handled (text : Bytes)
    (hrun : ((httpOnDataDefault .getOnly (leave text) (some oneRoute) askedX [] 0).bind
      Handled.called).isSome) :
    ∃ h req resp₀, httpOnDataDefault .getOnly (leave text) (some oneRoute) askedX [] 0 = some h ∧
      h.called = some ((), req) ∧ h.session.resp = some (leave text () req resp₀ 0).1 := by
  obtain ⟨⟨a, req⟩, hbind⟩ := Option.isSome_iff_exists.mp hrun
  obtain ⟨h, hh, hcalled⟩ := Option.bind_eq_some_iff.mp hbind
  obtain ⟨v0, v1, resp₀, w0, w1, hresp, -⟩ := httpOnDataDefault_called hh hcalled
  exact ⟨h, req, resp₀, hh, hcalled, hresp⟩

/-- A short text. -/
theorem response_framed_hello :
    ∃ h w0 w1,
      httpOnDataDefault .getOnly (leave (ascii "Hello")) (some oneRoute) askedX [] 0 = some h ∧
      h.session.iov = some (w0, w1) ∧ Framed w0 w1 h.ret (ascii "Hello") := by
  obtain ⟨h, req, resp₀, hh, hcalled, hresp⟩ := leave_handled (ascii "Hello") (by decide +kernel)
  obtain ⟨w0, w1, hiov, hiff⟩ := response_framed_iff .getOnly (leave (ascii "Hello")) (some oneRoute)
    askedX [] 0 hh hcalled hresp (show (0 : UInt8) ∉ ascii "Hello" by decide)
    ⟨show (-2 ^ 31 : Int) ≤ 200 by decide, show (200 : Int) < 2 ^ 31 by decide⟩
    (show (HttpParser.getOnly.statusStr 200).length ≤ 1024 by decide)
    ⟨show (13 : UInt8) ∉ HttpParser.getOnly.statusStr 200 by decide,
      show (10 : UInt8) ∉ HttpParser.getOnly.statusStr 200 by decide⟩
  refine ⟨h, w0, w1, hh, hiov, hiff.mpr ⟨?_, ?_⟩⟩
  · show 0 < (ascii "Hello").length
    decide
  · show (ascii "Hello").length < iovChunk
    decide

/-- A text of exactly `IOV_CHUNK` bytes: the body ends with a NUL. -/
theorem fullChunk_not_framed :
    ∃ h w0 w1,
      httpOnDataDefault .getOnly (leave (List.replicate iovChunk 65)) (some oneRoute) askedX [] 0 =
        some h ∧
      h.session.iov = some (w0, w1) ∧ ¬ Framed w0 w1 h.ret (List.replicate iovChunk 65) := by
  obtain ⟨h, req, resp₀, hh, hcalled, hresp⟩ := leave_handled (List.replicate iovChunk 65)
    (by decide +kernel)
  obtain ⟨v0, v1, resp₁, w0, w1, -, hiov, hrespond⟩ := httpOnDataDefault_called hh hcalled
  obtain ⟨hbody, -⟩ := httpRespond_eq .getOnly v0 v1 200 (List.replicate iovChunk 65)
    (show 0 < (List.replicate iovChunk (65 : UInt8)).length by
      rw [List.length_replicate]
      exact iovChunk_pos) hrespond
  have hnul : (0 : UInt8) ∈ iovText (List.replicate iovChunk 65) := by
    apply nul_mem_iovText
    rw [List.length_replicate]
  rw [← hbody] at hnul
  exact ⟨h, w0, w1, hh, hiov, fun hframed => hframed.noNul hnul⟩

end Ayubd.Http
