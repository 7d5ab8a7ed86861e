import Ayubd.Http.Connection
import Ayubd.Http.RouteTable

/-!
# Ayubd — what stays within its buffer

`http_on_data_default` takes the bytes of a read from the first io vector, copies slices of
them into the buffers of the request array, and lets an action format the path into the
scratch buffer.

* **`parser_range_inside_iff`** — the range given to the parser lies in the first vector
  exactly for reads of at most `IOV_CHUNK` bytes: its length is `nread`, while `recvmsg` fills
  two vectors.
* **`dispatch_exact`** — for such reads everything else is in order, whatever clients send: the
  three request buffers stay terminated, a registered path has its action called and any other is
  answered with a 403, an action is only called for its own path, and its unbounded `sprintf`
  fits. Which path it is, is what the parser reported, not what the session has stored.
-/

namespace Ayubd.Http

open Ayubd

/-! ## The range given to the parser -/

/-- Each of the three strings is terminated where its length says. -/
structure Req.Terminated (req : Req) : Prop where
  uri : req.uri.data[req.ulen]? = some 0
  path : req.path.data[req.plen]? = some 0
  query : req.query.data[req.qlen]? = some 0

theorem terminated_zalloc : Req.zalloc.Terminated := by
  have hzero : (Buf.zero iovChunk).data[0]? = some 0 := by
    rw [Buf.zero, List.getElem?_replicate, if_pos iovChunk_pos]
  exact ⟨hzero, hzero, hzero⟩

theorem terminated_onUrlCb {req : Req} (h : req.Terminated) (buf : Bytes) :
    (onUrlCb req buf).Terminated :=
  ⟨req.uri.getElem?_store buf iovChunk_pos, h.path, h.query⟩

theorem terminated_foldl {req : Req} (h : req.Terminated) (urls : List Bytes) :
    (urls.foldl onUrlCb req).Terminated := by
  induction urls generalizing req with
  | nil => exact h
  | cons url urls ih => exact ih (terminated_onUrlCb h url)

theorem length_uri_slice {req : Req} {off len : Nat} (h : off + len ≤ req.memo.url.length) :
    ((req.uri.data.drop off).take len).length = len := by
  rw [req.length_memo_url] at h
  have hlt := req.ulen_lt
  rw [List.length_take, List.length_drop, req.uri.size]
  omega

/-- The parse of the URI leaves the request terminated. -/
theorem terminated_store {H : HttpParser} {req : Req} {f : UrlFields} (h : req.Terminated)
    (hf : H.parseUrl req.memo.url = some f) :
    ((req.storePath f).storeQuery f).Terminated := by
  have hin := H.parseUrl_inBounds hf
  have hpath := req.path.getElem?_store ((req.uri.data.drop f.pathOff).take f.pathLen) iovChunk_pos
  rw [length_uri_slice hin.path] at hpath
  have hquery := req.query.getElem?_store ((req.uri.data.drop f.queryOff).take f.queryLen)
    iovChunk_pos
  rw [length_uri_slice hin.query] at hquery
  unfold Req.storeQuery
  split
  · exact ⟨h.uri, hpath, hquery⟩
  · exact ⟨h.uri, hpath, h.query⟩

/-! ## One call of the handler -/

/-- A read of at most `IOV_CHUNK` bytes on which the parser reports slices without a NUL. -/
structure Read.Tame (H : HttpParser) (r : Read) : Prop where
  small : r.bytes.length ≤ iovChunk
  slice : ∀ url ∈ H.execute r.bytes, url <:+: r.bytes ∧ (0 : UInt8) ∉ url

/-- What holds of a session between two calls. -/
structure Session.Ok (s : Session) : Prop where
  terminated : (s.req.getD Req.zalloc).Terminated
  nulFree : (0 : UInt8) ∉ s.memo.url
  fits : s.overflow = false

/-- The URL that the parser reported last in these reads on session `i`, as far as a buffer holds
it; empty before the first. -/
def urlReported (H : HttpParser) (i : Nat) (es : List (Nat × Read)) : Bytes :=
  es.foldl (fun url e => if e.1 = i then (e.2.url H).getD url else url) []

/-- What one call of the data hook keeps to on a session that was last asked for `url`. -/
structure Exact (H : HttpParser) (url : Bytes) (out : Served Captcha) : Prop where
  /-- The request buffers are terminated, and the first of them holds the URL. -/
  terminated : ∃ req, out.session.req = some req ∧ req.Terminated ∧ req.uri.read req.ulen = url
  /-- An action is called with its own key, byte for byte, as the path. -/
  own : ∀ a req, out.called = some (a, req) → req.Terminated ∧ req.path.read req.plen = a.key ∧
    pathOf H url = some a.key ∧ a.key ∈ routes
  /-- A path that was registered has its action called. -/
  registered : ∀ path a, pathOf H url = some path → routes.value path = some a →
    ∃ req, out.called = some (a, req)
  /-- A path that was not registered has no action. -/
  unknown : ∀ path, pathOf H url = some path → path ∉ routes →
    out.called = none ∧ out.message = some (reply H 403 noAction)
  /-- No `sprintf` has overflowed its buffer. -/
  fits : out.session.overflow = false

section
variable {H : HttpParser} {table : Assoc Captcha}

/-- Tame reads leave a URI without `NUL`. -/
theorem nulFree_heard {m : Memo} {r : Read} (hr : r.Tame H) (hm : (0 : UInt8) ∉ m.url) :
    (0 : UInt8) ∉ (m.heard H r).url := by
  rw [Memo.heard, Read.url, Read.handed_of_le hr.small]
  cases hlast : (H.execute r.bytes).getLast? with
  | none => exact hm
  | some url =>
    intro hmem
    exact (hr.slice url (List.mem_of_getLast? hlast)).2 (List.mem_of_mem_take hmem)

/-- The path of such a URI is looked up as a whole. -/
theorem cstr_pathOf {url path : Bytes} (hurl : (0 : UInt8) ∉ url)
    (hpath : pathOf H url = some path) : cstr path = path := by
  unfold pathOf at hpath
  split at hpath
  · cases hpath
  · split at hpath
    · cases hpath
      exact cstr_of_not_mem fun hmem => hurl (List.mem_of_mem_drop (List.mem_of_mem_take hmem))
    · cases hpath

theorem key_mem_routes (a : Captcha) : a.key ∈ routes := by
  cases a <;> decide

/-- The router's answer to a terminated request, part by part. -/
theorem httpRoute_exact (hT : Routes table) {req : Req} (hreq : req.Terminated)
    (hurl : (0 : UInt8) ∉ req.memo.url) (resp : Resp) (rnd : Int32) :
    let r := httpRoute H Captcha.act (some table) req resp rnd
    r.req.Terminated ∧ r.overflow = false ∧
      ∀ a q, r.called = some (a, q) → q.Terminated ∧ q.path.read q.plen = a.key := by
  rcases httpRoute_cases (H := H) hT req resp rnd with
    ⟨-, hroute⟩ | ⟨f, path, hf, hslice, hpath, ⟨-, hroute⟩ | ⟨a, resp', -, hkey, hresp, hroute⟩⟩
  · rw [hroute]
    refine ⟨hreq, rfl, ?_⟩
    intro a q hq
    cases hq
  · rw [hroute]
    refine ⟨terminated_store hreq hf, rfl, ?_⟩
    intro a q hq
    cases hq
  · have hterm := terminated_store hreq hf
    obtain ⟨hplen, hread, hstr⟩ := Req.path_store hf
    rw [hroute, hresp]
    refine ⟨hterm, (act_spec a hkey resp rnd).2.2.2, ?_⟩
    intro b q hq
    cases hq
    -- the path has no NUL, so the key it was found under is all of it
    refine ⟨hterm, ?_⟩
    rw [hplen, hread, ← hslice, ← cstr_pathOf hurl hpath, hslice, ← hstr, hkey]

/-- What is called is what the routes have for the path, and where they have something it is
called. -/
theorem called_iff {m : Memo} {out : Served Captcha} (hm : (0 : UInt8) ∉ m.url)
    (hcalled : out.called.map (fun c => (c.1, c.2.view)) = m.call H) (a : Captcha) :
    (∃ req, out.called = some (a, req)) ↔
      ∃ path, pathOf H m.url = some path ∧ routes.value path = some a := by
  have hcall : (∃ req, out.called = some (a, req)) ↔ ∃ v, m.call H = some (a, v) := by
    rw [← hcalled]
    cases out.called with
    | none => simp
    | some c => simp [Prod.ext_iff]
  rw [hcall]
  unfold Memo.call
  cases hpath : pathOf H m.url with
  | none => simp
  | some path =>
    cases hval : routes.value path with
    | none => simp [cstr_pathOf hm hpath, hval]
    | some b => simp [cstr_pathOf hm hpath, hval]

/-- The call keeps the session in order and does what `Exact` says of the URL it has heard. -/
theorem serve_exact (hT : Routes table) {s : Session} (hs : s.Ok) {r : Read} (hr : r.Tame H)
    {out : Served Captcha} (hout : serve H table s r = some out) :
    out.session.Ok ∧ Exact H (s.memo.heard H r).url out := by
  obtain ⟨out', hout', hserved⟩ := serve_spec (H := H) hT s r
  obtain rfl : out = out' := Option.some.inj (hout.symm.trans hout')
  have hheard := nulFree_heard hr hs.nulFree
  have hurl : out.session.memo.url = (s.memo.heard H r).url := by
    rw [hserved.memo]
    rfl
  -- the request array as the parser's callbacks leave it
  have hmemo : ((H.execute r.handed).foldl onUrlCb (s.req.getD Req.zalloc)).memo =
      s.memo.heard H r := memo_foldl_onUrlCb _ _
  obtain ⟨hterm, hfits, hown⟩ := httpRoute_exact (H := H) hT (terminated_foldl hs.terminated _)
    (by rw [hmemo]; exact hheard) (s.resp.getD Resp.zalloc) r.rnd
  obtain ⟨hreq, hover, hcalled⟩ := serve_eq_routed hout
  rw [hs.fits, hfits] at hover
  rw [← hcalled] at hown
  have hstored : ∃ req, out.session.req = some req ∧ req.Terminated ∧
      req.uri.read req.ulen = (s.memo.heard H r).url := by
    refine ⟨_, hreq, hterm, ?_⟩
    rw [← hurl, Session.memo, hreq]
    rfl
  refine ⟨⟨by rw [hreq]; exact hterm, by rw [hurl]; exact hheard, hover⟩, hstored, ?_, ?_, ?_,
    hover⟩
  · intro a req hq
    obtain ⟨path, hpath, hval⟩ := (called_iff hheard hserved.called a).mp ⟨req, hq⟩
    rw [key_of_value hval] at hpath
    exact ⟨(hown a req hq).1, (hown a req hq).2, hpath, key_mem_routes a⟩
  · intro path a hpath hval
    exact (called_iff hheard hserved.called a).mpr ⟨path, hpath, hval⟩
  · intro path hpath hnot
    have hval : routes.value (cstr path) = none := by
      rw [cstr_pathOf hheard hpath]
      by_contra hne
      exact hnot (mem_routes.mpr hne)
    have hcall : (s.memo.heard H r).call H = none := by simp only [Memo.call, hpath, hval]
    have hask : ask H (s.memo.heard H r).url = .unknown := by simp only [ask, hpath, askPath, hval]
    refine ⟨Option.map_eq_none_iff.mp (hserved.called.trans hcall), ?_⟩
    rw [hserved.message, hask]
    rfl

/-! ## Any run of any sessions -/

theorem ok_fresh : Session.fresh.Ok :=
  ⟨terminated_zalloc, show (0 : UInt8) ∉ [] by simp, rfl⟩

/-- Any tame reads leave every session in order and the routes in the table. -/
theorem World.run_ok {w : World} (hT : Routes w.table) (hok : ∀ i, (w.sessions i).Ok)
    {es : List (Nat × Read)} (hes : ∀ e ∈ es, e.2.Tame H) :
    ∃ w', w.run H es = some w' ∧ Routes w'.table ∧ ∀ i, (w'.sessions i).Ok := by
  induction es generalizing w with
  | nil => exact ⟨w, rfl, hT, hok⟩
  | cons e es ih =>
    obtain ⟨i, r⟩ := e
    obtain ⟨out, hout, hserved⟩ := Http.serve_spec (H := H) hT (w.sessions i) r
    have hnext := (serve_exact hT (hok i) (hes (i, r) List.mem_cons_self) hout).1
    have hsessions : ∀ j, (Function.update w.sessions i out.session j).Ok := by
      intro j
      by_cases hj : j = i
      · rw [hj, Function.update_self]
        exact hnext
      · rw [Function.update_of_ne hj]
        exact hok j
    have htable : Routes (out.route.getD w.table) := by
      rw [hserved.route]
      exact hT.tableAfter _
    obtain ⟨w', hrun, hT', hok'⟩ := ih
      (w := ⟨out.route.getD w.table, Function.update w.sessions i out.session⟩) htable hsessions
      fun e he => hes e (List.mem_cons_of_mem _ he)
    exact ⟨w', by simp only [run, World.serve, hout, Option.map_some, hrun], hT', hok'⟩

/-- Every session has stored the URL that was reported for it last. -/
theorem World.run_url {w w' : World} (hT : Routes w.table) {es : List (Nat × Read)}
    (hrun : w.run H es = some w') (i : Nat) :
    (w'.sessions i).memo.url =
      es.foldl (fun url e => if e.1 = i then (e.2.url H).getD url else url)
        (w.sessions i).memo.url := by
  induction es generalizing w with
  | nil =>
    cases hrun
    rfl
  | cons e es ih =>
    obtain ⟨j, r⟩ := e
    obtain ⟨w₁, hserve, hT₁, -, hurl, hother⟩ := w.serve_spec (H := H) hT j r
    simp only [run, hserve] at hrun
    rw [ih hT₁ hrun, List.foldl_cons]
    by_cases hj : j = i
    · subst hj
      rw [hurl, if_pos rfl]
      rfl
    · rw [hother i (Ne.symm hj), if_neg hj]

end

/-- **Exact dispatch and bounded copies.** After any tame reads on any sessions, the next one
is served exactly, for the URL that has been reported last on its session. -/
theorem dispatch_exact (H : HttpParser) (es : List (Nat × Read)) (i : Nat) (r : Read)
    (hes : ∀ e ∈ es, e.2.Tame H) (hr : r.Tame H) :
    ∃ w out, World.start.run H es = some w ∧ serve H w.table (w.sessions i) r = some out ∧
      Exact H (urlReported H i (es ++ [(i, r)])) out := by
  obtain ⟨w, hrun, hT, hok⟩ := World.run_ok (w := World.start) routes_self (fun _ => ok_fresh) hes
  obtain ⟨out, hout, -⟩ := Http.serve_spec (H := H) hT (w.sessions i) r
  have hexact := (serve_exact hT (hok i) hr hout).2
  have hurl : urlReported H i (es ++ [(i, r)]) = ((w.sessions i).memo.heard H r).url := by
    rw [urlReported, List.foldl_concat, if_pos rfl, Memo.heard,
      World.run_url (w := World.start) routes_self hrun i]
    rfl
  rw [hurl]
  exact ⟨w, out, hrun, hout, hexact⟩

def getRead : Read := readOf "GET /app/get?id=1 HTTP/1.1\r\n\r\n" 7 (by decide)

/-- After a request for an unknown path on one session, another one that asks for that path is
answered with a 403, and one that asks for an action gets it. -/
theorem dispatch_exact_twoSessions :
    ∃ w out out' req, World.start.run .getOnly [(0, strayRead)] = some w ∧
      serve .getOnly w.table (w.sessions 1) strayRead = some out ∧
      out.called = none ∧ out.message = some (reply .getOnly 403 noAction) ∧
      serve .getOnly w.table (w.sessions 1) getRead = some out' ∧
      out'.called = some (.get, req) ∧ req.path.read req.plen = ascii "/app/get" := by
  have hes : ∀ e ∈ [(0, strayRead)], e.2.Tame .getOnly := by
    intro e he
    rw [List.mem_singleton.mp he]
    exact ⟨by decide, by decide⟩
  obtain ⟨w, out, hrun, hout, hexact⟩ :=
    dispatch_exact .getOnly [(0, strayRead)] 1 strayRead hes ⟨by decide, by decide⟩
  obtain ⟨w', out', hrun', hout', hexact'⟩ :=
    dispatch_exact .getOnly [(0, strayRead)] 1 getRead hes ⟨by decide, by decide⟩
  obtain rfl : w = w' := Option.some.inj (hrun.symm.trans hrun')
  obtain ⟨hnone, h403⟩ := hexact.unknown (ascii "/nope") (by decide) (by decide)
  obtain ⟨req, hcalled⟩ := hexact'.registered (ascii "/app/get") .get (by decide) (by decide)
  exact ⟨w, out, out', req, hrun, hout, hnone, h403, hout', hcalled, (hexact'.own _ _ hcalled).2.1⟩

end Ayubd.Http
