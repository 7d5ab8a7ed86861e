import Ayubd.Http.Session
import Mathlib.Data.List.Induction

/-!
# Ayubd — what a session remembers and answers

The abstract view of a session. Of everything the handler keeps between two reads, only two
byte strings ever come back: the URL in `D_MOD_REQ_URI`, which stays when the parser reports
none, and the query in `D_MOD_REQ_QUERY`, which stays when the URL has none. `Memo` is that
pair, `Memo.next` how a read changes it, `ask` what a URL asks of the route table and
`answer` the response. `serve_spec` connects this view to the code: one call of the
data hook on a read does exactly what `Memo.next`, `ask` and `answer` say.
-/

namespace Ayubd.Http

open Ayubd

/-! ## The abstract session -/

/-- A read that returned data: its bytes, what lies in memory behind the first io vector
meanwhile, and the random number an action would draw. -/
structure Read where
  bytes : Bytes
  behind : Bytes
  rnd : Int32
  pos : bytes ≠ []
  fits : bytes.length ≤ 2 * iovChunk

/-- The bytes the parser is given. -/
def Read.handed (r : Read) : Bytes := (r.bytes.take iovChunk ++ r.behind).take r.bytes.length

/-- A read which fits the first buffer is handed over as it came. -/
theorem Read.handed_of_le {r : Read} (h : r.bytes.length ≤ iovChunk) : r.handed = r.bytes := by
  rw [handed, List.take_of_length_le h, List.take_left]

/-- A string as it is kept in a buffer of `IOV_CHUNK` bytes. -/
def cut (b : Bytes) : Bytes := b.take (iovChunk - 1)

/-- The URL of a read: the last one the parser reports, as far as the buffer holds it. -/
def Read.url (H : HttpParser) (r : Read) : Option Bytes := (H.execute r.handed).getLast?.map cut

/-- The path of a URL, if it has one. -/
def pathOf (H : HttpParser) (url : Bytes) : Option Bytes :=
  match H.parseUrl url with
  | none => none
  | some f => if f.pathLen > 0 then some ((url.drop f.pathOff).take f.pathLen) else none

/-- The query of a URL, empty if it has none. -/
def queryOf (H : HttpParser) (url : Bytes) : Bytes :=
  match H.parseUrl url with
  | none => []
  | some f => (url.drop f.queryOff).take f.queryLen

/-- What a URL asks for: nothing, since it has no path; a path without an action; or an
action. -/
inductive Ask where
  | nothing
  | unknown
  | action (a : Captcha)
deriving Repr, DecidableEq

/-- What a path asks of a route table. -/
def askPath (table : Assoc Captcha) (path : Bytes) : Ask :=
  match table.value (cstr path) with
  | none => .unknown
  | some a => .action a

/-- What a URL asks of the routes of `module_start`. -/
def ask (H : HttpParser) (url : Bytes) : Ask :=
  match pathOf H url with
  | none => .nothing
  | some path => askPath routes path

/-- What a session remembers. -/
structure Memo where
  url : Bytes
  query : Bytes
deriving Repr, DecidableEq

def Memo.fresh : Memo := ⟨[], []⟩

/-- After the parser: the URL the read reports, else the old one. -/
def Memo.heard (H : HttpParser) (m : Memo) (r : Read) : Memo := ⟨(r.url H).getD m.url, m.query⟩

/-- The query an action is shown: the URL's own, else the old one. -/
def Memo.shown (H : HttpParser) (m : Memo) : Bytes :=
  if queryOf H m.url = [] then m.query else queryOf H m.url

/-- After the URL has been taken apart: only a URL with a path leaves its query. -/
def Memo.settled (H : HttpParser) (m : Memo) : Memo :=
  ⟨m.url, if (pathOf H m.url).isSome then m.shown H else m.query⟩

/-- How a read changes what the session remembers. -/
def Memo.next (H : HttpParser) (m : Memo) (r : Read) : Memo := (m.heard H r).settled H

/-- The bytes an io vector sends after `IOV_PRINTF` of a text. -/
def iovText (text : Bytes) : Bytes := (text.take (iovChunk - 1) ++ [0]).take text.length

def reply (H : HttpParser) (code : Int) (text : Bytes) : Bytes :=
  iovText (hrRespIov0 code (H.statusStr code) (min text.length iovChunk) (ascii "text/plain")) ++
    iovText text

/-- The key an action is registered with. -/
def Captcha.key : Captcha → Bytes
  | .get => ascii "/app/get"
  | .verify => ascii "/app/verify"

def captchaText (key : Bytes) (rnd : Int32) : Bytes :=
  ascii "PATH [" ++ key ++ ascii "], RND [" ++ decInt rnd.toInt ++ ascii "]!"

/-- The message a session sends. -/
def answer (H : HttpParser) (rnd : Int32) : Ask → Option Bytes
  | .nothing => none
  | .unknown => some (reply H 403 noAction)
  | .action a => some (reply H 200 (captchaText a.key rnd))

/-- What an action can read of the request: URI, PATH and QUERY with their lengths. -/
structure View where
  uri : Bytes
  ulen : Nat
  path : Bytes
  plen : Nat
  query : Bytes
  qlen : Nat
deriving Repr, DecidableEq

/-- The view of a request with this URL, path and query. -/
def View.of (url path query : Bytes) : View :=
  ⟨url, url.length, path, path.length, query, query.length⟩

/-- The action a session calls, with what it shows it. -/
def Memo.call (H : HttpParser) (m : Memo) : Option (Captcha × View) :=
  match pathOf H m.url with
  | none => none
  | some path =>
    match routes.value (cstr path) with
    | none => none
    | some a => some (a, View.of m.url path (m.shown H))

/-- The route table after a URL has been looked up. -/
def tableAfter (H : HttpParser) (table : Assoc Captcha) (url : Bytes) : Assoc Captcha :=
  match pathOf H url with
  | none => table
  | some path => (table.arrayGet (cstr path)).2

def Req.view (req : Req) : View :=
  ⟨req.uri.read req.ulen, req.ulen, req.path.read req.plen, req.plen,
    req.query.read req.qlen, req.qlen⟩

/-! ## The request array as a memo -/

/-- What a request array remembers. -/
def Req.memo (req : Req) : Memo := ⟨req.uri.read req.ulen, req.query.read req.qlen⟩

/-- What a session remembers. -/
def Session.memo (s : Session) : Memo := (s.req.getD Req.zalloc).memo

theorem Req.length_memo_url (req : Req) : req.memo.url.length = req.ulen :=
  req.uri.length_read req.ulen_lt.le

theorem Req.length_memo_query (req : Req) : req.memo.query.length = req.qlen :=
  req.query.length_read req.qlen_lt.le

/-- The callbacks leave the last URL that is reported, cut to the buffer, and the old query. -/
theorem memo_foldl_onUrlCb (urls : List Bytes) (req : Req) :
    (urls.foldl onUrlCb req).memo = ⟨(urls.getLast?.map cut).getD req.memo.url, req.memo.query⟩ := by
  induction urls using List.reverseRecOn with
  | nil => rfl
  | append_singleton urls url ih =>
    have hquery : (urls.foldl onUrlCb req).memo.query = req.memo.query := by rw [ih]
    rw [List.foldl_append, List.getLast?_concat]
    simp only [List.foldl_cons, List.foldl_nil, Option.map_some, Option.getD_some]
    rw [← hquery]
    exact congrArg (Memo.mk · _) (Buf.read_store _ _ iovChunk_pos)

/-! ### Path and query

The URL is shorter than a buffer, so a slice of it is stored whole. -/

/-- Storing a slice of the URL: its length, and the slice read back by length and as a
string. -/
theorem Req.store_slice (req : Req) (b : Buf iovChunk) {off len : Nat}
    (h : off + len ≤ req.memo.url.length) :
    min len (iovChunk - 1) = len ∧
      (b.store ((req.uri.data.drop off).take len) iovChunk_pos).read len =
        (req.memo.url.drop off).take len ∧
      (b.store ((req.uri.data.drop off).take len) iovChunk_pos).str =
        cstr ((req.memo.url.drop off).take len) := by
  rw [req.length_memo_url] at h
  have hlt := req.ulen_lt
  have hslice : (req.uri.data.drop off).take len = (req.memo.url.drop off).take len :=
    (req.uri.slice_read h).symm
  have hlen : ((req.memo.url.drop off).take len).length = len := by
    rw [List.length_take, List.length_drop, req.length_memo_url]
    omega
  -- nothing is cut off: the URL itself is shorter than the buffer
  have hcut : ((req.memo.url.drop off).take len).take (iovChunk - 1) =
      (req.memo.url.drop off).take len := by
    apply List.take_of_length_le
    rw [hlen]
    omega
  have hmin : min len (iovChunk - 1) = len := by omega
  rw [hslice]
  refine ⟨hmin, ?_, ?_⟩
  · have hread := b.read_store ((req.memo.url.drop off).take len) iovChunk_pos
    rw [hlen, hmin, hcut] at hread
    exact hread
  · rw [Buf.str_store, hcut]

section
variable {H : HttpParser} {req : Req} {f : UrlFields}

/-- What `http_on_data_default` leaves in the request array for a URL with these fields. -/
theorem Req.memo_store (hf : H.parseUrl req.memo.url = some f) :
    ((req.storePath f).storeQuery f).memo = ⟨req.memo.url, req.memo.shown H⟩ := by
  have hin := (H.parseUrl_inBounds hf).query
  obtain ⟨hmin, hread, -⟩ := req.store_slice req.query hin
  have hquery : queryOf H req.memo.url = (req.memo.url.drop f.queryOff).take f.queryLen := by
    simp only [queryOf, hf]
  by_cases hq : f.queryLen > 0
  · have hne : queryOf H req.memo.url ≠ [] := by
      intro hnil
      have hlen := congrArg List.length (hquery.symm.trans hnil)
      rw [List.length_take, List.length_drop, List.length_nil] at hlen
      omega
    rw [Memo.shown, if_neg hne, hquery, ← hread]
    simp only [storeQuery, if_pos hq, memo, storePath, hmin]
  · have hnil : queryOf H req.memo.url = [] := by
      rw [hquery, Nat.eq_zero_of_not_pos hq, List.take_zero]
    simp only [storeQuery, if_neg hq, Memo.shown, if_pos hnil]
    rfl

/-- The path an action is given, as bytes and as the string that is looked up. -/
theorem Req.path_store (hf : H.parseUrl req.memo.url = some f) :
    ((req.storePath f).storeQuery f).plen = f.pathLen ∧
      ((req.storePath f).storeQuery f).path.read f.pathLen =
        (req.memo.url.drop f.pathOff).take f.pathLen ∧
      ((req.storePath f).storeQuery f).path.str =
        cstr ((req.memo.url.drop f.pathOff).take f.pathLen) := by
  have hkeep : ((req.storePath f).storeQuery f).path = (req.storePath f).path ∧
      ((req.storePath f).storeQuery f).plen = (req.storePath f).plen := by
    unfold storeQuery
    split <;> exact ⟨rfl, rfl⟩
  rw [hkeep.1, hkeep.2]
  exact req.store_slice req.path (H.parseUrl_inBounds hf).path

/-- After the parse the handler sees the path and the query of the URI. -/
theorem Req.view_store (hf : H.parseUrl req.memo.url = some f) :
    ((req.storePath f).storeQuery f).view =
      View.of req.memo.url ((req.memo.url.drop f.pathOff).take f.pathLen)
        (req.memo.shown H) := by
  obtain ⟨hplen, hread, -⟩ := Req.path_store hf
  have hin := (H.parseUrl_inBounds hf).path
  have hmemo := Req.memo_store hf
  generalize (req.storePath f).storeQuery f = req' at hplen hread hmemo ⊢
  have hulen := req'.length_memo_url
  have hqlen := req'.length_memo_query
  rw [hmemo] at hulen hqlen
  have hlen : ((req.memo.url.drop f.pathOff).take f.pathLen).length = f.pathLen := by
    rw [List.length_take, List.length_drop]
    omega
  have huri : req'.uri.read req'.ulen = req.memo.url := congrArg Memo.url hmemo
  have hquery : req'.query.read req'.qlen = req.memo.shown H := congrArg Memo.query hmemo
  simp only [view, View.of, huri, hquery, hplen, hread, hlen, hulen, hqlen]

end

/-! ## The route table

Lookups add blank entries to the table and change no value, so every table that serving
requests can lead to answers like the one of `module_start`. -/

/-- A table with the values of `module_start`'s. -/
def Routes (table : Assoc Captcha) : Prop := ∀ k, table.value k = routes.value k

theorem routes_self : Routes routes := fun _ => rfl

/-- A look-up keeps the routes, although it adds the key it asked for. -/
theorem Routes.arrayGet {table : Assoc Captcha} (h : Routes table) (k : Bytes) :
    Routes (table.arrayGet k).2 :=
  fun k' => (table.value_arrayGet k k').trans (h k')

theorem lookup_routes (k : Bytes) :
    routes.lookup k =
      if k = Captcha.verify.key then some (some .verify)
      else if k = Captcha.get.key then some (some .get) else none := by
  unfold routes Assoc.arraySet
  split
  · next hv =>
    subst hv
    exact AList.lookup_insert _
  · next hv =>
    rw [AList.lookup_insert_ne (show k ≠ ascii "/app/verify" from hv)]
    split
    · next hg =>
      subst hg
      exact AList.lookup_insert _
    · next hg =>
      rw [AList.lookup_insert_ne (show k ≠ ascii "/app/get" from hg)]
      exact AList.lookup_empty k

/-- An action is found under its own key only. -/
theorem key_of_value {k : Bytes} {a : Captcha} (h : routes.value k = some a) : k = a.key := by
  rw [Assoc.value, lookup_routes] at h
  split at h
  · next hk =>
    cases h
    exact hk
  · split at h
    · next hk =>
      cases h
      exact hk
    · cases h

theorem mem_routes {k : Bytes} : k ∈ routes ↔ routes.value k ≠ none := by
  rw [← AList.lookup_isSome, Assoc.value, lookup_routes]
  split
  · simp
  · split <;> simp

/-! ## One read -/

/-- The message leaves the two vectors as `IOV_PRINTF` filled them. -/
theorem bytes_printf (v : Iov) (text : Bytes) : (v.printf text).bytes = iovText text :=
  v.base.read_snprintf text iovChunk_pos

theorem length_hrRespIov0_pos (code : Int) (status : Bytes) (len : Nat) (ctype : Bytes) :
    0 < (hrRespIov0 code status len ctype).length := by
  have hhttp : 0 < (ascii "HTTP/1.1 ").length := by decide
  simp only [hrRespIov0, List.length_append]
  omega

/-- What `hook_on_data_test` sends of two vectors for a returned value. -/
def sent (w0 w1 : Iov) (ret : Nat) : Option Bytes :=
  if ret > 0 then some (w0.bytes ++ w1.bytes) else none

/-- A response with a length is the reply with its status line and text. -/
theorem httpRespond_of_pos (H : HttpParser) (v0 v1 : Iov) (code : Int) (text : Bytes) {len : Nat}
    (h : 0 < len) :
    ∃ w0 w1 ret, httpRespond H v0 v1 code text len = (w0, w1, ret) ∧
      sent w0 w1 ret = some (reply H code text) := by
  refine ⟨_, _, _, by rw [httpRespond, if_pos h], ?_⟩
  have hhead := length_hrRespIov0_pos code (H.statusStr code) (v1.printf text).len
    (ascii "text/plain")
  have hret : 0 < (v1.printf text).len + (v0.printf (hrRespIov0 code (H.statusStr code)
      (v1.printf text).len (ascii "text/plain"))).len := by
    have hchunk := iovChunk_pos
    rw [Iov.printf, Iov.printf] at *
    simp only at hhead ⊢
    omega
  rw [sent, if_pos hret, bytes_printf, bytes_printf]
  rfl

/-! ### The captcha actions -/

/-- A C `int` has at most eleven characters. -/
theorem length_decInt_le {i : Int} (hlo : -2 ^ 31 ≤ i) (hhi : i < 2 ^ 31) :
    (decInt i).length ≤ 11 := by
  cases i with
  | ofNat n =>
    have hn : n < 10 ^ 11 := by
      simp only [Int.ofNat_eq_natCast] at hhi
      omega
    exact length_dec_le (by omega) hn
  | negSucc n =>
    have hn : n + 1 < 10 ^ 10 := by omega
    exact Nat.succ_le_succ (length_dec_le (by omega) hn)

/-- The text of an action fits its scratch buffer many times over. -/
theorem length_captchaText (a : Captcha) (rnd : Int32) :
    (captchaText a.key rnd).length = a.key.length + (decInt rnd.toInt).length + 16 := by
  simp only [captchaText, List.length_append]
  have h1 : (ascii "PATH [").length = 6 := by decide
  have h2 : (ascii "], RND [").length = 8 := by decide
  have h3 : (ascii "]!").length = 2 := by decide
  omega

/-- The keys of the actions have eight to eleven bytes. -/
theorem length_key (a : Captcha) : 8 ≤ a.key.length ∧ a.key.length ≤ 11 := by
  cases a <;> decide

/-- No text of the captcha actions holds a `NUL`. -/
theorem nul_not_mem_captchaText (a : Captcha) (rnd : Int32) :
    (0 : UInt8) ∉ captchaText a.key rnd := by
  have hkey : (0 : UInt8) ∉ a.key := by cases a <;> decide
  have hnum : (0 : UInt8) ∉ decInt rnd.toInt := not_mem_decInt (by decide) (by decide)
  simp only [captchaText, List.mem_append, not_or]
  exact ⟨⟨⟨⟨by decide, hkey⟩, by decide⟩, hnum⟩, by decide⟩

/-- An action that is given its own path: the text, whole, and no overflow. -/
theorem act_spec (a : Captcha) {req : Req} (hpath : req.path.str = a.key) (resp : Resp)
    (rnd : Int32) :
    (a.act req resp rnd).1.code = 200 ∧ (a.act req resp rnd).1.str = captchaText a.key rnd ∧
      0 < (a.act req resp rnd).1.len ∧ (a.act req resp rnd).2 = false := by
  have hact : a.act req resp rnd = captcha req resp rnd := by cases a <;> rfl
  have hlen := length_captchaText a rnd
  have hkey := (length_key a).2
  have hnum := length_decInt_le rnd.le_toInt rnd.toInt_lt
  have hchunk : iovChunk = 4096 := rfl
  have hmin : min (captchaText a.key rnd).length (iovChunk - 1) = (captchaText a.key rnd).length := by
    omega
  obtain ⟨hstr, hover⟩ := resp.scratch.terminate_sprintf
    (show (captchaText a.key rnd).length < iovChunk by omega)
  rw [hact]
  simp only [captcha, hpath, true_and]
  rw [← captchaText, hmin]
  refine ⟨?_, by omega, hover⟩
  rw [hstr, cstr_of_not_mem (nul_not_mem_captchaText a rnd)]

/-! ### Responses tell the asks apart

The status code stands in the tenth byte, and the texts of the two actions differ in length
while their `Content-Length` has two digits in both. -/

theorem length_iovText (text : Bytes) : (iovText text).length = min text.length iovChunk := by
  have hchunk := iovChunk_pos
  rw [iovText, List.length_take, List.length_append, List.length_take, List.length_singleton]
  omega

theorem getElem?_iovText (text : Bytes) {i : Nat} (h : i < iovChunk - 1) :
    (iovText text)[i]? = text[i]? := by
  rcases Nat.lt_or_ge i text.length with hlt | hge
  · rw [iovText, List.getElem?_take_of_lt hlt,
      List.getElem?_append_left (by rw [List.length_take]; omega), List.getElem?_take_of_lt h]
  · rw [List.getElem?_eq_none hge, List.getElem?_eq_none]
    rw [length_iovText]
    omega

/-- The tenth byte of a reply is the first digit of its status. -/
theorem getElem?_reply (H : HttpParser) {code : Int} (text : Bytes) {d : UInt8} {ds : Bytes}
    (h : decInt code = d :: ds) : (reply H code text)[9]? = some d := by
  have hget : (hrRespIov0 code (H.statusStr code) (min text.length iovChunk)
      (ascii "text/plain"))[9]? = some d := by
    simp only [hrRespIov0, List.append_assoc, h]
    rfl
  have hiov : (iovText (hrRespIov0 code (H.statusStr code) (min text.length iovChunk)
      (ascii "text/plain")))[9]? = some d := by
    rw [getElem?_iovText _ (by decide), hget]
  rw [reply, List.getElem?_append_left (List.getElem?_eq_some_iff.mp hiov).1, hiov]

/-- The header is longer by the digits of the length. -/
theorem length_hrRespIov0 (code : Int) (status : Bytes) (len : Nat) (ctype : Bytes) :
    (hrRespIov0 code status len ctype).length =
      (hrRespIov0 code status 0 ctype).length - 1 + (dec len).length := by
  have hzero : (dec 0).length = 1 := by decide
  simp only [hrRespIov0, List.length_append, hzero]
  omega

theorem length_dec_two {n : Nat} (hlo : 10 ≤ n) (hhi : n < 100) : (dec n).length = 2 := by
  have hall : ∀ n < 100, 10 ≤ n → (dec n).length = 2 := by decide
  exact hall n hhi hlo

/-- Two actions never send the same message. -/
theorem reply_captcha_injective {H : HttpParser} {rnd : Int32} {a b : Captcha}
    (h : reply H 200 (captchaText a.key rnd) = reply H 200 (captchaText b.key rnd)) : a = b := by
  have hnum := length_decInt_le rnd.le_toInt rnd.toInt_lt
  have hchunk : iovChunk = 4096 := rfl
  have hbody : ∀ c : Captcha, min (captchaText c.key rnd).length iovChunk =
      c.key.length + (decInt rnd.toInt).length + 16 := by
    intro c
    have hlen := length_captchaText c rnd
    have hkey := length_key c
    omega
  have htwo : ∀ c : Captcha, (dec (min (captchaText c.key rnd).length iovChunk)).length = 2 := by
    intro c
    have hkey := length_key c
    rw [hbody]
    exact length_dec_two (by omega) (by omega)
  -- equal headers in length, so the bodies are equal, so the keys are equal in length
  have hbodies := (List.append_inj h (by
    rw [length_iovText, length_iovText, length_hrRespIov0, length_hrRespIov0 _ _ (min _ _), htwo,
      htwo])).2
  have hlens := congrArg List.length hbodies
  rw [length_iovText, length_iovText, hbody, hbody] at hlens
  have hkeys : a.key.length = b.key.length := by omega
  revert hkeys
  cases a <;> cases b <;> decide

/-- **The response tells what was asked for.** -/
theorem answer_injective {H : HttpParser} {rnd : Int32} {a b : Ask}
    (h : answer H rnd a = answer H rnd b) : a = b := by
  have h403 : decInt 403 = [52, 48, 51] := by decide
  have h200 : decInt 200 = [50, 48, 48] := by decide
  -- the two kinds of reply differ in the status code
  have hne : ∀ text, reply H 403 noAction ≠ reply H 200 text := by
    intro text heq
    have hget := getElem?_reply H noAction h403
    rw [heq, getElem?_reply H text h200] at hget
    cases hget
  cases a with
  | nothing =>
    cases b with
    | nothing => rfl
    | unknown => cases h
    | action b => cases h
  | unknown =>
    cases b with
    | nothing => cases h
    | unknown => rfl
    | action b => exact absurd (Option.some.inj h) (hne _)
  | action a =>
    cases b with
    | nothing => cases h
    | unknown => exact absurd (Option.some.inj h).symm (hne _)
    | action b => rw [reply_captcha_injective (Option.some.inj h)]

/-! ### Routing -/

section
variable {H : HttpParser} {table : Assoc Captcha} {m : Memo} {rnd : Int32}

/-- The middle of the handler did what the abstract session says. -/
structure RoutedAs (H : HttpParser) (table : Assoc Captcha) (m : Memo) (rnd : Int32)
    (r : Routed Captcha) : Prop where
  route : r.route = some (tableAfter H table m.url)
  memo : r.req.memo = m.settled H
  called : r.called.map (fun c => (c.1, c.2.view)) = m.call H
  sent : ∀ v0 v1, ∃ w0 w1 ret, httpRespond H v0 v1 r.code r.str r.strlen = (w0, w1, ret) ∧
    sent w0 w1 ret = answer H rnd (ask H m.url)

/-- Nothing is called for a URI without a path. -/
theorem RoutedAs.quiet {req : Req} (hpath : pathOf H req.memo.url = none) (resp : Resp) :
    RoutedAs H table req.memo rnd (Routed.quiet (some table) req resp) where
  route := by simp only [Routed.quiet, tableAfter, hpath]
  memo := by simp [Routed.quiet, Memo.settled, hpath]
  called := by simp [Routed.quiet, Memo.call, hpath]
  sent v0 v1 := ⟨v0, v1, 0, rfl, by simp [ask, hpath, answer, Http.sent]⟩

/-- What the middle of the handler can do: nothing, for a URL without a path; or store the path
and the query, and then find no action, or call the one whose key the path is. -/
theorem httpRoute_cases (hT : Routes table) (req : Req) (resp : Resp) (rnd : Int32) :
    (pathOf H req.memo.url = none ∧
        httpRoute H Captcha.act (some table) req resp rnd = Routed.quiet (some table) req resp) ∨
      ∃ f path, H.parseUrl req.memo.url = some f ∧
        path = (req.memo.url.drop f.pathOff).take f.pathLen ∧ pathOf H req.memo.url = some path ∧
        ((routes.value (cstr path) = none ∧ httpRoute H Captcha.act (some table) req resp rnd =
            { Routed.quiet (some (table.arrayGet (cstr path)).2)
                ((req.storePath f).storeQuery f) resp with
              code := 403, str := noAction, strlen := noAction.length }) ∨
          ∃ a resp', routes.value (cstr path) = some a ∧
            ((req.storePath f).storeQuery f).path.str = a.key ∧
            resp' = a.act ((req.storePath f).storeQuery f) resp rnd ∧
            httpRoute H Captcha.act (some table) req resp rnd =
              ⟨some (table.arrayGet (cstr path)).2, (req.storePath f).storeQuery f, resp'.1,
                resp'.2, some (a, (req.storePath f).storeQuery f), resp'.1.code, resp'.1.str,
                resp'.1.len⟩) := by
  have hurl : req.uri.read req.ulen = req.memo.url := rfl
  simp only [httpRoute, hurl]
  cases hf : H.parseUrl req.memo.url with
  | none => exact Or.inl ⟨by simp only [pathOf, hf], rfl⟩
  | some f =>
    by_cases hlen : f.pathLen > 0
    case neg =>
      simp only [if_neg hlen]
      exact Or.inl ⟨by simp only [pathOf, hf, if_neg hlen], trivial⟩
    case pos =>
      refine Or.inr ⟨f, _, rfl, rfl, by simp only [pathOf, hf, if_pos hlen], ?_⟩
      obtain ⟨-, -, hstr⟩ := Req.path_store hf
      -- the lookup finds what `module_start` registered, or nothing
      have hval := table.arrayGet_fst (cstr ((req.memo.url.drop f.pathOff).take f.pathLen))
      rw [hT] at hval
      simp only [if_pos hlen, hstr]
      cases hget : table.arrayGet (cstr ((req.memo.url.drop f.pathOff).take f.pathLen)) with
      | mk found table' =>
        rw [hget] at hval
        cases found with
        | none => exact Or.inl ⟨hval.symm, rfl⟩
        | some a => exact Or.inr ⟨a, _, hval.symm, key_of_value hval.symm, rfl, rfl⟩

/-- What the router does with a request, in terms of what the request remembers. -/
theorem httpRoute_spec (hT : Routes table) (req : Req) (resp : Resp) (rnd : Int32) :
    RoutedAs H table req.memo rnd (httpRoute H Captcha.act (some table) req resp rnd) := by
  rcases httpRoute_cases hT req resp rnd with ⟨hpath, hroute⟩ | ⟨f, path, hf, hslice, hpath, hcase⟩
  · rw [hroute]
    exact RoutedAs.quiet hpath resp
  · have hmemo := Req.memo_store hf
    have htable : tableAfter H table req.memo.url = (table.arrayGet (cstr path)).2 := by
      simp only [tableAfter, hpath]
    have hsettled : ((req.storePath f).storeQuery f).memo = req.memo.settled H := by
      simp only [hmemo, Memo.settled, hpath, Option.isSome_some, if_true]
    rcases hcase with ⟨hval, hroute⟩ | ⟨a, resp', hval, hkey, hresp, hroute⟩
    · -- the lookup has added the path to the table, and nobody is called
      have hask : ask H req.memo.url = .unknown := by simp only [ask, hpath, askPath, hval]
      rw [hroute]
      refine ⟨congrArg some htable.symm, hsettled, ?_, ?_⟩
      · simp only [Routed.quiet, Memo.call, hpath, hval, Option.map_none]
      · intro v0 v1
        rw [hask]
        exact httpRespond_of_pos H v0 v1 403 noAction (show 0 < noAction.length by decide)
    · have hask : ask H req.memo.url = .action a := by simp only [ask, hpath, askPath, hval]
      obtain ⟨hcode, htext, hpos, -⟩ := act_spec a hkey resp rnd
      rw [← hresp] at hcode htext hpos
      rw [hroute]
      refine ⟨congrArg some htable.symm, hsettled, ?_, ?_⟩
      · simp only [Memo.call, hpath, hval, Option.map_some, Req.view_store hf, ← hslice]
      · intro v0 v1
        rw [hask]
        simp only [hcode, htext]
        exact httpRespond_of_pos H v0 v1 200 (captchaText a.key rnd) hpos

/-- The routes survive what a request adds to the table. -/
theorem Routes.tableAfter (hT : Routes table) (url : Bytes) : Routes (tableAfter H table url) := by
  unfold Http.tableAfter
  split
  · exact hT
  · exact hT.arrayGet _

/-! ### The data hook -/

/-- `http_on_data_default` on a session with its io vectors: `given` is what the parser is
given. -/
theorem httpOnDataDefault_spec (hT : Routes table) {s : Session} {v0 v1 : Iov}
    (behind given : Bytes) (rnd : Int32)
    (hiov : s.iov = some (v0, v1)) (hgiven : parserInput v0 s.nread behind = given)
    (hm : ⟨((H.execute given).getLast?.map cut).getD s.memo.url, s.memo.query⟩ = m) :
    ∃ h w0 w1, httpOnDataDefault H Captcha.act (some table) s behind rnd = some h ∧
      h.route = some (Http.tableAfter H table m.url) ∧ h.session.iov = some (w0, w1) ∧
      h.session.memo = m.settled H ∧ h.called.map (fun c => (c.1, c.2.view)) = m.call H ∧
      sent w0 w1 h.ret = answer H rnd (ask H m.url) := by
  have hmemo : ((H.execute given).foldl onUrlCb (s.req.getD Req.zalloc)).memo = m := by
    rw [← hm]
    exact memo_foldl_onUrlCb _ _
  have hrouted := httpRoute_spec (H := H) hT
    ((H.execute given).foldl onUrlCb (s.req.getD Req.zalloc)) (s.resp.getD Resp.zalloc) rnd
  rw [hmemo] at hrouted
  obtain ⟨w0, w1, ret, hresp, hmsg⟩ := hrouted.sent v0 v1
  simp only [httpOnDataDefault, hiov, hgiven]
  generalize httpRoute H Captcha.act (some table) _ _ rnd = routed at hrouted hresp ⊢
  simp only [hresp]
  exact ⟨_, w0, w1, rfl, hrouted.route, rfl, hrouted.memo, hrouted.called, hmsg⟩

/-- What the parser finds from the start of the first vector on, once `r` has been read. -/
theorem handed_write (b : Buf iovChunk) (r : Read) :
    ((b.write (r.bytes.take iovChunk) (List.length_take_le _ _)).data ++ r.behind).take
      r.bytes.length = r.handed := by
  rw [Read.handed]
  rcases Nat.le_total r.bytes.length iovChunk with hle | hge
  · simp only [Buf.write, List.take_of_length_le hle, List.append_assoc, List.take_left]
  · have hlen : (r.bytes.take iovChunk).length = iovChunk := by
      rw [List.length_take]
      omega
    have hdrop : b.data.drop iovChunk = [] := List.drop_of_length_le (by rw [b.size])
    simp only [Buf.write, hlen, hdrop, List.append_nil]

def serve (H : HttpParser) (table : Assoc Captcha) (s : Session) (r : Read) :
    Option (Served Captcha) :=
  hookOnDataTest H Captcha.act (some table) s (.data r.bytes r.fits) r.behind r.rnd

/-- A call of the data hook did what the abstract session says. -/
structure ServedAs (H : HttpParser) (table : Assoc Captcha) (m : Memo) (rnd : Int32)
    (out : Served Captcha) : Prop where
  route : out.route = some (Http.tableAfter H table m.url)
  memo : out.session.memo = m.settled H
  called : out.called.map (fun c => (c.1, c.2.view)) = m.call H
  message : out.message = answer H rnd (ask H m.url)

/-- Where the session, the action called and the request it was given come from. -/
theorem serve_eq_routed {s : Session} {r : Read} {out : Served Captcha}
    (h : serve H table s r = some out) :
    let routed := httpRoute H Captcha.act (some table)
      ((H.execute r.handed).foldl onUrlCb (s.req.getD Req.zalloc)) (s.resp.getD Resp.zalloc) r.rnd
    out.session.req = some routed.req ∧ out.session.overflow = (s.overflow || routed.overflow) ∧
      out.called = routed.called := by
  have hpos : ¬ (r.bytes.length : Int) ≤ 0 := by
    have hlen : 0 < r.bytes.length := List.length_pos_iff.mpr r.pos
    omega
  have hgiven : ∀ (b : Buf iovChunk) (len : Nat),
      parserInput ⟨b.write (r.bytes.take iovChunk) (List.length_take_le _ _), len⟩
        r.bytes.length r.behind = r.handed := by
    intro b len
    rw [parserInput, Int.toNat_natCast]
    exact handed_write b r
  simp only [serve, hookOnDataTest, ioqueueSocketRecvmsg, if_neg hpos, httpOnDataDefault,
    hgiven] at h
  split at h
  · cases h
    exact ⟨rfl, rfl, rfl⟩
  · cases h
    exact ⟨rfl, rfl, rfl⟩

/-- **The code is the abstract session.** No assertion fails, and whatever state the session
is in, the hook calls the action, sends the message, and leaves the table and the memory that
the abstract session says. -/
theorem serve_spec (hT : Routes table) (s : Session) (r : Read) :
    ∃ out, serve H table s r = some out ∧ ServedAs H table (s.memo.heard H r) r.rnd out := by
  have hpos : ¬ (r.bytes.length : Int) ≤ 0 := by
    have hlen : 0 < r.bytes.length := List.length_pos_iff.mpr r.pos
    omega
  -- `recvmsg` fills the first buffer and leaves the request as it was
  obtain ⟨s', n, hrecv, hn, v0, v1, hiov, hbase, hreq⟩ : ∃ s' n,
      ioqueueSocketRecvmsg s (.data r.bytes r.fits) = (s', n) ∧ n = r.bytes.length ∧
      ∃ v0 v1, s'.iov = some (v0, v1) ∧
        (v0.base.data ++ r.behind).take r.bytes.length = r.handed ∧ s'.req = s.req :=
    ⟨_, _, rfl, rfl, _, _, rfl, handed_write _ _, rfl⟩
  have hmemo : ({ s' with nread := n } : Session).memo = s.memo := by
    simp only [Session.memo, hreq]
  obtain ⟨h, w0, w1, hh, hroute, hiov', hsettled, hcalled, hsent⟩ :=
    httpOnDataDefault_spec (H := H) hT (s := { s' with nread := n }) (m := s.memo.heard H r)
      r.behind r.handed r.rnd hiov (by rw [parserInput, hn, Int.toNat_natCast, hbase])
      (by rw [hmemo]; rfl)
  simp only [serve, hookOnDataTest, hrecv, hn, if_neg hpos]
  rw [hn] at hh
  simp only [hh, hiov']
  rw [sent] at hsent
  split
  · next hret =>
    rw [if_pos hret] at hsent
    exact ⟨_, rfl, hroute, hsettled, hcalled, hsent⟩
  · next hret =>
    rw [if_neg hret] at hsent
    exact ⟨_, rfl, hroute, hsettled, hcalled, hsent⟩

end

end Ayubd.Http
