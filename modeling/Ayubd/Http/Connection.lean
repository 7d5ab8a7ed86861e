import Ayubd.Http.Answer

/-!
# Ayubd — a keep-alive connection

A connection is a sequence of reads on one session. `Conn.run` threads the session and the
shared route table through them, and `Conn.run_spec` says that a run is the run of the
abstract session. Two consequences about what a client gets to see:

* **`outcome_independent_iff`** — when what a read leads to does not depend on the reads
  before it. The request array is reused and only partly overwritten, so a read without a URL
  is answered for the previous URL, and a URL without a query is shown with the previous
  query.
* **`responses_faithful_iff`** — when the responses are those of the requests, one each and
  in order. The parser starts afresh with every read and one response is built per read, so
  this is not so for requests that are split or merged.
-/

namespace Ayubd.Http

open Ayubd

/-! ## Runs -/

/-- The shared route table and the session of a connection. -/
structure Conn where
  table : Assoc Captcha
  session : Session

/-- A new connection to a server that has just started. -/
def Conn.fresh : Conn := ⟨routes, Session.fresh⟩

def Conn.serve (H : HttpParser) (c : Conn) (r : Read) : Option (Conn × Served Captcha) :=
  (Http.serve H c.table c.session r).map fun out =>
    (⟨out.route.getD c.table, out.session⟩, out)

def Conn.run (H : HttpParser) : Conn → List Read → Option (Conn × List (Served Captcha))
  | c, [] => some (c, [])
  | c, r :: rs =>
    match c.serve H r with
    | none => none
    | some (c, out) => (c.run H rs).map fun (c, outs) => (c, out :: outs)

/-- The memo each read is handled with, its URL being the one the read has left. -/
def Memo.trace (H : HttpParser) : Memo → List Read → List Memo
  | _, [] => []
  | m, r :: rs => m.heard H r :: (m.next H r).trace H rs

/-- What the session remembers after some reads. -/
def Memo.after (H : HttpParser) (m : Memo) (rs : List Read) : Memo := rs.foldl (Memo.next H) m

section
variable {H : HttpParser}

/-- What one read does to a connection, in terms of what its request remembers. -/
theorem Conn.serve_spec {c : Conn} (hT : Routes c.table) (r : Read) :
    ∃ c' out, c.serve H r = some (c', out) ∧ Routes c'.table ∧
      c'.session.memo = c.session.memo.next H r ∧
      ServedAs H c.table (c.session.memo.heard H r) r.rnd out := by
  obtain ⟨out, hout, hserved⟩ := Http.serve_spec (H := H) hT c.session r
  refine ⟨_, out, by rw [Conn.serve, hout, Option.map_some], ?_, hserved.memo, hserved⟩
  rw [hserved.route]
  exact hT.tableAfter _

/-- **A run is a run of the abstract session.** -/
theorem Conn.run_spec {c : Conn} (hT : Routes c.table) (rs : List Read) :
    ∃ c' outs, c.run H rs = some (c', outs) ∧ Routes c'.table ∧
      c'.session.memo = c.session.memo.after H rs ∧
      outs.map Served.message =
        List.zipWith (fun r m => answer H r.rnd (ask H m.url)) rs (c.session.memo.trace H rs) := by
  induction rs generalizing c with
  | nil => exact ⟨c, [], rfl, hT, rfl, rfl⟩
  | cons r rs ih =>
    obtain ⟨c₁, out, hserve, hT₁, hmemo, hserved⟩ := c.serve_spec (H := H) hT r
    obtain ⟨c₂, outs, hrun, hT₂, hafter, hmsgs⟩ := ih hT₁
    refine ⟨c₂, out :: outs, ?_, hT₂, ?_, ?_⟩
    · simp only [run, hserve, hrun, Option.map_some]
    · rw [hafter, hmemo]
      rfl
    · simp only [List.map_cons, Memo.trace, List.zipWith_cons_cons, hserved.message, hmsgs, hmemo]

end

/-! ## What a read leads to -/

/-- The action called, with what it is shown, and the response. -/
structure Outcome where
  called : Option (Captcha × View)
  response : Option Bytes
deriving DecidableEq

/-- What a call of the data hook led to. -/
def Served.outcome (out : Served Captcha) : Outcome :=
  ⟨out.called.map fun c => (c.1, c.2.view), out.message⟩

/-- What a read leads to after a history of reads on its session. -/
def outcomeAfter (H : HttpParser) (history : List Read) (next : Read) : Option Outcome :=
  match Conn.fresh.run H history with
  | none => none
  | some (c, _) => (c.serve H next).map fun (_, out) => out.outcome

/-- The outcome in terms of the abstract session. -/
def Memo.outcome (H : HttpParser) (m : Memo) (rnd : Int32) : Outcome :=
  ⟨m.call H, answer H rnd (ask H m.url)⟩

/-- The outcome after a history is that of the memo the history left. -/
theorem outcomeAfter_eq (H : HttpParser) (history : List Read) (next : Read) :
    outcomeAfter H history next =
      some (((Memo.fresh.after H history).heard H next).outcome H next.rnd) := by
  obtain ⟨c, outs, hrun, hT, hmemo, -⟩ := Conn.run_spec (H := H) (c := Conn.fresh) routes_self history
  obtain ⟨c', out, hserve, -, -, hserved⟩ := c.serve_spec (H := H) hT next
  have hfresh : Conn.fresh.session.memo = Memo.fresh := rfl
  simp only [outcomeAfter, hrun, hserve, Option.map_some, Served.outcome, hserved.called,
    hserved.message, hmemo, hfresh, Memo.outcome]

/-- Two memos that lead to the same: both to no answer, both to the answer that there is no
action, or both to the same URL of an action, with a query of its own unless the remembered
queries agree. -/
def Memo.Alike (H : HttpParser) (m₁ m₂ : Memo) : Prop :=
  ask H m₁.url = ask H m₂.url ∧
    ∀ a, ask H m₁.url = .action a →
      m₁.url = m₂.url ∧ (queryOf H m₁.url ≠ [] ∨ m₁.query = m₂.query)

section
variable {H : HttpParser}

/-- A URI which asks for an action gets it called, with the path and the remembered query. -/
theorem Memo.call_of_action {m : Memo} {a : Captcha} (h : ask H m.url = .action a) :
    ∃ path, pathOf H m.url = some path ∧ m.call H = some (a, View.of m.url path (m.shown H)) := by
  unfold ask at h
  cases hpath : pathOf H m.url with
  | none => simp only [hpath, reduceCtorEq] at h
  | some path =>
    simp only [hpath, askPath] at h
    cases hval : routes.value (cstr path) with
    | none => simp only [hval, reduceCtorEq] at h
    | some b =>
      simp only [hval, Ask.action.injEq] at h
      exact ⟨path, rfl, by simp only [call, hpath, hval, h]⟩

/-- Other URIs call nothing. -/
theorem Memo.call_eq_none {m : Memo} (h : ∀ a, ask H m.url ≠ .action a) : m.call H = none := by
  unfold ask askPath at h
  cases hpath : pathOf H m.url with
  | none => simp only [call, hpath]
  | some path =>
    cases hval : routes.value (cstr path) with
    | none => simp only [call, hpath, hval]
    | some a => exact absurd (by simp only [hpath, hval]) (h a)

/-- Two memos have the same outcome exactly if they are alike. -/
theorem Memo.outcome_eq_iff {m₁ m₂ : Memo} {rnd : Int32} :
    m₁.outcome H rnd = m₂.outcome H rnd ↔ Alike H m₁ m₂ := by
  constructor
  · intro h
    have hcall : m₁.call H = m₂.call H := congrArg Outcome.called h
    have hask : ask H m₁.url = ask H m₂.url := answer_injective (congrArg Outcome.response h)
    refine ⟨hask, fun a ha => ?_⟩
    obtain ⟨path₁, -, hcall₁⟩ := call_of_action ha
    obtain ⟨path₂, -, hcall₂⟩ := call_of_action (hask.symm.trans ha)
    rw [hcall₁, hcall₂, Option.some.injEq, Prod.mk.injEq] at hcall
    have hurl : m₁.url = m₂.url := congrArg View.uri hcall.2
    have hshown : m₁.shown H = m₂.shown H := congrArg View.query hcall.2
    -- an empty query is not stored, so the action is shown what is left from before
    refine ⟨hurl, ?_⟩
    by_cases hq : queryOf H m₁.url = []
    · right
      simpa only [shown, ← hurl, if_pos hq] using hshown
    · exact Or.inl hq
  · rintro ⟨hask, haction⟩
    rw [outcome, outcome, hask]
    refine congrArg (Outcome.mk · _) ?_
    by_cases hex : ∃ a, ask H m₁.url = .action a
    · obtain ⟨a, ha⟩ := hex
      obtain ⟨hurl, hquery⟩ := haction a ha
      have hshown : m₁.shown H = m₂.shown H := by
        rw [shown, shown, ← hurl]
        rcases hquery with hne | heq
        · rw [if_neg hne, if_neg hne]
        · rw [heq]
      simp only [call, hshown, hurl]
    · have hno₁ : ∀ a, ask H m₁.url ≠ .action a := fun a ha => hex ⟨a, ha⟩
      have hno₂ : ∀ a, ask H m₂.url ≠ .action a := fun a ha => hno₁ a (hask.trans ha)
      rw [call_eq_none hno₁, call_eq_none hno₂]

/-- A read that reports a URL with a query of its own, or with no action, hides its history. -/
theorem Memo.alike_of_url {m₁ m₂ : Memo} {r : Read} {url : Bytes} (hurl : r.url H = some url)
    (hquery : ∀ a, ask H url = .action a → queryOf H url ≠ []) :
    Alike H (m₁.heard H r) (m₂.heard H r) := by
  simp only [Alike, heard, hurl, Option.getD_some, true_and]
  exact fun a ha => Or.inl (hquery a ha)

end

/-- **When a read's outcome does not depend on its history.** The two runs may also differ in
what lies behind the first io vector when the read overruns it. -/
theorem outcome_independent_iff (H : HttpParser) (history₁ history₂ : List Read) (next : Read)
    (behind : Bytes) :
    outcomeAfter H history₁ next = outcomeAfter H history₂ { next with behind := behind } ↔
      Memo.Alike H ((Memo.fresh.after H history₁).heard H next)
        ((Memo.fresh.after H history₂).heard H { next with behind := behind }) := by
  rw [outcomeAfter_eq, outcomeAfter_eq, Option.some.injEq]
  exact Memo.outcome_eq_iff

def readOf (text : String) (rnd : Int32) (h : ascii text ≠ [] ∧ (ascii text).length ≤ 2 * iovChunk) :
    Read :=
  { bytes := ascii text, behind := [], rnd, pos := h.1, fits := h.2 }

/-- `GET /app/get` is shown the query of an earlier request on its connection. -/
theorem outcome_shows_old_query :
    outcomeAfter .getOnly [] (readOf "GET /app/get HTTP/1.1\r\n\r\n" 7 (by decide)) ≠
      outcomeAfter .getOnly [readOf "GET /app/get?id=1 HTTP/1.1\r\n\r\n" 3 (by decide)]
        (readOf "GET /app/get HTTP/1.1\r\n\r\n" 7 (by decide)) := by
  rw [outcomeAfter_eq, outcomeAfter_eq, ne_eq, Option.some.injEq]
  intro h
  have hcalled := congrArg (fun o => o.called.map fun c => c.2.query) h
  revert hcalled
  decide

/-! ## Requests and responses -/

/-- A well-formed request: on it, the parser reports one URL. It can arrive in a single
read. -/
structure Request (H : HttpParser) where
  bytes : Bytes
  url : Bytes
  reports : H.execute bytes = [url]
  pos : bytes ≠ []
  fits : bytes.length ≤ iovChunk

/-- Requests on a connection, and the reads in which their bytes arrive. -/
structure Delivery (H : HttpParser) where
  requests : List (Request H)
  reads : List Read
  small : ∀ r ∈ reads, r.bytes.length ≤ iovChunk
  whole : (reads.map Read.bytes).flatten = (requests.map Request.bytes).flatten

section
variable {H : HttpParser}

/-- A request that arrives alone in a single read. -/
def Request.read (q : Request H) (rnd : Int32) : Read :=
  { bytes := q.bytes, behind := [], rnd, pos := q.pos
    fits := by
      have := q.fits
      omega }

/-- The response a request gets when it arrives alone on a connection of its own. -/
def Request.alone (q : Request H) (rnd : Int32) : Option Bytes :=
  match Conn.fresh.serve H (q.read rnd) with
  | none => none
  | some (_, out) => out.message

/-- The responses to the reads, each with the random number it was built with. -/
def responses (reads : List Read) (outs : List (Served Captcha)) : List (Int32 × Bytes) :=
  (List.zipWith (fun r out => (r, out.message)) reads outs).filterMap fun p =>
    p.2.map fun msg => (p.1.rnd, msg)

/-- One response for each request, in order, and each the one its request gets alone. -/
def Delivery.Faithful (D : Delivery H) : Prop :=
  ∃ c outs, Conn.fresh.run H D.reads = some (c, outs) ∧
    List.Forall₂ (fun q p => q.alone p.1 = some p.2) D.requests (responses D.reads outs)

/-- The URL each read is answered for, `url` being the one before: the last that a new parser
reports on the read, else the one before. -/
def urlsHeard (H : HttpParser) : Bytes → List Read → List Bytes
  | _, [] => []
  | url, r :: rs =>
    let url := ((H.execute r.bytes).getLast?.map cut).getD url
    url :: urlsHeard H url rs

/-- What the reads that get an answer ask for. -/
def Delivery.asked (D : Delivery H) : List Ask :=
  ((urlsHeard H [] D.reads).map (ask H)).filter fun a => a ≠ .nothing

def Delivery.wanted (D : Delivery H) : List Ask := D.requests.map fun q => ask H (cut q.url)

/-- The response to a request on a connection of its own. -/
theorem Request.alone_eq (q : Request H) (rnd : Int32) :
    q.alone rnd = answer H rnd (ask H (cut q.url)) := by
  obtain ⟨c', out, hserve, -, -, hserved⟩ :=
    Conn.fresh.serve_spec (H := H) routes_self (q.read rnd)
  have hurl : ((Conn.fresh.session.memo).heard H (q.read rnd)).url = cut q.url := by
    have hhanded : (q.read rnd).handed = q.bytes := Read.handed_of_le q.fits
    simp only [Memo.heard, Read.url, hhanded, q.reports, List.getLast?_singleton, Option.map_some,
      Option.getD_some]
  simp only [alone, hserve, hserved.message, hurl]
  rfl

/-- On reads that do not overrun the first vector, the session goes by the URLs heard. -/
theorem Memo.trace_url {m : Memo} {reads : List Read}
    (h : ∀ r ∈ reads, r.bytes.length ≤ iovChunk) :
    (m.trace H reads).map Memo.url = urlsHeard H m.url reads := by
  induction reads generalizing m with
  | nil => rfl
  | cons r rs ih =>
    have hhanded := Read.handed_of_le (h r List.mem_cons_self)
    have hhead : (m.heard H r).url = ((H.execute r.bytes).getLast?.map cut).getD m.url := by
      rw [Memo.heard, Read.url, hhanded]
    rw [trace, List.map_cons, ih fun r' hr' => h r' (List.mem_cons_of_mem r hr'), urlsHeard, ← hhead]
    rfl

/-- The questions a connection asks are those of the URIs it remembers. -/
theorem Memo.asks_trace (m : Memo) (reads : List Read) :
    (List.zipWith (fun r m => (r.rnd, ask H m.url)) reads (m.trace H reads)).map Prod.snd =
      ((m.trace H reads).map Memo.url).map (ask H) := by
  induction reads generalizing m with
  | nil => rfl
  | cons r rs ih => simp only [trace, List.zipWith_cons_cons, List.map_cons, ih]

/-- The responses of a run, read off what its reads ask for. -/
theorem responses_eq {reads : List Read} {outs : List (Served Captcha)} {ms : List Memo}
    (h : outs.map Served.message =
      List.zipWith (fun r m => answer H r.rnd (ask H m.url)) reads ms) :
    responses reads outs =
      (List.zipWith (fun r m => (r.rnd, ask H m.url)) reads ms).filterMap fun p =>
        (answer H p.1 p.2).map fun msg => (p.1, msg) := by
  induction reads generalizing outs ms with
  | nil => rfl
  | cons r rs ih =>
    cases ms with
    | nil =>
      rw [List.zipWith_nil_right, List.map_eq_nil_iff] at h
      subst h
      rfl
    | cons m ms =>
      obtain ⟨out, outs', rfl, hout, houts⟩ := List.map_eq_cons_iff.mp h
      have hrest := ih houts
      simp only [responses, List.zipWith_cons_cons, List.filterMap_cons, hout] at hrest ⊢
      rw [hrest]

/-- The answers that are sent are the wanted ones exactly if what is asked for is. -/
theorem forall₂_answers {asks : List (Int32 × Ask)} {wanted : List Ask} :
    List.Forall₂ (fun q p => answer H p.1 q = some p.2) wanted
        (asks.filterMap fun p => (answer H p.1 p.2).map fun msg => (p.1, msg)) ↔
      (asks.map Prod.snd).filter (fun a => a ≠ .nothing) = wanted := by
  induction asks generalizing wanted with
  | nil =>
    rw [List.filterMap_nil, List.forall₂_nil_right_iff]
    exact eq_comm
  | cons p asks ih =>
    obtain ⟨rnd, a⟩ := p
    by_cases ha : a = .nothing
    · -- nothing is sent, and nothing is counted
      subst ha
      simpa [answer] using ih
    · obtain ⟨msg, hmsg⟩ : ∃ msg, answer H rnd a = some msg := by
        cases a with
        | nothing => exact absurd rfl ha
        | unknown => exact ⟨_, rfl⟩
        | action a => exact ⟨_, rfl⟩
      simp only [List.filterMap_cons, hmsg, Option.map_some, List.map_cons]
      rw [List.filter_cons_of_pos (by simpa using ha), List.forall₂_cons_right_iff]
      constructor
      · rintro ⟨q, wanted', hq, hrest, rfl⟩
        rw [ih.mp hrest, answer_injective (hmsg.trans hq.symm)]
      · intro hwanted
        exact ⟨a, _, hmsg, ih.mpr rfl, hwanted.symm⟩

end

/-- **When the responses are those of the requests.** -/
theorem responses_faithful_iff (H : HttpParser) (D : Delivery H) :
    D.Faithful ↔ D.asked = D.wanted := by
  obtain ⟨c, outs, hrun, -, -, hmsgs⟩ :=
    Conn.run_spec (H := H) (c := Conn.fresh) routes_self D.reads
  have hasked := Memo.asks_trace (H := H) Conn.fresh.session.memo D.reads
  rw [Memo.trace_url D.small] at hasked
  have hfaithful : D.Faithful ↔
      List.Forall₂ (fun q p => q.alone p.1 = some p.2) D.requests (responses D.reads outs) := by
    constructor
    · rintro ⟨c', outs', hrun', hall⟩
      rw [hrun, Option.some.injEq, Prod.mk.injEq] at hrun'
      rw [hrun'.2]
      exact hall
    · exact fun hall => ⟨c, outs, hrun, hall⟩
  simp only [Request.alone_eq] at hfaithful
  have hurl : Conn.fresh.session.memo.url = [] := rfl
  rw [hurl] at hasked
  rw [hfaithful, responses_eq hmsgs, Delivery.asked, ← hasked, ← forall₂_answers (H := H),
    Delivery.wanted, List.forall₂_map_left_iff]

/-- Reads of one whole request each are answered for the requests' URLs. -/
theorem urlsHeard_of_unsplit {H : HttpParser} {reads : List Read} {requests : List (Request H)}
    (h : reads.map Read.bytes = requests.map Request.bytes) (url : Bytes) :
    urlsHeard H url reads = requests.map fun q => cut q.url := by
  induction reads generalizing requests url with
  | nil =>
    rw [List.map_eq_nil_iff.mp h.symm]
    rfl
  | cons r rs ih =>
    obtain ⟨q, qs, rfl, hq, hqs⟩ := List.map_eq_cons_iff.mp h.symm
    simp only [urlsHeard, ← hq, q.reports, List.getLast?_singleton, Option.map_some,
      Option.getD_some, List.map_cons, ih hqs.symm]

/-- One whole request in each read is enough, if every request asks for something. -/
theorem Delivery.asked_of_unsplit {H : HttpParser} {D : Delivery H}
    (hsplit : D.reads.map Read.bytes = D.requests.map Request.bytes)
    (hask : ∀ q ∈ D.requests, ask H (cut q.url) ≠ .nothing) : D.asked = D.wanted := by
  rw [asked, urlsHeard_of_unsplit hsplit, wanted, List.map_map]
  refine List.filter_eq_self.mpr fun a ha => ?_
  obtain ⟨q, hq, rfl⟩ := List.mem_map.mp ha
  exact decide_eq_true (hask q hq)

/-- Faithful deliveries have one read for each request at least. -/
theorem Delivery.Faithful.length_le {H : HttpParser} {D : Delivery H} (h : D.Faithful) :
    D.requests.length ≤ D.reads.length := by
  obtain ⟨c, outs, -, hall⟩ := h
  rw [hall.length_eq, responses]
  refine (List.length_filterMap_le _ _).trans ?_
  rw [List.length_zipWith]
  exact Nat.min_le_left _ _

def getRequest (url : String)
    (h : HttpParser.getOnly.execute (ascii ("GET " ++ url ++ " HTTP/1.1\r\n\r\n")) = [ascii url] ∧
      ascii ("GET " ++ url ++ " HTTP/1.1\r\n\r\n") ≠ [] ∧
      (ascii ("GET " ++ url ++ " HTTP/1.1\r\n\r\n")).length ≤ iovChunk) :
    Request .getOnly where
  bytes := ascii ("GET " ++ url ++ " HTTP/1.1\r\n\r\n")
  url := ascii url
  reports := h.1
  pos := h.2.1
  fits := h.2.2

def pipelined : Delivery .getOnly where
  requests := [getRequest "/app/get" (by decide), getRequest "/app/verify" (by decide)]
  reads := [readOf "GET /app/get HTTP/1.1\r\n\r\nGET /app/verify HTTP/1.1\r\n\r\n" 7 (by decide)]
  small := by decide
  whole := by decide

/-- The first of two merged requests gets no response. -/
theorem pipelined_not_faithful : ¬ pipelined.Faithful := by
  intro h
  have hlen := h.length_le
  revert hlen
  decide

end Ayubd.Http
