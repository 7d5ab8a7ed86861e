import Ayubd.Session.PoolInv

/-!
# Ayubd — the session that the memory holds

`Ayubd.Http` models a session as a value: the contents of its io vectors, of its request and of its
response array. Here that value is read off the memory, and one round with pointers is shown to do
to it what one round without them does.

* **`Ok.view_hookOnDataTest`** — a round changes the value as `Http.hookOnDataTest` says and sends
  the same message.
-/

namespace Ayubd.Session

open Ayubd

/-- The io vectors of a hook, with their buffers. -/
def Proc.viewIov (p : Proc) : Option (Http.Iov × Http.Iov) :=
  match p.hook.own .msghdr with
  | none => none
  | some imsg =>
    match p.vectors imsg with
    | [x0, x1] => some (p.iov x0, p.iov x1)
    | _ => none

/-- **The session of a hook**, as a value. -/
def Proc.view (p : Proc) : Http.Session where
  nread := p.hook.nread
  iov := p.viewIov
  req := (p.hook.own .req).map fun a => (p.mem.cell a).req
  resp := (p.hook.own .resp).map fun a => (p.mem.cell a).resp
  overflow := p.hook.overflow

variable {p p' p'' : Proc} {a : Addr}

/-! ## What it depends on -/

section
variable {imsg iov : Addr} {x0 x1 : Iovec}

/-- The vectors of a wired session are seen as their two buffers. -/
theorem Wired.viewIov (hw : Wired p imsg iov x0 x1) (himsg : p.hook.own .msghdr = some imsg) :
    p.viewIov = some (p.iov x0, p.iov x1) := by
  simp only [Proc.viewIov, himsg, hw.vectors_eq]

theorem viewIov_bare (himsg : p.hook.own .msghdr = some imsg)
    (hnone : (p.mem.cell imsg).msghdr.msgIov = none) : p.viewIov = none := by
  simp only [Proc.viewIov, Proc.vectors, himsg, hnone]

/-- The vectors seen depend on the hook's own blocks only. -/
theorem Ok.viewIov_congr (hp : Ok p) (hown : p'.hook.own .msghdr = p.hook.own .msghdr)
    (hcells : ∀ a ∈ p.hook.mp, p'.mem.cell a = p.mem.cell a) : p'.viewIov = p.viewIov := by
  cases himsg : p.hook.own .msghdr with
  | none =>
    rw [himsg] at hown
    simp only [Proc.viewIov, himsg, hown]
  | some imsg =>
    rw [himsg] at hown
    have hcell := hcells imsg (hp.slots _ _ himsg)
    rcases hp.header imsg himsg with hnone | ⟨iov, x0, x1, hw⟩
    · rw [viewIov_bare himsg hnone, viewIov_bare hown (by rw [hcell]; exact hnone)]
    · have hvectors : p'.vectors imsg = [x0, x1] := by
        unfold Proc.vectors
        rw [hcell, hw.msgIov]
        show (p'.mem.cell iov).vectors = _
        rw [hcells iov hw.mem_iov]
        exact hw.vectors
      rw [hw.viewIov himsg]
      simp only [Proc.viewIov, hown, hvectors, Proc.iov, hcells _ (hw.mem0 hp),
        hcells _ (hw.mem1 hp)]

end

/-- The request and the response array are as they were, and so are the numbers in the hook. -/
structure SameArrays (p p' : Proc) : Prop where
  mp : ∀ a ∈ p.hook.mp, a ∈ p'.hook.mp
  nread : p'.hook.nread = p.hook.nread
  overflow : p'.hook.overflow = p.hook.overflow
  ownReq : p'.hook.own .req = p.hook.own .req
  ownResp : p'.hook.own .resp = p.hook.own .resp
  req : ∀ a ∈ p.hook.mp, (p'.mem.cell a).req = (p.mem.cell a).req
  resp : ∀ a ∈ p.hook.mp, (p'.mem.cell a).resp = (p.mem.cell a).resp

theorem SameArrays.trans (h : SameArrays p p') (h' : SameArrays p' p'') : SameArrays p p'' where
  mp a ha := h'.mp a (h.mp a ha)
  nread := h'.nread.trans h.nread
  overflow := h'.overflow.trans h.overflow
  ownReq := h'.ownReq.trans h.ownReq
  ownResp := h'.ownResp.trans h.ownResp
  req a ha := (h'.req a (h.mp a ha)).trans (h.req a ha)
  resp a ha := (h'.resp a (h.mp a ha)).trans (h.resp a ha)

/-- A write which leaves request and response keeps their arrays. -/
theorem sameArrays_setCell {f : Cell → Cell} (hreq : ∀ c, (f c).req = c.req)
    (hresp : ∀ c, (f c).resp = c.resp) : SameArrays p (p.setCell a f) :=
  ⟨fun _ ha => ha, rfl, rfl, rfl, rfl, fun b _ => field_setCell Cell.req hreq b,
    fun b _ => field_setCell Cell.resp hresp b⟩

theorem Ok.sameArrays (hp : Ok p) (h : Allocates p p') : SameArrays p p' := by
  have hcells : ∀ a ∈ p.hook.mp, p'.mem.cell a = p.mem.cell a := fun a ha => h.old a (hp.addrs ha)
  refine ⟨fun a ha => h.mp ha, ?_, ?_, congrFun h.own _, congrFun h.own _, fun a ha => ?_,
    fun a ha => ?_⟩
  · rw [h.hook]
  · rw [h.hook]
  · rw [hcells a ha]
  · rw [hcells a ha]

/-- What is in the array of a slot. -/
theorem Ok.map_own_congr (hp : Ok p) {β : Type} (g : Cell → β) (slot : Slot)
    (hown : p'.hook.own slot = p.hook.own slot)
    (hcells : ∀ a ∈ p.hook.mp, g (p'.mem.cell a) = g (p.mem.cell a)) :
    (p'.hook.own slot).map (fun a => g (p'.mem.cell a)) =
      (p.hook.own slot).map fun a => g (p.mem.cell a) := by
  rw [hown]
  cases hslot : p.hook.own slot with
  | none => rfl
  | some a => rw [Option.map_some, Option.map_some, hcells a (hp.slots _ _ hslot)]

/-- With the same arrays only the vectors seen may differ. -/
theorem Ok.view_of_sameArrays (hp : Ok p) (h : SameArrays p p') :
    p'.view = { p.view with iov := p'.viewIov } := by
  have hreq := hp.map_own_congr Cell.req .req h.ownReq h.req
  have hresp := hp.map_own_congr Cell.resp .resp h.ownResp h.resp
  unfold Proc.view
  rw [h.nread, h.overflow, hreq, hresp]

theorem own_setSlot_self (p : Proc) (slot : Slot) (a : Addr) :
    (p.setSlot slot a).hook.own slot = some a := by
  show Function.update p.hook.own slot (some a) slot = some a
  exact Function.update_self _ _ _

theorem iov_setCell {f : Cell → Cell} (hf : ∀ c, (f c).chunk = c.chunk) (v : Iovec) :
    (p.setCell a f).iov v = p.iov v := by
  unfold Proc.iov
  rw [field_setCell Cell.chunk hf]

/-! ## Receiving -/

section
variable {imsg iov : Addr} {x0 x1 : Iovec} {m : Malloc}

/-- A header without io vectors makes no difference. -/
theorem Ok.view_ensure_msghdr (hp : Ok p) (h : p.ensure .msghdr (Proc.makeMsghdr m) = (imsg, p')) :
    p'.view = p.view := by
  cases hslot : p.hook.own .msghdr with
  | some b =>
    rw [ensure_of_some hslot] at h
    cases h
    rfl
  | none =>
    rw [ensure_of_none hslot] at h
    cases h
    have hmade := made_makeMsghdr m p
    have hset : SameArrays (p.makeMsghdr m).2
        ((p.makeMsghdr m).2.setSlot .msghdr (p.makeMsghdr m).1) :=
      ⟨fun _ ha => ha, rfl, rfl, rfl, rfl, fun _ _ => rfl, fun _ _ => rfl⟩
    have hbare := viewIov_bare (own_setSlot_self (p.makeMsghdr m).2 .msghdr (p.makeMsghdr m).1)
      (msgIov_makeMsghdr m p)
    have hnone : p.viewIov = none := by simp only [Proc.viewIov, hslot]
    rw [hp.view_of_sameArrays ((hp.sameArrays hmade.toAllocates).trans hset), hbare, ← hnone]
    rfl

/-- New io vectors are those of `IOV_ZALLOC`. -/
theorem Ok.view_newVectors (hp : Ok p) (himsg : p.hook.own .msghdr = some imsg) :
    (p.newVectors m imsg).view = { p.view with iov := some (.zalloc, .zalloc) } := by
  obtain ⟨iov, x0, x1, p₁, hmade, h0, h1, -, hnew⟩ := newVectors_eq m imsg p
  have harray : SameArrays p₁ (p₁.setCell iov fun c => { c with vectors := [x0, x1] }) :=
    sameArrays_setCell (fun _ => rfl) fun _ => rfl
  have hlink : SameArrays (p₁.setCell iov fun c => { c with vectors := [x0, x1] })
      (p.newVectors m imsg) := by
    rw [hnew]
    exact sameArrays_setCell (fun _ => rfl) fun _ => rfl
  have hiov : (p.newVectors m imsg).viewIov = some (.zalloc, .zalloc) := by
    have hown : (p.newVectors m imsg).hook.own .msghdr = some imsg := by
      rw [hnew]
      exact (congrFun hmade.own _).trans himsg
    have hmsgIov : ((p.newVectors m imsg).mem.cell imsg).msghdr.msgIov = some iov := by
      rw [hnew, cell_setCell]
    have hvectors : ((p.newVectors m imsg).mem.cell iov).vectors = [x0, x1] := by
      rw [hnew]
      apply (field_setCell Cell.vectors _ iov).trans
      · rw [cell_setCell]
      · exact fun _ => rfl
    -- the two writes after the allocation leave the buffers zero
    have hchunk : ∀ v, Zalloced p₁ v → (p.newVectors m imsg).iov v = .zalloc := by
      intro v hv
      have hv' : p₁.iov v = .zalloc := by
        unfold Proc.iov
        rw [hv.zero, hv.len]
        rfl
      rw [← hv', hnew]
      apply (iov_setCell _ v).trans
      · apply iov_setCell
        exact fun _ => rfl
      · exact fun _ => rfl
    simp only [Proc.viewIov, Proc.vectors, hown, hmsgIov, hvectors, hchunk x0 h0, hchunk x1 h1]
  rw [hp.view_of_sameArrays (((hp.sameArrays hmade.toAllocates).trans harray).trans hlink), hiov]

/-- **The io vectors before `recvmsg`**: new, or as they were with their full length. -/
theorem Ok.view_resetVectors (hp : Ok p) (himsg : p.hook.own .msghdr = some imsg) :
    (p.resetVectors m imsg).view = { p.view with iov := some p.view.vectors } := by
  rcases hp.header imsg himsg with hnone | ⟨iov, x0, x1, hw⟩
  · have hvectors : p.view.vectors = (.zalloc, .zalloc) := by
      simp only [Http.Session.vectors, Proc.view, viewIov_bare himsg hnone]
    rw [hvectors]
    simp only [Proc.resetVectors, hnone]
    exact hp.view_newVectors himsg
  · have hvectors : p.view.vectors = ((p.iov x0).reset, (p.iov x1).reset) := by
      simp only [Http.Session.vectors, Proc.view, hw.viewIov himsg]
    have hwired := hw.setVectors iovChunk iovChunk
      (f := fun c => { c with vectors := c.vectors.map fun v => ⟨v.iovBase, iovChunk⟩ })
      (fun _ => rfl) (by simp only [hw.vectors, List.map_cons, List.map_nil])
    have hsame : SameArrays p (p.setCell iov fun c =>
        { c with vectors := c.vectors.map fun v => ⟨v.iovBase, iovChunk⟩ }) :=
      sameArrays_setCell (fun _ => rfl) fun _ => rfl
    have hbuffers : ∀ v, (p.setCell iov fun c =>
        { c with vectors := c.vectors.map fun v => ⟨v.iovBase, iovChunk⟩ }).iov v = p.iov v :=
      iov_setCell fun _ => rfl
    have hiov := hwired.viewIov himsg
    rw [hbuffers, hbuffers] at hiov
    simp only [Proc.resetVectors, hw.msgIov, hw.iovlen, OfNat.ofNat_ne_zero, if_false]
    rw [hp.view_of_sameArrays hsame, hiov, hvectors]
    rfl

/-- What is read goes to the vectors only. -/
theorem sameArrays_scatter (vs : List Iovec) (bytes : Bytes) (p : Proc) :
    SameArrays p (p.scatter vs bytes) := by
  induction vs generalizing bytes p with
  | nil => exact ⟨fun _ ha => ha, rfl, rfl, rfl, rfl, fun _ _ => rfl, fun _ _ => rfl⟩
  | cons v vs ih =>
    unfold Proc.scatter
    split
    · next hfits =>
      have hfirst : SameArrays p (p.setCell v.iovBase fun c =>
          { c with chunk := c.chunk.write (bytes.take v.iovLen) hfits }) :=
        sameArrays_setCell (fun _ => rfl) fun _ => rfl
      exact hfirst.trans (ih _ _)
    · exact ⟨fun _ ha => ha, rfl, rfl, rfl, rfl, fun _ _ => rfl, fun _ _ => rfl⟩

/-- The kernel fills the first buffer and then the second. -/
theorem Reset.iov_scatter (h : Reset p imsg iov x0 x1) {bytes : Bytes}
    (h0 : (bytes.take iovChunk).length ≤ iovChunk)
    (h1 : (bytes.drop iovChunk).length ≤ iovChunk) :
    (p.scatter [x0, x1] bytes).iov x0 = ⟨(p.iov x0).base.write (bytes.take iovChunk) h0, iovChunk⟩ ∧
      (p.scatter [x0, x1] bytes).iov x1 =
        ⟨(p.iov x1).base.write (bytes.drop iovChunk) h1, iovChunk⟩ := by
  obtain ⟨b0, l0⟩ := x0
  obtain ⟨b1, l1⟩ := x1
  obtain rfl : l0 = iovChunk := h.len0
  obtain rfl : l1 = iovChunk := h.len1
  have hne : b0 ≠ b1 := h.ne
  have htake : (bytes.drop iovChunk).take iovChunk = bytes.drop iovChunk :=
    List.take_of_length_le h1
  have hscatter : p.scatter [⟨b0, iovChunk⟩, ⟨b1, iovChunk⟩] bytes =
      (p.setCell b0 fun c => { c with chunk := c.chunk.write (bytes.take iovChunk) h0 }).setCell b1
        fun c => { c with chunk := c.chunk.write (bytes.drop iovChunk) h1 } := by
    simp only [Proc.scatter, htake, h0, h1, dif_pos]
  rw [hscatter]
  unfold Proc.iov
  constructor
  · rw [cell_setCell_of_ne hne, cell_setCell]
  · rw [cell_setCell, cell_setCell_of_ne hne.symm]

/-- **`ioqueue_socket_recvmsg`** does to the value what it does without pointers. -/
theorem Ok.view_ioqueueSocketRecvmsg (hp : Ok p) {recv : Http.Recv} {passed : Passed} {n : Int}
    (h : Session.ioqueueSocketRecvmsg m recv p = (passed, n, p')) :
    Http.ioqueueSocketRecvmsg p.view recv = (p'.view, n) := by
  rcases hensure : p.ensure .msghdr (Proc.makeMsghdr m) with ⟨imsg, p₁⟩
  have hgood₁ := hp.ensure .msghdr (made_makeMsghdr m p) fun _ => msgIov_makeMsghdr m p
  have hown₁ := own_ensure .msghdr (made_makeMsghdr m p)
  rw [hensure] at hgood₁ hown₁
  have himsg₁ : p₁.hook.own .msghdr = some imsg := by
    rw [hown₁]
    exact Function.update_self _ _ _
  obtain ⟨hgood₂, hown₂, iov, x0, x1, hreset⟩ := hgood₁.ok.resetVectors himsg₁ m
  have himsg₂ : (p₁.resetVectors m imsg).hook.own .msghdr = some imsg :=
    (congrFun hown₂ _).trans himsg₁
  have hview₂ := hgood₁.ok.view_resetVectors (m := m) himsg₁
  rw [hp.view_ensure_msghdr hensure] at hview₂
  -- the vectors after the reset are those the view starts with
  have hvectors : p.view.vectors = ((p₁.resetVectors m imsg).iov x0,
      (p₁.resetVectors m imsg).iov x1) := by
    have hiov : (p₁.resetVectors m imsg).viewIov = some p.view.vectors :=
      congrArg Http.Session.iov hview₂
    rw [hreset.toWired.viewIov himsg₂, Option.some.injEq] at hiov
    exact hiov.symm
  cases recv with
  | error =>
    simp only [Session.ioqueueSocketRecvmsg, hensure, Prod.mk.injEq] at h
    obtain ⟨-, rfl, rfl⟩ := h
    rw [hview₂]
    rfl
  | data bytes fits =>
    simp only [Session.ioqueueSocketRecvmsg, hensure, hreset.vectors_eq, Prod.mk.injEq] at h
    obtain ⟨-, rfl, rfl⟩ := h
    have h1 : (bytes.drop iovChunk).length ≤ iovChunk := by
      rw [List.length_drop]
      omega
    obtain ⟨hfirst, hsecond⟩ := hreset.iov_scatter (List.length_take_le _ _) h1
    have hwrites := hreset.writes_scatter hgood₂.ok bytes
    have hiov := (hreset.toWired.writes hwrites).viewIov (hwrites.own ▸ himsg₂)
    rw [hgood₂.ok.view_of_sameArrays (sameArrays_scatter _ bytes _), hiov, hfirst, hsecond, hview₂]
    simp only [Http.ioqueueSocketRecvmsg, hvectors]
    rw [show ((p₁.resetVectors m imsg).iov x0).len = iovChunk from hreset.len0,
      show ((p₁.resetVectors m imsg).iov x1).len = iovChunk from hreset.len1]

end

/-! ## Handling -/

section
variable {slot : Slot} {m : Malloc}

/-- Filling another slot changes no vector seen. -/
theorem Filled.viewIov (f : Filled slot p a p') (hp : Ok p) : p'.viewIov = p.viewIov :=
  hp.viewIov_congr f.msghdr f.old

theorem Filled.own_of_ne (f : Filled slot p a p') (slot' : Slot) (hne : slot' ≠ slot) :
    p'.hook.own slot' = p.hook.own slot' := by
  rw [f.own]
  exact Function.update_of_ne hne _ _

theorem Filled.own_self (f : Filled slot p a p') : p'.hook.own slot = some a := by
  rw [f.own]
  exact Function.update_self _ _ _

/-- The array in another slot. -/
theorem Filled.map_own (f : Filled slot p a p') (hp : Ok p) {β : Type} (g : Cell → β)
    (slot' : Slot) (hne : slot' ≠ slot) :
    (p'.hook.own slot').map (fun b => g (p'.mem.cell b)) =
      (p.hook.own slot').map fun b => g (p.mem.cell b) := by
  apply hp.map_own_congr g slot' (f.own_of_ne slot' hne)
  intro b hb
  rw [f.old b hb]

/-- The slots of the parser are not part of the session. -/
theorem Filled.view_parser (f : Filled slot p a p') (hp : Ok p) (hreq : .req ≠ slot)
    (hresp : .resp ≠ slot) : p'.view = p.view := by
  unfold Proc.view
  rw [f.nread, f.overflow, f.viewIov hp, f.map_own hp Cell.req .req hreq,
    f.map_own hp Cell.resp .resp hresp]

/-- A filled request slot is seen as the request in it. -/
theorem Filled.view_req (f : Filled .req p a p') (hp : Ok p) :
    p'.view = { p.view with req := some (p'.mem.cell a).req } := by
  unfold Proc.view
  rw [f.nread, f.overflow, f.viewIov hp, f.own_self, f.map_own hp Cell.resp .resp nofun]
  rfl

/-- A filled response slot is seen as the response in it. -/
theorem Filled.view_resp (f : Filled .resp p a p') (hp : Ok p) :
    p'.view = { p.view with resp := some (p'.mem.cell a).resp } := by
  unfold Proc.view
  rw [f.nread, f.overflow, f.viewIov hp, f.own_self, f.map_own hp Cell.req .req nofun]
  rfl

/-- The request array, new or as the last request has left it. -/
theorem req_ensure (h : p.ensure .req (Proc.makeReq m) = (a, p')) :
    (p'.mem.cell a).req = p.view.req.getD .zalloc := by
  unfold Proc.view
  cases hslot : p.hook.own .req with
  | some b =>
    rw [ensure_of_some hslot] at h
    cases h
    rfl
  | none =>
    rw [ensure_of_none hslot] at h
    cases h
    exact congrArg Cell.req (allocates_makeReq m p).zalloced

/-- The response is the one in the slot, or a zeroed one. -/
theorem resp_ensure (h : p.ensure .resp (Proc.makeResp m) = (a, p')) :
    (p'.mem.cell a).resp = p.view.resp.getD .zalloc := by
  unfold Proc.view
  cases hslot : p.hook.own .resp with
  | some b =>
    rw [ensure_of_some hslot] at h
    cases h
    rfl
  | none =>
    rw [ensure_of_none hslot] at h
    cases h
    exact congrArg Cell.resp (allocates_makeResp m p).zalloced

end

section
variable {α : Type} (H : HttpParser) (act : α → Http.Req → Http.Resp → Int32 → Http.Resp × Bool)
  (route : Option (Assoc α)) (behind : Bytes) (rnd : Int32)

/-- What `http_on_data_default` does to a session with io vectors. -/
theorem httpOnDataDefault_of_iov {s : Http.Session} {v0 v1 : Http.Iov}
    (hiov : s.iov = some (v0, v1)) :
    let r := Http.httpRoute H act route ((H.execute (Http.parserInput v0 s.nread behind)).foldl
      Http.onUrlCb (s.req.getD .zalloc)) (s.resp.getD .zalloc) rnd
    let out := Http.httpRespond H v0 v1 r.code r.str r.strlen
    Http.httpOnDataDefault H act route s behind rnd = some ⟨r.route, ⟨s.nread,
      some (out.1, out.2.1), some r.req, some r.resp, s.overflow || r.overflow⟩, r.called,
      out.2.2⟩ := by
  simp only [Http.httpOnDataDefault, hiov]

variable {imsg iov : Addr} {x0 x1 : Iovec}

section
variable {req resp : Addr} (r : Http.Routed α)

theorem mem_store : (p.store req resp r).mem =
    ((p.setCell req fun c => { c with req := r.req }).setCell resp
      fun c => { c with resp := r.resp }).mem := rfl

/-- Everything else in the blocks is left alone. -/
theorem field_store {β : Type} (g : Cell → β) (hreq : ∀ c x, g { c with req := x } = g c)
    (hresp : ∀ c x, g { c with resp := x } = g c) (b : Addr) :
    g ((p.store req resp r).mem.cell b) = g (p.mem.cell b) := by
  rw [mem_store]
  apply (field_setCell g (fun c => hresp c _) b).trans
  exact field_setCell g (fun c => hreq c _) b

theorem iov_store (v : Iovec) : (p.store req resp r).iov v = p.iov v := by
  unfold Proc.iov
  rw [field_store r Cell.chunk (fun _ _ => rfl) fun _ _ => rfl]

theorem viewIov_store : (p.store req resp r).viewIov = p.viewIov := by
  unfold Proc.viewIov Proc.vectors
  rw [show (p.store req resp r).hook.own = p.hook.own from rfl]
  simp only [field_store r Cell.msghdr (fun _ _ => rfl) fun _ _ => rfl,
    field_store r Cell.vectors (fun _ _ => rfl) fun _ _ => rfl, iov_store]

/-- What routing leaves goes to the two arrays. -/
theorem view_store (hreq : p.hook.own .req = some req) (hresp : p.hook.own .resp = some resp) :
    (p.store req resp r).view =
      ⟨p.hook.nread, p.viewIov, some r.req, some r.resp, p.hook.overflow || r.overflow⟩ := by
  have hreq' : ((p.store req resp r).mem.cell req).req = r.req := by
    rw [mem_store]
    apply (field_setCell Cell.req _ req).trans
    · rw [cell_setCell]
    · exact fun _ => rfl
  have hresp' : ((p.store req resp r).mem.cell resp).resp = r.resp := by
    rw [mem_store, cell_setCell]
  unfold Proc.view
  rw [viewIov_store, show (p.store req resp r).hook.own = p.hook.own from rfl, hreq, hresp,
    Option.map_some, Option.map_some, hreq', hresp']
  rfl

end

/-- The two buffers that have been formatted. -/
theorem iov_setIovs (iov : Addr) (hne : x0.iovBase ≠ x1.iovBase) (v0 v1 : Http.Iov) :
    (p.setIovs iov x0 x1 v0 v1).iov ⟨x0.iovBase, v0.len⟩ = v0 ∧
      (p.setIovs iov x0 x1 v0 v1).iov ⟨x1.iovBase, v1.len⟩ = v1 := by
  have hbuffers : ∀ v, (p.setIovs iov x0 x1 v0 v1).iov v =
      ((p.setCell x1.iovBase fun c => { c with chunk := v1.base }).setCell x0.iovBase
        fun c => { c with chunk := v0.base }).iov v := iov_setCell fun _ => rfl
  rw [hbuffers, hbuffers]
  unfold Proc.iov
  constructor
  · rw [cell_setCell]
  · rw [cell_setCell_of_ne hne.symm, cell_setCell]

theorem sameArrays_setIovs (v0 v1 : Http.Iov) : SameArrays p (p.setIovs iov x0 x1 v0 v1) := by
  unfold Proc.setIovs
  refine ((sameArrays_setCell ?_ ?_).trans (sameArrays_setCell ?_ ?_)).trans
    (sameArrays_setCell ?_ ?_) <;> exact fun _ => rfl

/-- **The response** is what it is without pointers, and so is what is left behind. -/
theorem Ok.view_respond (hp : Ok p) (himsg : p.hook.own .msghdr = some imsg)
    (hw : Wired p imsg iov x0 x1) {req resp : Addr} (hreq : p.hook.own .req = some req)
    (hresp : p.hook.own .resp = some resp) :
    let out := Session.respond H act route behind rnd req resp iov x0 x1 p
    ∃ r, Http.httpOnDataDefault H act route p.view behind rnd = some r ∧ r.session = out.1.view ∧
      r.ret = out.2 := by
  intro out
  have hview : p.view = ⟨p.hook.nread, some (p.iov x0, p.iov x1), some (p.mem.cell req).req,
      some (p.mem.cell resp).resp, p.hook.overflow⟩ := by
    unfold Proc.view
    rw [hw.viewIov himsg, hreq, hresp]
    rfl
  rw [hview, httpOnDataDefault_of_iov H act route behind rnd rfl]
  simp only [Option.getD_some]
  generalize hr : Http.httpRoute H act route _ _ rnd = r
  generalize hv : Http.httpRespond H (p.iov x0) (p.iov x1) r.code r.str r.strlen = v
  have hout : out = ((p.store req resp r).setIovs iov x0 x1 v.1 v.2.1, v.2.2) := by
    rw [← hv, ← iov_store r x0, ← iov_store r x1, ← hr]
    rfl
  have hwrites := writes_store (hp.slots _ _ hreq) (hp.slots _ _ hresp) r
  have hok := (hp.writes hwrites).ok
  obtain ⟨-, hwired⟩ := hok.setIovs (hwrites.own ▸ himsg) (hw.writes hwrites) v.1 v.2.1
  have hiov := hwired.viewIov (hwrites.own ▸ himsg)
  obtain ⟨hfirst, hsecond⟩ := iov_setIovs (p := p.store req resp r) iov hw.ne v.1 v.2.1
  rw [hfirst, hsecond] at hiov
  refine ⟨_, rfl, ?_, ?_⟩
  · rw [hout, hok.view_of_sameArrays (sameArrays_setIovs v.1 v.2.1), hiov, view_store r hreq hresp]
  · rw [hout]

/-- **`http_on_data_default`** on the value. -/
theorem Ok.view_httpOnDataDefault (hp : Ok p) (himsg : p.hook.own .msghdr = some imsg)
    (hw : Wired p imsg iov x0 x1) {m : Malloc} {ret : Nat}
    (h : Session.httpOnDataDefault H act m route behind rnd p = some (p', ret)) :
    ∃ r, Http.httpOnDataDefault H act route p.view behind rnd = some r ∧ r.session = p'.view ∧
      r.ret = ret := by
  obtain ⟨settings, p₁, req, p₂, parser, p₃, resp, p₄, f₁, f₂, f₃, f₄, hreq, hresp, himsg₄, hw₄,
    hcode⟩ := hp.httpOnDataDefault_eq H act himsg hw m route behind rnd
  have hview₁ := f₁.view_parser hp nofun nofun
  have hview₂ := f₂.view_req f₁.ok
  have hview₃ := f₃.view_parser f₂.ok nofun nofun
  have hview₄ := f₄.view_resp f₃.ok
  rw [req_ensure hreq, hview₁] at hview₂
  rw [resp_ensure hresp, hview₃, hview₂] at hview₄
  -- arrays that have just been allocated make no difference
  have hsame : Http.httpOnDataDefault H act route p₄.view behind rnd =
      Http.httpOnDataDefault H act route p.view behind rnd := by
    rw [hview₄]
    rfl
  have hown : p₄.hook.own .req = some req :=
    (f₄.own_of_ne .req nofun).trans ((f₃.own_of_ne .req nofun).trans f₂.own_self)
  obtain ⟨r, hr, hsession, hret⟩ :=
    f₄.ok.view_respond H act route behind rnd himsg₄ hw₄ hown f₄.own_self
  rw [hcode, Option.some.injEq] at h
  rw [h] at hsession hret
  exact ⟨r, hsame ▸ hr, hsession, hret⟩

/-! ## One round -/

/-- **A round with pointers refines one without**: it does the same to the session and sends the
same message, which is what is in the io vectors that `sendmsg` is given. -/
theorem Ok.view_hookOnDataTest (hp : Ok p) {m : Malloc} {recv : Http.Recv} {calls : Calls}
    (h : Session.hookOnDataTest H act m route recv behind rnd p = some (p', calls)) :
    ∃ served, Http.hookOnDataTest H act route p.view recv behind rnd = some served ∧
      served.session = p'.view ∧
      served.message = calls.send.map fun s => s.1.vectors.flatMap fun v => (p'.iov v).bytes := by
  rcases hrecv : Session.ioqueueSocketRecvmsg m recv p with ⟨passed, n, p₁⟩
  obtain ⟨hgood₁, -, -, imsg, iov, x0, x1, hown₁, hw₁⟩ := hp.ioqueueSocketRecvmsg hrecv
  have hview₁ := hp.view_ioqueueSocketRecvmsg hrecv
  have hnread := writes_nread p₁ n
  have hok₂ := (hgood₁.ok.writes hnread).ok
  have hw₂ := hw₁.writes hnread
  have hview₂ : ({ p₁ with hook := { p₁.hook with nread := n } } : Proc).view =
      { p₁.view with nread := n } := rfl
  have himsg₂ : p₁.hook.own .msghdr = some imsg := by
    rw [hown₁]
    exact Function.update_self _ _ _
  simp only [Session.hookOnDataTest, hrecv] at h
  simp only [Http.hookOnDataTest, hview₁, ← hview₂]
  generalize hp₂ : ({ p₁ with hook := { p₁.hook with nread := n } } : Proc) = p₂ at *
  -- both sides return at once, or both handle the request
  by_cases hn : n ≤ 0
  · rw [if_pos hn] at h ⊢
    cases h
    exact ⟨_, rfl, rfl, rfl⟩
  · rw [if_neg hn] at h ⊢
    obtain ⟨p₃, ret, l0, l1, hcode, -, -, -, himsg₃, hw₃, -⟩ :=
      hok₂.httpOnDataDefault (H := H) (hp₂ ▸ himsg₂) hw₂ m route behind rnd
    obtain ⟨r, hr, hsession, hret⟩ :=
      hok₂.view_httpOnDataDefault H act route behind rnd (hp₂ ▸ himsg₂) hw₂ hcode
    have hiov : r.session.iov = some (p₃.iov ⟨x0.iovBase, l0⟩, p₃.iov ⟨x1.iovBase, l1⟩) := by
      rw [hsession]
      exact hw₃.viewIov himsg₃
    simp only [hcode, himsg₃] at h
    simp only [hr, hret, hiov]
    -- both sides send, or neither does
    by_cases hpos : ret > 0
    · rw [if_pos hpos] at h ⊢
      cases h
      refine ⟨_, rfl, hsession, ?_⟩
      show _ = some ((p'.vectors imsg).flatMap fun v => (p'.iov v).bytes)
      rw [hw₃.vectors_eq]
      simp only [List.flatMap_cons, List.flatMap_nil, List.append_nil]
    · rw [if_neg hpos] at h ⊢
      cases h
      exact ⟨_, rfl, hsession, rfl⟩

end

end Ayubd.Session
