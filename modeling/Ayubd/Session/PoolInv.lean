import Ayubd.Base.Runs
import Ayubd.Session.Pool

/-!
# Ayubd — the memory pool invariant

The blocks that were obtained for a hook are exactly the list of that hook, and a slot of a session
only ever points to a block of the session itself. So no two sessions share a block, a session
does not allocate anything twice, and freeing the list of a hook frees each of its blocks once.

`Ok` is the invariant of one hook. What a function does with a hook is `Good`: it keeps `Ok`, adds
blocks of this hook only, and changes nothing outside the blocks of this hook, so that the other
sessions keep `Ok` as well.
-/

namespace Ayubd.Session

open Ayubd

variable {p p' p'' : Proc} {a : Addr}

/-! ## Allocation -/

/-- Blocks have been allocated for the hook and filled, and nothing else has changed. -/
structure Allocates (p p' : Proc) : Prop where
  id : p'.id = p.id
  hook : p'.hook = { p.hook with mp := p'.hook.mp }
  fault : p'.mem.fault = p.mem.fault
  blocks : ∃ bs : List Block, p'.mem.live = bs ++ p.mem.live ∧
    p'.hook.mp = bs.map Block.addr ++ p.hook.mp ∧ ∀ b ∈ bs, b.hook = p.id
  nodup : p.mem.addrs.Nodup → p'.mem.addrs.Nodup
  old : ∀ a ∈ p.mem.addrs, p'.mem.cell a = p.mem.cell a
  frame : ∀ a, a ∉ p'.hook.mp → p'.mem.cell a = p.mem.cell a

/-- A new block among them. -/
structure Made (a : Addr) (p p' : Proc) : Prop extends Allocates p p' where
  new : a ∉ p.mem.addrs
  mem : a ∈ p'.hook.mp

theorem Allocates.refl (p : Proc) : Allocates p p :=
  ⟨rfl, rfl, rfl, ⟨[], rfl, rfl, nofun⟩, fun h => h, fun _ _ => rfl, fun _ _ => rfl⟩

theorem Allocates.own (h : Allocates p p') : p'.hook.own = p.hook.own := by
  rw [h.hook]

theorem Allocates.addrs (h : Allocates p p') (ha : a ∈ p.mem.addrs) : a ∈ p'.mem.addrs := by
  obtain ⟨bs, hlive, -, -⟩ := h.blocks
  rw [Mem.addrs, hlive, List.map_append]
  exact List.mem_append_right _ ha

theorem Allocates.mp (h : Allocates p p') (ha : a ∈ p.hook.mp) : a ∈ p'.hook.mp := by
  obtain ⟨bs, -, hmp, -⟩ := h.blocks
  rw [hmp]
  exact List.mem_append_right _ ha

theorem Allocates.trans (h : Allocates p p') (h' : Allocates p' p'') : Allocates p p'' := by
  obtain ⟨bs, hlive, hmp, hhook⟩ := h.blocks
  obtain ⟨bs', hlive', hmp', hhook'⟩ := h'.blocks
  refine ⟨h'.id.trans h.id, ?_, h'.fault.trans h.fault, ⟨bs' ++ bs, ?_, ?_, ?_⟩,
    fun hnodup => h'.nodup (h.nodup hnodup), fun a ha => ?_, fun a ha => ?_⟩
  · rw [h'.hook, h.hook]
  · rw [hlive', hlive, List.append_assoc]
  · rw [hmp', hmp, List.map_append, List.append_assoc]
  · intro b hb
    rcases List.mem_append.mp hb with hb | hb
    · exact (hhook' b hb).trans h.id
    · exact hhook b hb
  · exact (h'.old a (h.addrs ha)).trans (h.old a ha)
  · exact (h'.frame a ha).trans (h.frame a fun hmem => ha (h'.mp hmem))

theorem Made.trans (h : Made a p p') (h' : Allocates p' p'') : Made a p p'' :=
  ⟨h.toAllocates.trans h', h.new, h'.mp h.mem⟩

theorem made_hookMalloc (m : Malloc) (kind : Kind) (p : Proc) :
    Made (p.hookMalloc m kind).1 p (p.hookMalloc m kind).2 := by
  have hnew : m.next p.mem.addrs ∉ p.mem.addrs := m.fresh p.mem.addrs
  refine ⟨⟨rfl, rfl, rfl, ⟨[_], rfl, rfl, ?_⟩, ?_, fun _ _ => rfl, fun _ _ => rfl⟩, hnew,
    List.mem_cons_self⟩
  · intro b hb
    rw [List.mem_singleton.mp hb]
  · intro hnodup
    exact List.nodup_cons.mpr ⟨hnew, hnodup⟩

theorem cell_setCell (p : Proc) (a : Addr) (f : Cell → Cell) :
    (p.setCell a f).mem.cell a = f (p.mem.cell a) := Function.update_self _ _ _

theorem cell_setCell_of_ne {b : Addr} (h : b ≠ a) (f : Cell → Cell) :
    (p.setCell a f).mem.cell b = p.mem.cell b := Function.update_of_ne h _ _

/-- Filling a new block. -/
theorem Made.setCell (h : Made a p p') (f : Cell → Cell) : Made a p (p'.setCell a f) := by
  refine ⟨⟨h.id, h.hook, h.fault, h.blocks, h.nodup, fun b hb => ?_, fun b hb => ?_⟩, h.new, h.mem⟩
  · have hne : b ≠ a := fun heq => h.new (heq ▸ hb)
    exact (cell_setCell_of_ne hne f).trans (h.old b hb)
  · have hne : b ≠ a := fun heq => hb (heq ▸ h.mem)
    exact (cell_setCell_of_ne hne f).trans (h.frame b hb)

theorem made_hookZalloc (m : Malloc) (kind : Kind) (p : Proc) :
    Made (p.hookZalloc m kind).1 p (p.hookZalloc m kind).2 :=
  (made_hookMalloc m kind p).setCell fun _ => .zero

/-- A block from `hook_zalloc` is new, and zero. -/
theorem hookZalloc_spec {m : Malloc} {kind : Kind} (h : p.hookZalloc m kind = (a, p')) :
    Made a p p' ∧ p'.mem.cell a = .zero ∧ ⟨a, p.id, kind⟩ ∈ p'.mem.live := by
  have hmade := made_hookZalloc m kind p
  have hcell := cell_setCell (p.hookMalloc m kind).2 (p.hookMalloc m kind).1 fun _ => .zero
  have hlive : (⟨(p.hookZalloc m kind).1, p.id, kind⟩ : Block) ∈ (p.hookZalloc m kind).2.mem.live :=
    List.mem_cons_self
  rw [h] at hmade hlive
  refine ⟨hmade, ?_, hlive⟩
  have hcell' : (p.hookZalloc m kind).2.mem.cell (p.hookZalloc m kind).1 = .zero := hcell
  rwa [h] at hcell'

/-- Whatever is allocated next. -/
theorem Allocates.zalloced {m : Malloc} {kind : Kind} (h : Allocates (p.hookZalloc m kind).2 p') :
    p'.mem.cell (p.hookZalloc m kind).1 = .zero := by
  rcases halloc : p.hookZalloc m kind with ⟨a, p₁⟩
  rw [halloc] at h
  obtain ⟨-, hzero, hlive⟩ := hookZalloc_spec halloc
  exact (h.old a (List.mem_map_of_mem hlive)).trans hzero

/-- A message header is made as a block of the hook. -/
theorem made_makeMsghdr (m : Malloc) (p : Proc) : Made (p.makeMsghdr m).1 p (p.makeMsghdr m).2 := by
  have himsg := made_hookZalloc m .msghdr p
  have hname := made_hookZalloc m .name (p.hookZalloc m .msghdr).2
  exact (himsg.trans hname.toAllocates).setCell fun c => { c with msghdr := { c.msghdr with
    msgName := some _, msgNamelen := sockaddrStorage } }

/-- The buffers that come with the request array. -/
theorem allocates_makeReq (m : Malloc) (p : Proc) :
    Allocates (p.hookZalloc m .req).2 (p.makeReq m).2 :=
  (((made_hookZalloc m .chunk _).toAllocates.trans (made_hookZalloc m .chunk _).toAllocates).trans
    (made_hookZalloc m .chunk _).toAllocates).trans (made_hookZalloc m .chunk _).toAllocates

/-- The request array is made with its four buffers. -/
theorem made_makeReq (m : Malloc) (p : Proc) : Made (p.makeReq m).1 p (p.makeReq m).2 :=
  (made_hookZalloc m .req p).trans (allocates_makeReq m p)

/-- The scratch buffer comes after the array itself. -/
theorem allocates_makeResp (m : Malloc) (p : Proc) :
    Allocates (p.hookZalloc m .resp).2 (p.makeResp m).2 :=
  (made_hookZalloc m .chunk _).toAllocates

/-- The response array is made with its scratch buffer. -/
theorem made_makeResp (m : Malloc) (p : Proc) : Made (p.makeResp m).1 p (p.makeResp m).2 :=
  (made_hookZalloc m .resp p).trans (allocates_makeResp m p)

/-! ## One hook -/

/-- A header whose two io vectors have each its own buffer. -/
structure Wired (p : Proc) (imsg iov : Addr) (x0 x1 : Iovec) : Prop where
  iovlen : (p.mem.cell imsg).msghdr.msgIovlen = 2
  msgIov : (p.mem.cell imsg).msghdr.msgIov = some iov
  mem_iov : iov ∈ p.hook.mp
  vectors : (p.mem.cell iov).vectors = [x0, x1]
  chunk0 : ⟨x0.iovBase, p.id, .chunk⟩ ∈ p.mem.live
  chunk1 : ⟨x1.iovBase, p.id, .chunk⟩ ∈ p.mem.live
  ne : x0.iovBase ≠ x1.iovBase

/-- **The invariant of a hook.** The blocks that were obtained for it are those in its list, its
slots point to such blocks, and its header has no io vectors yet or is wired. -/
structure Ok (p : Proc) : Prop where
  pool : p.hook.mp = (p.mem.live.filter (·.hook = p.id)).map Block.addr
  nodup : p.mem.addrs.Nodup
  safe : p.mem.fault = false
  slots : ∀ slot a, p.hook.own slot = some a → a ∈ p.hook.mp
  header : ∀ imsg, p.hook.own .msghdr = some imsg →
    (p.mem.cell imsg).msghdr.msgIov = none ∨ ∃ iov x0 x1, Wired p imsg iov x0 x1

/-- What a function that works on a hook may do. -/
structure Extends (p p' : Proc) : Prop where
  id : p'.id = p.id
  blocks : ∃ bs : List Block, p'.mem.live = bs ++ p.mem.live ∧ ∀ b ∈ bs, b.hook = p.id
  mp : ∀ a ∈ p.hook.mp, a ∈ p'.hook.mp
  frame : ∀ a, a ∉ p'.hook.mp → p'.mem.cell a = p.mem.cell a

/-- What every function that works on a hook does. -/
structure Good (p p' : Proc) : Prop extends Extends p p' where
  ok : Ok p'

theorem Extends.trans (h : Extends p p') (h' : Extends p' p'') : Extends p p'' := by
  obtain ⟨bs, hlive, hhook⟩ := h.blocks
  obtain ⟨bs', hlive', hhook'⟩ := h'.blocks
  refine ⟨h'.id.trans h.id, ⟨bs' ++ bs, ?_, fun b hb => ?_⟩, fun a ha => h'.mp a (h.mp a ha),
    fun a ha => ?_⟩
  · rw [hlive', hlive, List.append_assoc]
  · rcases List.mem_append.mp hb with hb | hb
    · exact (hhook' b hb).trans h.id
    · exact hhook b hb
  · exact (h'.frame a ha).trans (h.frame a fun hmem => ha (h'.mp a hmem))

theorem Good.trans (h : Good p p') (h' : Good p' p'') : Good p p'' :=
  ⟨h.toExtends.trans h'.toExtends, h'.ok⟩

theorem Ok.good (h : Ok p) : Good p p :=
  ⟨⟨rfl, ⟨[], rfl, nofun⟩, fun _ ha => ha, fun _ _ => rfl⟩, h⟩

/-- A live block of the hook is in its list. -/
theorem Ok.mem_mp (h : Ok p) {b : Block} (hb : b ∈ p.mem.live) (hhook : b.hook = p.id) :
    b.addr ∈ p.hook.mp := by
  rw [h.pool]
  exact List.mem_map_of_mem (List.mem_filter.mpr ⟨hb, decide_eq_true hhook⟩)

/-- The blocks in the hook's list are live. -/
theorem Ok.addrs (h : Ok p) (ha : a ∈ p.hook.mp) : a ∈ p.mem.addrs := by
  rw [h.pool] at ha
  obtain ⟨b, hb, rfl⟩ := List.mem_map.mp ha
  exact List.mem_map_of_mem (List.mem_filter.mp hb).1

theorem Allocates.extends (h : Allocates p p') : Extends p p' := by
  obtain ⟨bs, hlive, -, hhook⟩ := h.blocks
  exact ⟨h.id, ⟨bs, hlive, hhook⟩, fun a ha => h.mp ha, h.frame⟩

/-- A header is wired by what is in it and in its array, as long as the buffers are there. -/
theorem Wired.congr {imsg iov : Addr} {x0 x1 : Iovec} (hw : Wired p imsg iov x0 x1)
    (hid : p'.id = p.id) (hlive : ∀ b ∈ p.mem.live, b.hook = p.id → b ∈ p'.mem.live)
    (hmp : iov ∈ p'.hook.mp) (hmsghdr : (p'.mem.cell imsg).msghdr = (p.mem.cell imsg).msghdr)
    (hvectors : (p'.mem.cell iov).vectors = (p.mem.cell iov).vectors) :
    Wired p' imsg iov x0 x1 := by
  refine ⟨?_, ?_, hmp, hvectors.trans hw.vectors, ?_, ?_, hw.ne⟩
  · rw [hmsghdr]
    exact hw.iovlen
  · rw [hmsghdr]
    exact hw.msgIov
  · rw [hid]
    exact hlive _ hw.chunk0 rfl
  · rw [hid]
    exact hlive _ hw.chunk1 rfl

/-- The vectors stay wired across allocations. -/
theorem Wired.allocates {imsg iov : Addr} {x0 x1 : Iovec} (hw : Wired p imsg iov x0 x1) (hp : Ok p)
    (himsg : imsg ∈ p.hook.mp) (h : Allocates p p') : Wired p' imsg iov x0 x1 := by
  obtain ⟨bs, hlive, -, -⟩ := h.blocks
  apply hw.congr h.id _ (h.mp hw.mem_iov)
  · rw [h.old imsg (hp.addrs himsg)]
  · rw [h.old iov (hp.addrs hw.mem_iov)]
  · intro b hb _
    rw [hlive]
    exact List.mem_append_right _ hb

/-- **Allocating** keeps the invariant. -/
theorem Ok.allocates (hp : Ok p) (h : Allocates p p') : Good p p' := by
  obtain ⟨bs, hlive, hmp, hhook⟩ := h.blocks
  have hown := h.own
  refine ⟨h.extends, ?_, h.nodup hp.nodup, h.fault.trans hp.safe, fun slot a ha => ?_,
    fun imsg himsg => ?_⟩
  · have hall : bs.filter (·.hook = p.id) = bs :=
      List.filter_eq_self.mpr fun b hb => decide_eq_true (hhook b hb)
    rw [hmp, hlive, h.id, List.filter_append, List.map_append, hall, hp.pool]
  · rw [hown] at ha
    exact h.mp (hp.slots slot a ha)
  · rw [hown] at himsg
    have hmem := hp.slots _ _ himsg
    rcases hp.header imsg himsg with hnone | ⟨iov, x0, x1, hw⟩
    · refine .inl ?_
      rw [h.old imsg (hp.addrs hmem)]
      exact hnone
    · exact .inr ⟨iov, x0, x1, hw.allocates hp hmem h⟩

section
variable {imsg iov : Addr} {x0 x1 : Iovec}

/-- A write that leaves one way of reading blocks alone. -/
theorem field_setCell {β : Type} (g : Cell → β) {f : Cell → Cell} (hf : ∀ c, g (f c) = g c)
    (b : Addr) : g ((p.setCell a f).mem.cell b) = g (p.mem.cell b) := by
  by_cases hb : b = a
  · rw [hb, cell_setCell, hf]
  · rw [cell_setCell_of_ne hb]

/-- Writing to a block of the hook. -/
theorem extends_setCell (ha : a ∈ p.hook.mp) (f : Cell → Cell) : Extends p (p.setCell a f) := by
  refine ⟨rfl, ⟨[], rfl, nofun⟩, fun _ hb => hb, fun b hb => ?_⟩
  have hne : b ≠ a := fun heq => hb (heq ▸ ha)
  exact cell_setCell_of_ne hne f

/-- Blocks of the hook have been written, but no header and no array of io vectors. -/
structure Writes (p p' : Proc) : Prop where
  id : p'.id = p.id
  mp : p'.hook.mp = p.hook.mp
  own : p'.hook.own = p.hook.own
  live : p'.mem.live = p.mem.live
  fault : p'.mem.fault = p.mem.fault
  msghdr : ∀ a, (p'.mem.cell a).msghdr = (p.mem.cell a).msghdr
  vectors : ∀ a, (p'.mem.cell a).vectors = (p.mem.cell a).vectors
  frame : ∀ a, a ∉ p.hook.mp → p'.mem.cell a = p.mem.cell a

theorem Writes.refl (p : Proc) : Writes p p :=
  ⟨rfl, rfl, rfl, rfl, rfl, fun _ => rfl, fun _ => rfl, fun _ _ => rfl⟩

theorem Writes.trans (h : Writes p p') (h' : Writes p' p'') : Writes p p'' where
  id := h'.id.trans h.id
  mp := h'.mp.trans h.mp
  own := h'.own.trans h.own
  live := h'.live.trans h.live
  fault := h'.fault.trans h.fault
  msghdr a := (h'.msghdr a).trans (h.msghdr a)
  vectors a := (h'.vectors a).trans (h.vectors a)
  frame a ha := (h'.frame a (h.mp ▸ ha)).trans (h.frame a ha)

/-- A write to a block of the hook which leaves headers and vectors. -/
theorem writes_setCell (ha : a ∈ p.hook.mp) {f : Cell → Cell}
    (hmsghdr : ∀ c, (f c).msghdr = c.msghdr) (hvectors : ∀ c, (f c).vectors = c.vectors) :
    Writes p (p.setCell a f) :=
  ⟨rfl, rfl, rfl, rfl, rfl, field_setCell Cell.msghdr hmsghdr, field_setCell Cell.vectors hvectors,
    (extends_setCell ha f).frame⟩

/-- The vectors stay wired across writes to the contents. -/
theorem Wired.writes (hw : Wired p imsg iov x0 x1) (h : Writes p p') : Wired p' imsg iov x0 x1 :=
  hw.congr h.id (fun _ hb _ => h.live ▸ hb) (h.mp ▸ hw.mem_iov) (h.msghdr imsg) (h.vectors iov)

/-- **Writing** keeps the invariant. -/
theorem Ok.writes (hp : Ok p) (h : Writes p p') : Good p p' := by
  refine ⟨⟨h.id, ⟨[], h.live, nofun⟩, fun a ha => h.mp ▸ ha, fun a ha => h.frame a (h.mp ▸ ha)⟩,
    ?_, ?_, h.fault.trans hp.safe, fun slot a ha => ?_, fun imsg himsg => ?_⟩
  · rw [h.mp, h.live, h.id]
    exact hp.pool
  · rw [Mem.addrs, h.live]
    exact hp.nodup
  · rw [h.mp]
    exact hp.slots slot a (h.own ▸ ha)
  · rcases hp.header imsg (h.own ▸ himsg) with hnone | ⟨iov, x0, x1, hw⟩
    · refine .inl ?_
      rw [h.msghdr]
      exact hnone
    · exact .inr ⟨iov, x0, x1, hw.writes h⟩

/-- New lengths for the io vectors. -/
theorem Wired.setVectors (hw : Wired p imsg iov x0 x1) (l0 l1 : Nat) {f : Cell → Cell}
    (hmsghdr : ∀ c, (f c).msghdr = c.msghdr)
    (hvectors : (f (p.mem.cell iov)).vectors = [⟨x0.iovBase, l0⟩, ⟨x1.iovBase, l1⟩]) :
    Wired (p.setCell iov f) imsg iov ⟨x0.iovBase, l0⟩ ⟨x1.iovBase, l1⟩ := by
  refine ⟨?_, ?_, hw.mem_iov, ?_, hw.chunk0, hw.chunk1, hw.ne⟩
  · rw [field_setCell Cell.msghdr hmsghdr]
    exact hw.iovlen
  · rw [field_setCell Cell.msghdr hmsghdr]
    exact hw.msgIov
  · rw [cell_setCell]
    exact hvectors

/-- A hook whose header has been wired. -/
theorem Ok.rewire (hp : Ok p) (himsg : p.hook.own .msghdr = some imsg) (ha : a ∈ p.hook.mp)
    {f : Cell → Cell} (hw : Wired (p.setCell a f) imsg iov x0 x1) : Good p (p.setCell a f) := by
  refine ⟨extends_setCell ha f, hp.pool, hp.nodup, hp.safe, hp.slots, fun imsg' himsg' => ?_⟩
  obtain rfl : imsg = imsg' := Option.some.inj (himsg.symm.trans himsg')
  exact .inr ⟨iov, x0, x1, hw⟩

end

/-! ## Slots -/

section
variable {slot : Slot} {make : Proc → Addr × Proc} {imsg iov : Addr} {x0 x1 : Iovec}

theorem ensure_of_some (h : p.hook.own slot = some a) : p.ensure slot make = (a, p) := by
  simp only [Proc.ensure, h]

theorem ensure_of_none (h : p.hook.own slot = none) :
    p.ensure slot make = ((make p).1, (make p).2.setSlot slot (make p).1) := by
  simp only [Proc.ensure, h]

/-- Only the slot asked for changes. -/
theorem own_ensure (slot : Slot) (hmake : Made (make p).1 p (make p).2) :
    (p.ensure slot make).2.hook.own =
      Function.update p.hook.own slot (some (p.ensure slot make).1) := by
  cases hslot : p.hook.own slot with
  | some a =>
    rw [ensure_of_some hslot]
    exact (Function.update_eq_self_iff.mpr hslot.symm).symm
  | none =>
    rw [ensure_of_none hslot]
    show Function.update (make p).2.hook.own slot _ = _
    rw [hmake.own]

/-- Apart from its slots and its list a hook stays as it is. -/
theorem hook_ensure (slot : Slot) (hmake : Made (make p).1 p (make p).2) :
    (p.ensure slot make).2.hook.nread = p.hook.nread ∧
      (p.ensure slot make).2.hook.overflow = p.hook.overflow := by
  cases hslot : p.hook.own slot with
  | some a =>
    rw [ensure_of_some hslot]
    exact ⟨rfl, rfl⟩
  | none =>
    rw [ensure_of_none hslot]
    show (make p).2.hook.nread = _ ∧ (make p).2.hook.overflow = _
    rw [hmake.hook]
    exact ⟨rfl, rfl⟩

/-- So do the blocks that were there. -/
theorem Ok.cell_ensure (hp : Ok p) (slot : Slot) (hmake : Made (make p).1 p (make p).2)
    (ha : a ∈ p.hook.mp) : (p.ensure slot make).2.mem.cell a = p.mem.cell a := by
  cases hslot : p.hook.own slot with
  | some b => rw [ensure_of_some hslot]
  | none =>
    rw [ensure_of_none hslot]
    exact hmake.old a (hp.addrs ha)

/-- Filling a slot with a block of the hook keeps the session in order. -/
theorem Ok.setSlot (hp : Ok p) (ha : a ∈ p.hook.mp)
    (hheader : slot = .msghdr → (p.mem.cell a).msghdr.msgIov = none) :
    Good p (p.setSlot slot a) := by
  have hown : (p.setSlot slot a).hook.own = Function.update p.hook.own slot (some a) := rfl
  refine ⟨⟨rfl, ⟨[], rfl, nofun⟩, fun _ hb => hb, fun _ _ => rfl⟩, hp.pool, hp.nodup, hp.safe,
    fun slot' b hb => ?_, fun imsg himsg => ?_⟩
  · rw [hown] at hb
    by_cases heq : slot' = slot
    · rw [heq, Function.update_self, Option.some.injEq] at hb
      exact hb ▸ ha
    · rw [Function.update_of_ne heq] at hb
      exact hp.slots slot' b hb
  · rw [hown] at himsg
    by_cases heq : Slot.msghdr = slot
    · rw [heq, Function.update_self, Option.some.injEq] at himsg
      exact .inl (himsg ▸ hheader heq.symm)
    · rw [Function.update_of_ne heq] at himsg
      rcases hp.header imsg himsg with hnone | ⟨iov, x0, x1, hw⟩
      · exact .inl hnone
      · exact .inr ⟨iov, x0, x1, hw.congr rfl (fun _ hb _ => hb) hw.mem_iov rfl rfl⟩

/-- **A slot is filled** when it is empty, and nothing happens otherwise. -/
theorem Ok.ensure (hp : Ok p) (slot : Slot) (hmake : Made (make p).1 p (make p).2)
    (hheader : slot = .msghdr → ((make p).2.mem.cell (make p).1).msghdr.msgIov = none) :
    Good p (p.ensure slot make).2 := by
  cases hslot : p.hook.own slot with
  | some a =>
    rw [ensure_of_some hslot]
    exact hp.good
  | none =>
    rw [ensure_of_none hslot]
    have hgood := hp.allocates hmake.toAllocates
    exact hgood.trans (hgood.ok.setSlot hmake.mem hheader)

/-- Asking for a slot leaves the vectors wired. -/
theorem Wired.ensure (hw : Wired p imsg iov x0 x1) (hp : Ok p) (slot : Slot)
    (himsg : p.hook.own .msghdr = some imsg) (hmake : Made (make p).1 p (make p).2) :
    Wired (p.ensure slot make).2 imsg iov x0 x1 := by
  cases hslot : p.hook.own slot with
  | some a =>
    rw [ensure_of_some hslot]
    exact hw
  | none =>
    rw [ensure_of_none hslot]
    have hw' := hw.allocates hp (hp.slots _ _ himsg) hmake.toAllocates
    exact hw'.congr rfl (fun _ hb _ => hb) hw'.mem_iov rfl rfl

/-- A new message header has no vectors yet. -/
theorem msgIov_makeMsghdr (m : Malloc) (p : Proc) :
    ((p.makeMsghdr m).2.mem.cell (p.makeMsghdr m).1).msghdr.msgIov = none := by
  rcases hmsghdr : p.hookZalloc m .msghdr with ⟨imsg, p₁⟩
  rcases hname : p₁.hookZalloc m .name with ⟨name, p₂⟩
  obtain ⟨-, hzero, hlive⟩ := hookZalloc_spec hmsghdr
  -- the address storage is another block
  have hold := (hookZalloc_spec hname).1.old imsg (List.mem_map_of_mem hlive)
  simp only [Proc.makeMsghdr, hmsghdr, hname, cell_setCell, hold, hzero]
  rfl

end

/-! ## The io vectors -/

/-- An io vector as `hook_zalloc_iov` leaves it. -/
structure Zalloced (p : Proc) (v : Iovec) : Prop where
  len : v.iovLen = iovChunk
  live : ⟨v.iovBase, p.id, .chunk⟩ ∈ p.mem.live
  zero : p.mem.cell v.iovBase = .zero

theorem Zalloced.addrs {v : Iovec} (h : Zalloced p v) : v.iovBase ∈ p.mem.addrs :=
  List.mem_map_of_mem h.live

theorem Zalloced.allocates {v : Iovec} (h : Zalloced p v) (ha : Allocates p p') :
    Zalloced p' v := by
  obtain ⟨bs, hlive, -, -⟩ := ha.blocks
  refine ⟨h.len, ?_, (ha.old _ h.addrs).trans h.zero⟩
  rw [hlive, ha.id]
  exact List.mem_append_right _ h.live

/-- Each io vector gets a buffer of its own. -/
theorem hookZallocIov_spec {m : Malloc} {n : Nat} {vs : List Iovec}
    (h : p.hookZallocIov m n = (vs, p')) :
    Allocates p p' ∧ vs.length = n ∧ (vs.map Iovec.iovBase).Nodup ∧
      ∀ v ∈ vs, Zalloced p' v ∧ v.iovBase ∉ p.mem.addrs := by
  induction n generalizing p p' vs with
  | zero =>
    cases h
    exact ⟨.refl _, rfl, List.nodup_nil, nofun⟩
  | succ n ih =>
    rcases hbase : p.hookZalloc m .chunk with ⟨base, p₁⟩
    rcases hrest : p₁.hookZallocIov m n with ⟨vs', p₂⟩
    obtain ⟨hmade, hzero, hlive⟩ := hookZalloc_spec hbase
    obtain ⟨halloc, hlength, hnodup, hvs⟩ := ih hrest
    simp only [Proc.hookZallocIov, hbase, hrest, Prod.mk.injEq] at h
    obtain ⟨rfl, rfl⟩ := h
    have hfirst : Zalloced p₁ ⟨base, iovChunk⟩ := ⟨rfl, hmade.id ▸ hlive, hzero⟩
    refine ⟨hmade.toAllocates.trans halloc, congrArg Nat.succ hlength, ?_, fun v hv => ?_⟩
    · refine List.nodup_cons.mpr ⟨fun hmem => ?_, hnodup⟩
      obtain ⟨v, hv, hbaseq⟩ := List.mem_map.mp hmem
      have hv' : v.iovBase = base := hbaseq
      exact (hvs v hv).2 (hv' ▸ hfirst.addrs)
    · rcases List.mem_cons.mp hv with rfl | hv
      · exact ⟨hfirst.allocates halloc, hmade.new⟩
      · exact ⟨(hvs v hv).1, fun hold => (hvs v hv).2 (hmade.addrs hold)⟩

/-- The array of io vectors and the two buffers are allocated, and then linked. -/
theorem newVectors_eq (m : Malloc) (imsg : Addr) (p : Proc) :
    ∃ iov x0 x1 p₁, Made iov p p₁ ∧ Zalloced p₁ x0 ∧ Zalloced p₁ x1 ∧ x0.iovBase ≠ x1.iovBase ∧
      p.newVectors m imsg = (p₁.setCell iov fun c => { c with vectors := [x0, x1] }).setCell imsg
        fun c => { c with msghdr := { c.msghdr with msgIov := some iov, msgIovlen := 2 } } := by
  rcases hiov : p.hookZalloc m .vectors with ⟨iov, p₁⟩
  rcases hvs : p₁.hookZallocIov m 2 with ⟨vs, p₂⟩
  obtain ⟨hmade, -, -⟩ := hookZalloc_spec hiov
  obtain ⟨halloc, hlength, hnodup, hbases⟩ := hookZallocIov_spec hvs
  obtain ⟨x0, x1, rfl⟩ : ∃ x0 x1, vs = [x0, x1] := List.length_eq_two.mp hlength
  have hne : x0.iovBase ≠ x1.iovBase := fun heq => by simp [heq] at hnodup
  refine ⟨iov, x0, x1, p₂, hmade.trans halloc, (hbases x0 (by simp)).1, (hbases x1 (by simp)).1,
    hne, ?_⟩
  simp only [Proc.newVectors, hiov, hvs]

/-- A header that is wired and whose io vectors have their full length. -/
structure Reset (p : Proc) (imsg iov : Addr) (x0 x1 : Iovec) : Prop
    extends Wired p imsg iov x0 x1 where
  len0 : x0.iovLen = iovChunk
  len1 : x1.iovLen = iovChunk

/-- An array of two io vectors is entered into the header. -/
theorem Ok.link (hp : Ok p) {imsg iov : Addr} {x0 x1 : Iovec}
    (himsg : p.hook.own .msghdr = some imsg) (hiov : iov ∈ p.hook.mp)
    (hvectors : (p.mem.cell iov).vectors = [x0, x1])
    (hchunk0 : ⟨x0.iovBase, p.id, .chunk⟩ ∈ p.mem.live)
    (hchunk1 : ⟨x1.iovBase, p.id, .chunk⟩ ∈ p.mem.live) (hne : x0.iovBase ≠ x1.iovBase) :
    let p' := p.setCell imsg fun c =>
      { c with msghdr := { c.msghdr with msgIov := some iov, msgIovlen := 2 } }
    Good p p' ∧ Wired p' imsg iov x0 x1 := by
  intro p'
  have hself : (p'.mem.cell imsg).msghdr =
      { (p.mem.cell imsg).msghdr with msgIov := some iov, msgIovlen := 2 } :=
    congrArg Cell.msghdr (cell_setCell p imsg _)
  have hwired : Wired p' imsg iov x0 x1 := by
    refine ⟨by rw [hself], by rw [hself], hiov, ?_, hchunk0, hchunk1, hne⟩
    rw [← hvectors]
    apply field_setCell Cell.vectors
    exact fun _ => rfl
  exact ⟨hp.rewire himsg (hp.slots _ _ himsg) hwired, hwired⟩

/-- New vectors are wired to two buffers of the hook and reset. -/
theorem Ok.newVectors (hp : Ok p) {imsg : Addr} (himsg : p.hook.own .msghdr = some imsg)
    (m : Malloc) :
    Good p (p.newVectors m imsg) ∧ (p.newVectors m imsg).hook.own = p.hook.own ∧
      ∃ iov x0 x1, Reset (p.newVectors m imsg) imsg iov x0 x1 := by
  obtain ⟨iov, x0, x1, p₁, hmade, h0, h1, hne, hnew⟩ := newVectors_eq m imsg p
  have hmade' := hmade.setCell fun c => { c with vectors := [x0, x1] }
  have hgood := hp.allocates hmade'.toAllocates
  obtain ⟨hgood', hwired⟩ := hgood.ok.link (hmade'.own ▸ himsg) hmade'.mem
    (congrArg Cell.vectors (cell_setCell p₁ iov _)) h0.live h1.live hne
  rw [hnew]
  exact ⟨hgood.trans hgood', hmade'.own, iov, x0, x1, hwired, h0.len, h1.len⟩

/-- **The io vectors before `recvmsg`** are allocated, or have their full length again. -/
theorem Ok.resetVectors (hp : Ok p) {imsg : Addr} (himsg : p.hook.own .msghdr = some imsg)
    (m : Malloc) :
    Good p (p.resetVectors m imsg) ∧ (p.resetVectors m imsg).hook.own = p.hook.own ∧
      ∃ iov x0 x1, Reset (p.resetVectors m imsg) imsg iov x0 x1 := by
  rcases hp.header imsg himsg with hnone | ⟨iov, x0, x1, hw⟩
  · simp only [Proc.resetVectors, hnone]
    exact hp.newVectors himsg m
  · simp only [Proc.resetVectors, hw.msgIov, hw.iovlen, OfNat.ofNat_ne_zero, if_false]
    have hreset := hw.setVectors iovChunk iovChunk
      (f := fun c => { c with vectors := c.vectors.map fun v => ⟨v.iovBase, iovChunk⟩ })
      (fun _ => rfl) (by simp only [hw.vectors, List.map_cons, List.map_nil])
    exact ⟨hp.rewire himsg hw.mem_iov hreset, rfl, iov, _, _, hreset, rfl, rfl⟩

theorem Wired.mem0 {imsg iov : Addr} {x0 x1 : Iovec} (hw : Wired p imsg iov x0 x1) (hp : Ok p) :
    x0.iovBase ∈ p.hook.mp :=
  hp.mem_mp hw.chunk0 rfl

theorem Wired.mem1 {imsg iov : Addr} {x0 x1 : Iovec} (hw : Wired p imsg iov x0 x1) (hp : Ok p) :
    x1.iovBase ∈ p.hook.mp :=
  hp.mem_mp hw.chunk1 rfl

/-- The kernel writes to the buffers only. -/
theorem writes_scatter {vs : List Iovec} (hmem : ∀ v ∈ vs, v.iovBase ∈ p.hook.mp)
    (hlen : ∀ v ∈ vs, v.iovLen ≤ iovChunk) (bytes : Bytes) : Writes p (p.scatter vs bytes) := by
  induction vs generalizing p bytes with
  | nil => exact .refl p
  | cons v vs ih =>
    have hfits : (bytes.take v.iovLen).length ≤ iovChunk :=
      Nat.le_trans (List.length_take_le _ _) (hlen v List.mem_cons_self)
    have hfirst := writes_setCell (p := p) (hmem v List.mem_cons_self)
      (f := fun c => { c with chunk := c.chunk.write (bytes.take v.iovLen) hfits })
      (fun _ => rfl) fun _ => rfl
    unfold Proc.scatter
    rw [dif_pos hfits]
    refine hfirst.trans (ih (fun v' hv' => ?_) (fun v' hv' => ?_) _)
    · exact hmem v' (List.mem_cons_of_mem _ hv')
    · exact hlen v' (List.mem_cons_of_mem _ hv')

/-! ## One round -/

/-- What is handed to `recvmsg`: two io vectors, each with a whole buffer of its own. -/
def Passed.Whole (passed : Passed) (p : Proc) : Prop :=
  passed.msgIovlen = 2 ∧ ∃ x0 x1, passed.vectors = [x0, x1] ∧ x0.iovBase ≠ x1.iovBase ∧
    x0.iovLen = iovChunk ∧ x1.iovLen = iovChunk ∧
    ⟨x0.iovBase, p.id, .chunk⟩ ∈ p.mem.live ∧ ⟨x1.iovBase, p.id, .chunk⟩ ∈ p.mem.live

/-- Everything has been allocated that a session ever allocates. -/
structure Complete (p : Proc) : Prop where
  slots : ∀ slot, (p.hook.own slot).isSome
  header : ∃ imsg iov x0 x1, p.hook.own .msghdr = some imsg ∧ Wired p imsg iov x0 x1

section
variable {imsg iov : Addr} {x0 x1 : Iovec}

theorem Wired.vectors_eq (hw : Wired p imsg iov x0 x1) : p.vectors imsg = [x0, x1] := by
  unfold Proc.vectors
  rw [hw.msgIov]
  exact hw.vectors

/-- After a reset the whole vectors are passed on. -/
theorem Reset.whole (h : Reset p imsg iov x0 x1) : (p.passed imsg).Whole p :=
  ⟨h.iovlen, x0, x1, h.vectors_eq, h.ne, h.len0, h.len1, h.chunk0, h.chunk1⟩

/-- Vectors passed on stay whole while the session grows. -/
theorem Passed.Whole.extends {passed : Passed} (h : passed.Whole p) (he : Extends p p') :
    passed.Whole p' := by
  obtain ⟨hlen, x0, x1, hvectors, hne, hlen0, hlen1, hchunk0, hchunk1⟩ := h
  obtain ⟨bs, hlive, -⟩ := he.blocks
  refine ⟨hlen, x0, x1, hvectors, hne, hlen0, hlen1, ?_, ?_⟩
  · rw [he.id, hlive]
    exact List.mem_append_right _ hchunk0
  · rw [he.id, hlive]
    exact List.mem_append_right _ hchunk1

/-- A complete session allocates nothing for a reset. -/
theorem Complete.mp_resetVectors (hc : Complete p) (himsg : p.hook.own .msghdr = some imsg)
    (m : Malloc) : (p.resetVectors m imsg).hook.mp = p.hook.mp := by
  obtain ⟨imsg', iov, x0, x1, himsg', hw⟩ := hc.header
  obtain rfl : imsg = imsg' := Option.some.inj (himsg.symm.trans himsg')
  simp only [Proc.resetVectors, hw.msgIov, hw.iovlen, OfNat.ofNat_ne_zero, if_false]
  rfl

/-- The two io vectors of a header are filled. -/
theorem Reset.writes_scatter (h : Reset p imsg iov x0 x1) (hp : Ok p) (bytes : Bytes) :
    Writes p (p.scatter [x0, x1] bytes) := by
  refine Session.writes_scatter (fun v hv => ?_) (fun v hv => ?_) bytes
  · rcases List.mem_pair.mp hv with rfl | rfl
    · exact h.mem0 hp
    · exact h.mem1 hp
  · rcases List.mem_pair.mp hv with rfl | rfl
    · exact h.len0.le
    · exact h.len1.le

/-- **`ioqueue_socket_recvmsg`**, whatever `recvmsg` returns. -/
theorem Ok.ioqueueSocketRecvmsg (hp : Ok p) {m : Malloc} {recv : Http.Recv} {passed : Passed}
    {n : Int} (h : ioqueueSocketRecvmsg m recv p = (passed, n, p')) :
    Good p p' ∧ passed.Whole p' ∧ (Complete p → p'.hook.mp = p.hook.mp) ∧
      ∃ imsg iov x0 x1, p'.hook.own = Function.update p.hook.own .msghdr (some imsg) ∧
        Wired p' imsg iov x0 x1 := by
  have hmade := made_makeMsghdr m p
  have hgood := hp.ensure .msghdr hmade fun _ => msgIov_makeMsghdr m p
  have hown := own_ensure .msghdr hmade
  -- a complete session has its header and allocates no second one
  have hkeep : Complete p → (p.ensure .msghdr (Proc.makeMsghdr m)).2 = p := by
    intro hc
    obtain ⟨a, ha⟩ := Option.isSome_iff_exists.mp (hc.slots .msghdr)
    rw [ensure_of_some ha]
  rcases hensure : p.ensure .msghdr (Proc.makeMsghdr m) with ⟨imsg, p₁⟩
  rw [hensure] at hgood hown hkeep
  have himsg : p₁.hook.own .msghdr = some imsg :=
    (congrFun hown .msghdr).trans (Function.update_self _ _ _)
  obtain ⟨hgood', hown', iov, x0, x1, hreset⟩ := hgood.ok.resetVectors himsg m
  have hmp : Complete p → (p₁.resetVectors m imsg).hook.mp = p.hook.mp := by
    intro hc
    obtain rfl : p₁ = p := hkeep hc
    exact hc.mp_resetVectors himsg m
  cases recv with
  | error =>
    simp only [Session.ioqueueSocketRecvmsg, hensure, Prod.mk.injEq] at h
    obtain ⟨rfl, rfl, rfl⟩ := h
    exact ⟨hgood.trans hgood', hreset.whole, hmp, imsg, iov, x0, x1, hown'.trans hown,
      hreset.toWired⟩
  | data bytes fits =>
    simp only [Session.ioqueueSocketRecvmsg, hensure, hreset.vectors_eq, Prod.mk.injEq] at h
    obtain ⟨rfl, rfl, rfl⟩ := h
    have hwrites := hreset.writes_scatter hgood'.ok bytes
    have hfilled := hgood'.ok.writes hwrites
    exact ⟨(hgood.trans hgood').trans hfilled, hreset.whole.extends hfilled.toExtends,
      fun hc => hwrites.mp.trans (hmp hc), imsg, iov, x0, x1,
      (hwrites.own.trans hown').trans hown, hreset.toWired.writes hwrites⟩

variable {α : Type} {H : HttpParser} {act : α → Http.Req → Http.Resp → Int32 → Http.Resp × Bool}
  {m : Malloc} {route : Option (Assoc α)} {behind : Bytes} {rnd : Int32}

/-- The lengths of the two io vectors are those of a response, and `ret` is what is returned for
it. -/
def Responds (H : HttpParser) (act : α → Http.Req → Http.Resp → Int32 → Http.Resp × Bool)
    (route : Option (Assoc α)) (rnd : Int32) (l0 l1 ret : Nat) : Prop :=
  ∃ v0 v1 req resp,
    let r := Http.httpRoute H act route req resp rnd
    let out := Http.httpRespond H v0 v1 r.code r.str r.strlen
    l0 = out.1.len ∧ l1 = out.2.1.len ∧ ret = out.2.2

/-- Storing the router's result writes to the request and the response only. -/
theorem writes_store {req resp : Addr} (hreq : req ∈ p.hook.mp) (hresp : resp ∈ p.hook.mp)
    (r : Http.Routed α) : Writes p (p.store req resp r) := by
  have hfirst := writes_setCell (p := p) hreq (f := fun c => { c with req := r.req })
    (fun _ => rfl) fun _ => rfl
  have hsecond := writes_setCell (p := p.setCell req fun c => { c with req := r.req }) hresp
    (f := fun c => { c with resp := r.resp }) (fun _ => rfl) fun _ => rfl
  obtain ⟨hid, hmp, hown, hlive, hfault, hmsghdr, hvectors, hframe⟩ := hfirst.trans hsecond
  exact ⟨hid, hmp, hown, hlive, hfault, hmsghdr, hvectors, hframe⟩

/-- The two buffers are written, and the two lengths. -/
theorem Ok.setIovs (hp : Ok p) (himsg : p.hook.own .msghdr = some imsg)
    (hw : Wired p imsg iov x0 x1) (v0 v1 : Http.Iov) :
    Good p (p.setIovs iov x0 x1 v0 v1) ∧
      Wired (p.setIovs iov x0 x1 v0 v1) imsg iov ⟨x0.iovBase, v0.len⟩ ⟨x1.iovBase, v1.len⟩ := by
  have hfirst := writes_setCell (p := p) (hw.mem1 hp) (f := fun c => { c with chunk := v1.base })
    (fun _ => rfl) fun _ => rfl
  have hsecond := writes_setCell (p := p.setCell x1.iovBase fun c => { c with chunk := v1.base })
    (hw.mem0 hp) (f := fun c => { c with chunk := v0.base }) (fun _ => rfl) fun _ => rfl
  have hwrites := hfirst.trans hsecond
  have hgood := hp.writes hwrites
  have hwired := (hw.writes hwrites).setVectors v0.len v1.len
    (f := fun c => { c with vectors := [⟨x0.iovBase, v0.len⟩, ⟨x1.iovBase, v1.len⟩] })
    (fun _ => rfl) rfl
  exact ⟨hgood.trans (hgood.ok.rewire himsg hw.mem_iov hwired), hwired⟩

variable (H act) in
/-- The last part of `http_on_data_default` allocates nothing. -/
theorem Ok.respond (hp : Ok p) (himsg : p.hook.own .msghdr = some imsg)
    (hw : Wired p imsg iov x0 x1) {req resp : Addr} (hreq : req ∈ p.hook.mp)
    (hresp : resp ∈ p.hook.mp) (route : Option (Assoc α)) (behind : Bytes) (rnd : Int32) :
    let out := respond H act route behind rnd req resp iov x0 x1 p
    Good p out.1 ∧ out.1.hook.mp = p.hook.mp ∧ out.1.hook.own = p.hook.own ∧
      ∃ l0 l1, Wired out.1 imsg iov ⟨x0.iovBase, l0⟩ ⟨x1.iovBase, l1⟩ ∧
        Responds H act route rnd l0 l1 out.2 := by
  intro out
  have hwrites := writes_store hreq hresp (Http.httpRoute H act route
    ((H.execute (Http.parserInput (p.iov x0) p.hook.nread behind)).foldl Http.onUrlCb
      (p.mem.cell req).req) (p.mem.cell resp).resp rnd)
  have hgood := hp.writes hwrites
  obtain ⟨hgood', hwired⟩ := hgood.ok.setIovs (hwrites.own ▸ himsg) (hw.writes hwrites) _ _
  exact ⟨hgood.trans hgood', rfl, rfl, _, _, hwired, _, _, _, _, rfl, rfl, rfl⟩

/-- A slot other than that of the header is filled. -/
structure Filled (slot : Slot) (p : Proc) (a : Addr) (p' : Proc) : Prop extends Good p p' where
  mem : a ∈ p'.hook.mp
  own : p'.hook.own = Function.update p.hook.own slot (some a)
  msghdr : p'.hook.own .msghdr = p.hook.own .msghdr
  keeps : (p.hook.own slot).isSome → p' = p
  old : ∀ b ∈ p.hook.mp, p'.mem.cell b = p.mem.cell b
  nread : p'.hook.nread = p.hook.nread
  overflow : p'.hook.overflow = p.hook.overflow
  wired : ∀ {imsg iov x0 x1}, p.hook.own .msghdr = some imsg → Wired p imsg iov x0 x1 →
    Wired p' imsg iov x0 x1

/-- What filling a slot leaves. -/
theorem Ok.filled (hp : Ok p) {slot : Slot} (hslot : slot ≠ .msghdr) {make : Proc → Addr × Proc}
    (hmake : Made (make p).1 p (make p).2) {a : Addr} (h : p.ensure slot make = (a, p')) :
    Filled slot p a p' := by
  have hgood := hp.ensure slot hmake fun heq => absurd heq hslot
  have hown := own_ensure slot hmake
  have hcells := fun b (hb : b ∈ p.hook.mp) => hp.cell_ensure slot hmake hb
  have hhook := hook_ensure slot hmake
  rw [h] at hgood hown hcells hhook
  refine ⟨hgood, ?_, hown, ?_, fun hsome => ?_, hcells, hhook.1, hhook.2, fun himsg hw => ?_⟩
  · apply hgood.ok.slots slot
    rw [hown]
    exact Function.update_self _ _ _
  · rw [hown, Function.update_of_ne hslot.symm]
  · obtain ⟨b, hb⟩ := Option.isSome_iff_exists.mp hsome
    rw [ensure_of_some hb] at h
    exact (congrArg Prod.snd h).symm
  · have hw' := hw.ensure hp slot himsg hmake
    rwa [h] at hw'

variable (H act) in
/-- The slots that `http_on_data_default` fills, one after the other, before it parses. -/
theorem Ok.httpOnDataDefault_eq (hp : Ok p) (himsg : p.hook.own .msghdr = some imsg)
    (hw : Wired p imsg iov x0 x1) (m : Malloc) (route : Option (Assoc α)) (behind : Bytes)
    (rnd : Int32) :
    ∃ settings p₁ req p₂ parser p₃ resp p₄, Filled .hs p settings p₁ ∧ Filled .req p₁ req p₂ ∧
      Filled .hp p₂ parser p₃ ∧ Filled .resp p₃ resp p₄ ∧
      p₁.ensure .req (Proc.makeReq m) = (req, p₂) ∧
      p₃.ensure .resp (Proc.makeResp m) = (resp, p₄) ∧ p₄.hook.own .msghdr = some imsg ∧
      Wired p₄ imsg iov x0 x1 ∧ httpOnDataDefault H act m route behind rnd p =
        some (Session.respond H act route behind rnd req resp iov x0 x1 p₄) := by
  rcases hhs : p.ensure .hs (Proc.hookMalloc m .settings) with ⟨settings, p₁⟩
  rcases hreq : p₁.ensure .req (Proc.makeReq m) with ⟨req, p₂⟩
  rcases hhp : p₂.ensure .hp (Proc.hookMalloc m .parser) with ⟨parser, p₃⟩
  rcases hresp : p₃.ensure .resp (Proc.makeResp m) with ⟨resp, p₄⟩
  have f₁ := hp.filled (by decide) (made_hookMalloc m .settings p) hhs
  have f₂ := f₁.ok.filled (by decide) (made_makeReq m p₁) hreq
  have f₃ := f₂.ok.filled (by decide) (made_hookMalloc m .parser p₂) hhp
  have f₄ := f₃.ok.filled (by decide) (made_makeResp m p₃) hresp
  -- the header is what it was
  have himsg₁ := f₁.msghdr.trans himsg
  have himsg₂ := f₂.msghdr.trans himsg₁
  have himsg₃ := f₃.msghdr.trans himsg₂
  have hw₄ := f₄.wired himsg₃ (f₃.wired himsg₂ (f₂.wired himsg₁ (f₁.wired himsg hw)))
  refine ⟨settings, p₁, req, p₂, parser, p₃, resp, p₄, f₁, f₂, f₃, f₄, hreq, hresp,
    f₄.msghdr.trans himsg₃, hw₄, ?_⟩
  simp only [Session.httpOnDataDefault, himsg, hw.iovlen, if_true, hhs, hreq, hhp, hresp,
    hw₄.msgIov, hw₄.vectors_eq]

/-- **`http_on_data_default`** does not fail, and afterwards everything is allocated. -/
theorem Ok.httpOnDataDefault (hp : Ok p) (himsg : p.hook.own .msghdr = some imsg)
    (hw : Wired p imsg iov x0 x1) (m : Malloc) (route : Option (Assoc α)) (behind : Bytes)
    (rnd : Int32) :
    ∃ p' ret l0 l1, httpOnDataDefault H act m route behind rnd p = some (p', ret) ∧ Good p p' ∧
      (Complete p → p'.hook.mp = p.hook.mp) ∧ Complete p' ∧ p'.hook.own .msghdr = some imsg ∧
      Wired p' imsg iov ⟨x0.iovBase, l0⟩ ⟨x1.iovBase, l1⟩ ∧
      Responds H act route rnd l0 l1 ret := by
  obtain ⟨settings, p₁, req, p₂, parser, p₃, resp, p₄, f₁, f₂, f₃, f₄, -, -, himsg₄, hw₄, hcode⟩ :=
    hp.httpOnDataDefault_eq H act himsg hw m route behind rnd
  have hown : p₄.hook.own = Function.update (Function.update (Function.update
      (Function.update p.hook.own .hs (some settings)) .req (some req)) .hp (some parser)) .resp
        (some resp) := by
    rw [f₄.own, f₃.own, f₂.own, f₁.own]
  have hreq₄ : req ∈ p₄.hook.mp := f₄.mp _ (f₃.mp _ f₂.mem)
  obtain ⟨hgood, hmp, hown', l0, l1, hwired, hresponds⟩ :=
    f₄.ok.respond H act himsg₄ hw₄ hreq₄ f₄.mem route behind rnd
  rcases hout : Session.respond H act route behind rnd req resp iov x0 x1 p₄ with ⟨p', ret⟩
  rw [hout] at hgood hmp hown' hwired hresponds hcode
  have himsg' : p'.hook.own .msghdr = some imsg := (congrFun hown' _).trans himsg₄
  refine ⟨p', ret, l0, l1, hcode, (((f₁.toGood.trans f₂.toGood).trans f₃.toGood).trans
    f₄.toGood).trans hgood, fun hc => ?_, ⟨fun slot => ?_, imsg, iov, _, _, himsg', hwired⟩,
    himsg', hwired, hresponds⟩
  · -- every slot is in use, so none of the four is filled again
    obtain rfl := f₁.keeps (hc.slots _)
    obtain rfl := f₂.keeps (hc.slots _)
    obtain rfl := f₃.keeps (hc.slots _)
    obtain rfl := f₄.keeps (hc.slots _)
    exact hmp
  · rw [show p'.hook.own = p₄.hook.own from hown', hown]
    cases slot with
    | msghdr => simp [Function.update, himsg]
    | _ => simp [Function.update]

/-- `recvmsg` has returned some bytes, so that the route lookup is reached. -/
def Arrives : Http.Recv → Prop
  | .error => False
  | .data bytes _ => bytes ≠ []

/-- Data arrives exactly where `recvmsg` returns a positive count. -/
theorem arrives_iff {recv : Http.Recv} {passed : Passed} {n : Int}
    (h : ioqueueSocketRecvmsg m recv p = (passed, n, p')) : Arrives recv ↔ 0 < n := by
  have hn : n = (ioqueueSocketRecvmsg m recv p).2.1 := by rw [h]
  rw [hn]
  cases recv with
  | error => exact iff_of_false id (by decide : ¬ (0 : Int) < -1)
  | data bytes fits =>
    show bytes ≠ [] ↔ (0 : Int) < bytes.length
    rw [Int.natCast_pos, List.length_pos_iff]

/-- What is handed to `sendmsg`: two io vectors with the lengths of a response. -/
def Sends (H : HttpParser) (act : α → Http.Req → Http.Resp → Int32 → Http.Resp × Bool)
    (route : Option (Assoc α)) (rnd : Int32) (passed : Passed) (ret : Nat) : Prop :=
  0 < ret ∧ passed.msgIovlen = 2 ∧ ∃ x0 x1, passed.vectors = [x0, x1] ∧
    Responds H act route rnd x0.iovLen x1.iovLen ret

/-- `UD_CORE_NREAD` is set. -/
theorem writes_nread (p : Proc) (n : Int) :
    Writes p { p with hook := { p.hook with nread := n } } :=
  ⟨rfl, rfl, rfl, rfl, rfl, fun _ => rfl, fun _ => rfl, fun _ _ => rfl⟩

variable (H act) in
/-- **One round**, whatever `recvmsg` returns: no assertion fails, the invariant is kept, and
nothing is allocated any more once everything is. -/
theorem Ok.hookOnDataTest (hp : Ok p) (m : Malloc) (route : Option (Assoc α)) (recv : Http.Recv)
    (behind : Bytes) (rnd : Int32) :
    ∃ p' calls, hookOnDataTest H act m route recv behind rnd p = some (p', calls) ∧ Good p p' ∧
      (Complete p → p'.hook.mp = p.hook.mp ∧ Complete p') ∧ (Arrives recv → Complete p') ∧
      calls.recv.Whole p' ∧
      ∀ passed ret, calls.send = some (passed, ret) → Sends H act route rnd passed ret := by
  rcases hrecv : Session.ioqueueSocketRecvmsg m recv p with ⟨passed, n, p₁⟩
  obtain ⟨hgood₁, hwhole₁, hmp₁, imsg, iov, x0, x1, hown₁, hw₁⟩ := hp.ioqueueSocketRecvmsg hrecv
  -- the count of bytes read is stored between the two functions
  have hnread := writes_nread p₁ n
  have hgood₂ := hgood₁.trans (hgood₁.ok.writes hnread)
  have hwhole₂ := hwhole₁.extends (hgood₁.ok.writes hnread).toExtends
  have hw₂ := hw₁.writes hnread
  have harrives := arrives_iff hrecv
  simp only [Session.hookOnDataTest, hrecv]
  generalize hp₂ : ({ p₁ with hook := { p₁.hook with nread := n } } : Proc) = p₂ at *
  have hown₂ : p₂.hook.own = Function.update p.hook.own .msghdr (some imsg) := hp₂ ▸ hown₁
  have hmp₂ : Complete p → p₂.hook.mp = p.hook.mp := hp₂ ▸ hmp₁
  have himsg₂ : p₂.hook.own .msghdr = some imsg := by
    rw [hown₂]
    exact Function.update_self _ _ _
  -- a session with all its blocks still has them after the read
  have hcomplete₂ : Complete p → Complete p₂ := by
    intro hc
    refine ⟨fun slot => ?_, imsg, iov, x0, x1, himsg₂, hw₂⟩
    rw [hown₂]
    by_cases hslot : slot = .msghdr
    · rw [hslot, Function.update_self]
      rfl
    · rw [Function.update_of_ne hslot]
      exact hc.slots slot
  -- without data the hook returns at once; with data the request is handled
  by_cases hn : n ≤ 0
  · rw [if_pos hn]
    exact ⟨p₂, _, rfl, hgood₂, fun hc => ⟨hmp₂ hc, hcomplete₂ hc⟩,
      fun ha => absurd (harrives.mp ha) (by omega), hwhole₂, nofun⟩
  · obtain ⟨p', ret, l0, l1, hcode, hgood, hmp, hcomplete, himsg, hw, hresponds⟩ :=
      hgood₂.ok.httpOnDataDefault (H := H) himsg₂ hw₂ m route behind rnd
    have hmp' : Complete p → p'.hook.mp = p.hook.mp ∧ Complete p' := fun hc =>
      ⟨(hmp (hcomplete₂ hc)).trans (hmp₂ hc), hcomplete⟩
    rw [if_neg hn, hcode]
    by_cases hret : ret > 0
    · simp only [hret, if_true, himsg]
      refine ⟨p', _, rfl, hgood₂.trans hgood, hmp', fun _ => hcomplete,
        hwhole₂.extends hgood.toExtends, fun passed' ret' hsend => ?_⟩
      cases hsend
      exact ⟨hret, hw.iovlen, _, _, hw.vectors_eq, hresponds⟩
    · simp only [hret, if_false]
      exact ⟨p', _, rfl, hgood₂.trans hgood, hmp', fun _ => hcomplete,
        hwhole₂.extends hgood.toExtends, nofun⟩

end

end Ayubd.Session
