import Ayubd.Session.PoolInv

/-!
# Ayubd — sessions side by side

What holds in every state that accepted connections, requests and closed sessions can lead to, in
any order.

* **`pool_invariant`** — every block is in the list of its hook once and in no other, no slots of
  two sessions point to the same block, a session does not allocate any more once a request has
  reached the route lookup, and freeing a hook frees each of its blocks once.
-/

namespace Ayubd.Session

open Ayubd

variable {p p' q : Proc} {a : Addr}

/-! ## What other sessions leave alone -/

/-- The memory `mem'` has the blocks of a hook as they were. -/
structure Keeps (q : Proc) (mem' : Mem) : Prop where
  blocks : mem'.live.filter (·.hook = q.id) = q.mem.live.filter (·.hook = q.id)
  cells : ∀ a ∈ q.hook.mp, mem'.cell a = q.mem.cell a

section
variable {mem' : Mem}

theorem Keeps.live (h : Keeps q mem') {b : Block} (hb : b ∈ q.mem.live) (hhook : b.hook = q.id) :
    b ∈ mem'.live := by
  have hmem : b ∈ q.mem.live.filter (·.hook = q.id) :=
    List.mem_filter.mpr ⟨hb, decide_eq_true hhook⟩
  rw [← h.blocks] at hmem
  exact (List.mem_filter.mp hmem).1

/-- Another session's step leaves the vectors wired. -/
theorem Wired.keeps {imsg iov : Addr} {x0 x1 : Iovec} (hw : Wired q imsg iov x0 x1)
    (himsg : imsg ∈ q.hook.mp) (h : Keeps q mem') :
    Wired ⟨q.id, mem', q.hook⟩ imsg iov x0 x1 := by
  refine hw.congr rfl (fun _ hb hhook => h.live hb hhook) hw.mem_iov ?_ ?_
  · rw [h.cells imsg himsg]
  · rw [h.cells iov hw.mem_iov]

/-- Another session's step leaves a session in order. -/
theorem Ok.keeps (hq : Ok q) (h : Keeps q mem') (hnodup : mem'.addrs.Nodup)
    (hsafe : mem'.fault = false) : Ok ⟨q.id, mem', q.hook⟩ := by
  refine ⟨?_, hnodup, hsafe, hq.slots, fun imsg himsg => ?_⟩
  · rw [h.blocks]
    exact hq.pool
  · have hmem := hq.slots _ _ himsg
    rcases hq.header imsg himsg with hnone | ⟨iov, x0, x1, hw⟩
    · refine .inl ?_
      rw [h.cells imsg hmem]
      exact hnone
    · exact .inr ⟨iov, x0, x1, hw.keeps hmem h⟩

/-- Another session's step leaves a session complete. -/
theorem Complete.keeps (hc : Complete q) (hq : Ok q) (h : Keeps q mem') :
    Complete ⟨q.id, mem', q.hook⟩ := by
  obtain ⟨hslots, imsg, iov, x0, x1, himsg, hw⟩ := hc
  exact ⟨hslots, imsg, iov, x0, x1, himsg, hw.keeps (hq.slots _ _ himsg) h⟩

end

/-- Blocks are told apart by their addresses. -/
theorem block_ext {mem : Mem} (hnodup : mem.addrs.Nodup) {b b' : Block} (hb : b ∈ mem.live)
    (hb' : b' ∈ mem.live) (haddr : b.addr = b'.addr) : b = b' :=
  List.inj_on_of_nodup_map hnodup hb hb' haddr

/-- The hook's list holds its live blocks and no other. -/
theorem Ok.mem_mp_iff (hp : Ok p) : a ∈ p.hook.mp ↔
    ∃ b ∈ p.mem.live, b.hook = p.id ∧ b.addr = a := by
  rw [hp.pool, List.mem_map]
  simp only [List.mem_filter, decide_eq_true_eq, and_assoc]

/-- The lists of two hooks have nothing in common. -/
theorem Ok.disjoint (hp : Ok p) (hq : Ok q) (hmem : q.mem = p.mem) (hne : q.id ≠ p.id)
    (ha : a ∈ q.hook.mp) : a ∉ p.hook.mp := by
  intro ha'
  obtain ⟨b, hb, hhook, hb'⟩ := hq.mem_mp_iff.mp ha
  obtain ⟨c, hc, hhook', hc'⟩ := hp.mem_mp_iff.mp ha'
  rw [hmem] at hb
  obtain rfl := block_ext hp.nodup hb hc (hb'.trans hc'.symm)
  exact hne (hhook.symm.trans hhook')

/-- **A function that works on one hook** leaves the others alone. -/
theorem Good.keeps (h : Good p p') (hq : Ok q) (hmem : q.mem = p.mem) (hne : q.id ≠ p.id) :
    Keeps q p'.mem := by
  obtain ⟨bs, hlive, hhook⟩ := h.blocks
  have hblocks : p'.mem.live.filter (·.hook = q.id) = q.mem.live.filter (·.hook = q.id) := by
    have hnone : bs.filter (·.hook = q.id) = [] := by
      refine List.filter_eq_nil_iff.mpr fun b hb hq => ?_
      exact hne ((of_decide_eq_true hq).symm.trans (hhook b hb))
    rw [hlive, List.filter_append, hnone, List.nil_append, hmem]
  refine ⟨hblocks, fun a ha => ?_⟩
  rw [hmem]
  refine h.frame a fun ha' => ?_
  obtain ⟨b, hb, hbid, rfl⟩ := hq.mem_mp_iff.mp ha
  obtain ⟨c, hc, hcid, hcb⟩ := h.ok.mem_mp_iff.mp ha'
  have hb' : b ∈ p'.mem.live := by
    rw [hlive, ← hmem]
    exact List.mem_append_right _ hb
  obtain rfl := block_ext h.ok.nodup hc hb' hcb
  exact hne (hbid.symm.trans (hcid.trans h.id))

/-! ## Freeing a hook -/

/-- Freeing distinct live blocks takes these out and faults nowhere. -/
theorem foldl_free {mem : Mem} {as : List Addr} (hmem : ∀ a ∈ as, a ∈ mem.addrs)
    (hnodup : as.Nodup) :
    as.foldl Mem.free mem = { mem with live := mem.live.filter (·.addr ∉ as) } := by
  induction as generalizing mem with
  | nil =>
    have hall : mem.live.filter (·.addr ∉ ([] : List Addr)) = mem.live := by
      refine List.filter_eq_self.mpr fun b _ => ?_
      exact decide_eq_true List.not_mem_nil
    rw [hall]
    rfl
  | cons a as ih =>
    obtain ⟨hnot, hnodup⟩ := List.nodup_cons.mp hnodup
    have hfree : mem.free a = { mem with live := mem.live.filter (·.addr ≠ a) } :=
      if_pos (hmem a List.mem_cons_self)
    rw [List.foldl_cons, hfree, ih ?_ hnodup]
    · simp only [List.filter_filter, List.mem_cons, not_or, Bool.decide_and, Bool.and_comm]
    · intro b hb
      obtain ⟨c, hc, rfl⟩ := List.mem_map.mp (hmem b (List.mem_cons_of_mem _ hb))
      refine List.mem_map_of_mem (List.mem_filter.mpr ⟨hc, decide_eq_true fun heq => ?_⟩)
      exact hnot (heq ▸ hb)

/-- **Freeing a hook** frees its blocks, each once, and no others. -/
theorem Ok.hookFreeReal (hp : Ok p) :
    p.hook.mp.Nodup ∧
      hookFreeReal p.mem p.hook = { p.mem with live := p.mem.live.filter (·.hook ≠ p.id) } := by
  have hnodup : p.hook.mp.Nodup := by
    rw [hp.pool]
    exact hp.nodup.sublist (List.filter_sublist.map _)
  refine ⟨hnodup, ?_⟩
  unfold Session.hookFreeReal
  rw [foldl_free (fun a ha => hp.addrs ha) hnodup]
  congr 1
  refine List.filter_congr fun b hb => ?_
  rw [decide_eq_decide, not_iff_not, hp.mem_mp_iff]
  constructor
  · rintro ⟨c, hc, hhook, hcb⟩
    rw [← block_ext hp.nodup hc hb hcb]
    exact hhook
  · exact fun hhook => ⟨b, hb, hhook, rfl⟩

/-- Releasing one hook keeps the blocks of the others. -/
theorem Ok.keeps_free (hp : Ok p) (hmem : q.mem = p.mem) (hne : q.id ≠ p.id) :
    Keeps q (Session.hookFreeReal p.mem p.hook) := by
  rw [hp.hookFreeReal.2]
  refine ⟨?_, fun a _ => by rw [hmem]⟩
  show (p.mem.live.filter _).filter _ = _
  rw [List.filter_filter, hmem]
  refine List.filter_congr fun b _ => ?_
  by_cases hb : b.hook = q.id
  · simp [hb, hne]
  · simp [hb]

/-! ## The invariant of all sessions -/

/-- **The invariant**: that of every hook, and no block belongs to a hook that is gone. -/
structure World.Inv (w : World) : Prop where
  ok : ∀ id hook, w.sessions id = some hook → Ok ⟨id, w.mem, hook⟩
  owned : ∀ b ∈ w.mem.live, (w.sessions b.hook).isSome
  nodup : w.mem.addrs.Nodup
  safe : w.mem.fault = false
  listener : w.listener = .new

section
variable {w w' : World} {id : Nat} {hook : Hook}

theorem World.inv_start (cell : Addr → Cell) : (World.start cell).Inv :=
  ⟨nofun, nofun, List.nodup_nil, rfl, rfl⟩

theorem World.sessions_put_self (w : World) (p : Proc) : (w.put p).sessions p.id = some p.hook :=
  Function.update_self _ _ _

theorem World.sessions_put_of_ne (w : World) (h : id ≠ p.id) :
    (w.put p).sessions id = w.sessions id :=
  Function.update_of_ne h _ _

/-- A function has worked on one hook. -/
theorem World.Inv.put (hw : w.Inv) (hp : p.mem = w.mem) (hgood : Good p p') : (w.put p').Inv := by
  have hid := hgood.id
  refine ⟨fun id hook hsession => ?_, fun b hb => ?_, hgood.ok.nodup, hgood.ok.safe, hw.listener⟩
  · by_cases heq : id = p'.id
    · subst heq
      rw [w.sessions_put_self] at hsession
      cases hsession
      exact hgood.ok
    · rw [w.sessions_put_of_ne heq] at hsession
      have hq := hw.ok id hook hsession
      exact hq.keeps (hgood.keeps hq hp.symm (hid ▸ heq)) hgood.ok.nodup hgood.ok.safe
  · by_cases heq : b.hook = p'.id
    · rw [heq, w.sessions_put_self]
      rfl
    · obtain ⟨bs, hlive, hhook⟩ := hgood.blocks
      have hb' : b ∈ bs ++ p.mem.live := hlive ▸ hb
      rw [w.sessions_put_of_ne heq]
      rcases List.mem_append.mp hb' with hb' | hb'
      · exact absurd ((hhook b hb').trans hid.symm) heq
      · exact hw.owned b (hp ▸ hb')

/-- A number that no session has. -/
theorem World.Inv.ok_new (hw : w.Inv) (hnone : w.sessions id = none) : Ok ⟨id, w.mem, .new⟩ := by
  refine ⟨?_, hw.nodup, hw.safe, nofun, nofun⟩
  have hempty : w.mem.live.filter (·.hook = id) = [] := by
    refine List.filter_eq_nil_iff.mpr fun b hb heq => ?_
    have hsome := hw.owned b hb
    rw [of_decide_eq_true heq, hnone] at hsome
    cases hsome
  show [] = List.map _ _
  rw [hempty]
  rfl

/-- Nothing of a listening hook is private, so a new session starts with its header alone. -/
theorem newSession_eq (m : Malloc) (id : Nat) (mem : Mem) :
    newSession m .new id mem = (Proc.ensure .msghdr (Proc.makeMsghdr m) ⟨id, mem, .new⟩).2 := rfl

/-- A new session is in order from its first block on. -/
theorem World.Inv.good_newSession (hw : w.Inv) (m : Malloc) (hnone : w.sessions id = none) :
    Good ⟨id, w.mem, .new⟩ (newSession m w.listener id w.mem) := by
  rw [hw.listener, newSession_eq]
  exact (hw.ok_new hnone).ensure .msghdr (made_makeMsghdr m _) fun _ => msgIov_makeMsghdr m _

/-- The sessions that are left when a hook has been freed. -/
theorem World.Inv.close (hw : w.Inv) (hsession : w.sessions id = some hook)
    (hmem : w'.mem = hookFreeReal w.mem hook)
    (hsessions : w'.sessions = Function.update w.sessions id none)
    (hlistener : w'.listener = w.listener) : w'.Inv := by
  have hp := hw.ok id hook hsession
  have hfree : w'.mem = { w.mem with live := w.mem.live.filter (·.hook ≠ id) } :=
    hmem.trans hp.hookFreeReal.2
  have hnodup : w'.mem.addrs.Nodup := by
    rw [hfree]
    exact hw.nodup.sublist (List.filter_sublist.map _)
  have hsafe : w'.mem.fault = false := by
    rw [hfree]
    exact hw.safe
  refine ⟨fun id' hook' hsession' => ?_, fun b hb => ?_, hnodup, hsafe,
    hlistener.trans hw.listener⟩
  · rw [hsessions] at hsession'
    by_cases heq : id' = id
    · rw [heq, Function.update_self] at hsession'
      cases hsession'
    · rw [Function.update_of_ne heq] at hsession'
      have hq := hw.ok id' hook' hsession'
      have hkeeps := hp.keeps_free (q := ⟨id', w.mem, hook'⟩) rfl heq
      exact hq.keeps (hmem ▸ hkeeps) hnodup hsafe
  · rw [hfree] at hb
    obtain ⟨hlive, hne⟩ := List.mem_filter.mp hb
    rw [hsessions, Function.update_of_ne (of_decide_eq_true hne)]
    exact hw.owned b hlive

end

/-! ## Runs -/

section
variable {α : Type} {H : HttpParser} {act : α → Http.Req → Http.Resp → Int32 → Http.Resp × Bool}
  {w w' : World} {id : Nat} {hook : Hook}

variable (H act) in
/-- **The sessions of a server**: they come, have something to read and go in any order. -/
def sessions : System World (Action α) where
  init w := ∃ cell, w = .start cell
  step := World.step H act

variable (H act) in
/-- What a step can do, with the hook it works on. -/
inductive Moves (w w' : World) : Action α → Prop where
  | accept (m : Malloc) (id : Nat) (hsession : w.sessions id = none)
      (hw' : w' = w.put (newSession m w.listener id w.mem)) : Moves w w' (.accept m id)
  | data {hook : Hook} {p : Proc} {calls : Calls} {m : Malloc} {id : Nat}
      {route : Option (Assoc α)} {recv : Http.Recv} {behind : Bytes} {rnd : Int32}
      (hsession : w.sessions id = some hook)
      (hround : hookOnDataTest H act m route recv behind rnd ⟨id, w.mem, hook⟩ = some (p, calls))
      (hgood : Good ⟨id, w.mem, hook⟩ p)
      (hcomplete : Complete ⟨id, w.mem, hook⟩ → p.hook.mp = hook.mp ∧ Complete p)
      (harrives : Arrives recv → Complete p) (hw' : w' = w.put p) :
      Moves w w' (.data m id route recv behind rnd)
  | close {hook : Hook} (id : Nat) (hsession : w.sessions id = some hook)
      (hmem : w'.mem = hookFreeReal w.mem hook)
      (hsessions : w'.sessions = Function.update w.sessions id none)
      (hlistener : w'.listener = w.listener) : Moves w w' (.close id)

/-- Every action is one of the three moves of a session. -/
theorem World.Inv.moves (hw : w.Inv) {action : Action α} (h : w.step H act action = some w') :
    Moves H act w w' action := by
  cases action with
  | accept m id =>
    simp only [World.step] at h
    split at h
    · cases h
    · next hsession => exact .accept m id hsession (Option.some.inj h).symm
  | data m id route recv behind rnd =>
    simp only [World.step] at h
    split at h
    · cases h
    · next hook hsession =>
      obtain ⟨p, calls, hround, hgood, hcomplete, harrives, -, -⟩ :=
        (hw.ok id hook hsession).hookOnDataTest H act m route recv behind rnd
      simp only [World.data, hround, Option.map_some, Option.some.injEq] at h
      exact .data hsession hround hgood hcomplete harrives h.symm
  | close id =>
    simp only [World.step] at h
    split at h
    · cases h
    · next hook hsession =>
      cases h
      exact .close id hsession rfl rfl rfl

/-- The invariant survives every action. -/
theorem World.Inv.step (hw : w.Inv) {action : Action α} (h : w.step H act action = some w') :
    w'.Inv := by
  cases hw.moves h with
  | accept m id hsession hw' =>
    rw [hw']
    exact hw.put rfl (hw.good_newSession m hsession)
  | data hsession hround hgood hcomplete harrives hw' =>
    rw [hw']
    exact hw.put rfl hgood
  | close id hsession hmem hsessions hlistener =>
    exact hw.close hsession hmem hsessions hlistener

theorem inv_of_reachable (hw : (sessions H act).Reachable w) : w.Inv := by
  refine System.Reach.invariant (S := sessions H act) ?_ (fun s a s' _ hs _ hstep => hs.step hstep)
    hw
  rintro w ⟨cell, rfl⟩
  exact World.inv_start cell

/-- The session `id` is open, has all that it needs, and its list is `mp`. -/
def Settled (id : Nat) (mp : List Addr) (w : World) : Prop :=
  ∃ hook, w.sessions id = some hook ∧ hook.mp = mp ∧ Complete ⟨id, w.mem, hook⟩

variable {mp : List Addr}

/-- A function has worked on another hook. -/
theorem Settled.put (h : Settled id mp w) (hw : w.Inv) (hp : p.mem = w.mem) (hgood : Good p p')
    (hne : id ≠ p.id) : Settled id mp (w.put p') := by
  obtain ⟨hook, hsession, hmp, hc⟩ := h
  have hq := hw.ok id hook hsession
  refine ⟨hook, ?_, hmp, hc.keeps hq (hgood.keeps hq hp.symm hne)⟩
  rw [w.sessions_put_of_ne (hgood.id ▸ hne)]
  exact hsession

theorem settled_put (hid : p.id = id) (hmp : p.hook.mp = mp) (hc : Complete p) :
    Settled id mp (w.put p) := by
  subst hid
  exact ⟨p.hook, w.sessions_put_self p, hmp, hc⟩

/-- **Nothing but its being closed** changes the list of a session that has all it needs. -/
theorem Settled.step (h : Settled id mp w) (hw : w.Inv) {action : Action α}
    (hstep : w.step H act action = some w') (hopen : action ≠ .close id) : Settled id mp w' := by
  cases hw.moves hstep with
  | accept m id' hnone hw' =>
    have hne : id ≠ id' := by
      rintro rfl
      obtain ⟨hook, hsession, -, -⟩ := h
      rw [hnone] at hsession
      cases hsession
    rw [hw']
    exact h.put hw rfl (hw.good_newSession m hnone) hne
  | @data hook' p _ _ id' _ _ _ _ hsession' _ hgood hcomplete _ hw' =>
    by_cases heq : id = id'
    · subst heq
      obtain ⟨hook, hsession, hmp, hc⟩ := h
      rw [hsession] at hsession'
      cases hsession'
      exact hw' ▸ settled_put hgood.id ((hcomplete hc).1.trans hmp) (hcomplete hc).2
    · rw [hw']
      exact h.put hw rfl hgood heq
  | close id' hsession' hmem hsessions _ =>
    have hne : id ≠ id' := fun heq => hopen (heq ▸ rfl)
    obtain ⟨hook, hsession, hmp, hc⟩ := h
    have hkeeps := (hw.ok id' _ hsession').keeps_free (q := ⟨id, w.mem, hook⟩) rfl hne
    refine ⟨hook, ?_, hmp, hc.keeps (hw.ok id hook hsession) (hmem ▸ hkeeps)⟩
    rw [hsessions, Function.update_of_ne hne]
    exact hsession

/-- From the first request that reaches the route lookup on a session has all it needs. -/
theorem settled_of_arrives (hw : w.Inv) {m : Malloc} {route : Option (Assoc α)} {recv : Http.Recv}
    {behind : Bytes} {rnd : Int32} (harrives : Arrives recv)
    (hstep : w.step H act (.data m id route recv behind rnd) = some w') :
    ∃ mp, Settled id mp w' := by
  cases hw.moves hstep with
  | data _ _ hgood _ hcomplete hw' =>
    exact ⟨_, hw' ▸ settled_put hgood.id rfl (hcomplete harrives)⟩

/-- A settled session stays settled until it is closed. -/
theorem Settled.run (h : Settled id mp w) (hw : w.Inv) {as : List (Action α)}
    (hrun : (sessions H act).run w as = some w') (hopen : .close id ∉ as) : Settled id mp w' := by
  induction as generalizing w with
  | nil =>
    cases hrun
    exact h
  | cons a as ih =>
    obtain ⟨t, hstep, hrest⟩ := Option.bind_eq_some_iff.mp hrun
    have hne : a ≠ .close id := fun heq => hopen (heq ▸ List.mem_cons_self)
    have hopen' : .close id ∉ as := fun hmem => hopen (List.mem_cons_of_mem _ hmem)
    exact ih (h.step hw hstep hne) (hw.step hstep) hrest hopen'

/-! ## The memory pool -/

/-- **Every block belongs to one hook.** It is in the list of that hook once and in no other. No
slots of two sessions hold the same pointer. Freeing a hook frees what is in its list, each block
once, and these are the blocks that were obtained for it. -/
structure Pool (w : World) : Prop where
  once : ∀ b ∈ w.mem.live, ∃ hook, w.sessions b.hook = some hook ∧ hook.mp.count b.addr = 1
  only : ∀ b ∈ w.mem.live, b.addr ∉ w.listener.mp ∧
    ∀ id hook, w.sessions id = some hook → id ≠ b.hook → b.addr ∉ hook.mp
  apart : ∀ id id' hook hook', w.sessions id = some hook → w.sessions id' = some hook' →
    id ≠ id' → ∀ slot slot' a, hook.own slot = some a → hook'.own slot' ≠ some a
  released : ∀ id hook, w.sessions id = some hook →
    hook.mp.Nodup ∧ (∀ a, a ∈ hook.mp ↔ ∃ b ∈ w.mem.live, b.hook = id ∧ b.addr = a) ∧
      (hookFreeReal w.mem hook).fault = false ∧
      (hookFreeReal w.mem hook).live = w.mem.live.filter (·.hook ≠ id)

theorem World.Inv.pool (hw : w.Inv) : Pool w := by
  refine ⟨fun b hb => ?_, fun b hb => ⟨?_, fun id hook hsession hne hmem => ?_⟩,
    fun id id' hook hook' hsession hsession' hne slot slot' a hown hown' => ?_,
    fun id hook hsession => ?_⟩
  · obtain ⟨hook, hsession⟩ := Option.isSome_iff_exists.mp (hw.owned b hb)
    have hp := hw.ok b.hook hook hsession
    refine ⟨hook, hsession, List.count_eq_one_of_mem hp.hookFreeReal.1 ?_⟩
    exact hp.mem_mp_iff.mpr ⟨b, hb, rfl, rfl⟩
  · rw [hw.listener]
    exact List.not_mem_nil
  · obtain ⟨c, hc, hhook, haddr⟩ := (hw.ok id hook hsession).mem_mp_iff.mp hmem
    obtain rfl := block_ext hw.nodup hc hb haddr
    exact hne hhook.symm
  · have hp := hw.ok id hook hsession
    have hq := hw.ok id' hook' hsession'
    exact hp.disjoint hq rfl hne.symm (hq.slots slot' a hown') (hp.slots slot a hown)
  · have hp := hw.ok id hook hsession
    have hfree : hookFreeReal w.mem hook = { w.mem with live := w.mem.live.filter (·.hook ≠ id) } :=
      hp.hookFreeReal.2
    refine ⟨hp.hookFreeReal.1, fun a => hp.mem_mp_iff, ?_, ?_⟩
    · rw [hfree]
      exact hw.safe
    · rw [hfree]

/-- The list of a session does not grow any more once a request has reached the route lookup,
whatever happens until it is closed. -/
def NoGrowth (H : HttpParser) (act : α → Http.Req → Http.Resp → Int32 → Http.Resp × Bool)
    (w : World) : Prop :=
  ∀ m id route recv behind rnd w', Arrives recv →
    w.step H act (.data m id route recv behind rnd) = some w' →
    ∃ hook, w'.sessions id = some hook ∧
      ∀ as w'', (sessions H act).run w' as = some w'' → .close id ∉ as →
        ∃ hook', w''.sessions id = some hook' ∧ hook'.mp = hook.mp

theorem World.Inv.noGrowth (hw : w.Inv) : NoGrowth H act w := by
  intro m id route recv behind rnd w' harrives hstep
  obtain ⟨mp, hsettled⟩ := settled_of_arrives hw harrives hstep
  have hw' := hw.step hstep
  have hmp : ∀ {v}, Settled id mp v → ∃ hook, v.sessions id = some hook ∧ hook.mp = mp :=
    fun ⟨hook, hsession, hmp, _⟩ => ⟨hook, hsession, hmp⟩
  obtain ⟨hook, hsession, rfl⟩ := hmp hsettled
  exact ⟨hook, hsession, fun as w'' hrun hopen => hmp (hsettled.run hw' hrun hopen)⟩

/-- **The memory pool**: in every state that any number of sessions can lead to, every block is in
the list of its own hook once and in no other, private slots are not shared, freeing a hook frees
each of its blocks once, and the lists stop growing. -/
theorem pool_invariant (hw : (sessions H act).Reachable w) : Pool w ∧ NoGrowth H act w := by
  have hinv := inv_of_reachable hw
  exact ⟨hinv.pool, hinv.noGrowth⟩

end

def askApp : Http.Recv := .data (ascii "GET /app/get HTTP/1.1\r\n\r\n") (by decide)

def askNope : Http.Recv := .data (ascii "GET /nope HTTP/1.0\r\n\r\n") (by decide)

/-- Of two sessions that have been accepted, the first has a request. Then the second is closed and
the first has another request, for which nothing is allocated. -/
theorem pool_invariant_requests :
    ∃ w w' w'' hook hook'',
      (sessions .getOnly Http.Captcha.act).run (.start fun _ => .zero)
        [.accept .bump 0, .accept .bump 1] = some w ∧ Pool w ∧
      w.step .getOnly Http.Captcha.act (.data .bump 0 (some Http.routes) askApp [] 5) = some w' ∧
      w'.sessions 0 = some hook ∧ (w'.sessions 1).isSome ∧
      (sessions .getOnly Http.Captcha.act).run w'
        [.close 1, .data .bump 0 (some Http.routes) askNope [] 6] = some w'' ∧
      w''.sessions 0 = some hook'' ∧ w''.sessions 1 = none ∧
      hook''.mp = hook.mp ∧ Pool w'' := by
  have hrun : (((sessions .getOnly Http.Captcha.act).run (.start fun _ => .zero)
      [.accept .bump 0, .accept .bump 1]).bind fun w =>
        (w.step .getOnly Http.Captcha.act (.data .bump 0 (some Http.routes) askApp [] 5)).bind
          fun w' => ((sessions .getOnly Http.Captcha.act).run w'
            [.close 1, .data .bump 0 (some Http.routes) askNope [] 6]).map fun w'' =>
              decide ((w'.sessions 1).isSome ∧ (w''.sessions 1).isNone)) = some true := by
    decide +kernel
  obtain ⟨w, hw, hrun⟩ := Option.bind_eq_some_iff.mp hrun
  obtain ⟨w', hw', hrun⟩ := Option.bind_eq_some_iff.mp hrun
  obtain ⟨w'', hw'', hrun⟩ := Option.map_eq_some_iff.mp hrun
  obtain ⟨hopen, hclosed⟩ := of_decide_eq_true hrun
  have hreach : (sessions .getOnly Http.Captcha.act).Reachable w :=
    System.Reachable.run (.init ⟨_, rfl⟩) hw
  obtain ⟨hpool, hgrowth⟩ := pool_invariant hreach
  have harrives : Arrives askApp := (by decide : ascii "GET /app/get HTTP/1.1\r\n\r\n" ≠ [])
  obtain ⟨hook, hsession, hsame⟩ := hgrowth _ _ _ _ _ _ _ harrives hw'
  obtain ⟨hook'', hsession'', hmp⟩ := hsame _ _ hw'' (by simp)
  have hstep : (sessions .getOnly Http.Captcha.act).step w
      (.data .bump 0 (some Http.routes) askApp [] 5) = some w' := hw'
  have hreach' : (sessions .getOnly Http.Captcha.act).Reachable w' := .step hreach trivial hstep
  exact ⟨w, w', w'', hook, hook'', hw, hpool, hw', hsession, hopen, hw'', hsession'',
    Option.isNone_iff_eq_none.mp hclosed, hmp, (pool_invariant (hreach'.run hw'')).1⟩

end Ayubd.Session
