import Mathlib.Data.List.Nodup
import Ayubd.Base.Runs
import Ayubd.Queue.LfqInv

/-!
# Ayubd — one producer and one consumer on the queue of `lfq.c`

`producer-consumer-test.c` runs `lfq_in` in one thread and `lfq_out` in another. Here the two
are interleaved one memory access at a time, in any order, with any allocator: `malloc` may
hand out every address that is not allocated, a freed one again or never. (Where it never does,
an address is a node, and an access to one that is not allocated is one to a freed node.)

`spsc_correct` collects what holds in every state reached: what has been dequeued is a prefix
of what has been enqueued, `divider` and `last` lie on the chain that starts at `first`, no
access hits a node that is not allocated, and an `lfq_in` that ran alone leaves one node more
than there are values to deliver.
-/

namespace Ayubd

/-- The queue and its two threads. `given` and `got` are history: the values passed to `lfq_in`,
and those `lfq_out` has returned, `NULL` apart. `alone` says that no `lfq_out` has run since the
last call of `lfq_in`. -/
structure Spsc (α : Type) where
  q : Lfq α
  given : List α
  got : List α
  alone : Bool

namespace Lfq

variable {α : Type}

/-- The pointer `k` links behind `first`. -/
def follow (q : Lfq α) : Nat → Option Addr
  | 0 => q.first
  | k + 1 => (q.follow k).bind fun a => (q.mem a).link

/-- A pointer to a node of the chain that starts at `first`. -/
def OnChain (q : Lfq α) (p : Option Addr) : Prop :=
  ∃ k a, q.follow k = some a ∧ p = some a

/-- The value that is passed to `lfq_in` but not linked yet. -/
def pending : InPc α → List α
  | .setValue v _ | .setLink v _ | .loadLast v _ | .storeLink v _ _ => [v]
  | _ => []

/-- The nodes the producer holds outside the chain: a new one, or one to be freed. -/
def held : InPc α → Nat
  | .setValue .. | .setLink .. | .loadLast .. | .storeLink .. | .free _ => 1
  | _ => 0

/-- The value that `lfq_out` is about to return. -/
def leaving : OutPc α → List α
  | .done r => r.toList
  | _ => []

end Lfq

namespace Spsc

variable {α : Type}

/-- What a thread does next. -/
inductive Act (α : Type) where
  /-- the producer calls `lfq_in(q, v)`, whose `malloc` returns `np` -/
  | callIn (v : α) (np : Addr)
  | inStep
  | returnIn
  /-- the consumer calls `lfq_out(q)` -/
  | callOut
  | outStep
  | returnOut

def step (s : Spsc α) : Act α → Option (Spsc α)
  | .callIn v np =>
    match s.q.inPc with
    | .idle =>
      if np ∈ s.q.live then none
      else
        some { s with
          q := s.q.inStart v np
          given := s.given ++ [v]
          alone := match s.q.outPc with
            | .idle => true
            | _ => false }
    | _ => none
  | .inStep => some { s with q := s.q.inStep }
  | .returnIn =>
    match s.q.inPc with
    | .done => some { s with q := s.q.inFinish }
    | _ => none
  | .callOut =>
    match s.q.outPc with
    | .idle => some { s with q := s.q.outStart, alone := false }
    | _ => none
  | .outStep => some { s with q := s.q.outStep }
  | .returnOut =>
    match s.q.outPc with
    | .done r => some { s with q := s.q.outFinish, got := s.got ++ r.toList }
    | _ => none

def fresh (mem : Addr → LfqNode α) (d : Addr) : Spsc α :=
  { q := .lfqNew mem d, given := [], got := [], alone := true }

def system (α : Type) : System (Spsc α) (Act α) where
  init s := ∃ mem d, s = fresh mem d
  step := step

end Spsc

/-! ## What an access of the producer changes -/

namespace Lfq

variable {α : Type} {q : Lfq α} {addr : Nat → Addr} {lo : Nat}

/-- The producer does not touch what the consumer keeps. -/
theorem inStep_consumer (q : Lfq α) : q.inStep.adv = q.adv ∧ q.inStep.outPc = q.outPc := by
  unfold inStep
  cases q.inPc with
  | free tmp => cases tmp <;> exact ⟨rfl, rfl⟩
  | _ => exact ⟨rfl, rfl⟩

/-- A value is with the producer until it is linked, and from then on in the queue. -/
theorem inStep_pending (q : Lfq α) :
    q.inStep.enq ++ pending q.inStep.inPc = q.enq ++ pending q.inPc := by
  cases hpc : q.inPc with
  | storeLink v np t =>
    -- the pending value becomes the last one linked
    simp only [Lfq.inStep, hpc, pending, touch, List.append_nil]
  | trimTest f =>
    simp only [Lfq.inStep, hpc]
    split <;> rfl
  | free tmp => cases tmp <;> simp only [Lfq.inStep, hpc] <;> rfl
  | _ => simp only [Lfq.inStep, hpc] <;> rfl

/-- Freeing a node leaves one less. -/
theorem length_filter_ne {live : List Addr} {a : Addr} (hnodup : live.Nodup) (ha : a ∈ live) :
    (live.filter (· ≠ a)).length + 1 = live.length := by
  have herase : live.filter (· ≠ a) = live.erase a := by
    rw [hnodup.erase_eq_filter]
    congr 1
    funext b
    rw [Bool.eq_iff_iff]
    simp
  have hpos := List.length_pos_of_mem ha
  rw [herase, List.length_erase_of_mem ha]
  omega

/-- An access of the producer keeps the count of the nodes: those of the window, and the one it
holds. -/
theorem Rep.inStep_live (h : Rep q addr lo) (hnodup : q.live.Nodup)
    (hcount : q.live.length = q.enq.length - lo + 1 + held q.inPc) :
    q.inStep.live.Nodup ∧
      q.inStep.live.length = q.inStep.enq.length - q.nextLo lo + 1 + held q.inStep.inPc := by
  have hin := h.inOk
  have hlo : lo ≤ q.enq.length := h.chain.le
  cases hpc : q.inPc with
  | storeLink v np t =>
    -- the node held becomes the last of the window
    simp only [hpc, held] at hcount
    simp only [Lfq.inStep, nextLo, hpc, touch, held, List.length_append, List.length_singleton]
    exact ⟨hnodup, by omega⟩
  | trimTest f =>
    simp only [hpc, held] at hcount
    simp only [Lfq.inStep, nextLo, hpc]
    split <;> exact ⟨hnodup, hcount⟩
  | trimStore tmp nx =>
    -- and the first one of the window is held until it is freed
    rw [hpc] at hin
    have hlt := hin.2.2.2
    have hadv := h.adv_le_length
    simp only [hpc, held] at hcount
    simp only [Lfq.inStep, nextLo, hpc, held]
    exact ⟨hnodup, by omega⟩
  | free tmp =>
    rw [hpc] at hin
    obtain ⟨-, a, rfl, hlive, -⟩ := hin
    have hlen := length_filter_ne hnodup hlive
    simp only [hpc, held] at hcount
    simp only [Lfq.inStep, nextLo, hpc, touch, held]
    exact ⟨hnodup.filter _, by omega⟩
  | _ =>
    simp only [hpc, held] at hcount
    simp only [Lfq.inStep, nextLo, hpc, touch, held]
    exact ⟨hnodup, hcount⟩

/-- When `lfq_in` is about to return, it has unlinked all nodes before the divider that it has
read. -/
theorem Rep.inStep_done (h : Rep q addr lo) (hold : q.inPc = .done → lo = q.adv)
    (hdone : q.inStep.inPc = .done) : q.nextLo lo = q.adv := by
  have hin := h.inOk
  cases hpc : q.inPc with
  | done =>
    simp only [nextLo, hpc]
    exact hold hpc
  | trimTest f =>
    rw [hpc] at hin
    obtain ⟨-, rfl⟩ := hin
    simp only [Lfq.inStep, hpc] at hdone
    split at hdone
    · next heq =>
      rw [h.divider, Option.some.injEq] at heq
      simp only [nextLo, hpc]
      exact h.chain.inj lo q.adv (Nat.le_refl _) h.chain.le h.lo_le h.adv_le_length heq
    · cases hdone
  | free tmp => cases tmp <;> simp only [Lfq.inStep, hpc, reduceCtorEq] at hdone
  | _ => simp only [Lfq.inStep, hpc, reduceCtorEq] at hdone

/-- Following the links from the first node leads from one node of the window to the next. -/
theorem Rep.follow_eq (h : Rep q addr lo) {k : Nat} (hk : lo + k ≤ q.enq.length) :
    q.follow k = some (addr (lo + k)) := by
  induction k with
  | zero => exact h.first
  | succ k ih =>
    rw [follow, ih (by omega)]
    exact h.chain.link (lo + k) (Nat.le_add_right _ _) (by omega)

/-- The nodes of the window are the nodes that the links lead to. -/
theorem Rep.onChain (h : Rep q addr lo) {i : Nat} (hlo : lo ≤ i) (hi : i ≤ q.enq.length) :
    q.OnChain (some (addr i)) := by
  refine ⟨i - lo, addr i, ?_, rfl⟩
  rw [h.follow_eq (by omega), Nat.add_sub_cancel' hlo]

end Lfq

/-! ## The invariant of the two threads -/

namespace Spsc

variable {α : Type} {s s' : Spsc α} {addr : Nat → Addr} {lo : Nat}

/-- The queue represents its history, every node is accounted for, and the two histories of the
threads are those of the queue. -/
structure Tracks (s : Spsc α) (addr : Nat → Addr) (lo : Nat) : Prop where
  rep : s.q.Rep addr lo
  nodup : s.q.live.Nodup
  count : s.q.live.length = s.q.enq.length - lo + 1 + Lfq.held s.q.inPc
  given : s.q.enq ++ Lfq.pending s.q.inPc = s.given
  got : s.got ++ Lfq.leaving s.q.outPc = s.q.enq.take s.q.adv
  alone : s.alone = true → s.q.outPc = .idle ∧ (s.q.inPc = .done → lo = s.q.adv)

/-- A new queue, with nothing given and nothing got. -/
theorem tracks_fresh (mem : Addr → LfqNode α) (d : Addr) :
    (fresh mem d).Tracks (fun _ => d) 0 :=
  ⟨Lfq.rep_new mem d, List.nodup_singleton d, rfl, rfl, rfl, fun _ => ⟨rfl, nofun⟩⟩

/-- `lfq_in` is called with a value, which is then given. -/
theorem Tracks.callIn (h : s.Tracks addr lo) (hidle : s.q.inPc = .idle) {np : Addr}
    (hnp : np ∉ s.q.live) (v : α) (b : Bool) (hb : b = true → s.q.outPc = .idle) :
    Tracks ⟨s.q.inStart v np, s.given ++ [v], s.got, b⟩ addr lo := by
  have hcount := h.count
  have hgiven := h.given
  rw [hidle] at hcount hgiven
  refine ⟨h.rep.inStart hidle hnp v, List.nodup_cons.mpr ⟨hnp, h.nodup⟩, ?_, ?_, h.got, ?_⟩
  · show s.q.live.length + 1 = s.q.enq.length - lo + 1 + 1
    rw [hcount]
    rfl
  · show s.q.enq ++ [v] = s.given ++ [v]
    rw [← hgiven]
    simp only [Lfq.pending, List.append_nil]
  · intro hb'
    exact ⟨hb hb', nofun⟩

/-- The producer makes an access. -/
theorem Tracks.inStep (h : s.Tracks addr lo) :
    ∃ addr', Tracks { s with q := s.q.inStep } addr' (s.q.nextLo lo) := by
  obtain ⟨addr', hrep⟩ := h.rep.inStep_nextLo
  obtain ⟨hadv, hout⟩ := Lfq.inStep_consumer s.q
  obtain ⟨hnodup, hcount⟩ := h.rep.inStep_live h.nodup h.count
  refine ⟨addr', hrep, hnodup, hcount, ?_, ?_, ?_⟩
  · rw [Lfq.inStep_pending]
    exact h.given
  · have hgot := h.got
    have hle := h.rep.adv_le_length
    rw [hout, hadv, hgot]
    -- a value linked behind the others is not among those already passed
    have hpend := congrArg (List.take s.q.adv) (Lfq.inStep_pending s.q)
    rw [List.take_append_of_le_length hle] at hpend
    rw [← hpend, List.take_append_of_le_length]
    exact hadv ▸ hrep.adv_le_length
  · intro halone
    obtain ⟨hidle, hold⟩ := h.alone halone
    refine ⟨hout.trans hidle, fun hdone => ?_⟩
    rw [h.rep.inStep_done hold hdone]
    exact hadv.symm

/-- `lfq_in` returns. -/
theorem Tracks.returnIn (h : s.Tracks addr lo) (hdone : s.q.inPc = .done) :
    Tracks { s with q := s.q.inFinish } addr lo := by
  have hcount := h.count
  have hgiven := h.given
  rw [hdone] at hcount hgiven
  exact ⟨h.rep.inFinish hdone, h.nodup, hcount, hgiven, h.got,
    fun halone => ⟨(h.alone halone).1, nofun⟩⟩

/-- `lfq_out` is called. -/
theorem Tracks.callOut (h : s.Tracks addr lo) (hidle : s.q.outPc = .idle) :
    Tracks { s with q := s.q.outStart, alone := false } addr lo := by
  have hgot := h.got
  rw [hidle] at hgot
  exact ⟨h.rep.outStart, h.nodup, h.count, h.given, hgot, nofun⟩

/-- While `lfq_out` runs, a call of `lfq_in` is not alone. -/
theorem Tracks.not_alone (h : s.Tracks addr lo) (hpc : s.q.outPc ≠ .idle) : s.alone ≠ true :=
  fun halone => hpc (h.alone halone).1

/-- The consumer makes an access. -/
theorem Tracks.outStep (h : s.Tracks addr lo) : Tracks { s with q := s.q.outStep } addr lo := by
  have hrep := h.rep.outStep
  have hout := h.rep.outOk
  have hgot := h.got
  have halone := h.not_alone
  cases hpc : s.q.outPc with
  | idle | done r =>
    have hsame : s.q.outStep = s.q := by simp only [Lfq.outStep, hpc]
    rw [hsame]
    exact h
  | advStore r nx =>
    rw [hpc] at hout hgot halone
    simp only [Lfq.outStep, hpc] at hrep ⊢
    refine ⟨hrep, h.nodup, h.count, h.given, ?_, fun ha => absurd ha (halone (by simp))⟩
    -- the divider passes the value that is about to be returned
    show s.got ++ r.toList = s.q.enq.take (s.q.adv + 1)
    rw [List.take_add_one, ← hgot, ← hout.2.1]
    simp only [Lfq.leaving, List.append_nil]
  | loadLast d =>
    rw [hpc] at hgot halone
    simp only [Lfq.outStep, hpc] at hrep ⊢
    refine ⟨hrep, h.nodup, h.count, h.given, ?_, fun ha => absurd ha (halone (by simp))⟩
    show s.got ++ Lfq.leaving (if d ≠ s.q.last then .resDiv else .done none) = _
    split <;> exact hgot
  | _ =>
    rw [hpc] at hgot halone
    simp only [Lfq.outStep, hpc, Lfq.touch] at hrep ⊢
    exact ⟨hrep, h.nodup, h.count, h.given, hgot, fun ha => absurd ha (halone (by simp))⟩

/-- `lfq_out` returns what it has found, which is then got. -/
theorem Tracks.returnOut (h : s.Tracks addr lo) {r : Option α} (hdone : s.q.outPc = .done r) :
    Tracks { s with q := s.q.outFinish, got := s.got ++ r.toList } addr lo := by
  have hgot := h.got
  rw [hdone] at hgot
  refine ⟨h.rep.outFinish, h.nodup, h.count, h.given, ?_, fun halone => ?_⟩
  · show s.got ++ r.toList ++ [] = s.q.enq.take s.q.adv
    rw [List.append_nil]
    exact hgot
  · have hidle := (h.alone halone).1
    rw [hdone] at hidle
    cases hidle

/-- **Every step of either thread keeps the invariant.** -/
theorem Tracks.step {a : Act α} (h : s.Tracks addr lo) (hstep : s.step a = some s') :
    ∃ addr' lo', s'.Tracks addr' lo' := by
  cases a with
  | callIn v np =>
    simp only [Spsc.step] at hstep
    split at hstep
    · next hidle =>
      split at hstep
      · cases hstep
      · next hnp =>
        -- the call counts as alone only if no `lfq_out` is running
        cases hstep
        refine ⟨addr, lo, h.callIn hidle hnp v _ fun hb => ?_⟩
        split at hb
        · assumption
        · cases hb
    · cases hstep
  | inStep =>
    cases hstep
    obtain ⟨addr', h'⟩ := h.inStep
    exact ⟨addr', _, h'⟩
  | returnIn =>
    simp only [Spsc.step] at hstep
    split at hstep
    · next hdone =>
      cases hstep
      exact ⟨addr, lo, h.returnIn hdone⟩
    · cases hstep
  | callOut =>
    simp only [Spsc.step] at hstep
    split at hstep
    · next hidle =>
      cases hstep
      exact ⟨addr, lo, h.callOut hidle⟩
    · cases hstep
  | outStep =>
    cases hstep
    exact ⟨addr, lo, h.outStep⟩
  | returnOut =>
    simp only [Spsc.step] at hstep
    split at hstep
    · next r hdone =>
      cases hstep
      exact ⟨addr, lo, h.returnOut hdone⟩
    · cases hstep

/-- **Every interleaving is tracked**: the history of calls and the queue agree in every state that
is reached. -/
theorem tracks_reachable (hs : (system α).Reachable s) : ∃ addr lo, s.Tracks addr lo := by
  refine System.Reach.invariant (I := fun s => ∃ addr lo, s.Tracks addr lo) ?_ ?_ hs
  · rintro s ⟨mem, d, rfl⟩
    exact ⟨_, _, tracks_fresh mem d⟩
  · rintro s a s' - ⟨addr, lo, h⟩ - hstep
    exact h.step hstep

/-! ## The queue is a FIFO -/

/-- What holds of the queue and its threads at any moment. -/
structure Correct (s : Spsc α) : Prop where
  /-- What has been returned is a prefix of what has been passed in. -/
  fifo : s.got <+: s.given
  divider : s.q.OnChain s.q.divider
  last : s.q.OnChain s.q.last
  /-- No access, and no `free`, of a node that is not allocated. -/
  safe : s.q.fault = false
  nodup : s.q.live.Nodup
  /-- When `lfq_in` returns and no `lfq_out` has run since it was called, there is one node more
  than there are values to deliver. -/
  trimmed : ∀ s', s.step .returnIn = some s' → s.alone = true →
    s'.q.live.length = s'.given.length - s'.got.length + 1

/-- What has been got is the first part of what has been given. -/
theorem Tracks.fifo (h : s.Tracks addr lo) : s.got <+: s.given := by
  have hgot : s.got <+: s.q.enq.take s.q.adv := ⟨_, h.got⟩
  have henq : s.q.enq <+: s.given := ⟨_, h.given⟩
  exact hgot.trans ((List.take_prefix _ _).trans henq)

/-- After an `lfq_in` that ran alone there are nodes for what is pending, and one more. -/
theorem Tracks.trimmed (h : s.Tracks addr lo) (hdone : s.q.inPc = .done) (halone : s.alone = true) :
    s.q.live.length = s.given.length - s.got.length + 1 := by
  obtain ⟨hidle, hlo⟩ := h.alone halone
  have hcount := h.count
  have hgiven := h.given
  have hgot := h.got
  have hadv := h.rep.adv_le_length
  rw [hdone, hlo hdone] at hcount
  simp only [hdone, Lfq.pending, List.append_nil] at hgiven
  simp only [hidle, Lfq.leaving, List.append_nil] at hgot
  rw [hcount, ← hgiven, hgot, List.length_take, Nat.min_eq_left hadv]
  rfl

/-- **One producer, one consumer, any interleaving.** -/
theorem spsc_correct (hs : (system α).Reachable s) : s.Correct := by
  obtain ⟨addr, lo, h⟩ := tracks_reachable hs
  refine ⟨h.fifo, ?_, ?_, h.rep.safe, h.nodup, ?_⟩
  · rw [h.rep.divider]
    exact h.rep.onChain h.rep.lo_le h.rep.adv_le_length
  · rw [h.rep.last_eq]
    exact h.rep.onChain (Nat.le_trans h.rep.lo_le h.rep.adv_le) Lfq.published_le
  · intro s' hstep halone
    simp only [Spsc.step] at hstep
    split at hstep
    · next hdone =>
      cases hstep
      exact h.trimmed hdone halone
    · cases hstep

/-- 7 is enqueued while the consumer finds the queue empty and then waits for it; 8 is enqueued
alone. -/
def twoValues : List (Act Nat) :=
  List.flatten [[.callIn 7 1], List.replicate 4 .inStep, [.callOut, .outStep, .outStep, .returnOut],
    List.replicate 3 .inStep, [.callOut, .inStep, .inStep], List.replicate 8 .outStep,
    [.returnIn, .returnOut, .callIn 8 2], List.replicate 16 .inStep]

/-- In that run the dummy node has been freed, and the second `lfq_in` is about to return. -/
theorem spsc_correct_twoValues :
    ∃ s, (system Nat).run (fresh (fun _ => ⟨none, none⟩) 0) twoValues = some s ∧
      s.got = [7] ∧ s.q.live = [2, 1] ∧ s.q.inPc = .done ∧ s.Correct := by
  have hrun : ((system Nat).run (fresh (fun _ => ⟨none, none⟩) 0) twoValues).map
      (fun s => (s.got, s.q.live, s.q.inPc)) = some ([7], [2, 1], .done) := by decide +kernel
  obtain ⟨s, hs, heq⟩ := Option.map_eq_some_iff.mp hrun
  simp only [Prod.mk.injEq] at heq
  exact ⟨s, hs, heq.1, heq.2.1, heq.2.2, spsc_correct (.run (.init ⟨_, _, rfl⟩) hs)⟩

end Spsc

end Ayubd
