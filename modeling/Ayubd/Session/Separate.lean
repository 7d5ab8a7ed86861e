import Ayubd.Session.Sessions
import Ayubd.Session.View

/-!
# Ayubd — sessions that share one memory

All sessions live in one heap, where a pointer that two of them had would let the one change what
the other reads. The abstract system here has no heap: each session is a value of its own, and a
round of one session is a function of that value.

* **`sessions_separate`** — whatever sessions do in one heap, they do as separate values.
-/

namespace Ayubd.Session

open Ayubd

variable {α : Type} (H : HttpParser) (act : α → Http.Req → Http.Resp → Int32 → Http.Resp × Bool)

/-! ## Sessions as values -/

/-- One step of sessions that have nothing in common. -/
def separateStep (s : Nat → Option Http.Session) :
    Action α → Option (Nat → Option Http.Session)
  | .accept _ id =>
    match s id with
    | some _ => none
    | none => some (Function.update s id (some .fresh))
  | .data _ id route recv behind rnd =>
    match s id with
    | none => none
    | some session => (Http.hookOnDataTest H act route session recv behind rnd).map fun served =>
        Function.update s id (some served.session)
  | .close id =>
    match s id with
    | none => none
    | some _ => some (Function.update s id none)

/-- **Separate sessions.** -/
def separate : System (Nat → Option Http.Session) (Action α) where
  init s := s = fun _ => none
  step := separateStep H act

/-- The sessions of a world, as values. -/
def World.view (w : World) : Nat → Option Http.Session := fun id =>
  (w.sessions id).map fun hook => Proc.view ⟨id, w.mem, hook⟩

/-! ## Steps -/

variable {p p' q : Proc} {w w' : World} {id : Nat} {hook : Hook} {mem' : Mem}

/-- A session whose blocks are left alone stays as it is. -/
theorem Keeps.view (h : Keeps q mem') (hq : Ok q) : Proc.view ⟨q.id, mem', q.hook⟩ = q.view := by
  have hiov : Proc.viewIov ⟨q.id, mem', q.hook⟩ = q.viewIov := hq.viewIov_congr rfl h.cells
  have hsame : SameArrays q ⟨q.id, mem', q.hook⟩ :=
    ⟨fun _ ha => ha, rfl, rfl, rfl, rfl, fun a ha => by rw [h.cells a ha],
      fun a ha => by rw [h.cells a ha]⟩
  rw [hq.view_of_sameArrays hsame, hiov]
  rfl

/-- A function has worked on one hook: the other sessions are as they were. -/
theorem World.Inv.view_put (hw : w.Inv) (hp : p.mem = w.mem) (hgood : Good p p') :
    (w.put p').view = Function.update w.view p'.id (some p'.view) := by
  funext id
  unfold World.view
  by_cases heq : id = p'.id
  · rw [heq, w.sessions_put_self, Function.update_self]
    rfl
  · rw [w.sessions_put_of_ne heq, Function.update_of_ne heq]
    cases hsession : w.sessions id with
    | none => rfl
    | some hook =>
      have hq := hw.ok id hook hsession
      have hkeeps := hgood.keeps hq hp.symm (hgood.id ▸ heq)
      exact congrArg some (hkeeps.view hq)

/-- A close is seen as the end of that session alone. -/
theorem World.Inv.view_close (hw : w.Inv) (hsession : w.sessions id = some hook)
    (hmem : w'.mem = hookFreeReal w.mem hook)
    (hsessions : w'.sessions = Function.update w.sessions id none) :
    w'.view = Function.update w.view id none := by
  funext id'
  unfold World.view
  rw [hsessions, hmem]
  by_cases heq : id' = id
  · rw [heq, Function.update_self, Function.update_self]
    rfl
  · rw [Function.update_of_ne heq, Function.update_of_ne heq]
    cases hsession' : w.sessions id' with
    | none => rfl
    | some hook' =>
      have hq := hw.ok id' hook' hsession'
      have hkeeps := (hw.ok id hook hsession).keeps_free (q := ⟨id', w.mem, hook'⟩) rfl heq
      exact congrArg some (hkeeps.view hq)

/-- A session that has just been accepted. -/
theorem World.Inv.view_newSession (hw : w.Inv) (m : Malloc) (hnone : w.sessions id = none) :
    (newSession m w.listener id w.mem).view = .fresh := by
  rw [hw.listener, newSession_eq]
  exact (hw.ok_new hnone).view_ensure_msghdr rfl

variable {H act}

/-- Every action is seen as the step of separate sessions. -/
theorem World.Inv.view_step (hw : w.Inv) {action : Action α} (h : w.step H act action = some w') :
    separateStep H act w.view action = some w'.view := by
  cases hw.moves h with
  | accept m id hsession hw' =>
    have hnone : w.view id = none := by rw [World.view, hsession, Option.map_none]
    have hgood := hw.good_newSession m hsession
    rw [hw', hw.view_put rfl hgood, hgood.id, hw.view_newSession m hsession]
    simp only [separateStep, hnone]
  | @data hook p calls m id _ _ _ _ hsession hround hgood _ _ hw' =>
    have hok := hw.ok id hook hsession
    have hsome : w.view id = some (Proc.view ⟨id, w.mem, hook⟩) := by
      rw [World.view, hsession, Option.map_some]
    obtain ⟨served, hserved, hview, -⟩ := hok.view_hookOnDataTest H act _ _ _ hround
    rw [hw', hw.view_put rfl hgood, hgood.id, ← hview]
    simp only [separateStep, hsome, hserved, Option.map_some]
  | @close hook id hsession hmem hsessions hlistener =>
    have hsome : w.view id = some (Proc.view ⟨id, w.mem, hook⟩) := by
      rw [World.view, hsession, Option.map_some]
    rw [hw.view_close hsession hmem hsessions]
    simp only [separateStep, hsome]

/-- **Sessions are separate**: seen as values, the sessions in any state that they can lead to are
sessions that have nothing in common. -/
theorem sessions_separate (hw : (sessions H act).Reachable w) :
    (separate H act).Reachable w.view := by
  apply System.Reachable.simulate World.view _ _ hw
  · rintro w ⟨cell, rfl⟩
    rfl
  · exact fun w action w' hreach hstep => (inv_of_reachable hreach).view_step hstep

end Ayubd.Session
