import Ayubd.Daemon.Step
import Ayubd.Queue.StailqInv

/-!
# Ayubd — lanes: what one worker shares with the main thread

A *lane* is the part of the daemon around one worker: its queue, its semaphore, its place,
the hooks it has handed on, and what the main thread is doing to this queue. Every step of
the daemon leaves a lane alone or is one of the lane's own steps (`lane_step`), so a fact
about one lane is proved on lanes and holds for each of the `n` workers at once.

Lane steps are labelled with what they do to the references a lane holds on behalf of a
hook: `take h` when the main thread has executed `hook_ref` and turns to the queue, `drop h`
when the worker lets go of the entry it was given. In between, the reference is with the
producer, in the queue or in the worker's hand (`Lane.refs`).
-/

namespace Ayubd

/-- What the main thread is doing to one queue. -/
inductive Stage where
  | away
  | inserting (h : Nat)
  | posting
  deriving DecidableEq

/-- The part of the daemon around one worker. -/
structure Lane where
  q : Stailq Nat
  sem : Nat
  worker : WorkerPc
  handed : List Nat
  stage : Stage

/-- What the main thread is doing to queue `x`. -/
def MainPc.stage (x : Nat) : MainPc → Stage
  | .stailqIn h y _ => if y = x then .inserting h else .away
  | .semPost y _ => if y = x then .posting else .away
  | _ => .away

def Daemon.lane (s : Daemon) (x : Nat) : Lane where
  q := s.q x
  sem := s.sem x
  worker := s.worker x
  handed := s.handed x
  stage := s.main.stage x

/-- The hook a worker is working on after leaving the queue macro. -/
def WorkerPc.hook : WorkerPc → Option Nat
  | .checkProcess h | .recvmsg h | .onData h | .sendmsg h | .hookUnref h => some h
  | _ => none

/-- The worker has not handed its hook to `process` yet. -/
def WorkerPc.unhanded : WorkerPc → Bool
  | .stailqOut | .checkProcess _ => true
  | _ => false

namespace Lane

variable {l l' : Lane}

/-- The entry the worker has taken and not let go of. -/
def inHand (l : Lane) : Option Nat :=
  match l.worker with
  | .stailqOut => l.q.inHand
  | w => w.hook

/-- The main thread has linked an entry and not posted the semaphore for it. -/
def unposted (l : Lane) : Nat :=
  match l.stage with
  | .away => 0
  | .inserting _ => if l.q.unlinked then 0 else 1
  | .posting => 1

/-- The entry in hand that has not been handed to `process`. -/
def unhanded (l : Lane) : Nat :=
  if l.worker.unhanded ∧ l.inHand.isSome then 1 else 0

/-- The main thread holds a reference for an entry for `h` it has not linked yet. -/
def inserting (l : Lane) (h : Nat) : Prop := l.stage = .inserting h ∧ l.q.unlinked = true

instance (l : Lane) (h : Nat) : Decidable (l.inserting h) := instDecidableAnd

/-- The references the lane holds on behalf of `h`: with the producer, in the queue, in
the worker's hand. -/
def refs (l : Lane) (h : Nat) : Nat :=
  (if l.inserting h then 1 else 0) + l.q.pending.count h + (if l.inHand = some h then 1 else 0)

/-- What a lane step does to the references. -/
inductive Label where
  | tau
  | take (h : Nat)
  | drop (h : Nat)

inductive Step (l : Lane) : Label → Lane → Prop where
  | hookRef (h : Nat) (hstage : l.stage = .away) :
      Step l (.take h) { l with stage := .inserting h }
  | inStart {h : Nat} (np : Addr) (hstage : l.stage = .inserting h) (hpc : l.q.inPc = .idle)
      (hnp : np ∉ l.q.live) : Step l .tau { l with q := l.q.inStart h np }
  | inStep {h : Nat} (hstage : l.stage = .inserting h) (hidle : l.q.inPc ≠ .idle)
      (hdone : l.q.inPc ≠ .done) : Step l .tau { l with q := l.q.inStep }
  | inFinish {h : Nat} (hstage : l.stage = .inserting h) (hpc : l.q.inPc = .done) :
      Step l .tau { l with q := l.q.inFinish, stage := .posting }
  | semPost (hstage : l.stage = .posting) :
      Step l .tau { l with sem := l.sem + 1, stage := .away }
  | semWait (hpc : l.worker = .semWait) (hsem : 0 < l.sem) :
      Step l .tau { l with q := l.q.outStart, sem := l.sem - 1, worker := .stailqOut }
  | outStep (hpc : l.worker = .stailqOut) (hdone : ∀ v, l.q.outPc ≠ .done v) :
      Step l .tau { l with q := l.q.outStep }
  | outEmpty (hpc : l.worker = .stailqOut) (hout : l.q.outPc = .done none) :
      Step l .tau { l with q := l.q.outFinish, worker := .semWait }
  | outFinish {h : Nat} (hpc : l.worker = .stailqOut) (hout : l.q.outPc = .done (some h)) :
      Step l .tau { l with q := l.q.outFinish, worker := .checkProcess h }
  | handle {h : Nat} (hpc : l.worker = .checkProcess h) :
      Step l .tau { l with handed := l.handed ++ [h], worker := .recvmsg h }
  | skip {h : Nat} (hpc : l.worker = .checkProcess h) :
      Step l (.drop h) { l with worker := .semWait }
  | work {h : Nat} {w : WorkerPc} (hpc : l.worker.hook = some h)
      (hne : l.worker ≠ .hookUnref h) (hhand : l.worker.unhanded = false) (hw : w.hook = some h)
      (hhand' : w.unhanded = false) :
      Step l .tau { l with worker := w }
  | hookUnref {h : Nat} {w : WorkerPc} (hpc : l.worker = .hookUnref h)
      (hw : w = .semWait ∨ w = .hookFreeReal h) : Step l (.drop h) { l with worker := w }
  | free {h : Nat} (hpc : l.worker = .hookFreeReal h) : Step l .tau { l with worker := .semWait }

end Lane

/-- What a step of the daemon means for lane `x`. -/
def Daemon.Label.lane (x : Nat) : Daemon.Label → Lane.Label
  | .ref h y => if y = x then .take h else .tau
  | .unref h y | .skip h y => if y = x then .drop h else .tau
  | _ => .tau

/-! ## Every step of the daemon is a step of a lane or leaves it alone -/

namespace Daemon

variable {n : Nat} {s s' : Daemon} {a : Act}

/-- A step that keeps queues, semaphores, workers and histories, and of the main thread at
most moves it while it is away from every queue, changes no lane. -/
theorem lane_eq_of {x : Nat} (hq : s'.q x = s.q x) (hsem : s'.sem x = s.sem x)
    (hworker : s'.worker x = s.worker x) (hhanded : s'.handed x = s.handed x)
    (hstage : s'.main.stage x = s.main.stage x) : s'.lane x = s.lane x := by
  simp only [lane, hq, hsem, hworker, hhanded, hstage]

/-- A step that works on lane `y`: it is a step of that lane and leaves the others alone. -/
theorem lane_split {lab : Label} {x : Nat} (y : Nat)
    (hown : Lane.Step (s.lane y) (lab.lane y) (s'.lane y))
    (hother : y ≠ x → s'.lane x = s.lane x ∧ lab.lane x = .tau) :
    (s'.lane x = s.lane x ∧ lab.lane x = .tau) ∨
      Lane.Step (s.lane x) (lab.lane x) (s'.lane x) := by
  by_cases hxy : y = x
  · subst hxy
    exact .inr hown
  · exact .inl (hother hxy)

/-- **Lanes.** Seen from lane `x`, a step of the daemon is a step of the lane or nothing. -/
theorem lane_step {lab : Label} (hstep : Step n s a lab s') (x : Nat) :
    (s'.lane x = s.lane x ∧ lab.lane x = .tau) ∨
      Lane.Step (s.lane x) (lab.lane x) (s'.lane x) := by
  cases hstep with
  | hookRef hmain =>
    next h y evs =>
    apply lane_split y
    · have hl := Lane.Step.hookRef (l := s.lane y) h (by simp [lane, hmain, MainPc.stage])
      simpa [lane, Label.lane, MainPc.stage, setHook, touch] using hl
    · intro hxy
      exact ⟨lane_eq_of rfl rfl rfl rfl (by simp [hmain, MainPc.stage, hxy]),
        by simp [Label.lane, hxy]⟩
  | inStart np hmain hpc hnp =>
    next h y evs =>
    apply lane_split y
    · have hl := Lane.Step.inStart (l := s.lane y) (h := h) np
        (by simp [lane, hmain, MainPc.stage]) hpc hnp
      simpa [lane, Label.lane, hmain, MainPc.stage, setQueue] using hl
    · intro hxy
      exact ⟨lane_eq_of (Function.update_of_ne (Ne.symm hxy) _ _) rfl rfl rfl rfl, rfl⟩
  | inStep hmain hidle hdone =>
    next h y evs =>
    apply lane_split y
    · have hl := Lane.Step.inStep (l := s.lane y) (h := h)
        (by simp [lane, hmain, MainPc.stage]) hidle hdone
      simpa [lane, Label.lane, hmain, MainPc.stage, setQueue] using hl
    · intro hxy
      exact ⟨lane_eq_of (Function.update_of_ne (Ne.symm hxy) _ _) rfl rfl rfl rfl, rfl⟩
  | inFinish hmain hpc =>
    next h y evs =>
    apply lane_split y
    · have hl := Lane.Step.inFinish (l := s.lane y) (h := h)
        (by simp [lane, hmain, MainPc.stage]) hpc
      simpa [lane, Label.lane, hmain, MainPc.stage, setQueue] using hl
    · intro hxy
      exact ⟨lane_eq_of (Function.update_of_ne (Ne.symm hxy) _ _) rfl rfl rfl
        (by simp [hmain, MainPc.stage, hxy]), rfl⟩
  | semPost hmain =>
    next y evs =>
    apply lane_split y
    · have hl := Lane.Step.semPost (l := s.lane y) (by simp [lane, hmain, MainPc.stage])
      simpa [lane, Label.lane, hmain, MainPc.stage] using hl
    · intro hxy
      exact ⟨lane_eq_of rfl (Function.update_of_ne (Ne.symm hxy) _ _) rfl rfl
        (by simp [hmain, MainPc.stage, hxy]), rfl⟩
  | semWait hx hpc hsem =>
    next y =>
    apply lane_split y
    · have hl := Lane.Step.semWait (l := s.lane y) hpc hsem
      simpa [lane, Label.lane, setWorker, setQueue] using hl
    · intro hxy
      exact ⟨lane_eq_of (Function.update_of_ne (Ne.symm hxy) _ _)
        (Function.update_of_ne (Ne.symm hxy) _ _) (Function.update_of_ne (Ne.symm hxy) _ _)
        rfl rfl, rfl⟩
  | outStep hx hpc hdone =>
    next y =>
    apply lane_split y
    · have hl := Lane.Step.outStep (l := s.lane y) hpc hdone
      simpa [lane, Label.lane, setQueue] using hl
    · intro hxy
      exact ⟨lane_eq_of (Function.update_of_ne (Ne.symm hxy) _ _) rfl rfl rfl rfl, rfl⟩
  | outEmpty hx hpc hout =>
    next y =>
    apply lane_split y
    · have hl := Lane.Step.outEmpty (l := s.lane y) hpc hout
      simpa [lane, Label.lane, setWorker, setQueue] using hl
    · intro hxy
      exact ⟨lane_eq_of (Function.update_of_ne (Ne.symm hxy) _ _) rfl
        (Function.update_of_ne (Ne.symm hxy) _ _) rfl rfl, rfl⟩
  | outFinish hx hpc hout =>
    next y h =>
    apply lane_split y
    · have hl := Lane.Step.outFinish (l := s.lane y) hpc hout
      simpa [lane, Label.lane, setWorker, setQueue] using hl
    · intro hxy
      exact ⟨lane_eq_of (Function.update_of_ne (Ne.symm hxy) _ _) rfl
        (Function.update_of_ne (Ne.symm hxy) _ _) rfl rfl, rfl⟩
  | handle hx hpc hproc =>
    next y h =>
    apply lane_split y
    · have hl := Lane.Step.handle (l := s.lane y) hpc
      simpa [lane, Label.lane, setWorker, touch] using hl
    · intro hxy
      exact ⟨lane_eq_of rfl rfl (Function.update_of_ne (Ne.symm hxy) _ _)
        (Function.update_of_ne (Ne.symm hxy) _ _) rfl, rfl⟩
  | skip hx hpc hproc =>
    next y h =>
    apply lane_split y
    · have hl := Lane.Step.skip (l := s.lane y) hpc
      simpa [lane, Label.lane, setWorker, touch] using hl
    · intro hxy
      exact ⟨lane_eq_of rfl rfl (Function.update_of_ne (Ne.symm hxy) _ _) rfl rfl,
        by simp [Label.lane, hxy]⟩
  | recvmsg hx hpc =>
    next y h =>
    apply lane_split y
    · have hl := Lane.Step.work (l := s.lane y) (h := h)
        (w := if s.recvCount h = 0 then .hookUnref h else .onData h)
        (by simp [lane, hpc, WorkerPc.hook]) (by simp [lane, hpc])
        (by simp [lane, hpc, WorkerPc.unhanded]) (by split <;> rfl) (by split <;> rfl)
      simpa [lane, Label.lane, setWorker, recvFrom, touch] using hl
    · intro hxy
      exact ⟨lane_eq_of rfl rfl (Function.update_of_ne (Ne.symm hxy) _ _) rfl rfl, rfl⟩
  | onData response hx hpc =>
    next y h =>
    apply lane_split y
    · have hl := Lane.Step.work (l := s.lane y) (h := h)
        (w := if response then .sendmsg h else .hookUnref h)
        (by simp [lane, hpc, WorkerPc.hook]) (by simp [lane, hpc])
        (by simp [lane, hpc, WorkerPc.unhanded]) (by split <;> rfl) (by split <;> rfl)
      simpa [lane, Label.lane, setWorker, touch] using hl
    · intro hxy
      exact ⟨lane_eq_of rfl rfl (Function.update_of_ne (Ne.symm hxy) _ _) rfl rfl, rfl⟩
  | sendmsg hx hpc =>
    next y h =>
    apply lane_split y
    · have hl := Lane.Step.work (l := s.lane y) (h := h) (w := .hookUnref h)
        (by simp [lane, hpc, WorkerPc.hook]) (by simp [lane, hpc])
        (by simp [lane, hpc, WorkerPc.unhanded]) rfl rfl
      simpa [lane, Label.lane, setWorker, touch] using hl
    · intro hxy
      exact ⟨lane_eq_of rfl rfl (Function.update_of_ne (Ne.symm hxy) _ _) rfl rfl, rfl⟩
  | hookUnref hx hpc =>
    next y h =>
    apply lane_split y
    · have hl := Lane.Step.hookUnref (l := s.lane y) (h := h)
        (w := if (s.hooks h).refcnt - 1 = 0 then .hookFreeReal h else .semWait) hpc
        (by split
            · exact .inr rfl
            · exact .inl rfl)
      simpa [lane, Label.lane, setWorker, setHook, touch] using hl
    · intro hxy
      exact ⟨lane_eq_of rfl rfl (Function.update_of_ne (Ne.symm hxy) _ _) rfl rfl,
        by simp [Label.lane, hxy]⟩
  | workerFree hx hpc =>
    next y h =>
    apply lane_split y
    · have hl := Lane.Step.free (l := s.lane y) hpc
      simpa [lane, Label.lane, setWorker, setHook, touch] using hl
    · intro hxy
      exact ⟨lane_eq_of rfl rfl (Function.update_of_ne (Ne.symm hxy) _ _) rfl rfl, rfl⟩
  | hookFree hmain =>
    left
    refine ⟨lane_eq_of rfl rfl rfl rfl ?_, rfl⟩
    simp only [hmain]
    split <;> rfl
  | arrive c k hc => exact .inl ⟨rfl, rfl⟩
  | hangup c e hc => exact .inl ⟨rfl, rfl⟩
  -- the main thread moves, but it is away from the queues before and after
  | poll hs hmain hcan =>
    exact .inl ⟨lane_eq_of rfl rfl rfl rfl (by simp only [hmain, MainPc.stage]), rfl⟩
  | hookNew hoda hmain =>
    exact .inl ⟨lane_eq_of rfl rfl rfl rfl (by simp only [hmain, MainPc.stage]), rfl⟩
  | accepted fd hmain hfd | acceptedZero fd hmain hfd =>
    exact .inl ⟨lane_eq_of rfl rfl rfl rfl (by simp only [hmain, MainPc.stage]), rfl⟩
  | dispatch hmain hproc | noProcess hmain hproc =>
    exact .inl ⟨lane_eq_of rfl rfl rfl rfl (by simp only [hmain, MainPc.stage]), rfl⟩
  | batchDone hmain | nextListener hmain | nextSession hmain | setEvents hmain
  | onDataClose hmain | onDataReady hmain | close hmain | hookFreeReal hmain
  | acceptAgain hmain | acceptDone hmain | hookNewFail hmain | evqAdd hmain =>
    exact .inl ⟨lane_eq_of rfl rfl rfl rfl (by simp only [hmain, MainPc.stage]), rfl⟩

end Daemon

end Ayubd
