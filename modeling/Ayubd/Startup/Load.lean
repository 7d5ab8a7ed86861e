import Ayubd.Startup.Socket

/-!
# Ayubd — loading a module

`ayubd_module_load` opens a module, looks up its `module_start` and calls it; the
`module_start` of `mod_http.c` creates an io queue, prepares its sockets and deploys them.
Two results about failures on the way:

* **`load_propagates_iff`** — when the value `ayubd_module_load` returns tells whether the
  daemon serves anything. It does not look at what `module_start` returns, and it does not
  return when the lookup has failed.
* **`args_alive_iff`** — when a failed deployment leaves no hook behind that refers to the
  arguments `module_start` frees.

The allocation of the `module_t` itself, whose result the code does not check, is taken to
succeed.
-/

namespace Ayubd.Startup

/-! ## The module -/

/-- What startup meets: the outcomes of `dlopen`, `dlsym` and `ioqueue_new`, whether the
module was built with `USE_UNIX_SOCKET`, and the outcomes for the sockets. -/
structure Env where
  dlopen : Bool
  dlsym : Bool
  ioqueueNew : Bool
  unixSocket : Bool
  resolution : Resolution
  deployment : Deployment

/-- What `module_start` leaves: the sockets that were deployed, whose hooks refer to the
arguments, whether it has freed these, and the value it returns. -/
structure Started where
  deployed : List Deployed
  argsFreed : Bool
  ret : Int
deriving Repr, DecidableEq

def moduleStart (e : Env) : Started :=
  if e.ioqueueNew then
    let iq := ioqueueNew { unix := e.unixSocket }
    let ((iq, _), ret) := ioqueueSocketPrepare (iq, []) e.resolution
    if ret ≠ 0 then ⟨[], true, -1⟩
    else
      let (deployed, ret) := ioqueueSocketDeploy iq e.deployment
      if ret ≠ 0 then ⟨deployed, true, -1⟩ else ⟨deployed, false, ret⟩
  else ⟨[], true, -1⟩

/-- A function that `ayubd_module_load` calls through the pointer it has looked up. -/
inductive Callee where
  | moduleStart
  | failedLookup
deriving Repr, DecidableEq

/-- What `ayubd_module_load` leaves: the value it returns, none if it does not come back, what
it has called, the sockets deployed, and `mod->fd`. -/
structure Loaded where
  ret : Option Int
  called : Option Callee
  deployed : List Deployed
  modFd : Int
deriving Repr, DecidableEq

/-- `ayubd_module_load`. After a failed `dlsym` it closes the library and goes on to call the
pointer. -/
def ayubdModuleLoad (e : Env) : Loaded :=
  if e.dlopen then
    if e.dlsym then
      let started := moduleStart e
      ⟨some 0, some .moduleStart, started.deployed, started.ret⟩
    else ⟨none, some .failedLookup, [], 0⟩
  else ⟨some (-1), none, [], 0⟩

/-! ## What the calls decide -/

/-- The sockets `module_start` gets: those of the addresses for which `socket`, `bind` and
`realloc` succeed, if there are addresses at all. -/
def Env.sockets (e : Env) : List Sock :=
  if e.ioqueueNew then
    match e.resolution.addresses (defaultFlags { unix := e.unixSocket }) with
    | none => []
    | some addrs => addrs.filterMap (Addr.kept true)
  else []

/-- The `i`-th socket listens and gets its hook. -/
def Env.Deploys (e : Env) (i : Nat) : Prop :=
  e.deployment.listen i = true ∧ e.deployment.hookNew i = true

/-- Some socket is registered: all up to it deploy, and its `epoll_ctl` succeeds. -/
def Env.Registers (e : Env) : Prop :=
  ∃ k < e.sockets.length, (∀ j ≤ k, e.Deploys j) ∧ e.deployment.evqAdd k = true

/-- What `module_start` leaves is what the deployment of its sockets leaves. -/
theorem moduleStart_eq (e : Env) :
    (moduleStart e).deployed = (deployFrom true e.deployment 0 e.sockets).1 ∧
      (e.sockets ≠ [] →
        (moduleStart e).argsFreed = decide ((deployFrom true e.deployment 0 e.sockets).2 ≠ 0)) := by
  have hpassive : (defaultFlags { unix := e.unixSocket }).passive = true := by
    cases e.unixSocket <;> rfl
  cases hnew : e.ioqueueNew with
  | false =>
    simp only [moduleStart, Env.sockets, hnew, Bool.false_eq_true, if_false]
    exact ⟨rfl, fun h => absurd rfl h⟩
  | true =>
    cases haddrs : e.resolution.addresses (defaultFlags { unix := e.unixSocket }) with
    | none =>
      simp only [moduleStart, Env.sockets, hnew, if_true, ioqueueSocketPrepare_eq, ioqueueNew, haddrs]
      exact ⟨rfl, fun h => absurd rfl h⟩
    | some addrs =>
      obtain ⟨hflags, hfd⟩ := foldl_prepareAddr
        ⟨defaultFlags { unix := e.unixSocket }, [], 0⟩ [] addrs
      simp only [hpassive, List.nil_append] at hflags hfd
      simp only [moduleStart, Env.sockets, hnew, if_true, ioqueueSocketPrepare_eq, ioqueueNew, haddrs,
        ne_eq, not_true_eq_false, if_false, ioqueueSocketDeploy, hflags, hpassive, hfd]
      by_cases hret : (deployFrom true e.deployment 0 (addrs.filterMap (Addr.kept true))).2 = 0
      · simp only [hret, not_true_eq_false, if_false, decide_false, implies_true, and_self]
      · simp only [hret, not_false_eq_true, if_true, decide_true, implies_true, and_self]

theorem bound_of_mem_sockets {e : Env} {s : Sock} (h : s ∈ e.sockets) : s.bound = true := by
  unfold Env.sockets at h
  split at h
  · split at h
    · cases h
    · exact bound_of_mem_kept h
  · cases h

/-- A bound and listening socket is registered exactly where the calls let one be. -/
theorem moduleStart_registers (e : Env) :
    (∃ d ∈ (moduleStart e).deployed,
        d.sock.bound = true ∧ d.listening = true ∧ d.registered = true) ↔ e.Registers := by
  rw [(moduleStart_eq e).1, deployFrom_registered 0 fun s hs => bound_of_mem_sockets hs]
  simp only [Nat.zero_add, Env.Registers, Env.Deploys]

/-! ## The value returned -/

/-- `module_start` was found and called, and a bound and listening socket is registered in the
event queue. -/
def Loaded.Serving (l : Loaded) : Prop :=
  l.called = some .moduleStart ∧
    ∃ d ∈ l.deployed, d.sock.bound = true ∧ d.listening = true ∧ d.registered = true

/-- 0 is returned only when the daemon serves; else a value other than 0 is returned, and no
function from a failed lookup is called. -/
def Loaded.Propagates (l : Loaded) : Prop :=
  (l.ret = some 0 → l.Serving) ∧
    (¬ l.Serving → (∃ r, l.ret = some r ∧ r ≠ 0) ∧ l.called ≠ some .failedLookup)

/-- **When the value returned tells whether the daemon serves**: the library cannot be opened,
or `module_start` is found and registers a socket. -/
theorem load_propagates_iff (e : Env) :
    (ayubdModuleLoad e).Propagates ↔ e.dlopen = false ∨ (e.dlsym = true ∧ e.Registers) := by
  unfold ayubdModuleLoad
  cases e.dlopen with
  | false =>
    refine ⟨fun _ => Or.inl rfl, fun _ => ⟨fun h => ?_, fun _ => ⟨⟨-1, rfl, by decide⟩, by simp⟩⟩⟩
    cases h
  | true =>
    cases e.dlsym with
    | false =>
      -- the symbol is called without a test
      constructor
      · intro h
        have hnot : ¬ (⟨none, some .failedLookup, [], 0⟩ : Loaded).Serving := fun hs => by cases hs.1
        exact absurd rfl (h.2 hnot).2
      · rintro (h | ⟨h, -⟩) <;> cases h
    | true =>
      have hserving : (⟨some 0, some .moduleStart, (moduleStart e).deployed,
          (moduleStart e).ret⟩ : Loaded).Serving ↔ e.Registers := by
        simp only [Loaded.Serving, true_and, moduleStart_registers]
      constructor
      · intro h
        exact Or.inr ⟨rfl, hserving.mp (h.1 rfl)⟩
      · rintro (h | ⟨-, h⟩)
        · cases h
        · exact ⟨fun _ => hserving.mpr h, fun hnot => absurd (hserving.mpr h) hnot⟩

/-- A server whose only address is in use. -/
def addressInUse : Env where
  dlopen := true
  dlsym := true
  ioqueueNew := true
  unixSocket := false
  resolution := ⟨false, ⟨none, false, false⟩, some [⟨some 5, false, true⟩]⟩
  deployment := ⟨fun _ => true, fun _ => true, fun _ => true⟩

/-- It loads, and listens on nothing. -/
theorem addressInUse_not_propagated : ¬ (ayubdModuleLoad addressInUse).Propagates := by
  intro h
  obtain ⟨-, d, hd, -⟩ := h.1 rfl
  cases hd

/-! ## The arguments -/

/-- No hook in the event queue refers to arguments that have been freed. -/
def Started.ArgsAlive (s : Started) : Prop :=
  ∀ d ∈ s.deployed, d.registered = true → s.argsFreed = false

theorem registers_of_mem {e : Env} {d : Deployed} (hd : d ∈ (moduleStart e).deployed)
    (hreg : d.registered = true) : e.Registers := by
  have hd' := hd
  rw [(moduleStart_eq e).1] at hd'
  obtain ⟨hmem, hlisten⟩ := deployFrom_listening hd' hreg
  exact (moduleStart_registers e).mp ⟨d, hd, bound_of_mem_sockets hmem, hlisten, hreg⟩

/-- Once there are sockets, `module_start` frees the arguments exactly if one of them does not
deploy. -/
theorem argsFreed_iff {e : Env} (h : e.sockets ≠ []) :
    (moduleStart e).argsFreed = true ↔ ∃ k < e.sockets.length, ¬ e.Deploys k := by
  rw [(moduleStart_eq e).2 h, decide_eq_true_eq, deployFrom_fails]
  simp only [Nat.zero_add, Env.Deploys]

/-- **When a failed deployment leaves no hook with freed arguments**: no socket fails to
deploy, or none was registered before the first that fails. -/
theorem args_alive_iff (e : Env) :
    (moduleStart e).ArgsAlive ↔ ¬ (e.Registers ∧ ∃ k < e.sockets.length, ¬ e.Deploys k) := by
  constructor
  · rintro h ⟨hregs, hfails⟩
    obtain ⟨d, hd, -, -, hreg⟩ := (moduleStart_registers e).mpr hregs
    have hne : e.sockets ≠ [] := by
      obtain ⟨k, hk, -⟩ := hfails
      exact List.ne_nil_of_length_pos (by omega)
    have hfreed := (argsFreed_iff hne).mpr hfails
    rw [h d hd hreg] at hfreed
    cases hfreed
  · intro h d hd hreg
    have hregs := registers_of_mem hd hreg
    have hne : e.sockets ≠ [] := by
      obtain ⟨k, hk, -⟩ := hregs
      exact List.ne_nil_of_length_pos (by omega)
    rw [← Bool.not_eq_true, argsFreed_iff hne]
    exact fun hfails => h ⟨hregs, hfails⟩

/-- A server with two addresses that can listen on the first only. -/
def secondFails : Env where
  dlopen := true
  dlsym := true
  ioqueueNew := true
  unixSocket := false
  resolution := ⟨false, ⟨none, false, false⟩, some [⟨some 5, true, true⟩, ⟨some 6, true, true⟩]⟩
  deployment := ⟨fun i => i == 0, fun _ => true, fun _ => true⟩

/-- The hook of the first socket stays in the event queue with freed arguments. -/
theorem secondFails_args_freed :
    (moduleStart secondFails).ret = -1 ∧ ¬ (moduleStart secondFails).ArgsAlive := by
  refine ⟨by decide, fun h => ?_⟩
  have hfreed := h ⟨⟨5, true⟩, true, true⟩ (by decide) rfl
  revert hfreed
  decide

end Ayubd.Startup
