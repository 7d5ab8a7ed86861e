import Ayubd.Queue.Slist
import Mathlib.Data.List.Perm.Basic

/-!
# Ayubd — the lists that the memory of hooks is kept in

A hook remembers the blocks it was given in the list `mp`, whose nodes are allocated themselves, and
`hook_free_real` frees the blocks, the nodes, the list and the hook. This module embeds `hook_new`,
`hook_malloc` and `hook_free_real` over the nodes of `Ayubd.Queue.Slist`, with all hooks in one
memory.

* **`pool_run`** — however hooks are made, used and freed one among the other, the blocks that a
  hook was given stay allocated until it is freed, and then nothing of it is left.
-/

namespace Ayubd.PoolNodes

open Memory Slist

def mpAt (h : Mem) (hook : Addr) : Option Addr :=
  match h.lookup hook with
  | some (.hook mp) => some mp
  | _ => none

/-- `hook_new`: the hook, and the memory afterwards. -/
def hookNew (m : Malloc) (h : Mem) : Option (Addr × Mem) := do
  let hook := m.next h.keys
  let h := h.insert hook (.hook 0)
  let (mp, h) := slistNew m h
  let h ← write h hook (.hook mp)
  some (hook, h)

/-- `hook_malloc`: the block, and the memory afterwards. -/
def hookMalloc (m : Malloc) (h : Mem) (hook : Addr) : Option (Addr × Mem) := do
  let p := m.next h.keys
  let h := h.insert p .other
  let mp ← mpAt h hook
  let h ← slistIn m h mp (some p)
  some (p, h)

/-- `hook_free_real`, of a hook without an array. -/
def hookFreeReal (h : Mem) (hook : Addr) : Option Mem := do
  let mp ← mpAt h hook
  let h ← slistFree h mp true
  free h hook

/-! ## Hooks that use one memory -/

/-- The memory, and the hooks made so far, of which some have been freed. For each of these `got`
has the blocks that it was given, the last one first; the code has no such list. -/
structure Pools where
  mem : Mem
  hooks : List (Option Addr)
  got : List (List Addr)

inductive Op where
  | new
  | malloc (i : Nat)
  | free (i : Nat)
deriving DecidableEq, Repr

/-- One operation. A hook that is not there must not be used. -/
def step (m : Malloc) (s : Pools) : Op → Option Pools
  | .new => do
    let (hook, h) ← hookNew m s.mem
    some ⟨h, s.hooks ++ [some hook], s.got ++ [[]]⟩
  | .malloc i => do
    let hook ← s.hooks[i]?.join
    let (p, h) ← hookMalloc m s.mem hook
    some ⟨h, s.hooks, s.got.modify i (p :: ·)⟩
  | .free i => do
    let hook ← s.hooks[i]?.join
    let h ← hookFreeReal s.mem hook
    some ⟨h, s.hooks.set i none, s.got.set i []⟩

def run (m : Malloc) (s : Pools) : List Op → Option Pools
  | [] => some s
  | op :: ops => do
    let s ← step m s op
    run m s ops

/-- Which hooks are there after an operation that uses only hooks that are. -/
def Uses (there : List Bool) : Op → Prop
  | .new => True
  | .malloc i | .free i => there[i]? = some true

def after (there : List Bool) : Op → List Bool
  | .new => there ++ [true]
  | .malloc _ => there
  | .free i => there.set i false

/-- No operation uses a hook that has not been made or has been freed. -/
def Valid (there : List Bool) : List Op → Prop
  | [] => True
  | op :: ops => Uses there op ∧ Valid (after there op) ops

/-! ## One hook -/

/-- A hook, its list, and the nodes of that. -/
structure Desc where
  hook : Addr
  mp : Addr
  nodes : List (Addr × Option Addr)

/-- The blocks of a hook: its own, those of its list, and those it was given. -/
def Desc.footprint (d : Desc) : List Addr :=
  d.hook :: (cells d.mp d.nodes ++ values true (d.nodes.map Prod.snd))

/-- A hook is what a description says. -/
structure Good (h : Mem) (d : Desc) : Prop where
  hook : h.lookup d.hook = some (.hook d.mp)
  list : Holds h d.mp d.nodes

section
variable {h h' : Mem} {d : Desc} {rest : List Addr} (m : Malloc)

theorem mpAt_eq {hook mp : Addr} (hmp : h.lookup hook = some (.hook mp)) :
    mpAt h hook = some mp := by
  unfold mpAt
  rw [hmp]

/-- A hook depends on the memory of its own blocks only. -/
theorem Good.frame (hg : Good h d) (hsame : Same h h' d.footprint) : Good h' d :=
  ⟨(hsame _ List.mem_cons_self).trans hg.hook, hg.list.frame fun a ha =>
    hsame a (List.mem_cons_of_mem _ (List.mem_append_left _ ha))⟩

/-- A new hook owns its two blocks and an empty list. -/
theorem hookNew_spec (ho : Owned h rest) :
    ∃ h' d, hookNew m h = some (d.hook, h') ∧ d.nodes = [] ∧ Good h' d ∧
      Owned h' (d.footprint ++ rest) ∧ Same h h' rest := by
  have hfresh := m.fresh h.keys
  obtain ⟨ho₁, -, hother₁⟩ := ho.insert hfresh (.hook 0)
  obtain ⟨hl₂, ho₂, hsame₂⟩ := slistNew_spec m ho₁
  have hmem : m.next h.keys ∈ cells (slistNew m (h.insert (m.next h.keys) (.hook 0))).1 [] ++
      m.next h.keys :: rest := List.mem_append_right _ List.mem_cons_self
  obtain ⟨h₃, hwrite, ho₃, hhook, hother₃⟩ :=
    ho₂.write hmem (.hook (slistNew m (h.insert (m.next h.keys) (.hook 0))).1)
  have hne : ∀ a ∈ cells (slistNew m (h.insert (m.next h.keys) (.hook 0))).1 [],
      a ≠ m.next h.keys := fun a ha => (ho₂.ne ha List.mem_cons_self).symm
  refine ⟨h₃, ⟨m.next h.keys, (slistNew m (h.insert (m.next h.keys) (.hook 0))).1, []⟩, ?_, rfl,
    ⟨hhook, hl₂.frame fun a ha => hother₃ a (hne a ha)⟩, ?_, fun a ha => ?_⟩
  · unfold hookNew
    simp only [hwrite, Option.bind_eq_bind, Option.bind_some]
  · exact ho₃.perm (List.Perm.swap _ _ _)
  · have ha' : a ≠ m.next h.keys := by
      rintro rfl
      exact hfresh (AList.mem_keys.mp (ho.mem_iff.mpr ha))
    exact (hother₃ a ha').trans ((hsame₂ a (List.mem_cons_of_mem _ ha)).trans (hother₁ a ha'))

/-- **`hook_malloc`** gives a block, and the hook one node more. -/
theorem hookMalloc_spec (hg : Good h d) (ho : Owned h (d.footprint ++ rest)) :
    ∃ h' p np, hookMalloc m h d.hook = some (p, h') ∧
      Good h' { d with nodes := (np, some p) :: d.nodes } ∧
      Owned h' (({ d with nodes := (np, some p) :: d.nodes } : Desc).footprint ++ rest) ∧
      Same h h' rest := by
  have hfresh := m.fresh h.keys
  have hnew : ∀ a ∈ d.footprint ++ rest, a ≠ m.next h.keys := by
    rintro a ha rfl
    exact hfresh (AList.mem_keys.mp (ho.mem_iff.mpr ha))
  obtain ⟨ho₁, -, hother₁⟩ := ho.insert hfresh .other
  have hg₁ : Good (h.insert (m.next h.keys) .other) d :=
    hg.frame fun a ha => hother₁ a (hnew a (List.mem_append_left _ ha))
  -- the blocks of the list before all others
  have hperm : ∀ cs vs : List Addr, (m.next h.keys :: (d.hook :: (cs ++ vs) ++ rest)).Perm
      (cs ++ (d.hook :: m.next h.keys :: (vs ++ rest))) := by
    intro cs vs
    rw [List.cons_append, List.append_assoc]
    exact (List.Perm.swap _ _ _).trans
      ((List.Perm.cons _ List.perm_middle.symm).trans List.perm_middle.symm)
  obtain ⟨h', np, hin, hl', ho', hsame'⟩ :=
    slistIn_spec m hg₁.list (ho₁.perm (hperm _ _)) (some (m.next h.keys))
  refine ⟨h', m.next h.keys, np, ?_, ⟨(hsame' _ List.mem_cons_self).trans hg₁.hook, hl'⟩,
    ho'.perm ?_, fun a ha => ?_⟩
  · unfold hookMalloc
    simp only [mpAt_eq hg₁.hook, hin, Option.bind_eq_bind, Option.bind_some]
  · show (cells d.mp ((np, some (m.next h.keys)) :: d.nodes) ++
      (d.hook :: m.next h.keys :: (values true (d.nodes.map Prod.snd) ++ rest))).Perm
      (d.hook :: ((cells d.mp ((np, some (m.next h.keys)) :: d.nodes) ++
        m.next h.keys :: values true (d.nodes.map Prod.snd)) ++ rest))
    rw [List.append_assoc]
    exact List.perm_middle
  · have ha' := List.mem_append_right (values true (d.nodes.map Prod.snd)) ha
    exact (hsame' a (List.mem_cons_of_mem _ (List.mem_cons_of_mem _ ha'))).trans
      (hother₁ a (hnew a (List.mem_append_right _ ha)))

/-- **`hook_free_real`** frees every block of the hook, and no other. -/
theorem hookFreeReal_spec (hg : Good h d) (ho : Owned h (d.footprint ++ rest)) :
    ∃ h', hookFreeReal h d.hook = some h' ∧ Owned h' rest ∧ Same h h' rest := by
  have hperm : (d.footprint ++ rest).Perm (cells d.mp d.nodes ++
      (values true (d.nodes.map Prod.snd) ++ (d.hook :: rest))) := by
    unfold Desc.footprint
    rw [← List.append_assoc, List.cons_append]
    exact List.perm_middle.symm
  obtain ⟨h₁, hlist, ho₁, hsame₁⟩ := slistFree_spec true hg.list (ho.perm hperm)
  obtain ⟨h', hfree, ho', hother⟩ := ho₁.free
  refine ⟨h', ?_, ho', fun a ha => (hother a ?_).trans (hsame₁ a (List.mem_cons_of_mem _ ha))⟩
  · unfold hookFreeReal
    simp only [mpAt_eq hg.hook, hlist, hfree, Option.bind_eq_bind, Option.bind_some]
  · rintro rfl
    exact (List.nodup_cons.mp ho₁.nodup).1 ha

end

/-! ## All hooks -/

/-- The blocks of a hook, if it has not been freed. -/
def blocksOf (x : Option Desc) : List Addr := (x.map Desc.footprint).getD []

/-- What a hook was given. -/
def given (x : Option Desc) : List (Option Addr) := (x.map fun d => d.nodes.map Prod.snd).getD []

/-- Every hook is what its description says, and there is nothing but the blocks of hooks and what
was there before. -/
structure Inv (h₀ : Mem) (s : Pools) (ds : List (Option Desc)) : Prop where
  hooks : s.hooks = ds.map fun x => x.map Desc.hook
  got : s.got.map (fun bs => bs.map some) = ds.map given
  good : ∀ d, some d ∈ ds → Good s.mem d
  owned : Owned s.mem (ds.flatMap blocksOf ++ h₀.keys)
  same : Same h₀ s.mem h₀.keys

section
variable {h₀ h' : Mem} {s : Pools} {ds : List (Option Desc)} {d : Desc} {i : Nat} (m : Malloc)

theorem flatMap_set_perm (hi : ds[i]? = some (some d)) (x : Option Desc) :
    ((ds.set i x).flatMap blocksOf).Perm (blocksOf x ++ (ds.eraseIdx i).flatMap blocksOf) := by
  have hlt := (List.getElem?_eq_some_iff.mp hi).1
  exact (List.set_perm_cons_eraseIdx hlt x).flatMap_right blocksOf

/-- The blocks of one hook, set apart from the blocks of the rest. -/
theorem flatMap_perm (hi : ds[i]? = some (some d)) :
    (ds.flatMap blocksOf).Perm (d.footprint ++ (ds.eraseIdx i).flatMap blocksOf) := by
  obtain ⟨hlt, hd⟩ := List.getElem?_eq_some_iff.mp hi
  have hperm := (List.getElem_cons_eraseIdx_perm hlt).symm.flatMap_right blocksOf
  rw [hd] at hperm
  exact hperm

/-- Changing one hook leaves the others what they are. -/
theorem Inv.set (hinv : Inv h₀ s ds) (hi : ds[i]? = some (some d)) (x : Option Desc)
    (bs : List Addr) (hsame : Same s.mem h' ((ds.eraseIdx i).flatMap blocksOf ++ h₀.keys))
    (hgood : ∀ d', x = some d' → Good h' d') (hbs : bs.map some = given x)
    (ho : Owned h' (blocksOf x ++ ((ds.eraseIdx i).flatMap blocksOf ++ h₀.keys))) :
    Inv h₀ ⟨h', s.hooks.set i (x.map Desc.hook), s.got.set i bs⟩ (ds.set i x) := by
  have hlt := (List.getElem?_eq_some_iff.mp hi).1
  refine ⟨?_, ?_, fun d' hd' => ?_, ?_, hinv.same.trans fun a ha => ?_⟩
  · show s.hooks.set i _ = _
    rw [hinv.hooks, List.map_set]
  · show (s.got.set i bs).map _ = _
    rw [List.map_set, List.map_set, hinv.got, hbs]
  · rcases List.mem_cons.mp ((List.set_perm_cons_eraseIdx hlt x).mem_iff.mp hd') with heq | hd'
    · exact hgood d' heq.symm
    · refine (hinv.good d' (List.mem_of_mem_eraseIdx hd')).frame fun a ha => hsame a ?_
      exact List.mem_append_left _ (List.mem_flatMap.mpr ⟨some d', hd', ha⟩)
  · refine ho.perm ?_
    rw [← List.append_assoc]
    exact (flatMap_set_perm hi x).symm.append_right h₀.keys
  · exact hsame a (List.mem_append_right _ ha)

/-- A hook in use is described by its own blocks. -/
theorem Inv.exists_desc (hinv : Inv h₀ s ds) (hi : (ds.map Option.isSome)[i]? = some true) :
    ∃ d, ds[i]? = some (some d) ∧ s.hooks[i]?.join = some d.hook ∧ Good s.mem d ∧
      Owned s.mem (d.footprint ++ ((ds.eraseIdx i).flatMap blocksOf ++ h₀.keys)) := by
  rw [List.getElem?_map] at hi
  obtain ⟨x, hx, hsome⟩ := Option.map_eq_some_iff.mp hi
  obtain ⟨d, rfl⟩ := Option.isSome_iff_exists.mp hsome
  refine ⟨d, hx, ?_, hinv.good d (List.mem_of_getElem? hx), hinv.owned.perm ?_⟩
  · rw [hinv.hooks, List.getElem?_map, hx]
    rfl
  · rw [← List.append_assoc]
    exact (flatMap_perm hx).append_right h₀.keys

/-- **One operation** keeps the invariant. -/
theorem Inv.step (hinv : Inv h₀ s ds) {op : Op} (hop : Uses (ds.map Option.isSome) op) :
    ∃ s' ds', PoolNodes.step m s op = some s' ∧ Inv h₀ s' ds' ∧
      ds'.map Option.isSome = after (ds.map Option.isSome) op := by
  cases op with
  -- the new hook comes last, with the list `hook_new` has made for it
  | new =>
    obtain ⟨h', d, hnew, hnil, hg, ho, hsame⟩ := hookNew_spec m hinv.owned
    refine ⟨⟨h', s.hooks ++ [some d.hook], s.got ++ [[]]⟩, ds ++ [some d], ?_, ⟨?_, ?_, ?_, ?_, ?_⟩,
      ?_⟩
    · unfold PoolNodes.step
      simp only [hnew, Option.bind_eq_bind, Option.bind_some]
    · rw [List.map_append, hinv.hooks]
      rfl
    · have hgiven : given (some d) = [] := by
        show d.nodes.map Prod.snd = []
        rw [hnil]
        rfl
      rw [List.map_append, List.map_append, hinv.got, List.map_singleton, List.map_singleton,
        hgiven]
      rfl
    · intro d' hd'
      rcases List.mem_append.mp hd' with hd' | hd'
      · refine (hinv.good d' hd').frame fun a ha => hsame a (List.mem_append_left _ ?_)
        exact List.mem_flatMap.mpr ⟨some d', hd', ha⟩
      · cases List.mem_singleton.mp hd'
        exact hg
    · refine ho.perm ?_
      rw [List.flatMap_append, List.flatMap_singleton, List.append_assoc]
      exact List.perm_append_comm_assoc _ _ _
    · exact hinv.same.trans fun a ha => hsame a (List.mem_append_right _ ha)
    · rw [List.map_append]
      rfl
  -- the block is put in front of the list of hook `i`; the other hooks are as they were
  | malloc i =>
    obtain ⟨d, hd, hhook, hg, ho⟩ := hinv.exists_desc hop
    obtain ⟨h', p, np, hmalloc, hg', ho', hsame⟩ := hookMalloc_spec m hg ho
    have hbs : ∃ bs, s.got[i]? = some bs ∧ bs.map some = d.nodes.map Prod.snd := by
      have hgot := congrArg (fun l => l[i]?) hinv.got
      simp only [List.getElem?_map, hd, Option.map_some] at hgot
      obtain ⟨bs, hbs, heq⟩ := Option.map_eq_some_iff.mp hgot
      exact ⟨bs, hbs, heq⟩
    obtain ⟨bs, hbs, heq⟩ := hbs
    obtain ⟨hlt, hget⟩ := List.getElem?_eq_some_iff.mp hbs
    have hinv' := hinv.set hd (some { d with nodes := (np, some p) :: d.nodes }) (p :: bs) hsame
      (fun d' hd' => Option.some.inj hd' ▸ hg')
      (by rw [List.map_cons, heq]; rfl) ho'
    refine ⟨_, _, ?_, hinv', ?_⟩
    · have hkeep : s.hooks.set i (some d.hook) = s.hooks := by
        obtain ⟨hi, hval⟩ := List.getElem?_eq_some_iff.mp (Option.join_eq_some_iff.mp hhook)
        rw [← hval]
        exact List.set_getElem_self hi
      have hmodify : s.got.modify i (p :: ·) = s.got.set i (p :: bs) := by
        rw [List.modify_eq_set_getElem?, hbs]
        rfl
      unfold PoolNodes.step
      simp only [hhook, hmalloc, hmodify, hkeep, Option.map_some, Option.bind_eq_bind,
        Option.bind_some]
    · have hi := (List.getElem?_eq_some_iff.mp hd)
      rw [List.map_set]
      show (ds.map Option.isSome).set i true = ds.map Option.isSome
      obtain ⟨hi', hval⟩ := List.getElem?_eq_some_iff.mp hop
      rw [← hval]
      exact List.set_getElem_self hi'
  -- the blocks of hook `i` and of its list go, and nothing else
  | free i =>
    obtain ⟨d, hd, hhook, hg, ho⟩ := hinv.exists_desc hop
    obtain ⟨h', hfree, ho', hsame⟩ := hookFreeReal_spec hg ho
    have hinv' := hinv.set hd none [] hsame (fun d' hd' => by cases hd') rfl ho'
    refine ⟨_, _, ?_, hinv', ?_⟩
    · unfold PoolNodes.step
      simp only [hhook, hfree, Option.map_none, Option.bind_eq_bind, Option.bind_some]
    · rw [List.map_set]
      rfl

/-- The invariant survives every valid run. -/
theorem Inv.run (hinv : Inv h₀ s ds) {ops : List Op} (hops : Valid (ds.map Option.isSome) ops) :
    ∃ s' ds', PoolNodes.run m s ops = some s' ∧ Inv h₀ s' ds' := by
  induction ops generalizing s ds with
  | nil => exact ⟨s, ds, rfl, hinv⟩
  | cons op ops ih =>
    obtain ⟨s₁, ds₁, hstep, hinv₁, hthere⟩ := hinv.step m hops.1
    obtain ⟨s', ds', hrun, hinv'⟩ := ih hinv₁ (by rw [hthere]; exact hops.2)
    refine ⟨s', ds', ?_, hinv'⟩
    rw [PoolNodes.run, hstep]
    exact hrun

end

/-! ## Whole runs -/

/-- The blocks that hooks have been given and that have not been freed with them. -/
def Pools.blocks (s : Pools) : List Addr := s.got.flatten

def Pools.live (s : Pools) : Nat := s.hooks.countP Option.isSome

/-- The blocks of a description: those that were given, and for the hook, its list and the nodes. -/
theorem blocksOf_perm (x : Option Desc) {bs : List Addr} (hbs : bs.map some = given x) :
    ∃ own, (blocksOf x).Perm (bs ++ own) ∧
      own.length = 2 * (if x.isSome then 1 else 0) + bs.length := by
  cases x with
  | none =>
    obtain rfl : bs = [] := List.map_eq_nil_iff.mp hbs
    exact ⟨[], List.Perm.refl _, rfl⟩
  | some d =>
    have hvals : values true (d.nodes.map Prod.snd) = bs := by
      show (d.nodes.map Prod.snd).filterMap id = bs
      have hgiven : d.nodes.map Prod.snd = bs.map some := hbs.symm
      rw [hgiven, List.filterMap_map]
      exact List.filterMap_some
    have hlen : d.nodes.length = bs.length := by
      have hsame := congrArg List.length hbs
      rw [List.length_map] at hsame
      rw [hsame]
      exact (List.length_map _).symm
    refine ⟨d.hook :: cells d.mp d.nodes, ?_, ?_⟩
    · show (d.hook :: (cells d.mp d.nodes ++ values true (d.nodes.map Prod.snd))).Perm _
      rw [hvals, ← List.cons_append]
      exact List.perm_append_comm
    · rw [List.length_cons, cells, List.length_cons, List.length_map, hlen]
      show _ = 2 * 1 + _
      omega

/-- The blocks in use are those handed out and those of the lists themselves. -/
theorem flatMap_blocksOf_perm (ds : List (Option Desc)) {got : List (List Addr)}
    (hgot : got.map (fun bs => bs.map some) = ds.map given) :
    ∃ own, (ds.flatMap blocksOf).Perm (got.flatten ++ own) ∧
      own.length = 2 * ds.countP Option.isSome + got.flatten.length := by
  induction ds generalizing got with
  | nil =>
    obtain rfl : got = [] := List.map_eq_nil_iff.mp hgot
    exact ⟨[], List.Perm.refl _, rfl⟩
  | cons x ds ih =>
    cases got with
    | nil => cases hgot
    | cons bs got =>
      obtain ⟨hbs, hrest⟩ := List.cons.inj hgot
      obtain ⟨own₁, hperm₁, hlen₁⟩ := blocksOf_perm x hbs
      obtain ⟨own₂, hperm₂, hlen₂⟩ := ih hrest
      refine ⟨own₁ ++ own₂, ?_, ?_⟩
      · rw [List.flatMap_cons, List.flatten_cons]
        refine (hperm₁.append hperm₂).trans ?_
        rw [List.append_assoc, List.append_assoc]
        exact (List.perm_append_comm_assoc _ _ _).append_left bs
      · rw [List.length_append, hlen₁, hlen₂, List.countP_cons, List.flatten_cons,
          List.length_append]
        omega

/-- **The memory of hooks.** However hooks are made, given blocks and freed one among the other, as
long as none is used that is not there, no memory is used that is not allocated or freed twice. What
is allocated are the blocks of the hooks that are there, a node for each of these, a list and a hook
for each hook, and what was there before, which has not been touched: no block is given twice or
freed before its hook, and nothing is left of a hook that was freed. -/
theorem pool_run (m : Malloc) (h : Mem) {ops : List Op} (hops : Valid [] ops) :
    ∃ s, run m ⟨h, [], []⟩ ops = some s ∧
      (∃ own, s.mem.keys.Perm (s.blocks ++ (own ++ h.keys)) ∧
        own.length = 2 * s.live + s.blocks.length) ∧ ∀ a ∈ h, s.mem.lookup a = h.lookup a := by
  have hstart : Inv h ⟨h, [], []⟩ [] :=
    ⟨rfl, rfl, fun _ hd => absurd hd List.not_mem_nil, owned_keys h, fun _ _ => rfl⟩
  obtain ⟨s, ds, hrun, hinv⟩ := hstart.run m hops
  obtain ⟨own, hperm, hlen⟩ := flatMap_blocksOf_perm ds hinv.got
  refine ⟨s, hrun, ⟨own, ?_, ?_⟩, hinv.same⟩
  · refine List.Perm.trans hinv.owned ?_
    rw [← List.append_assoc]
    exact hperm.append_right h.keys
  · have hlive : s.live = ds.countP Option.isSome := by
      unfold Pools.live
      rw [hinv.hooks, List.countP_map]
      refine List.countP_congr fun x _ => ?_
      cases x <;> exact Iff.rfl
    rw [hlen, hlive]
    rfl

/-- Two hooks, one of which is freed before the other gets another block. -/
theorem pool_run_two :
    ∃ s, run Malloc.bump ⟨∅, [], []⟩ [.new, .malloc 0, .new, .malloc 1, .free 0, .malloc 1] =
        some s ∧
      (∃ own, s.mem.keys.Perm (s.blocks ++ (own ++ (∅ : Mem).keys)) ∧
        own.length = 2 * s.live + s.blocks.length) ∧
      ∀ a ∈ (∅ : Mem), s.mem.lookup a = (∅ : Mem).lookup a :=
  pool_run Malloc.bump ∅ ⟨trivial, rfl, trivial, rfl, rfl, rfl, trivial⟩

end Ayubd.PoolNodes
