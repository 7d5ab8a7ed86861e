import Ayubd.Base.Loop
import Ayubd.Base.Memory
import Ayubd.Queue.Agree

/-!
# Ayubd — the `SLIST` stack of `main.h`

`slist_new`, `slist_in`, `slist_out`, `slist_free` and `slist_remove_val`, over the macros of
`sys/queue.h`. A list is a block that points to its first node. An access to memory that is not
allocated has no result, and `malloc` hands out any address that is not allocated.

* **`slist_outs`** — a list is last in, first out, and leaves the memory as it was before.
-/

namespace Ayubd.Slist

open Memory

/-- A block of memory: a list, a node of one, a hook, or something else. -/
inductive Cell where
  | list (first : Option Addr)
  | node (val next : Option Addr)
  | hook (mp : Addr)
  | other
deriving DecidableEq, Repr

abbrev Mem := Memory Addr Cell

def firstAt (h : Mem) (p : Addr) : Option (Option Addr) :=
  match h.lookup p with
  | some (.list first) => some first
  | _ => none

/-- `np->val` and `SLIST_NEXT(np, slist_link)`. -/
def nodeAt (h : Mem) (np : Addr) : Option (Option Addr × Option Addr) :=
  match h.lookup np with
  | some (.node val next) => some (val, next)
  | _ => none

def slistNew (m : Malloc) (h : Mem) : Addr × Mem :=
  (m.next h.keys, h.insert (m.next h.keys) (.list none))

def slistIn (m : Malloc) (h : Mem) (p : Addr) (v : Option Addr) : Option Mem := do
  let np := m.next h.keys
  let h := h.insert np (.node v none)
  let first ← firstAt h p
  let h ← write h np (.node v first)
  write h p (.list (some np))

/-- `slist_out`: the value, and the memory afterwards. -/
def slistOut (h : Mem) (p : Addr) : Option (Option Addr × Mem) := do
  match ← firstAt h p with
  | none => some (none, h)
  | some np => do
    let (val, next) ← nodeAt h np
    let h ← write h p (.list next)
    let h ← free h np
    some (val, h)

/-- `if ((vfree) && np->val) DO_FREE(np->val)`. -/
def freeVal (vfree : Bool) (h : Mem) (val : Option Addr) : Option Mem :=
  match vfree, val with
  | true, some v => free h v
  | _, _ => some h

/-- The loop of `slist_free`. -/
def freeBody (p : Addr) (vfree : Bool) (h : Mem) : Option (Mem ⊕ Mem) := do
  match ← firstAt h p with
  | none => some (.inr h)
  | some np => do
    let (val, next) ← nodeAt h np
    let h ← write h p (.list next)
    let h ← freeVal vfree h val
    let h ← free h np
    some (.inl h)

/-- `slist_free`. A list has no more nodes than there are blocks. -/
def slistFree (h : Mem) (p : Addr) (vfree : Bool) : Option Mem := do
  let h ← loop (freeBody p vfree) (h.keys.length + 1) h
  free h p

/-- The loop of `slist_remove_val` that looks for the value. -/
def findBody (h : Mem) (v : Option Addr) (np : Option Addr) :
    Option (Option Addr ⊕ Option Addr) :=
  match np with
  | none => some (.inr none)
  | some np => do
    let (val, next) ← nodeAt h np
    if val = v then some (.inr (some np)) else some (.inl next)

/-- The loop of `SLIST_REMOVE` that looks for the node before. -/
def prevBody (h : Mem) (np : Addr) (curelm : Option Addr) : Option (Option Addr ⊕ Addr) :=
  match curelm with
  | none => none
  | some curelm => do
    let (_, next) ← nodeAt h curelm
    if next = some np then some (.inr curelm) else some (.inl next)

def slistRemove (h : Mem) (p np : Addr) : Option Mem := do
  let first ← firstAt h p
  let (_, next) ← nodeAt h np
  if first = some np then write h p (.list next)
  else do
    let curelm ← loop (prevBody h np) (h.keys.length + 1) first
    let (val, _) ← nodeAt h curelm
    write h curelm (.node val next)

def slistRemoveVal (h : Mem) (p : Addr) (v : Option Addr) (vfree : Bool) : Option Mem := do
  let first ← firstAt h p
  match ← loop (findBody h v) (h.keys.length + 1) first with
  | none => some h
  | some np => do
    let h ← slistRemove h p np
    let (val, _) ← nodeAt h np
    let h ← freeVal vfree h val
    free h np

/-! ## What a list holds -/

/-- The list at `p` has these nodes, with their values. -/
def Holds (h : Mem) (p : Addr) (ns : List (Addr × Option Addr)) : Prop :=
  ∃ first, h.lookup p = some (.list first) ∧ Linked (nodeAt h) first ns

/-- The blocks of a list. -/
def cells (p : Addr) (ns : List (Addr × Option Addr)) : List Addr := p :: ns.map Prod.fst

section
variable {h h' : Mem} {p np : Addr} {v : Option Addr} {ns front back : List (Addr × Option Addr)}
  {rest : List Addr} {first next : Option Addr} {vfree : Bool} {fuel : Nat} (m : Malloc)

theorem firstAt_eq (hp : h.lookup p = some (.list first)) : firstAt h p = some first := by
  unfold firstAt
  rw [hp]

theorem nodeAt_eq (hnp : h.lookup np = some (.node v next)) : nodeAt h np = some (v, next) := by
  unfold nodeAt
  rw [hnp]

theorem nodeAt_congr {a : Addr} (hsame : h'.lookup a = h.lookup a) : nodeAt h' a = nodeAt h a := by
  unfold nodeAt
  rw [hsame]

theorem lookup_of_nodeAt (hnp : nodeAt h np = some (v, next)) :
    h.lookup np = some (.node v next) := by
  unfold nodeAt at hnp
  split at hnp
  · next val next' heq =>
    obtain ⟨rfl, rfl⟩ := Prod.mk.inj (Option.some.inj hnp)
    exact heq
  · cases hnp

/-- What a list holds depends on its blocks. -/
theorem Holds.frame (hl : Holds h p ns) (hsame : Same h h' (cells p ns)) : Holds h' p ns := by
  obtain ⟨first, hp, hlinked⟩ := hl
  refine ⟨first, (hsame p List.mem_cons_self).trans hp, hlinked.congr fun e he => nodeAt_congr ?_⟩
  exact hsame e.1 (List.mem_cons_of_mem _ (List.mem_map_of_mem he))

/-- A new list is empty and owns its block. -/
theorem slistNew_spec (ho : Owned h rest) :
    Holds (slistNew m h).2 (slistNew m h).1 [] ∧
      Owned (slistNew m h).2 (cells (slistNew m h).1 [] ++ rest) ∧
      Same h (slistNew m h).2 rest := by
  obtain ⟨ho', hlookup, hother⟩ := ho.insert (m.fresh h.keys) (.list none)
  refine ⟨⟨none, hlookup, rfl⟩, ho', fun a ha => hother a ?_⟩
  rintro rfl
  exact m.fresh h.keys (AList.mem_keys.mp (ho.mem_iff.mpr ha))

/-- **`slist_in`** puts a node before the others. -/
theorem slistIn_spec (hl : Holds h p ns) (ho : Owned h (cells p ns ++ rest)) (v : Option Addr) :
    ∃ h' np, slistIn m h p v = some h' ∧ Holds h' p ((np, v) :: ns) ∧
      Owned h' (cells p ((np, v) :: ns) ++ rest) ∧ Same h h' rest := by
  obtain ⟨first, hp, hlinked⟩ := hl
  have hfresh := m.fresh h.keys
  have hnew : ∀ a ∈ cells p ns ++ rest, a ≠ m.next h.keys := by
    rintro a ha rfl
    exact hfresh (AList.mem_keys.mp (ho.mem_iff.mpr ha))
  have hpmem : p ∈ cells p ns ++ rest := List.mem_append_left _ List.mem_cons_self
  obtain ⟨ho₁, -, hother₁⟩ := ho.insert hfresh (.node v none)
  obtain ⟨h₂, hwrite₂, ho₂, hnode₂, hother₂⟩ := ho₁.write List.mem_cons_self (.node v first)
  obtain ⟨h₃, hwrite₃, ho₃, hlist₃, hother₃⟩ :=
    ho₂.write (List.mem_cons_of_mem _ hpmem) (.list (some (m.next h.keys)))
  have hp₁ : (h.insert (m.next h.keys) (.node v none)).lookup p = some (.list first) :=
    (hother₁ p (hnew p hpmem)).trans hp
  -- the other blocks are as they were
  have hsame : ∀ a ∈ cells p ns ++ rest, a ≠ p → h₃.lookup a = h.lookup a := fun a ha hap =>
    (hother₃ a hap).trans ((hother₂ a (hnew a ha)).trans (hother₁ a (hnew a ha)))
  refine ⟨h₃, m.next h.keys, ?_, ⟨_, hlist₃, rfl, first, ?_, ?_⟩, ?_, ?_⟩
  · unfold slistIn
    simp only [firstAt_eq hp₁, hwrite₂, hwrite₃, Option.bind_eq_bind, Option.bind_some]
  · exact nodeAt_eq ((hother₃ _ (hnew p hpmem).symm).trans hnode₂)
  · refine hlinked.congr fun e he => nodeAt_congr (hsame e.1 ?_ ?_)
    · exact List.mem_append_left _ (List.mem_cons_of_mem _ (List.mem_map_of_mem he))
    · rintro heq
      have hnodup := (List.nodup_append.mp ho.nodup).1
      exact (List.nodup_cons.mp hnodup).1 (heq ▸ List.mem_map_of_mem he)
  · refine ho₃.perm ?_
    show (m.next h.keys :: p :: (ns.map Prod.fst ++ rest)).Perm
      (p :: m.next h.keys :: (ns.map Prod.fst ++ rest))
    exact List.Perm.swap _ _ _
  · intro a ha
    exact hsame a (List.mem_append_right _ ha) (ho.ne List.mem_cons_self ha)

/-- Taking the first node off a list. -/
theorem unlink_first (hl : Holds h p ((np, v) :: ns))
    (ho : Owned h (cells p ((np, v) :: ns) ++ rest)) :
    ∃ next h', firstAt h p = some (some np) ∧ nodeAt h np = some (v, next) ∧
      write h p (.list next) = some h' ∧ Holds h' p ns ∧
      Owned h' (np :: (cells p ns ++ rest)) ∧ Same h h' (np :: rest) := by
  obtain ⟨first, hp, rfl, next, hnode, hlinked⟩ := hl
  obtain ⟨h', hwrite, ho', hlist, hother⟩ :=
    ho.write (List.mem_append_left _ List.mem_cons_self) (.list next)
  have hnodup := (List.nodup_append.mp ho.nodup).1
  have hnotp : ∀ a ∈ np :: ns.map Prod.fst, a ≠ p := by
    rintro a ha rfl
    exact (List.nodup_cons.mp hnodup).1 ha
  refine ⟨next, h', firstAt_eq hp, hnode, hwrite, ⟨next, hlist, ?_⟩, ?_, ?_⟩
  · refine hlinked.congr fun e he => nodeAt_congr (hother e.1 (hnotp _ ?_))
    exact List.mem_cons_of_mem _ (List.mem_map_of_mem he)
  · refine ho'.perm ?_
    show (p :: np :: (ns.map Prod.fst ++ rest)).Perm (np :: p :: (ns.map Prod.fst ++ rest))
    exact List.Perm.swap _ _ _
  · intro a ha
    rcases List.mem_cons.mp ha with rfl | ha
    · exact hother _ (hnotp _ List.mem_cons_self)
    · exact hother a (ho.ne List.mem_cons_self ha)

/-- **`slist_out`** takes the first node off. -/
theorem slistOut_spec (hl : Holds h p ((np, v) :: ns))
    (ho : Owned h (cells p ((np, v) :: ns) ++ rest)) :
    ∃ h', slistOut h p = some (v, h') ∧ Holds h' p ns ∧ Owned h' (cells p ns ++ rest) ∧
      Same h h' rest := by
  obtain ⟨next, h₁, hfirst, hnode, hwrite, hl₁, ho₁, hsame₁⟩ := unlink_first hl ho
  obtain ⟨h₂, hfree, ho₂, hother⟩ := ho₁.free
  have hne : ∀ a ∈ cells p ns ++ rest, a ≠ np := by
    rintro a ha rfl
    exact (List.nodup_cons.mp ho₁.nodup).1 ha
  refine ⟨h₂, ?_, hl₁.frame fun a ha => hother a (hne a (List.mem_append_left _ ha)), ho₂,
    fun a ha => ?_⟩
  · unfold slistOut
    simp only [hfirst, hnode, hwrite, hfree, Option.bind_eq_bind, Option.bind_some]
  · exact (hother a (hne a (List.mem_append_right _ ha))).trans
      (hsame₁ a (List.mem_cons_of_mem _ ha))

theorem slistOut_empty (hl : Holds h p []) : slistOut h p = some (none, h) := by
  obtain ⟨first, hp, rfl⟩ := hl
  unfold slistOut
  simp only [firstAt_eq hp, Option.bind_eq_bind, Option.bind_some]

/-! ## Freeing a list -/

/-- The blocks that are freed with the nodes that have these values. -/
def values (vfree : Bool) (vs : List (Option Addr)) : List Addr :=
  if vfree then vs.filterMap id else []

theorem values_cons (vfree : Bool) (v : Option Addr) (vs : List (Option Addr)) :
    values vfree (v :: vs) = values vfree [v] ++ values vfree vs := by
  unfold values
  cases vfree with
  | false => rfl
  | true => cases v <;> rfl

theorem freeVal_spec {as : List Addr} (ho : Owned h (values vfree [v] ++ as)) :
    ∃ h', freeVal vfree h v = some h' ∧ Owned h' as ∧ Same h h' as := by
  cases vfree with
  | false => exact ⟨h, rfl, ho, fun _ _ => rfl⟩
  | true =>
    cases v with
    | none => exact ⟨h, rfl, ho, fun _ _ => rfl⟩
    | some v =>
      obtain ⟨h', hfree, ho', hother⟩ := ho.free
      exact ⟨h', hfree, ho', fun a ha => hother a (ho.ne List.mem_cons_self ha)⟩

/-- One round frees the first node. -/
theorem freeBody_cons (hl : Holds h p ((np, v) :: ns))
    (ho : Owned h (cells p ((np, v) :: ns) ++ (values vfree (v :: ns.map Prod.snd) ++ rest))) :
    ∃ h', freeBody p vfree h = some (.inl h') ∧ Holds h' p ns ∧
      Owned h' (cells p ns ++ (values vfree (ns.map Prod.snd) ++ rest)) ∧ Same h h' rest := by
  obtain ⟨next, h₁, hfirst, hnode, hwrite, hl₁, ho₁, hsame₁⟩ := unlink_first hl ho
  rw [values_cons, List.append_assoc] at ho₁ hsame₁
  -- the value before everything else
  have hperm : ∀ as : List Addr, (np :: (cells p ns ++ (values vfree [v] ++ as))).Perm
      (values vfree [v] ++ (np :: (cells p ns ++ as))) := fun as =>
    (List.Perm.cons np (List.perm_append_comm_assoc _ _ _)).trans List.perm_middle.symm
  obtain ⟨h₂, hval, ho₂, hsame₂⟩ := freeVal_spec (ho₁.perm (hperm _))
  obtain ⟨h₃, hfree, ho₃, hother₃⟩ := ho₂.free
  have hne : ∀ a ∈ cells p ns ++ (values vfree (ns.map Prod.snd) ++ rest), a ≠ np := by
    rintro a ha rfl
    exact (List.nodup_cons.mp ho₂.nodup).1 ha
  have hsame : ∀ a ∈ cells p ns ++ (values vfree (ns.map Prod.snd) ++ rest),
      h₃.lookup a = h₁.lookup a := fun a ha =>
    (hother₃ a (hne a ha)).trans (hsame₂ a (List.mem_cons_of_mem _ ha))
  refine ⟨h₃, ?_, hl₁.frame fun a ha => hsame a (List.mem_append_left _ ha), ho₃, fun a ha => ?_⟩
  · unfold freeBody
    simp only [hfirst, hnode, hwrite, hval, hfree, Option.bind_eq_bind, Option.bind_some]
  · have ha' : a ∈ values vfree (ns.map Prod.snd) ++ rest := List.mem_append_right _ ha
    exact (hsame a (List.mem_append_right _ ha')).trans
      (hsame₁ a (List.mem_cons_of_mem _ (List.mem_append_right _ ha')))

/-- The loop frees every node. -/
theorem loop_freeBody (hl : Holds h p ns)
    (ho : Owned h (cells p ns ++ (values vfree (ns.map Prod.snd) ++ rest)))
    (hfuel : ns.length < fuel) :
    ∃ h', loop (freeBody p vfree) fuel h = some h' ∧ Owned h' (p :: rest) ∧ Same h h' rest := by
  induction ns generalizing h fuel with
  | nil =>
    obtain ⟨fuel, rfl⟩ := Nat.exists_eq_succ_of_ne_zero (Nat.ne_zero_of_lt hfuel)
    obtain ⟨first, hp, rfl⟩ := hl
    refine ⟨h, loop_leave ?_, ?_, fun _ _ => rfl⟩
    · unfold freeBody
      simp only [firstAt_eq hp, Option.bind_eq_bind, Option.bind_some]
    · have hnil : values vfree [] = [] := by cases vfree <;> rfl
      rw [List.map_nil, hnil] at ho
      exact ho
  | cons e ns ih =>
    obtain ⟨fuel, rfl⟩ := Nat.exists_eq_succ_of_ne_zero (Nat.ne_zero_of_lt hfuel)
    obtain ⟨h₁, hbody, hl₁, ho₁, hsame₁⟩ := freeBody_cons hl ho
    obtain ⟨h', hloop, ho', hsame'⟩ := ih hl₁ ho₁ (Nat.lt_of_succ_lt_succ hfuel)
    exact ⟨h', (loop_again hbody).trans hloop, ho', hsame₁.trans hsame'⟩

/-- A list has fewer nodes than there are blocks. -/
theorem length_lt_keys (ho : Owned h (cells p ns ++ rest)) : ns.length < h.keys.length + 1 := by
  have hlen := List.Perm.length_eq ho
  rw [cells, List.length_append, List.length_cons, List.length_map] at hlen
  omega

/-- **`slist_free`** frees the list, each of its nodes, and with `vfree` each value. -/
theorem slistFree_spec (vfree : Bool) (hl : Holds h p ns)
    (ho : Owned h (cells p ns ++ (values vfree (ns.map Prod.snd) ++ rest))) :
    ∃ h', slistFree h p vfree = some h' ∧ Owned h' rest ∧ Same h h' rest := by
  obtain ⟨h₁, hloop, ho₁, hsame₁⟩ := loop_freeBody hl ho (length_lt_keys ho)
  obtain ⟨h', hfree, ho', hother⟩ := ho₁.free
  refine ⟨h', ?_, ho', fun a ha => (hother a ?_).trans (hsame₁ a ha)⟩
  · unfold slistFree
    simp only [hloop, hfree, Option.bind_eq_bind, Option.bind_some]
  · rintro rfl
    exact (List.nodup_cons.mp ho₁.nodup).1 ha

/-! ## Removing a value -/

/-- The search finds the first node with the value. -/
theorem loop_findBody (hl : Linked (nodeAt h) first ns) (v : Option Addr)
    (hfuel : ns.length < fuel) :
    loop (findBody h v) fuel first = some ((ns.find? fun e => e.2 = v).map Prod.fst) := by
  induction ns generalizing first fuel with
  | nil =>
    obtain ⟨fuel, rfl⟩ := Nat.exists_eq_succ_of_ne_zero (Nat.ne_zero_of_lt hfuel)
    obtain rfl : first = none := hl
    exact loop_leave rfl
  | cons e ns ih =>
    obtain ⟨fuel, rfl⟩ := Nat.exists_eq_succ_of_ne_zero (Nat.ne_zero_of_lt hfuel)
    obtain ⟨rfl, next, hnode, hrest⟩ := hl
    have hbody : findBody h v (some e.1) =
        if e.2 = v then some (.inr (some e.1)) else some (.inl next) := by
      unfold findBody
      simp only [hnode, Option.bind_eq_bind, Option.bind_some]
    rw [List.find?_cons]
    by_cases hv : e.2 = v
    · rw [if_pos hv] at hbody
      rw [loop_leave hbody, decide_eq_true hv]
      rfl
    · rw [if_neg hv] at hbody
      rw [loop_again hbody, ih hrest (Nat.lt_of_succ_lt_succ hfuel), decide_eq_false hv]

/-- The search for the node in front stops there. -/
theorem loop_prevBody {c : Addr} {w : Option Addr}
    (hl : Linked (nodeAt h) first (front ++ (c, w) :: (np, v) :: back))
    (hnodup : ((front ++ (c, w) :: (np, v) :: back).map Prod.fst).Nodup)
    (hfuel : front.length < fuel) : loop (prevBody h np) fuel first = some c := by
  induction front generalizing first fuel with
  | nil =>
    obtain ⟨fuel, rfl⟩ := Nat.exists_eq_succ_of_ne_zero (Nat.ne_zero_of_lt hfuel)
    obtain ⟨rfl, next, hnode, rfl, -⟩ := hl
    refine loop_leave ?_
    unfold prevBody
    simp only [hnode, Option.bind_eq_bind, Option.bind_some, if_true]
  | cons e front ih =>
    obtain ⟨fuel, rfl⟩ := Nat.exists_eq_succ_of_ne_zero (Nat.ne_zero_of_lt hfuel)
    obtain ⟨rfl, next, hnode, hrest⟩ := hl
    have hrestnodup := (List.nodup_cons.mp hnodup).2
    -- the next node is another one
    have hnext : next ≠ some np := by
      rintro rfl
      cases front with
      | nil =>
        obtain ⟨heq, -⟩ := hrest
        have hsame := Option.some.inj heq
        exact (List.nodup_cons.mp hrestnodup).1 (hsame ▸ List.mem_cons_self)
      | cons e' front' =>
        obtain ⟨heq, -⟩ := hrest
        have hsame := Option.some.inj heq
        refine (List.nodup_cons.mp hrestnodup).1 (hsame ▸ ?_)
        exact List.mem_map_of_mem (List.mem_append_right _ (List.mem_cons_of_mem _
          List.mem_cons_self))
    have hround : prevBody h np (some e.1) = some (.inl next) := by
      unfold prevBody
      simp only [hnode, Option.bind_eq_bind, Option.bind_some, if_neg hnext]
    rw [loop_again hround]
    exact ih hrest hrestnodup (Nat.lt_of_succ_lt_succ hfuel)

/-- **`SLIST_REMOVE`** of a node of the list. -/
theorem slistRemove_spec (hl : Holds h p (front ++ (np, v) :: back))
    (ho : Owned h (cells p (front ++ (np, v) :: back) ++ rest)) :
    ∃ h', slistRemove h p np = some h' ∧ Holds h' p (front ++ back) ∧ nodeAt h' np = nodeAt h np ∧
      Owned h' (np :: (cells p (front ++ back) ++ rest)) ∧ Same h h' rest := by
  have hfirst : ∃ first, h.lookup p = some (.list first) ∧
      Linked (nodeAt h) first (front ++ (np, v) :: back) := hl
  obtain ⟨first, hp, hlinked⟩ := hfirst
  have hfuel := length_lt_keys ho
  have hnodup := (List.nodup_append.mp ho.nodup).1
  have hnodes := (List.nodup_cons.mp hnodup).2
  obtain ⟨next, hnode, -⟩ := hlinked.behind
  have hperm : (cells p (front ++ (np, v) :: back) ++ rest).Perm
      (np :: (cells p (front ++ back) ++ rest)) := by
    refine List.Perm.append_right rest (List.Perm.trans ?_ (List.Perm.swap p np _).symm)
    refine List.Perm.cons p ?_
    rw [List.map_append, List.map_append, List.map_cons]
    exact List.perm_middle
  rcases List.eq_nil_or_concat front with rfl | ⟨front, ⟨c, w⟩, rfl⟩
  · obtain ⟨next', h', hfirst', hnode', hwrite, hl', ho', hsame'⟩ := unlink_first hl ho
    rw [hnode] at hnode'
    obtain ⟨-, rfl⟩ := Prod.mk.inj (Option.some.inj hnode')
    refine ⟨h', ?_, hl', nodeAt_congr (hsame' np List.mem_cons_self), ho',
      fun a ha => hsame' a (List.mem_cons_of_mem _ ha)⟩
    unfold slistRemove
    simp only [hfirst', hnode, hwrite, if_true, Option.bind_eq_bind, Option.bind_some]
  · simp only [List.concat_eq_append, List.append_assoc, List.singleton_append] at *
    -- the node is not the first one
    have hne : first ≠ some np := by
      rintro rfl
      cases front with
      | nil =>
        obtain ⟨heq, -⟩ := hlinked
        have hsame := Option.some.inj heq
        exact (List.nodup_cons.mp hnodes).1 (hsame ▸ List.mem_cons_self)
      | cons e' front' =>
        obtain ⟨heq, -⟩ := hlinked
        have hsame := Option.some.inj heq
        refine (List.nodup_cons.mp hnodes).1 (hsame ▸ ?_)
        exact List.mem_map_of_mem (List.mem_append_right _ (List.mem_cons_of_mem _
          List.mem_cons_self))
    have hprev : loop (prevBody h np) (h.keys.length + 1) first = some c := by
      refine loop_prevBody hlinked hnodes (Nat.lt_of_le_of_lt ?_ hfuel)
      rw [List.length_append]
      omega
    obtain ⟨next', hc, -⟩ := hlinked.behind
    have hcmem : c ∈ cells p (front ++ (c, w) :: (np, v) :: back) ++ rest := by
      refine List.mem_append_left _ (List.mem_cons_of_mem _ ?_)
      exact List.mem_map_of_mem (List.mem_append_right _ List.mem_cons_self)
    obtain ⟨h', hwrite, ho', hc', hother⟩ := ho.write hcmem (.node w next)
    -- no other node has the address of the one that is written to
    rw [List.map_append, List.map_cons, List.map_cons] at hnodes
    obtain ⟨-, hcnodes, hdisj⟩ := List.nodup_append.mp hnodes
    have hcback := (List.nodup_cons.mp hcnodes).1
    have hnp : np ≠ c := by
      rintro rfl
      exact hcback List.mem_cons_self
    have hpc : p ≠ c := by
      rintro rfl
      refine (List.nodup_cons.mp hnodup).1 ?_
      exact List.mem_map_of_mem (List.mem_append_right _ List.mem_cons_self)
    refine ⟨h', ?_, ⟨first, (hother p hpc).trans hp, ?_⟩, nodeAt_congr (hother np hnp),
      ho'.perm hperm, ?_⟩
    · unfold slistRemove
      simp only [firstAt_eq hp, hnode, if_neg hne, hprev, hc, hwrite, Option.bind_eq_bind,
        Option.bind_some]
    · refine hlinked.remove hnode (nodeAt_eq hc') (fun e he => nodeAt_congr (hother e.1 ?_))
        fun e he => nodeAt_congr (hother e.1 ?_)
      · exact hdisj e.1 (List.mem_map_of_mem he) c List.mem_cons_self
      · have hmem : e.1 ∈ np :: back.map Prod.fst :=
          List.mem_cons_of_mem _ (List.mem_map_of_mem he)
        exact fun heq => hcback (heq ▸ hmem)
    · intro a ha
      refine hother a (ho.ne (List.mem_cons_of_mem _ ?_) ha)
      exact List.mem_map_of_mem (List.mem_append_right _ List.mem_cons_self)

/-- The block that is freed when a value is removed. -/
def dropped (vfree : Bool) (v : Option Addr) (ns : List (Addr × Option Addr)) : List Addr :=
  if v ∈ ns.map Prod.snd then values vfree [v] else []

/-- **`slist_remove_val`** takes out the first node with the value, wherever it is. -/
theorem slistRemoveVal_spec (vfree : Bool) (v : Option Addr) (hl : Holds h p ns)
    (ho : Owned h (cells p ns ++ (dropped vfree v ns ++ rest))) :
    ∃ h' ns', slistRemoveVal h p v vfree = some h' ∧ Holds h' p ns' ∧
      ns'.map Prod.snd = (ns.map Prod.snd).erase v ∧ Owned h' (cells p ns' ++ rest) ∧
      Same h h' rest := by
  have hfirst : ∃ first, h.lookup p = some (.list first) ∧ Linked (nodeAt h) first ns := hl
  obtain ⟨first, hp, hlinked⟩ := hfirst
  have hfind := loop_findBody hlinked v (length_lt_keys ho)
  cases hnode : ns.find? (fun e => e.2 = v) with
  -- `SLIST_FOREACH` runs to the end and nothing is removed
  | none =>
    have hnotin : v ∉ ns.map Prod.snd := by
      intro hmem
      obtain ⟨e, he, hev⟩ := List.mem_map.mp hmem
      exact List.find?_eq_none.mp hnode e he (decide_eq_true hev)
    rw [hnode] at hfind
    rw [dropped, if_neg hnotin] at ho
    refine ⟨h, ns, ?_, hl, (List.erase_of_not_mem hnotin).symm, ho, fun _ _ => rfl⟩
    unfold slistRemoveVal
    simp only [firstAt_eq hp, hfind, Option.map_none, Option.bind_eq_bind, Option.bind_some]
  -- the first node with the value goes, then the value itself, then the node's block
  | some e =>
    obtain ⟨np, w⟩ := e
    obtain ⟨hw, front, back, rfl, hfront⟩ := List.find?_eq_some_iff_append.mp hnode
    obtain rfl : w = v := of_decide_eq_true hw
    have hin : w ∈ (front ++ (np, w) :: back).map Prod.snd :=
      List.mem_map_of_mem (List.mem_append_right _ List.mem_cons_self)
    rw [hnode] at hfind
    rw [dropped, if_pos hin] at ho
    obtain ⟨h₁, hremove, hl₁, hnode₁, ho₁, hsame₁⟩ := slistRemove_spec hl ho
    obtain ⟨next, hnp, -⟩ := hlinked.behind
    have hperm : (np :: (cells p (front ++ back) ++ (values vfree [w] ++ rest))).Perm
        (values vfree [w] ++ (np :: (cells p (front ++ back) ++ rest))) :=
      (List.Perm.cons np (List.perm_append_comm_assoc _ _ _)).trans List.perm_middle.symm
    obtain ⟨h₂, hval, ho₂, hsame₂⟩ := freeVal_spec (ho₁.perm hperm)
    obtain ⟨h₃, hfree, ho₃, hother₃⟩ := ho₂.free
    -- neither of the two blocks freed belongs to what is left of the list
    have hsame : ∀ a ∈ cells p (front ++ back) ++ rest, h₃.lookup a = h₁.lookup a := by
      intro a ha
      have hne : a ≠ np := by
        rintro rfl
        exact (List.nodup_cons.mp ho₂.nodup).1 ha
      exact (hother₃ a hne).trans (hsame₂ a (List.mem_cons_of_mem _ ha))
    refine ⟨h₃, front ++ back, ?_, hl₁.frame fun a ha => hsame a (List.mem_append_left _ ha), ?_,
      ho₃, fun a ha => ?_⟩
    · unfold slistRemoveVal
      simp only [firstAt_eq hp, hfind, Option.map_some, hremove, hnode₁, hnp, hval, hfree,
        Option.bind_eq_bind, Option.bind_some]
    · have hnotin : w ∉ front.map Prod.snd := by
        intro hmem
        obtain ⟨e, he, hev⟩ := List.mem_map.mp hmem
        have hne := hfront e he
        rw [hev] at hne
        simp at hne
      rw [List.map_append, List.map_append, List.map_cons, List.erase_append_right _ hnotin,
        List.erase_cons_head]
    · exact (hsame a (List.mem_append_right _ ha)).trans (hsame₁ a (List.mem_append_right _ ha))

end

/-! ## Whole runs -/

inductive Op where
  | put (v : Option Addr)
  | take
  | remove (v : Option Addr)
deriving DecidableEq, Repr

/-- An operation on the list at `p`: what it returns, and the memory afterwards. -/
def exec (m : Malloc) (p : Addr) (h : Mem) : Op → Option (List (Option Addr) × Mem)
  | .put v => (slistIn m h p v).map fun h => ([], h)
  | .take => (slistOut h p).map fun r => ([r.1], r.2)
  | .remove v => (slistRemoveVal h p v false).map fun h => ([], h)

/-- What operations on the list at `p` return, one after another. -/
def run (m : Malloc) (p : Addr) (h : Mem) : List Op → Option (List (Option Addr) × Mem)
  | [] => some ([], h)
  | op :: ops => do
    let (out, h) ← exec m p h op
    let (outs, h) ← run m p h ops
    some (out ++ outs, h)

/-- An operation on the values of a list; an empty list gives NULL. -/
def stackExec (vs : List (Option Addr)) : Op → List (Option Addr) × List (Option Addr)
  | .put v => ([], v :: vs)
  | .take => ([vs.headD none], vs.tail)
  | .remove v => ([], vs.erase v)

/-- What operations on the values return. -/
def stackOuts (vs : List (Option Addr)) : List Op → List (Option Addr)
  | [] => []
  | op :: ops => (stackExec vs op).1 ++ stackOuts (stackExec vs op).2 ops

section
variable {h : Mem} {p : Addr} {ns : List (Addr × Option Addr)} {rest : List Addr} (m : Malloc)

/-- Every operation does on the list what it does on a stack. -/
theorem exec_spec (hl : Holds h p ns) (ho : Owned h (cells p ns ++ rest)) (op : Op) :
    ∃ h' ns', exec m p h op = some ((stackExec (ns.map Prod.snd) op).1, h') ∧ Holds h' p ns' ∧
      ns'.map Prod.snd = (stackExec (ns.map Prod.snd) op).2 ∧ Owned h' (cells p ns' ++ rest) ∧
      Same h h' rest := by
  cases op with
  | put v =>
    obtain ⟨h', np, hin, hl', ho', hsame⟩ := slistIn_spec m hl ho v
    exact ⟨h', (np, v) :: ns, by rw [exec, hin]; rfl, hl', rfl, ho', hsame⟩
  | take =>
    cases ns with
    | nil => exact ⟨h, [], by rw [exec, slistOut_empty hl]; rfl, hl, rfl, ho, fun _ _ => rfl⟩
    | cons e ns =>
      obtain ⟨h', hout, hl', ho', hsame⟩ := slistOut_spec hl ho
      exact ⟨h', ns, by rw [exec, hout]; rfl, hl', rfl, ho', hsame⟩
  | remove v =>
    have hnone : dropped false v ns = [] := by
      unfold dropped
      split <;> rfl
    obtain ⟨h', ns', hremove, hl', hvals, ho', hsame⟩ :=
      slistRemoveVal_spec false v hl (by rw [hnone]; exact ho)
    exact ⟨h', ns', by rw [exec, hremove]; rfl, hl', hvals, ho', hsame⟩

/-- Every run does on the list what it does on a stack. -/
theorem run_spec (hl : Holds h p ns) (ho : Owned h (cells p ns ++ rest)) (ops : List Op) :
    ∃ h' ns', run m p h ops = some (stackOuts (ns.map Prod.snd) ops, h') ∧ Holds h' p ns' ∧
      Owned h' (cells p ns' ++ rest) ∧ Same h h' rest := by
  induction ops generalizing h ns with
  | nil => exact ⟨h, ns, rfl, hl, ho, fun _ _ => rfl⟩
  | cons op ops ih =>
    obtain ⟨h₁, ns₁, hexec, hl₁, hvals, ho₁, hsame₁⟩ := exec_spec m hl ho op
    obtain ⟨h', ns', hrun, hl', ho', hsame'⟩ := ih hl₁ ho₁
    refine ⟨h', ns', ?_, hl', ho', hsame₁.trans hsame'⟩
    rw [hvals] at hrun
    rw [run, hexec]
    simp only [Option.bind_eq_bind, Option.bind_some, hrun, stackOuts]

/-- **A list is a stack**: whatever is put in, taken out and removed, a new list returns what the
values one before the other return; and when it is freed, the memory is what it was before. -/
theorem slist_outs (m : Malloc) (h : Mem) (ops : List Op) :
    ∃ h₁ h₂, run m (slistNew m h).1 (slistNew m h).2 ops = some (stackOuts [] ops, h₁) ∧
      slistFree h₁ (slistNew m h).1 false = some h₂ ∧ h₂.keys.Perm h.keys ∧
      ∀ a ∈ h, h₂.lookup a = h.lookup a := by
  obtain ⟨hl, ho, hsame⟩ := slistNew_spec m (owned_keys h)
  obtain ⟨h₁, ns, hrun, hl₁, ho₁, hsame₁⟩ := run_spec m hl ho ops
  obtain ⟨h₂, hfree, ho₂, hsame₂⟩ := slistFree_spec false hl₁ ho₁
  exact ⟨h₁, h₂, hrun, hfree, ho₂, (hsame.trans hsame₁).trans hsame₂⟩

end

end Ayubd.Slist
