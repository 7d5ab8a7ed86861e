import Mathlib.Data.List.AList

/-!
# Ayubd — memory and who owns it

A memory maps the addresses that are allocated to what is in them. `Owned` says that these are the
addresses of a list, each once: a structure that is freed takes its addresses off the list, and a
list that is empty in the end says that nothing leaked. Since no address is twice in the list, what
is written at one of them leaves the others as they were.

`Linked` says which nodes are met from a pointer on, before the null pointer.
-/

namespace Ayubd

/-- The allocated addresses, with what is in them. -/
abbrev Memory (β κ : Type) := AList fun _ : β => κ

namespace Memory

section
variable {β κ : Type}

/-- The allocated addresses are those of a list, each once. -/
def Owned (h : Memory β κ) (as : List β) : Prop := h.keys.Perm as

variable {h : Memory β κ} {as bs : List β} {a b : β}

theorem owned_keys (h : Memory β κ) : Owned h h.keys := List.Perm.refl _

/-- Ownership does not depend on the order of the blocks. -/
theorem Owned.perm (ho : Owned h as) (hp : as.Perm bs) : Owned h bs := List.Perm.trans ho hp

theorem Owned.nodup (ho : Owned h as) : as.Nodup := (List.Perm.nodup_iff ho).mp h.nodupKeys

theorem Owned.mem_iff (ho : Owned h as) : a ∈ h ↔ a ∈ as := List.Perm.mem_iff ho

/-- An address of the first structure is none of the others. -/
theorem Owned.ne (ho : Owned h (as ++ bs)) (ha : a ∈ as) (hb : b ∈ bs) : b ≠ a := by
  rintro rfl
  exact (List.nodup_append.mp ho.nodup).2.2 b ha b hb rfl

end

section
variable {β κ : Type} [DecidableEq β]

def write (h : Memory β κ) (a : β) (c : κ) : Option (Memory β κ) :=
  if a ∈ h then some (h.insert a c) else none

def free (h : Memory β κ) (a : β) : Option (Memory β κ) :=
  if a ∈ h then some (h.erase a) else none

/-- What is at some addresses is the same. -/
def Same (h h' : Memory β κ) (as : List β) : Prop := ∀ a ∈ as, h'.lookup a = h.lookup a

variable {h h' h'' : Memory β κ} {as : List β} {a : β} {c : κ}

theorem Same.trans (h₁ : Same h h' as) (h₂ : Same h' h'' as) : Same h h'' as :=
  fun a ha => (h₂ a ha).trans (h₁ a ha)

/-- Allocating an address that was not. -/
theorem Owned.insert (ho : Owned h as) (ha : a ∉ h.keys) (c : κ) :
    Owned (h.insert a c) (a :: as) ∧ (h.insert a c).lookup a = some c ∧
      ∀ b, b ≠ a → (h.insert a c).lookup b = h.lookup b := by
  refine ⟨?_, AList.lookup_insert h, fun b hb => AList.lookup_insert_ne hb⟩
  unfold Owned
  rw [AList.keys_insert, List.erase_of_not_mem ha]
  exact List.Perm.cons a ho

/-- A write to an owned block succeeds and changes that block alone. -/
theorem Owned.write (ho : Owned h as) (ha : a ∈ as) (c : κ) :
    ∃ h', Memory.write h a c = some h' ∧ Owned h' as ∧ h'.lookup a = some c ∧
      ∀ b, b ≠ a → h'.lookup b = h.lookup b := by
  have hmem := ho.mem_iff.mpr ha
  refine ⟨h.insert a c, if_pos hmem, ?_, AList.lookup_insert h,
    fun b hb => AList.lookup_insert_ne hb⟩
  unfold Owned
  rw [AList.keys_insert]
  exact (List.perm_cons_erase (AList.mem_keys.mp hmem)).symm.trans ho

/-- Freeing an owned block succeeds and leaves the other blocks as they were. -/
theorem Owned.free (ho : Owned h (a :: as)) :
    ∃ h', Memory.free h a = some h' ∧ Owned h' as ∧ ∀ b, b ≠ a → h'.lookup b = h.lookup b := by
  have hmem : a ∈ h := ho.mem_iff.mpr List.mem_cons_self
  refine ⟨h.erase a, if_pos hmem, ?_, fun b hb => AList.lookup_erase_ne hb⟩
  unfold Owned
  rw [AList.keys_erase]
  exact List.cons_perm_iff_perm_erase.mp (List.Perm.symm ho) |>.2.symm

end

end Memory

/-! ## Linked nodes -/

section
variable {β ν : Type} {node node' : β → Option (ν × Option β)} {a next : Option β} {c n : β}
  {v w : ν} {ns front back : List (β × ν)}

/-- The nodes that are met from a pointer on, with their values. -/
def Linked (node : β → Option (ν × Option β)) : Option β → List (β × ν) → Prop
  | a, [] => a = none
  | a, (n, v) :: ns => a = some n ∧ ∃ next, node n = some (v, next) ∧ Linked node next ns

/-- A list whose nodes are unchanged is still the same list. -/
theorem Linked.congr (h : Linked node a ns) (hsame : ∀ e ∈ ns, node' e.1 = node e.1) :
    Linked node' a ns := by
  induction ns generalizing a with
  | nil => exact h
  | cons e ns ih =>
    obtain ⟨ha, next, hnode, hrest⟩ := h
    exact ⟨ha, next, (hsame e List.mem_cons_self).trans hnode,
      ih hrest fun e' he' => hsame e' (List.mem_cons_of_mem _ he')⟩

/-- The nodes behind one of them. -/
theorem Linked.behind (h : Linked node a (front ++ (n, v) :: back)) :
    ∃ next, node n = some (v, next) ∧ Linked node next back := by
  induction front generalizing a with
  | nil => exact h.2
  | cons e front ih =>
    obtain ⟨-, next, -, hrest⟩ := h
    exact ih hrest

/-- A node is taken out when the one before it is linked to the one behind it. -/
theorem Linked.remove (h : Linked node a (front ++ (c, w) :: (n, v) :: back))
    (hn : node n = some (v, next)) (hc : node' c = some (w, next))
    (hfront : ∀ e ∈ front, node' e.1 = node e.1) (hback : ∀ e ∈ back, node' e.1 = node e.1) :
    Linked node' a (front ++ (c, w) :: back) := by
  induction front generalizing a with
  | nil =>
    obtain ⟨ha, next', -, hafter⟩ := h
    obtain ⟨-, next'', hn', hrest⟩ := hafter
    rw [hn] at hn'
    obtain ⟨-, rfl⟩ := Prod.mk.inj (Option.some.inj hn')
    exact ⟨ha, next, hc, hrest.congr hback⟩
  | cons e front ih =>
    obtain ⟨ha, next', hnode, hrest⟩ := h
    exact ⟨ha, next', (hfront e List.mem_cons_self).trans hnode,
      ih hrest fun e' he' => hfront e' (List.mem_cons_of_mem _ he')⟩

end

end Ayubd
