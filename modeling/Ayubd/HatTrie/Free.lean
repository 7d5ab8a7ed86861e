import Ayubd.HatTrie.Array
import Ayubd.HatTrie.Nodes

/-!
# Ayubd — freeing a hat-trie

`hattrie_free_node` goes down into every node that a trie node leads to, skipping pointers that are
equal to the one before, and frees the node itself at last. A node that is not there any more cannot
be looked at or freed again, so that a result means that none is freed twice (`freeNode_spec`); and
since every node is below the root, none is left (`hattrieFree_spec`).

`hattrie_clear` makes a new root, but leaves the number of keys as it is (`hattrieClear_spec`).
-/

namespace Ayubd.HatTrie

def hattrieFreeNode : Nat → Trie → Addr → Option Trie
  | 0, _, _ => none
  | depth + 1, T, a => do
    match ← T.cell a with
    | .trie t => do
      let T ← (firsts t.xs).foldlM (fun T c => hattrieFreeNode depth T (t.xs c)) T
      let _ ← T.cell a
      some (T.set a none)
    | .bucket _ => some (T.set a none)

def hattrieFree (T : Trie) : Option Trie := hattrieFreeNode (T.next + 1) T T.root

/-- These nodes have been freed, and nothing else. -/
structure Freed (T T' : Trie) (S : Addr → Prop) : Prop where
  freed : ∀ x, S x → T'.cell x = none
  kept : ∀ x, ¬ S x → T'.cell x = T.cell x
  next : T'.next = T.next
  m : T'.m = T.m

section
variable {T T₁ T₂ T₃ : Trie} {path : Addr → Bytes} {a : Addr} {t : TrieNode} {S S' : Addr → Prop}
  {depth : Nat}

theorem freed_refl (T : Trie) : Freed T T fun _ => False :=
  ⟨fun _ h => h.elim, fun _ _ => rfl, rfl, rfl⟩

theorem freed_set (T : Trie) (a : Addr) : Freed T (T.set a none) fun x => x = a := by
  refine ⟨?_, fun x hx => cell_set_of_ne hx _, rfl, rfl⟩
  rintro x rfl
  exact cell_set_self _ _ _

theorem Freed.trans (h : Freed T₁ T₂ S) (h' : Freed T₂ T₃ S') :
    Freed T₁ T₃ fun x => S x ∨ S' x := by
  refine ⟨?_, ?_, h'.next.trans h.next, h'.m.trans h.m⟩
  · intro x hx
    by_cases hx' : S' x
    · exact h'.freed x hx'
    · rw [h'.kept x hx']
      exact h.freed x (hx.resolve_right hx')
  · intro x hx
    rw [h'.kept x fun h => hx (.inr h), h.kept x fun h => hx (.inl h)]

theorem Freed.congr (h : Freed T₁ T₂ S) (hS : ∀ x, S x ↔ S' x) : Freed T₁ T₂ S' :=
  ⟨fun x hx => h.freed x ((hS x).mpr hx), fun x hx => h.kept x fun hx' => hx ((hS x).mp hx'),
    h.next, h.m⟩

/-- The loop over the pointers of a trie node. -/
theorem freeNodes_spec (h : Ok T path) (ht : T.cell a = some (.trie t))
    (hfree : ∀ c T₁, (∀ x ∈ nodes T path (t.xs c), T₁.cell x = T.cell x) →
      ∃ T₂, hattrieFreeNode depth T₁ (t.xs c) = some T₂ ∧
        Freed T₁ T₂ fun x => x ∈ nodes T path (t.xs c))
    {cs : List UInt8} (hcs : cs.Pairwise fun c d => t.xs c ≠ t.xs d)
    (hsame : ∀ c ∈ cs, ∀ x ∈ nodes T path (t.xs c), T₁.cell x = T.cell x) :
    ∃ T₂, cs.foldlM (fun T c => hattrieFreeNode depth T (t.xs c)) T₁ = some T₂ ∧
      Freed T₁ T₂ fun x => ∃ c ∈ cs, x ∈ nodes T path (t.xs c) := by
  induction cs generalizing T₁ with
  | nil => exact ⟨T₁, rfl, (freed_refl T₁).congr fun x => by simp⟩
  | cons c cs ih =>
    obtain ⟨hne, hcs⟩ := List.pairwise_cons.mp hcs
    obtain ⟨T₂, hfirst, hfreed⟩ := hfree c T₁ (hsame c List.mem_cons_self)
    have hothers : ∀ d ∈ cs, ∀ x ∈ nodes T path (t.xs d), T₂.cell x = T.cell x := by
      intro d hd x hx
      rw [hfreed.kept x fun hxc => hne d hd (nodes_disjoint h ht hxc hx)]
      exact hsame d (List.mem_cons_of_mem c hd) x hx
    obtain ⟨T₃, hrest, hfreed'⟩ := ih hcs hothers
    refine ⟨T₃, ?_, (hfreed.trans hfreed').congr fun x => by simp⟩
    rw [List.foldlM_cons, hfirst]
    exact hrest

/-- **`hattrie_free_node`** frees a node and the nodes below it, each once. -/
theorem freeNode_spec (h : Ok T path) {n : Node} (hn : T.cell a = some n) :
    ∀ depth T₁, (∀ t, T.cell a = some (.trie t) → T.next < (path a).length + depth) → 0 < depth →
      (∀ x ∈ nodes T path a, T₁.cell x = T.cell x) →
      ∃ T₂, hattrieFreeNode depth T₁ a = some T₂ ∧ Freed T₁ T₂ fun x => x ∈ nodes T path a := by
  refine h.below (Q := fun a => ∀ depth T₁,
    (∀ t, T.cell a = some (.trie t) → T.next < (path a).length + depth) → 0 < depth →
      (∀ x ∈ nodes T path a, T₁.cell x = T.cell x) →
      ∃ T₂, hattrieFreeNode depth T₁ a = some T₂ ∧ Freed T₁ T₂ fun x => x ∈ nodes T path a)
    ?_ ?_ hn
  · -- a bucket
    intro a b hb depth T₁ _ hpos hsame
    obtain ⟨depth, rfl⟩ := Nat.exists_eq_succ_of_ne_zero (Nat.ne_of_gt hpos)
    have hb₁ : T₁.cell a = some (.bucket b) := (hsame a (mem_nodes_self h hb)).trans hb
    refine ⟨T₁.set a none, ?_, (freed_set T₁ a).congr fun x => ?_⟩
    · rw [hattrieFreeNode]
      simp only [hb₁, Option.bind_eq_bind, Option.bind_some]
    · rw [nodes_bucket hb, List.mem_singleton]
  · -- a trie node: its children first, each run of equal pointers once
    intro a t ht ih depth T₁ hdepth hpos hsame
    obtain ⟨depth, rfl⟩ := Nat.exists_eq_succ_of_ne_zero (Nat.ne_of_gt hpos)
    have hlt := h.length_path_lt ht
    have hdeep := hdepth t ht
    have hbelow : ∀ c x, x ∈ nodes T path (t.xs c) → x ∈ nodes T path a :=
      fun c x hx => (mem_nodes_trie h ht).mpr (.inr ⟨c, hx⟩)
    have ht₁ : T₁.cell a = some (.trie t) := (hsame a (mem_nodes_self h ht)).trans ht
    have hcovers := (h.runs ht).covers_firsts
    have hpos' : 0 < depth := by
      by_contra hzero
      obtain rfl : depth = 0 := Nat.eq_zero_of_not_pos hzero
      exact absurd hdeep (Nat.not_lt.mpr hlt)
    have hchild : ∀ c T₁, (∀ x ∈ nodes T path (t.xs c), T₁.cell x = T.cell x) →
        ∃ T₂, hattrieFreeNode depth T₁ (t.xs c) = some T₂ ∧
          Freed T₁ T₂ fun x => x ∈ nodes T path (t.xs c) := by
      intro c T₁ hsame
      refine ih c depth T₁ (fun t' ht' => ?_) hpos' hsame
      rcases h.path_child ht c with hpath | ⟨-, b, hb, -⟩
      · rw [hpath, List.length_append, List.length_singleton]
        exact Nat.lt_of_lt_of_eq hdeep (by omega)
      · rw [ht'] at hb
        cases hb
    have hapart : (firsts t.xs).Pairwise fun c d => t.xs c ≠ t.xs d := by
      refine hcovers.sorted.imp_of_mem ?_
      intro c d hc hd hlt hxs
      rw [hcovers.inj c hc d hd hxs] at hlt
      exact UInt8.lt_irrefl d hlt
    obtain ⟨T₂, hloop, hfreed⟩ := freeNodes_spec h ht hchild hapart
      fun c _ x hx => hsame x (hbelow c x hx)
    -- the node is not below its own children, so it is still there
    have ht₂ : T₂.cell a = some (.trie t) := by
      rw [hfreed.kept a, ht₁]
      rintro ⟨c, -, ha⟩
      exact not_mem_nodes_child h ht c ha
    refine ⟨T₂.set a none, ?_, (hfreed.trans (freed_set T₂ a)).congr fun x => ?_⟩
    · rw [hattrieFreeNode]
      simp only [ht₁, hloop, ht₂, Option.bind_eq_bind, Option.bind_some]
    · rw [mem_nodes_trie h ht]
      constructor
      · rintro (⟨c, -, hx⟩ | rfl)
        · exact .inr ⟨c, hx⟩
        · exact .inl rfl
      · rintro (rfl | ⟨c, hx⟩)
        · exact .inr rfl
        · obtain ⟨d, hd, hxs⟩ := hcovers.cover c
          exact .inl ⟨d, hd, hxs ▸ hx⟩

/-- Freeing the root frees every node. -/
theorem freeRoot_spec (h : Ok T path) :
    ∃ T', hattrieFreeNode (T.next + 1) T T.root = some T' ∧ (∀ a, T'.cell a = none) ∧
      T'.m = T.m := by
  obtain ⟨t, ht⟩ := h.root
  obtain ⟨T', hfree, hfreed⟩ := freeNode_spec h ht (T.next + 1) T
    (fun _ _ => Nat.lt_of_lt_of_le (Nat.lt_succ_self T.next) (Nat.le_add_left _ _))
    (Nat.succ_pos _) fun _ _ => rfl
  refine ⟨T', hfree, fun a => ?_, hfreed.m⟩
  cases hn : T.cell a with
  | none =>
    by_cases ha : a ∈ nodes T path T.root
    · exact hfreed.freed a ha
    · rw [hfreed.kept a ha, hn]
  | some n => exact hfreed.freed a (mem_nodes_root h hn)

/-- **`hattrie_free`** frees every node once: it ends, and nothing is left. -/
theorem hattrieFree_spec (h : Ok T path) :
    ∃ T', hattrieFree T = some T' ∧ ∀ a, T'.cell a = none := by
  obtain ⟨T', hfree, hnone, -⟩ := freeRoot_spec h
  exact ⟨T', hfree, hnone⟩

end

/-! ## Arrays -/

section
variable {D : Set Bytes} {ops : List (MapOp Bytes Value)}

/-- **`array_free`** after whatever has been done with an array frees each of its nodes once, and
leaves none. -/
theorem array_freed (hD : PrefixFree D) (past : Nat → UInt8)
    (hkeys : ∀ op ∈ ops, ∀ k ∈ op.key, k ∈ D ∧ k.length ≤ maxKey) :
    ∃ s T', arrayStore.after (hattrieCreate, past) ops = some s ∧ hattrieFree s.1 = some T' ∧
      ∀ a, T'.cell a = none := by
  obtain ⟨s, hrun, hrep⟩ := array_after hD past ops hkeys
  obtain ⟨path, hok, -⟩ := hrep.1.exists_path
  obtain ⟨T', hfree, hnone⟩ := hattrieFree_spec hok
  exact ⟨s, T', hrun, hfree, hnone⟩

/-- An array with two keys. -/
theorem array_freed_two :
    ∃ s T', arrayStore.after (hattrieCreate, fun _ => 0) [.set [97, 0] 7, .get [98, 0]] = some s ∧
      hattrieFree s.1 = some T' ∧ ∀ a, T'.cell a = none := by
  have ha : ([97, 0] : Bytes) ∈ cKeys := ⟨[97], by decide, rfl⟩
  have hb : ([98, 0] : Bytes) ∈ cKeys := ⟨[98], by decide, rfl⟩
  exact array_freed prefixFree_cKeys (fun _ => 0) (by simp [MapOp.key, ha, hb, maxKey])

end

end Ayubd.HatTrie
