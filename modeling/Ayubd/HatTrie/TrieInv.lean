import Ayubd.HatTrie.Trie

/-!
# Ayubd — the shape of a hat-trie

`Ok T path` says that the nodes of a trie are linked as a trie: `path` gives every node the
characters that lead to it, and a pointer leads to a trie node or a pure bucket with one character
more, or to a hybrid bucket that all pointers of its range share. Two trie nodes have different
paths, and every node is some node's child, so that a node is reached in one way only.

Where a key belongs is its `place`, the trie node or the bucket it leads to. Since the path of the
place and the rest of the key give the key back (`Ok.label_place`), different keys have different
places: an operation on one place changes the value of one key, and `denote`, which reads the value
at a key's place, is a finite map that the operations change in one point.
-/

namespace Ayubd.HatTrie

def contents (b : AhTable) (k : Bytes) : Option Value := (tableStore.find b k).getD none

/-- A bucket that represents a map has its entries as contents. -/
theorem Represents.contents_eq {b : AhTable} {f : Bytes → Option Value} (h : Represents b f) :
    contents b = f := by
  funext k
  obtain ⟨r, htryget, hnone, hpoints⟩ := h.tryget k
  unfold contents tableStore
  simp only [htryget, Option.bind_eq_bind, Option.bind_some]
  cases r with
  | none => exact (hnone.mpr rfl).symm
  | some l =>
    obtain ⟨hload, hne⟩ := (hpoints l rfl).load
    obtain ⟨v, hv⟩ := Option.ne_none_iff_exists'.mp hne
    show ((b.load l).map some).getD none = _
    rw [hload, hv]
    rfl

/-- A bucket is a table that is not overfull. -/
structure BucketOk (b : AhTable) : Prop where
  rep : Represents b (contents b)
  size : b.m ≤ maxBucketSize

/-- The keys of a hybrid bucket start with a character of its range. -/
def KeysWithin (b : AhTable) : Prop :=
  ∀ s v, contents b s = some v → ∃ c k, s = c :: k ∧ b.c0 ≤ c ∧ c ≤ b.c1

/-- What the pointer `t.xs c` of the trie node at `a` leads to. -/
inductive Child (cell : Addr → Option Node) (path : Addr → Bytes) (a : Addr) (t : TrieNode)
    (c : UInt8) : Prop where
  | trie (t' : TrieNode) (hcell : cell (t.xs c) = some (.trie t'))
      (hpath : path (t.xs c) = path a ++ [c])
  | pure (b : AhTable) (hcell : cell (t.xs c) = some (.bucket b)) (hb : BucketOk b)
      (hflag : b.flag = nodeTypePureBucket) (hc0 : b.c0 = c) (hc1 : b.c1 = c)
      (hpath : path (t.xs c) = path a ++ [c])
  | hybrid (b : AhTable) (hcell : cell (t.xs c) = some (.bucket b)) (hb : BucketOk b)
      (hflag : b.flag = nodeTypeHybridBucket) (hlo : b.c0 ≤ c) (hhi : c ≤ b.c1)
      (hlt : b.c0 < b.c1) (hkeys : KeysWithin b) (hpath : path (t.xs c) = path a)
      (hrange : ∀ d, b.c0 ≤ d → d ≤ b.c1 → t.xs d = t.xs c)

/-- The nodes are linked as a trie. -/
structure Ok (T : Trie) (path : Addr → Bytes) : Prop where
  fresh : ∀ a, T.next ≤ a → T.cell a = none
  root : ∃ t, T.cell T.root = some (.trie t)
  path_root : path T.root = []
  child : ∀ a t, T.cell a = some (.trie t) → ∀ c, Child T.cell path a t c
  inj : ∀ a a' t t', T.cell a = some (.trie t) → T.cell a' = some (.trie t') →
    path a = path a' → a = a'
  owned : ∀ a n, T.cell a = some n →
    a = T.root ∨ ∃ q t c, T.cell q = some (.trie t) ∧ t.xs c = a
  blank : ∀ a t, T.cell a = some (.trie t) → t.hasVal = false → t.val = 0

/-! ## Cells -/

section
variable {T : Trie} {a a' : Addr} {n : Option Node} {t : TrieNode} {b : AhTable}

@[simp] theorem cell_set_self (T : Trie) (a : Addr) (n : Option Node) : (T.set a n).cell a = n :=
  Function.update_self ..

theorem cell_set_of_ne (h : a' ≠ a) (n : Option Node) : (T.set a n).cell a' = T.cell a' :=
  Function.update_of_ne h ..

/-- `.t` of a pointer is there if it leads to a trie node. -/
theorem trieAt_eq_some : T.trieAt a = some t ↔ T.cell a = some (.trie t) := by
  unfold Trie.trieAt
  split
  · next heq => rw [heq]; simp
  · next hne =>
    refine iff_of_false nofun fun h => ?_
    exact hne t h

/-- `.b` of a pointer is there if it leads to a bucket. -/
theorem bucketAt_eq_some : T.bucketAt a = some b ↔ T.cell a = some (.bucket b) := by
  unfold Trie.bucketAt
  split
  · next heq => rw [heq]; simp
  · next hne =>
    refine iff_of_false nofun fun h => ?_
    exact hne b h

theorem isPure_iff_of_flag (h : b.flag = nodeTypePureBucket ∨ b.flag = nodeTypeHybridBucket) :
    b.isPure = true ↔ b.flag = nodeTypePureBucket := by
  unfold AhTable.isPure
  rcases h with h | h <;> rw [h] <;> decide

theorem isPure_of_pure (h : b.flag = nodeTypePureBucket) : b.isPure = true := by
  unfold AhTable.isPure
  rw [h]
  decide

theorem isPure_of_hybrid (h : b.flag = nodeTypeHybridBucket) : b.isPure = false := by
  unfold AhTable.isPure
  rw [h]
  decide

theorem isHybrid_of_hybrid (h : b.flag = nodeTypeHybridBucket) : b.isHybrid = true := by
  unfold AhTable.isHybrid
  rw [h]
  decide

end

/-! ## Places -/

/-- Where a key belongs. -/
inductive Place where
  | node (a : Addr)
  | bucket (a : Addr) (s : Bytes)
deriving DecidableEq

/-- The place of a key below a trie node. -/
def place (T : Trie) : Addr → Bytes → Option Place
  | a, [] => (T.trieAt a).map fun _ => .node a
  | a, c :: k => do
    let t ← T.trieAt a
    match ← T.cell (t.xs c) with
    | .trie _ => place T (t.xs c) k
    | .bucket b => some (.bucket (t.xs c) (if b.isPure then k else c :: k))

def valueAt (T : Trie) : Place → Option Value
  | .node a => (T.trieAt a).bind fun t => if t.hasVal then some t.val else none
  | .bucket a s => (T.bucketAt a).bind fun b => contents b s

/-- The value of a key below a trie node. -/
def denoteFrom (T : Trie) (a : Addr) (k : Bytes) : Option Value := (place T a k).bind (valueAt T)

/-- **What a trie holds.** -/
def denote (T : Trie) (k : Bytes) : Option Value := denoteFrom T T.root k

/-- The key that a place stands for. -/
def Place.label (path : Addr → Bytes) : Place → Bytes
  | .node a => path a
  | .bucket a s => path a ++ s

section
variable {T : Trie} {a : Addr} {t : TrieNode} {b : AhTable} {c : UInt8} {k : Bytes}

/-- A key that is used up at a trie node has its place there. -/
theorem place_nil (ht : T.cell a = some (.trie t)) : place T a [] = some (.node a) := by
  rw [place, trieAt_eq_some.mpr ht]
  rfl

/-- At a trie node with a trie node below it, the first byte is used up. -/
theorem place_trie {t' : TrieNode} (ht : T.cell a = some (.trie t))
    (ht' : T.cell (t.xs c) = some (.trie t')) : place T a (c :: k) = place T (t.xs c) k := by
  rw [place, trieAt_eq_some.mpr ht]
  simp only [Option.bind_eq_bind, Option.bind_some, ht']

/-- A pure bucket is entered without the byte that led to it, a hybrid one with it. -/
theorem place_bucket (ht : T.cell a = some (.trie t))
    (hb : T.cell (t.xs c) = some (.bucket b)) :
    place T a (c :: k) = some (.bucket (t.xs c) (if b.isPure then k else c :: k)) := by
  rw [place, trieAt_eq_some.mpr ht]
  simp only [Option.bind_eq_bind, Option.bind_some, hb]

theorem valueAt_node (ht : T.cell a = some (.trie t)) :
    valueAt T (.node a) = if t.hasVal then some t.val else none := by
  rw [valueAt, trieAt_eq_some.mpr ht]
  rfl

theorem valueAt_bucket (hb : T.cell a = some (.bucket b)) (s : Bytes) :
    valueAt T (.bucket a s) = contents b s := by
  rw [valueAt, bucketAt_eq_some.mpr hb]
  rfl

/-- The value of a key that is used up at a trie node. -/
theorem denoteFrom_nil (ht : T.cell a = some (.trie t)) :
    denoteFrom T a [] = if t.hasVal then some t.val else none := by
  rw [denoteFrom, place_nil ht]
  exact valueAt_node ht

/-- What is below a child that is a trie node. -/
theorem denoteFrom_trie {t' : TrieNode} (ht : T.cell a = some (.trie t))
    (ht' : T.cell (t.xs c) = some (.trie t')) :
    denoteFrom T a (c :: k) = denoteFrom T (t.xs c) k := by
  rw [denoteFrom, place_trie ht ht']
  rfl

/-- What is in a child that is a bucket. -/
theorem denoteFrom_bucket (ht : T.cell a = some (.trie t))
    (hb : T.cell (t.xs c) = some (.bucket b)) :
    denoteFrom T a (c :: k) = contents b (if b.isPure then k else c :: k) := by
  rw [denoteFrom, place_bucket ht hb]
  exact valueAt_bucket hb _

end

section
variable {T : Trie} {path : Addr → Bytes} {a : Addr} {t : TrieNode}

/-- A place of the trie. -/
inductive IsPlace (T : Trie) : Place → Prop where
  | node {a : Addr} {t : TrieNode} (ht : T.cell a = some (.trie t)) : IsPlace T (.node a)
  | bucket {a : Addr} {b : AhTable} {s : Bytes} (hb : T.cell a = some (.bucket b)) :
      IsPlace T (.bucket a s)

/-- **Every key has a place, from which it can be read off.** -/
theorem Ok.label_place (h : Ok T path) (ht : T.cell a = some (.trie t)) (k : Bytes) :
    ∃ p, place T a k = some p ∧ p.label path = path a ++ k ∧ IsPlace T p := by
  induction k generalizing a t with
  | nil => exact ⟨.node a, place_nil ht, by rw [Place.label, List.append_nil], .node ht⟩
  | cons c k ih =>
    cases h.child a t ht c with
    | trie t' hcell hpath =>
      obtain ⟨p, hp, hlabel, hplace⟩ := ih hcell
      refine ⟨p, (place_trie ht hcell).trans hp, ?_, hplace⟩
      rw [hlabel, hpath, List.append_assoc, List.singleton_append]
    | pure b hcell hb hflag hc0 hc1 hpath =>
      refine ⟨_, place_bucket ht hcell, ?_, .bucket hcell⟩
      rw [isPure_of_pure hflag, if_pos rfl, Place.label, hpath, List.append_assoc,
        List.singleton_append]
    | hybrid b hcell hb hflag hlo hhi hlt hkeys hpath hrange =>
      refine ⟨_, place_bucket ht hcell, ?_, .bucket hcell⟩
      rw [isPure_of_hybrid hflag, if_neg Bool.false_ne_true, Place.label, hpath]

/-- Different keys have different places. -/
theorem Ok.place_inj (h : Ok T path) {k k' : Bytes} {p : Place}
    (hk : place T T.root k = some p) (hk' : place T T.root k' = some p) : k = k' := by
  obtain ⟨t, ht⟩ := h.root
  obtain ⟨q, hq, hlabel, -⟩ := h.label_place ht k
  obtain ⟨q', hq', hlabel', -⟩ := h.label_place ht k'
  rw [hk] at hq
  rw [hk'] at hq'
  cases hq
  cases hq'
  rw [hlabel] at hlabel'
  exact List.append_cancel_left hlabel'

/-- **Every key has a place**, at a node that is there, and the place is labelled by the key. -/
theorem Ok.exists_place (h : Ok T path) (k : Bytes) :
    ∃ p, place T T.root k = some p ∧ p.label path = k ∧ IsPlace T p := by
  obtain ⟨t, ht⟩ := h.root
  obtain ⟨p, hp, hlabel, hplace⟩ := h.label_place ht k
  rw [h.path_root, List.nil_append] at hlabel
  exact ⟨p, hp, hlabel, hplace⟩

/-- Every pointer of a trie node leads to a node. -/
theorem Ok.exists_child (h : Ok T path) (ht : T.cell a = some (.trie t)) (c : UInt8) :
    ∃ n, T.cell (t.xs c) = some n := by
  cases h.child a t ht c with
  | trie t' hcell => exact ⟨_, hcell⟩
  | pure b hcell => exact ⟨_, hcell⟩
  | hybrid b hcell => exact ⟨_, hcell⟩

/-- Every bucket is some trie node's child. -/
theorem Ok.bucket (h : Ok T path) {b : AhTable} (hb : T.cell a = some (.bucket b)) :
    BucketOk b ∧ (b.flag = nodeTypeHybridBucket → KeysWithin b) := by
  rcases h.owned a _ hb with rfl | ⟨q, t, c, hq, rfl⟩
  · obtain ⟨t, ht⟩ := h.root
    rw [ht] at hb
    cases hb
  · cases h.child q t hq c with
    | trie t' hcell =>
      rw [hcell] at hb
      cases hb
    | pure b₀ hcell hok hflag =>
      rw [hcell] at hb
      cases hb
      refine ⟨hok, fun h => ?_⟩
      rw [hflag] at h
      cases h
    | hybrid b₀ hcell hok hflag _ _ _ hkeys =>
      rw [hcell] at hb
      cases hb
      exact ⟨hok, fun _ => hkeys⟩

end

/-! ## One node changes -/

/-- What the places of keys depend on. -/
def Node.shape : Node → (UInt8 → Addr) ⊕ Bool
  | .trie t => .inl t.xs
  | .bucket b => .inr b.isPure

/-- The nodes are linked in the same way. -/
def SameShape (T T' : Trie) : Prop :=
  T'.root = T.root ∧ ∀ a, (T'.cell a).map Node.shape = (T.cell a).map Node.shape

section
variable {T T' : Trie} {path : Addr → Bytes} {a : Addr} {t t' : TrieNode} {b b' : AhTable}

/-- A trie node is still one, with the same children. -/
theorem SameShape.trie (h : SameShape T T') (ht : T.cell a = some (.trie t)) :
    ∃ t', T'.cell a = some (.trie t') ∧ t'.xs = t.xs := by
  have hshape := h.2 a
  rw [ht] at hshape
  obtain ⟨n, hn, heq⟩ := Option.map_eq_some_iff.mp hshape
  cases n with
  | trie t' => exact ⟨t', hn, Sum.inl.inj heq⟩
  | bucket b => cases heq

/-- A bucket is still one of the same kind. -/
theorem SameShape.bucket (h : SameShape T T') (hb : T.cell a = some (.bucket b)) :
    ∃ b', T'.cell a = some (.bucket b') ∧ b'.isPure = b.isPure := by
  have hshape := h.2 a
  rw [hb] at hshape
  obtain ⟨n, hn, heq⟩ := Option.map_eq_some_iff.mp hshape
  cases n with
  | trie t => cases heq
  | bucket b' => exact ⟨b', hn, Sum.inr.inj heq⟩

theorem SameShape.symm (h : SameShape T T') : SameShape T' T :=
  ⟨h.1.symm, fun a => (h.2 a).symm⟩

theorem SameShape.trans {T'' : Trie} (h : SameShape T T') (h' : SameShape T' T'') :
    SameShape T T'' :=
  ⟨h'.1.trans h.1, fun a => (h'.2 a).trans (h.2 a)⟩

/-- The number of keys is apart from the nodes. -/
theorem SameShape.withM (h : SameShape T T') (m : Nat) : SameShape T { T' with m := m } :=
  ⟨h.1, h.2⟩

/-- The count of keys is not looked at. -/
theorem Ok.withM (h : Ok T path) (m : Nat) : Ok { T with m := m } path :=
  ⟨h.fresh, h.root, h.path_root, h.child, h.inj, h.owned, h.blank⟩

/-- A key keeps its place as long as nodes keep their kinds and their children. -/
theorem SameShape.place (hT : Ok T path) (h : SameShape T T') (ht : T.cell a = some (.trie t))
    (k : Bytes) : place T' a k = place T a k := by
  induction k generalizing a t with
  | nil =>
    obtain ⟨t', ht', -⟩ := h.trie ht
    rw [place_nil ht, place_nil ht']
  | cons c k ih =>
    obtain ⟨t', ht', hxs⟩ := h.trie ht
    have hbucket : ∀ b, T.cell (t.xs c) = some (.bucket b) →
        HatTrie.place T' a (c :: k) = HatTrie.place T a (c :: k) := by
      intro b hb
      obtain ⟨b', hb', hpure⟩ := h.bucket hb
      rw [place_bucket ht hb, place_bucket ht' (by rw [hxs]; exact hb'), hpure, hxs]
    cases hT.child a t ht c with
    | trie s hcell hpath =>
      obtain ⟨s', hs', -⟩ := h.trie hcell
      rw [place_trie ht hcell, place_trie ht' (by rw [hxs]; exact hs'), hxs]
      exact ih hcell
    | pure b hcell => exact hbucket b hcell
    | hybrid b hcell => exact hbucket b hcell

/-- Keys have the same place in tries of one shape. -/
theorem SameShape.place_root (hT : Ok T path) (h : SameShape T T') (k : Bytes) :
    HatTrie.place T' T'.root k = HatTrie.place T T.root k := by
  obtain ⟨t, ht⟩ := hT.root
  rw [h.1]
  exact h.place hT ht k

/-- Writing a node of the same shape. -/
theorem sameShape_set {n n' : Node} (hn : T.cell a = some n) (hshape : n'.shape = n.shape) :
    SameShape T (T.set a (some n')) := by
  refine ⟨rfl, fun a' => ?_⟩
  by_cases ha : a' = a
  · subst ha
    rw [cell_set_self, hn, Option.map_some, Option.map_some, hshape]
  · rw [cell_set_of_ne ha]

/-- A bucket may be replaced by one for the same range. -/
theorem Ok.setBucket (h : Ok T path) (hb : T.cell a = some (.bucket b)) (hb' : BucketOk b')
    (hrange : SameRange b b') (hkeys : b.flag = nodeTypeHybridBucket → KeysWithin b') :
    Ok (T.set a (some (.bucket b'))) path := by
  have htrie : ∀ a' t, (T.set a (some (.bucket b'))).cell a' = some (.trie t) ↔
      T.cell a' = some (.trie t) := by
    intro a' t
    by_cases ha : a' = a
    · subst ha
      rw [cell_set_self, hb]
      exact iff_of_false nofun nofun
    · rw [cell_set_of_ne ha]
  obtain ⟨hflag, hc0, hc1⟩ := hrange
  refine ⟨?_, ?_, h.path_root, ?_, ?_, ?_, ?_⟩
  · intro a' ha'
    have hne : a' ≠ a := by
      rintro rfl
      rw [h.fresh a' ha'] at hb
      cases hb
    rw [cell_set_of_ne hne]
    exact h.fresh a' ha'
  · obtain ⟨t, ht⟩ := h.root
    exact ⟨t, (htrie _ _).mpr ht⟩
  · intro a' t ht c
    -- the pointer leads where it did, at most to the new bucket
    have hcell : ∀ b₀, T.cell (t.xs c) = some (.bucket b₀) →
        t.xs c = a ∧ b₀ = b ∧ (T.set a (some (.bucket b'))).cell (t.xs c) = some (.bucket b') ∨
        (T.set a (some (.bucket b'))).cell (t.xs c) = some (.bucket b₀) := by
      intro b₀ hb₀
      by_cases hx : t.xs c = a
      · rw [hx, hb] at hb₀
        cases hb₀
        exact .inl ⟨hx, rfl, by rw [hx, cell_set_self]⟩
      · exact .inr (by rw [cell_set_of_ne hx]; exact hb₀)
    cases h.child a' t ((htrie a' t).mp ht) c with
    | trie t' ht' hpath => exact .trie t' ((htrie _ _).mpr ht') hpath
    | pure b₀ hb₀ hok hf h0 h1 hpath =>
      rcases hcell b₀ hb₀ with ⟨-, rfl, hnew⟩ | hsame
      · exact .pure b' hnew hb' (hflag.trans hf) (hc0.trans h0) (hc1.trans h1) hpath
      · exact .pure b₀ hsame hok hf h0 h1 hpath
    | hybrid b₀ hb₀ hok hf hlo hhi hlt hk hpath hr =>
      rcases hcell b₀ hb₀ with ⟨-, rfl, hnew⟩ | hsame
      · refine .hybrid b' hnew hb' (hflag.trans hf) ?_ ?_ ?_ (hkeys hf) hpath ?_
        · rw [hc0]
          exact hlo
        · rw [hc1]
          exact hhi
        · rw [hc0, hc1]
          exact hlt
        · rw [hc0, hc1]
          exact hr
      · exact .hybrid b₀ hsame hok hf hlo hhi hlt hk hpath hr
  · intro a₁ a₂ t₁ t₂ h₁ h₂
    exact h.inj a₁ a₂ t₁ t₂ ((htrie _ _).mp h₁) ((htrie _ _).mp h₂)
  · intro a' n hn
    have hold : ∃ n, T.cell a' = some n := by
      by_cases ha : a' = a
      · exact ⟨_, ha ▸ hb⟩
      · rw [cell_set_of_ne ha] at hn
        exact ⟨n, hn⟩
    obtain ⟨n', hn'⟩ := hold
    rcases h.owned a' n' hn' with hroot | ⟨q, t, c, hq, hx⟩
    · exact .inl hroot
    · exact .inr ⟨q, t, c, (htrie _ _).mpr hq, hx⟩
  · intro a' t ht
    exact h.blank a' t ((htrie _ _).mp ht)

/-- The value of a trie node may be replaced. -/
theorem Ok.setVal (h : Ok T path) (ht : T.cell a = some (.trie t)) (hasVal : Bool) (val : Value)
    (hblank : hasVal = false → val = 0) :
    Ok (T.set a (some (.trie ⟨hasVal, val, t.xs⟩))) path := by
  have hshape : SameShape T (T.set a (some (.trie ⟨hasVal, val, t.xs⟩))) := sameShape_set ht rfl
  have hbucket : ∀ a' b, T.cell a' = some (.bucket b) →
      (T.set a (some (.trie ⟨hasVal, val, t.xs⟩))).cell a' = some (.bucket b) := by
    intro a' b hb
    have hne : a' ≠ a := by
      rintro rfl
      rw [ht] at hb
      cases hb
    rw [cell_set_of_ne hne]
    exact hb
  refine ⟨?_, ?_, h.path_root, ?_, ?_, ?_, ?_⟩
  · intro a' ha'
    have hne : a' ≠ a := by
      rintro rfl
      rw [h.fresh a' ha'] at ht
      cases ht
    rw [cell_set_of_ne hne]
    exact h.fresh a' ha'
  · obtain ⟨t₀, ht₀⟩ := h.root
    obtain ⟨t', ht', -⟩ := hshape.trie ht₀
    exact ⟨t', ht'⟩
  · intro a' t' ht' c
    obtain ⟨t₀, ht₀, hxs⟩ := hshape.symm.trie ht'
    have hchild := h.child a' t₀ ht₀ c
    have hx : ∀ d, t'.xs d = t₀.xs d := fun d => congrFun hxs.symm d
    -- the children are the same pointers, to nodes that are as they were
    cases hchild with
    | trie s hs hpath =>
      obtain ⟨s', hs', -⟩ := hshape.trie hs
      exact .trie s' (by rw [hx]; exact hs') (by rw [hx]; exact hpath)
    | pure b hb hok hf h0 h1 hpath =>
      exact .pure b (by rw [hx]; exact hbucket _ _ hb) hok hf h0 h1 (by rw [hx]; exact hpath)
    | hybrid b hb hok hf hlo hhi hlt hk hpath hr =>
      exact .hybrid b (by rw [hx]; exact hbucket _ _ hb) hok hf hlo hhi hlt hk
        (by rw [hx]; exact hpath) (fun d hd hd' => by rw [hx, hx]; exact hr d hd hd')
  · intro a₁ a₂ t₁ t₂ h₁ h₂
    obtain ⟨s₁, hs₁, -⟩ := hshape.symm.trie h₁
    obtain ⟨s₂, hs₂, -⟩ := hshape.symm.trie h₂
    exact h.inj a₁ a₂ s₁ s₂ hs₁ hs₂
  · intro a' n hn
    have hold : ∃ n, T.cell a' = some n := by
      by_cases ha : a' = a
      · exact ⟨_, ha ▸ ht⟩
      · rw [cell_set_of_ne ha] at hn
        exact ⟨n, hn⟩
    obtain ⟨n', hn'⟩ := hold
    rcases h.owned a' n' hn' with hroot | ⟨q, s, c, hq, hx⟩
    · exact .inl hroot
    · obtain ⟨s', hs', hxs⟩ := hshape.trie hq
      exact .inr ⟨q, s', c, hs', by rw [hxs]; exact hx⟩
  · -- only the node at `a` has another value, and that one is blank if it is not set
    intro a' t' ht' hfalse
    by_cases ha : a' = a
    · subst ha
      rw [cell_set_self] at ht'
      cases ht'
      exact hblank hfalse
    · rw [cell_set_of_ne ha] at ht'
      exact h.blank a' t' ht' hfalse

end

end Ayubd.HatTrie
