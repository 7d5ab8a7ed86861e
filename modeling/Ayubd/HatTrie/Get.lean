import Ayubd.HatTrie.SplitPure

/-!
# Ayubd — inserting into a hat-trie

`hattrie_get` walks down to the bucket of a key, splits it as long as it is full, and leaves the key
in the bucket or in the trie node that it ends at. `hattrieGet_spec` says that it ends, and that it
finds the key or adds it with the value 0.

There is one condition. When a key ends at a trie node, `hattrie_consume` has gone on to the pointer
for the byte *behind* the key, and `hattrie_get` looks at what that pointer leads to. It takes the
value of the right node only if this is a hybrid bucket (`Clean`). A key that no other key extends
never ends at a trie node, which is why a store whose keys are not prefixes of each other, such as C
strings with their NUL, never comes to that.
-/

namespace Ayubd.HatTrie

section
variable {T T' T₀ : Trie} {path path' path₀ : Addr → Bytes} {a x P : Addr} {t p : TrieNode}
  {b : AhTable} {c : UInt8} {k key : Bytes} {past : UInt8}

/-! ## A new trie -/

def firstBucket : AhTable :=
  { ahtableCreate with flag := nodeTypeHybridBucket, c0 := 0x00, c1 := nodeMaxchar }

theorem represents_firstBucket : Represents firstBucket fun _ => none :=
  (represents_create (n := ahtableInitialSize) (by decide)).setRange nodeTypeHybridBucket 0x00
    nodeMaxchar

theorem newRoot_root (T : Trie) :
    (newRoot T).cell (T.next + 1) = some (.trie (newTrieNode T.next)) := Function.update_self ..

theorem newRoot_bucket (T : Trie) : (newRoot T).cell T.next = some (.bucket firstBucket) :=
  (Function.update_of_ne (Nat.ne_of_lt (Nat.lt_succ_self _)) ..).trans (Function.update_self ..)

/-- A new root over an empty bucket denotes the empty map. -/
theorem denote_newRoot (T : Trie) : denote (newRoot T) = fun _ => none := by
  funext k
  cases k with
  | nil => exact denoteFrom_nil (newRoot_root T)
  | cons c k =>
    exact (denoteFrom_bucket (newRoot_root T) (newRoot_bucket T)).trans
      (congrFun represents_firstBucket.contents_eq _)

section
variable (hempty : ∀ a, T.cell a = none)
include hempty

theorem newRoot_cases {n : Node} (hn : (newRoot T).cell a = some n) :
    a = T.next ∧ n = .bucket firstBucket ∨ a = T.next + 1 ∧ n = .trie (newTrieNode T.next) := by
  have hcell : (newRoot T).cell = Function.update (Function.update T.cell T.next
      (some (.bucket firstBucket))) (T.next + 1) (some (.trie (newTrieNode T.next))) := rfl
  rw [hcell] at hn
  by_cases hr : a = T.next + 1
  · rw [hr, Function.update_self] at hn
    exact .inr ⟨hr, (Option.some.inj hn).symm⟩
  · rw [Function.update_of_ne hr] at hn
    by_cases hb : a = T.next
    · rw [hb, Function.update_self] at hn
      exact .inl ⟨hb, (Option.some.inj hn).symm⟩
    · rw [Function.update_of_ne hb, hempty] at hn
      cases hn

theorem newRoot_trie (ht : (newRoot T).cell a = some (.trie t)) :
    a = T.next + 1 ∧ t = newTrieNode T.next := by
  rcases newRoot_cases hempty ht with ⟨-, hn⟩ | ⟨ha, hn⟩
  · cases hn
  · cases hn
    exact ⟨ha, rfl⟩

/-- **A new trie.** -/
theorem ok_newRoot : Ok (newRoot T) fun _ => [] := by
  have hcontents := represents_firstBucket.contents_eq
  refine ⟨?_, ⟨_, newRoot_root T⟩, rfl, ?_, ?_, ?_, ?_⟩
  · intro a ha
    have hnext : (newRoot T).next = T.next + 2 := rfl
    rw [hnext] at ha
    cases hn : (newRoot T).cell a with
    | none => rfl
    | some n =>
      rcases newRoot_cases hempty hn with ⟨rfl, -⟩ | ⟨rfl, -⟩
      · exact absurd ha (Nat.not_le.mpr (Nat.lt_add_of_pos_right (by decide)))
      · exact absurd ha (Nat.not_le.mpr (Nat.lt_succ_self _))
  · intro a t ht c
    obtain ⟨rfl, rfl⟩ := newRoot_trie hempty ht
    -- all 256 pointers lead to the one bucket, whose range is all characters
    refine .hybrid firstBucket (newRoot_bucket T)
      ⟨hcontents ▸ represents_firstBucket, Nat.zero_le _⟩ rfl
      (UInt8.le_iff_toNat_le.mpr (Nat.zero_le _)) ?_ (by decide) ?_ rfl fun _ _ _ => rfl
    · rw [UInt8.le_iff_toNat_le]
      exact Nat.le_of_lt_succ c.toNat_lt
    · intro s v hs
      rw [hcontents] at hs
      cases hs
  · intro a a' t t' ht ht' _
    exact (newRoot_trie hempty ht).1.trans (newRoot_trie hempty ht').1.symm
  · intro a n hn
    rcases newRoot_cases hempty hn with ⟨rfl, -⟩ | ⟨rfl, -⟩
    · exact .inr ⟨T.next + 1, _, 0, newRoot_root T, rfl⟩
    · exact .inl rfl
  · intro a t ht _
    rw [(newRoot_trie hempty ht).2]
    rfl

end

/-- **`hattrie_create`.** -/
theorem ok_create : Ok hattrieCreate fun _ => [] := ok_newRoot fun _ => rfl

theorem denote_create : denote hattrieCreate = fun _ => none := denote_newRoot _

/-! ## The whole key -/

/-- A trie node is where its path leads. -/
theorem Ok.place_path (h : Ok T path) (ht : T.cell a = some (.trie t)) (k : Bytes) :
    place T T.root (path a ++ k) = place T a k := by
  generalize hn : (path a).length = n
  -- induction on the depth of the node
  induction n generalizing a t k with
  | zero =>
    rcases h.owned a _ ht with rfl | ⟨q, s, c, hq, rfl⟩
    · rw [h.path_root, List.nil_append]
    · cases h.child q s hq c with
      | trie t' _ hpath =>
        rw [hpath, List.length_append, List.length_singleton] at hn
        omega
      | pure b₀ hcell =>
        rw [hcell] at ht
        cases ht
      | hybrid b₀ hcell =>
        rw [hcell] at ht
        cases ht
  | succ n ih =>
    rcases h.owned a _ ht with rfl | ⟨q, s, c, hq, rfl⟩
    · rw [h.path_root] at hn
      cases hn
    · cases h.child q s hq c with
      | trie t' _ hpath =>
        rw [hpath, List.length_append, List.length_singleton] at hn
        rw [hpath, List.append_assoc, List.singleton_append, ih hq (c :: k) (by omega)]
        exact place_trie hq ht
      | pure b₀ hcell =>
        rw [hcell] at ht
        cases ht
      | hybrid b₀ hcell =>
        rw [hcell] at ht
        cases ht

/-- What `hattrie_consume` has done when it was to consume the whole key: the parent, the rest of
the key, and the node the next byte leads to, which is a bucket unless the key is consumed. -/
structure Consumed (T : Trie) (path : Addr → Bytes) (past : UInt8) (key : Bytes) (p : Addr)
    (k : Bytes) (x : Addr) (t : TrieNode) : Prop where
  parent : T.cell p = some (.trie t)
  node : x = t.xs (k.headD past)
  key : path p ++ k = key
  bucket : k ≠ [] → ∃ b, T.cell x = some (.bucket b)

/-- At the end of the key the descent stops in front of the child. -/
theorem consume_nil (h : Ok T path) (ht : T.cell a = some (.trie t)) :
    hattrieConsume T 0 past a [] = some (a, [], t.xs past) := by
  obtain ⟨n, hn⟩ := h.exists_child ht past
  rw [hattrieConsume, trieAt_eq_some.mpr ht]
  simp only [Option.bind_eq_bind, Option.bind_some, hn]

/-- The descent stops at a bucket. -/
theorem consume_bucket (ht : T.cell a = some (.trie t))
    (hb : T.cell (t.xs c) = some (.bucket b)) :
    hattrieConsume T 0 past a (c :: k) = some (a, c :: k, t.xs c) := by
  rw [hattrieConsume, trieAt_eq_some.mpr ht]
  simp only [Option.bind_eq_bind, Option.bind_some, hb]

/-- The descent goes on below a trie node. -/
theorem consume_trie {t' : TrieNode} (ht : T.cell a = some (.trie t))
    (ht' : T.cell (t.xs c) = some (.trie t')) :
    hattrieConsume T 0 past a (c :: k) = hattrieConsume T 0 past (t.xs c) k := by
  rw [hattrieConsume, trieAt_eq_some.mpr ht]
  simp only [Option.bind_eq_bind, Option.bind_some, ht']
  rw [if_pos (by simp)]

/-- **`hattrie_consume`** of the whole key. -/
theorem consume_all (h : Ok T path) (past : UInt8) (ht : T.cell a = some (.trie t)) (k : Bytes) :
    ∃ p k' x t', hattrieConsume T 0 past a k = some (p, k', x) ∧
      Consumed T path past (path a ++ k) p k' x t' ∧ k'.length ≤ k.length := by
  induction k generalizing a t with
  | nil =>
    exact ⟨a, [], t.xs past, t, consume_nil h ht, ⟨ht, rfl, rfl, fun h => absurd rfl h⟩,
      Nat.le_refl _⟩
  | cons c k ih =>
    have hbucket : ∀ b, T.cell (t.xs c) = some (.bucket b) →
        ∃ p k' x t', hattrieConsume T 0 past a (c :: k) = some (p, k', x) ∧
          Consumed T path past (path a ++ c :: k) p k' x t' ∧ k'.length ≤ (c :: k).length := by
      intro b hb
      exact ⟨a, c :: k, t.xs c, t, consume_bucket ht hb, ⟨ht, rfl, rfl, fun _ => ⟨b, hb⟩⟩,
        Nat.le_refl _⟩
    cases h.child a t ht c with
    | trie t' hcell hpath =>
      obtain ⟨p, k', x, t'', hconsume, hdone, hlen⟩ := ih hcell
      rw [hpath, List.append_assoc, List.singleton_append] at hdone
      exact ⟨p, k', x, t'', (consume_trie ht hcell).trans hconsume, hdone,
        Nat.le_succ_of_le hlen⟩
    | pure b hcell => exact hbucket b hcell
    | hybrid b hcell => exact hbucket b hcell

/-! ## The result -/

/-- A key that ends at a trie node has a hybrid bucket behind it. -/
def Clean (T : Trie) (past : UInt8) (key : Bytes) : Prop :=
  ∀ a t, place T T.root key = some (.node a) → T.cell a = some (.trie t) →
    ∃ b, T.cell (t.xs past) = some (.bucket b) ∧ b.flag = nodeTypeHybridBucket

/-- Every trie node is an old one, or above a key. -/
def TriesAbove (T T' : Trie) (path path' : Addr → Bytes) : Prop :=
  ∀ a t, T'.cell a = some (.trie t) →
    ((∃ t₀, T.cell a = some (.trie t₀)) ∧ path' a = path a) ∨
      ∃ s, s ≠ [] ∧ denote T (path' a ++ s) ≠ none

/-- The key has been found or added with the value 0. -/
structure Found (T T' : Trie) (path path' : Addr → Bytes) (key : Bytes) (r : Ref) : Prop where
  ok : Ok T' path'
  root : T'.root = T.root
  refers : Refers T' key r
  denote : denote T' = Function.update (denote T) key (some ((denote T key).getD 0))
  m : T'.m = T.m + if HatTrie.denote T key = none then 1 else 0
  tries : TriesAbove T T' path path'

/-- `hattrie_useval` of the trie node that a key ends at. -/
theorem hattrieUseval_spec (h : Ok T path) (hkey : place T T.root key = some (.node a))
    (ht : T.cell a = some (.trie t)) :
    ∃ T', hattrieUseval T a = some (T', .node a) ∧ Found T T' path path key (.node a) := by
  have hdenote := denote_node hkey ht
  unfold hattrieUseval
  cases hval : t.hasVal with
  -- the value is there already
  | true =>
    rw [hval, if_pos rfl] at hdenote
    refine ⟨T, ?_, h, rfl, .node hkey ht hval, ?_, ?_, fun a t ht => .inl ⟨⟨t, ht⟩, rfl⟩⟩
    · simp only [trieAt_eq_some.mpr ht, Option.bind_eq_bind, Option.bind_some, hval, if_true]
    · rw [hdenote, Option.getD_some, ← hdenote, Function.update_eq_self]
    · rw [hdenote]
      rfl
  -- the node is marked as a key, with the value 0 that it has had all along
  | false =>
    rw [hval, if_neg Bool.false_ne_true] at hdenote
    have hzero : t.val = 0 := h.blank a t ht hval
    have hset : SameShape T (T.set a (some (.trie ⟨true, t.val, t.xs⟩))) := sameShape_set ht rfl
    have hshape := hset.withM (T.m + 1)
    have hcell : (T.set a (some (.trie ⟨true, t.val, t.xs⟩))).cell a =
        some (.trie ⟨true, t.val, t.xs⟩) := cell_set_self _ _ _
    refine ⟨{ T.set a (some (.trie ⟨true, t.val, t.xs⟩)) with m := T.m + 1 }, ?_,
      (h.setVal ht true t.val (by simp)).withM _, rfl, ?_, ?_, ?_, ?_⟩
    · simp only [trieAt_eq_some.mpr ht, Option.bind_eq_bind, Option.bind_some, hval,
        Bool.false_eq_true, if_false]
    · refine .node ?_ hcell rfl
      rw [hshape.place_root h]
      exact hkey
    · rw [hdenote, Option.getD_none, ← hzero]
      exact denote_node_update h hshape hkey hcell (fun a' ha' => cell_set_of_ne ha' _) rfl
    · rw [hdenote]
      rfl
    · intro a' t' ht'
      obtain ⟨t₀, ht₀, -⟩ := hshape.symm.trie ht'
      exact .inl ⟨⟨t₀, ht₀⟩, rfl⟩

/-- The key is found in its bucket or added to it. -/
theorem insert_spec {s : Bytes} (h : Ok T path) (hkey : place T T.root key = some (.bucket x s))
    (hb : T.cell x = some (.bucket b)) (hlen : s.length ≤ maxKey) (hroom : b.m < maxBucketSize)
    (hkeys : b.flag = nodeTypeHybridBucket → ∃ c k, s = c :: k ∧ b.c0 ≤ c ∧ c ≤ b.c1) :
    ∃ b' l, ahtableGet b s = some (b', l) ∧
      Found T { T.set x (some (.bucket b')) with m := T.m + (b'.m - b.m) } path path key
        (.slot x l) := by
  obtain ⟨hok, hwithin⟩ := h.bucket hb
  obtain ⟨b', l, hget, hpoints, hm, hrange⟩ := hok.rep.get hlen
  have hcontents := hpoints.represents.contents_eq
  have hdenote := denote_bucket hkey hb
  have hshape : SameShape T { T.set x (some (.bucket b')) with m := T.m + (b'.m - b.m) } := by
    refine (sameShape_set hb ?_).withM _
    show Sum.inr b'.isPure = Sum.inr b.isPure
    rw [AhTable.isPure, AhTable.isPure, hrange.1]
  have hcell : (T.set x (some (.bucket b'))).cell x = some (.bucket b') := cell_set_self _ _ _
  -- the bucket has one key more, which is in its range
  have hok' : Ok (T.set x (some (.bucket b'))) path := by
    refine h.setBucket hb ⟨hcontents ▸ hpoints.represents, ?_⟩ hrange fun hflag k v hk => ?_
    · rw [hm]
      split <;> omega
    · rw [hcontents] at hk
      rw [hrange.2.1, hrange.2.2]
      by_cases hks : k = s
      · rw [hks]
        exact hkeys hflag
      · rw [Function.update_of_ne hks] at hk
        exact hwithin hflag k v hk
  refine ⟨b', l, hget, hok'.withM _, rfl, ?_, ?_, ?_, ?_⟩
  · refine .slot (s := s) ?_ hcell ?_
    · rw [hshape.place_root h]
      exact hkey
    · rw [hcontents]
      exact hpoints
  · rw [hdenote]
    exact denote_bucket_update h hshape hkey hb hcell (fun a' ha' => cell_set_of_ne ha' _) hcontents
  · rw [hdenote, hm, Nat.add_sub_cancel_left]
  · intro a' t' ht'
    obtain ⟨t₀, ht₀, -⟩ := hshape.symm.trie ht'
    exact .inl ⟨⟨t₀, ht₀⟩, rfl⟩

/-! ## The loop -/

/-- What splits may have done before the key is found. -/
structure Grown (T₀ T : Trie) (path₀ path : Addr → Bytes) : Prop where
  ok : Ok T path
  root : T.root = T₀.root
  m : T.m = T₀.m
  denote : HatTrie.denote T = HatTrie.denote T₀
  tries : TriesAbove T₀ T path₀ path

theorem Grown.refl (h : Ok T path) : Grown T T path path :=
  ⟨h, rfl, rfl, rfl, fun _ t ht => .inl ⟨⟨t, ht⟩, rfl⟩⟩

theorem TriesAbove.trans (h : TriesAbove T₀ T path₀ path) (h' : TriesAbove T T' path path')
    (hdenote : denote T = denote T₀) : TriesAbove T₀ T' path₀ path' := by
  intro a t ht
  rcases h' a t ht with ⟨⟨t₁, ht₁⟩, hpath⟩ | ⟨s, hs, hne⟩
  · rw [hpath]
    exact h a t₁ ht₁
  · rw [hdenote] at hne
    exact .inr ⟨s, hs, hne⟩

/-- What is found after the trie has grown is found in the whole step. -/
theorem Found.after (hg : Grown T₀ T path₀ path) {r : Ref}
    (h : Found T T' path path' key r) : Found T₀ T' path₀ path' key r where
  ok := h.ok
  root := h.root.trans hg.root
  refers := h.refers
  denote := by rw [h.denote, hg.denote]
  m := by rw [h.m, hg.m, hg.denote]
  tries := hg.tries.trans h.tries hg.denote

/-- A bucket with two keys holds one that is not empty. -/
theorem BucketOk.exists_key (hb : BucketOk b) (hm : 2 ≤ b.m) :
    ∃ s, s ≠ [] ∧ contents b s ≠ none := by
  obtain ⟨es, -, hnodup, hes, hlen, -⟩ := hb.rep.iterate
  have hholds : ∀ e ∈ es, contents b e.1 ≠ none := by
    intro e he
    rw [(hes e.1 e.2).mpr he]
    exact Option.some_ne_none _
  match es, hlen, hnodup, hholds with
  | e₁ :: e₂ :: es, _, hnodup, hholds =>
    by_cases h : e₁.1 = []
    · refine ⟨e₂.1, fun h₂ => ?_, hholds e₂ (by simp)⟩
      simp only [List.map_cons, List.nodup_cons, h, h₂] at hnodup
      exact hnodup.1 List.mem_cons_self
    · exact ⟨e₁.1, h, hholds e₁ (by simp)⟩
  | [], hlen, _, _ => simp at hlen; omega
  | [_], hlen, _, _ => simp at hlen; omega

/-- A split of a full bucket. -/
theorem split_grown (h : Ok T path) (hp : T.cell P = some (.trie p))
    (hb : T.cell (p.xs c) = some (.bucket b)) (hfull : maxBucketSize ≤ b.m) :
    ∃ T' path', hattrieSplit T P (p.xs c) = some T' ∧ Grown T T' path path' ∧
      path' P = path P ∧ Closer T' P c b := by
  obtain ⟨T', path', hsplit, hs, hnew, hcloser⟩ := hattrieSplit_spec h hp hb
  refine ⟨T', path', hsplit, ⟨hs.ok, hs.root, hs.m, hs.denote_eq h, fun a t ht => ?_⟩,
    (hs.keeps P p hp).2, hcloser⟩
  rcases hnew a t ht with ⟨t₀, ht₀⟩ | ⟨hflag, hpath⟩
  · exact .inl ⟨⟨t₀, ht₀⟩, (hs.keeps a t₀ ht₀).2⟩
  · -- the new trie node is above the keys of the bucket
    obtain ⟨s, hs, hne⟩ := (h.bucket hb).1.exists_key (Nat.le_trans (by decide) hfull)
    refine .inr ⟨s, hs, ?_⟩
    have hplace : place T T.root (path P ++ c :: s) = some (.bucket (p.xs c) s) := by
      rw [h.place_path hp, place_bucket hp hb, isPure_of_pure hflag, if_pos rfl]
    rw [hpath, (h.parent_pure hb hflag hp rfl).1, List.append_assoc, List.singleton_append,
      denote_bucket hplace hb]
    exact hne

/-- The states of the loop of `hattrie_get`. -/
structure Seeking (T₀ : Trie) (path₀ : Addr → Bytes) (past : UInt8) (key : Bytes) (T : Trie)
    (P : Addr) (k : Bytes) (x : Addr) : Prop where
  exists_path : ∃ path t, Grown T₀ T path₀ path ∧ Consumed T path past key P k x t
  hybrid : k = [] → ∃ b, T.cell x = some (.bucket b) ∧ b.flag = nodeTypeHybridBucket

/-- A split takes a character from the key or narrows the range of its bucket. -/
def seekBound (T : Trie) (k : Bytes) (x : Addr) : Nat :=
  k.length * 256 + match T.bucketAt x with
    | some b => b.c1.toNat - b.c0.toNat
    | none => 0

/-- The bound counts the rest of the key and the range of the bucket. -/
theorem seekBound_bucket (hb : T.cell x = some (.bucket b)) (k : Bytes) :
    seekBound T k x = k.length * 256 + (b.c1.toNat - b.c0.toNat) := by
  unfold seekBound
  rw [bucketAt_eq_some.mpr hb]

/-- The bound is below the fuel of `hattrie_get`. -/
theorem seekBound_lt (T : Trie) (k : Bytes) (x : Addr) :
    seekBound T k x < (k.length + 1) * 256 := by
  unfold seekBound
  split
  · next b _ =>
    have hlt := Nat.lt_of_le_of_lt (Nat.sub_le b.c1.toNat b.c0.toNat) b.c1.toNat_lt
    omega
  · omega

/-! The branches of the body. -/

/-- A key which ends above a hybrid bucket has its value in the trie node. -/
theorem getBody_ended (hb : T.cell x = some (.bucket b)) (hflag : b.flag = nodeTypeHybridBucket) :
    getBody past (T, P, [], x) = (hattrieUseval T P).map .inr := by
  simp only [getBody, hb, isHybrid_of_hybrid hflag, and_self, if_true]

/-- A full bucket is split before the key goes in. -/
theorem getBody_full (hb : T.cell x = some (.bucket b)) (hfull : maxBucketSize ≤ b.m) :
    getBody past (T, P, c :: k, x) = (do
      let T ← hattrieSplit T P x
      let st ← hattrieConsume T 0 past P (c :: k)
      some (.inl (T, st))) := by
  have hfull' : maxBucketSize ≤ ahtableSize b := hfull
  simp only [getBody, hb, List.cons_ne_nil, false_and, if_false, if_pos hfull']

/-- A bucket with room takes the key. -/
theorem getBody_room (hb : T.cell x = some (.bucket b)) (hroom : b.m < maxBucketSize) :
    getBody past (T, P, c :: k, x) = (do
      let (b', l) ← ahtableGet b (if b.isPure then k else c :: k)
      some (.inr ({ T.set x (some (.bucket b')) with m := T.m + (b'.m - b.m) }, .slot x l))) := by
  have hroom' : ¬ maxBucketSize ≤ ahtableSize b := Nat.not_le.mpr hroom
  simp only [getBody, hb, List.cons_ne_nil, false_and, if_false, if_neg hroom']

/-- `hattrie_consume` once more, after a split. -/
theorem seeking_of_consume (past : UInt8) (hg : Grown T₀ T path₀ path) (hp : T.cell P = some (.trie p))
    (hkey : path P ++ c :: k = key)
    (hclose : (∃ b, T.cell (p.xs c) = some (.bucket b)) ∨
      ∃ t, T.cell (p.xs c) = some (.trie t) ∧
        ∀ d, ∃ b, T.cell (t.xs d) = some (.bucket b) ∧ b.flag = nodeTypeHybridBucket) :
    ∃ P' k' x, hattrieConsume T 0 past P (c :: k) = some (P', k', x) ∧
      Seeking T₀ path₀ past key T P' k' x ∧ (k' = c :: k ∧ x = p.xs c ∨ k' = k) := by
  -- `hattrie_consume` stops at once, or goes one node down
  rcases hclose with ⟨b, hb⟩ | ⟨t, ht, hbelow⟩
  · exact ⟨P, c :: k, p.xs c, consume_bucket hp hb,
      ⟨⟨path, p, hg, ⟨hp, rfl, hkey, fun _ => ⟨b, hb⟩⟩⟩, fun h => absurd h (List.cons_ne_nil c k)⟩,
      .inl ⟨rfl, rfl⟩⟩
  · have hpath : path (p.xs c) = path P ++ [c] := by
      cases hg.ok.child P p hp c with
      | trie t' _ hpath => exact hpath
      | pure b₀ hcell =>
        rw [hcell] at ht
        cases ht
      | hybrid b₀ hcell =>
        rw [hcell] at ht
        cases ht
    have hkey' : path (p.xs c) ++ k = key := by
      rw [hpath, List.append_assoc, List.singleton_append, hkey]
    refine ⟨p.xs c, k, t.xs (k.headD past), ?_, ⟨⟨path, t, hg, ⟨ht, rfl, hkey', ?_⟩⟩, ?_⟩, .inr rfl⟩
    · rw [consume_trie hp ht]
      cases k with
      | nil => exact consume_nil hg.ok ht
      | cons d k =>
        obtain ⟨b, hb, -⟩ := hbelow d
        exact consume_bucket ht hb
    · intro _
      obtain ⟨b, hb, -⟩ := hbelow (k.headD past)
      exact ⟨b, hb⟩
    · rintro rfl
      exact hbelow past

/-- A round that splits a full bucket goes on closer to the key. -/
theorem getBody_split (hg : Grown T₀ T path₀ path) (hp : T.cell P = some (.trie p))
    (hkey : path P ++ c :: k = key) (hb : T.cell (p.xs c) = some (.bucket b))
    (hfull : maxBucketSize ≤ b.m) :
    ∃ T' P' k' x', getBody past (T, P, c :: k, p.xs c) = some (.inl (T', P', k', x')) ∧
      Seeking T₀ path₀ past key T' P' k' x' ∧
      seekBound T' k' x' < seekBound T (c :: k) (p.xs c) := by
  obtain ⟨T', path', hsplit, hgrown, hpathP, hcloser⟩ := split_grown hg.ok hp hb hfull
  have hg' : Grown T₀ T' path₀ path' :=
    ⟨hgrown.ok, hgrown.root.trans hg.root, hgrown.m.trans hg.m, hgrown.denote.trans hg.denote,
      hg.tries.trans hgrown.tries hg.denote⟩
  have hkey' : path' P ++ c :: k = key := by
    rw [hpathP]
    exact hkey
  have hstep : ∀ P' k' x', hattrieConsume T' 0 past P (c :: k) = some (P', k', x') →
      getBody past (T, P, c :: k, p.xs c) = some (.inl (T', P', k', x')) := by
    intro P' k' x' hconsume
    rw [getBody_full hb hfull]
    simp only [hsplit, hconsume, Option.bind_eq_bind, Option.bind_some]
  have hshorter : ∀ x', seekBound T' k x' < seekBound T (c :: k) (p.xs c) := by
    intro x'
    rw [seekBound_bucket hb, List.length_cons]
    exact Nat.lt_of_lt_of_le (seekBound_lt T' k x') (Nat.le_add_right _ _)
  cases hcloser with
  | range p' b' hp' hb' hflag hlt =>
    obtain ⟨P', k', x', hconsume, hseek, ⟨rfl, rfl⟩ | rfl⟩ :=
      seeking_of_consume past hg' hp' hkey' (.inl ⟨b', hb'⟩)
    · refine ⟨_, _, _, _, hstep _ _ _ hconsume, hseek, ?_⟩
      rw [seekBound_bucket hb', seekBound_bucket hb]
      exact Nat.add_lt_add_left hlt _
    · exact ⟨_, _, _, _, hstep _ _ _ hconsume, hseek, hshorter _⟩
  | down p' t' hp' ht' hbelow =>
    obtain ⟨P', k', x', hconsume, hseek, ⟨rfl, rfl⟩ | rfl⟩ :=
      seeking_of_consume past hg' hp' hkey' (.inr ⟨t', ht', hbelow⟩)
    · obtain ⟨⟨_, t, -, -, -, -, hbucket⟩, -⟩ := hseek
      obtain ⟨b', hb'⟩ := hbucket (List.cons_ne_nil c k)
      rw [ht'] at hb'
      cases hb'
    · exact ⟨_, _, _, _, hstep _ _ _ hconsume, hseek, hshorter _⟩

/-- **One round of `hattrie_get`**: a full bucket is split, and the search goes on closer to the
key; otherwise the key is found. -/
theorem getBody_spec (hlen : key.length ≤ maxKey) (h : Seeking T₀ path₀ past key T P k x) :
    (∃ T' P' k' x', getBody past (T, P, k, x) = some (.inl (T', P', k', x')) ∧
      Seeking T₀ path₀ past key T' P' k' x' ∧ seekBound T' k' x' < seekBound T k x) ∨
    ∃ T' r, getBody past (T, P, k, x) = some (.inr (T', r)) ∧
      ∃ path', Found T₀ T' path₀ path' key r := by
  obtain ⟨⟨path, p, hg, hp, rfl, hkey, hbucket⟩, hhybrid⟩ := h
  cases k with
  | nil =>
    -- the key ends at the trie node, and behind it is a hybrid bucket
    obtain ⟨b, hb, hflag⟩ := hhybrid rfl
    have hplace : place T T.root key = some (.node P) := by
      rw [← hkey, hg.ok.place_path hp, place_nil hp]
    obtain ⟨T', huse, hfound⟩ := hattrieUseval_spec hg.ok hplace hp
    refine .inr ⟨T', .node P, ?_, path, hfound.after hg⟩
    rw [getBody_ended hb hflag, huse]
    rfl
  | cons c k =>
    obtain ⟨b, hb⟩ := hbucket (List.cons_ne_nil c k)
    rw [List.headD_cons] at hb ⊢
    by_cases hfull : maxBucketSize ≤ b.m
    · exact .inl (getBody_split hg hp hkey hb hfull)
    · have hplace : place T T.root key =
          some (.bucket (p.xs c) (if b.isPure then k else c :: k)) := by
        rw [← hkey, hg.ok.place_path hp, place_bucket hp hb]
      have hshort : (if b.isPure then k else c :: k).length ≤ maxKey := by
        rw [← hkey, List.length_append, List.length_cons] at hlen
        split
        · omega
        · rw [List.length_cons]
          omega
      have hwithin : b.flag = nodeTypeHybridBucket →
          ∃ d s, (if b.isPure then k else c :: k) = d :: s ∧ b.c0 ≤ d ∧ d ≤ b.c1 := by
        intro hflag
        obtain ⟨-, hlo, hhi, -⟩ := hg.ok.parent_hybrid hb hflag hp rfl
        rw [isPure_of_hybrid hflag, if_neg Bool.false_ne_true]
        exact ⟨c, k, rfl, hlo, hhi⟩
      obtain ⟨b', l, hget, hfound⟩ :=
        insert_spec hg.ok hplace hb hshort (Nat.lt_of_not_le hfull) hwithin
      refine .inr ⟨_, _, ?_, path, hfound.after hg⟩
      rw [getBody_room hb (Nat.lt_of_not_le hfull), hget]
      rfl

/-- **`hattrie_get`** ends, and finds the key or adds it with the value 0. -/
theorem hattrieGet_spec (h : Ok T path) (hne : key ≠ []) (hlen : key.length ≤ maxKey)
    (hclean : Clean T past key) :
    ∃ T' path' r, hattrieGet T key past = some (T', r) ∧ Found T T' path path' key r := by
  obtain ⟨t₀, ht₀⟩ := h.root
  obtain ⟨P, k, x, p, hconsume, hdone, hless⟩ := consume_all h past ht₀ key
  rw [h.path_root, List.nil_append] at hdone
  have hstart : Seeking T path past key T P k x := by
    refine ⟨⟨path, p, .refl h, hdone⟩, ?_⟩
    rintro rfl
    have hplace : place T T.root key = some (.node P) := by
      rw [← hdone.key, h.place_path hdone.parent, place_nil hdone.parent]
    rw [hdone.node]
    exact hclean P p hplace hdone.parent
  have hbound : seekBound T k x < 257 * (key.length + 1) := by
    have hlt := seekBound_lt T k x
    have hle : (k.length + 1) * 256 ≤ (key.length + 1) * 256 :=
      Nat.mul_le_mul_right 256 (Nat.succ_le_succ hless)
    omega
  have hround : ∀ st : Trie × Addr × Bytes × Addr,
      Seeking T path past key st.1 st.2.1 st.2.2.1 st.2.2.2 →
      (∃ st', getBody past st = some (.inl st') ∧
        Seeking T path past key st'.1 st'.2.1 st'.2.2.1 st'.2.2.2 ∧
        seekBound st'.1 st'.2.2.1 st'.2.2.2 < seekBound st.1 st.2.2.1 st.2.2.2) ∨
      ∃ r, getBody past st = some (.inr r) ∧ ∃ path', Found T r.1 path path' key r.2 := by
    rintro ⟨T₁, P₁, k₁, x₁⟩ hst
    rcases getBody_spec hlen hst with ⟨T', P', k', x', hbody, hseek, hlt⟩ | ⟨T', r, hbody, hr⟩
    · exact .inl ⟨_, hbody, hseek, hlt⟩
    · exact .inr ⟨_, hbody, hr⟩
  obtain ⟨⟨T', r⟩, hloop, path', hfound⟩ :=
    loop_ends (fun st => Seeking T path past key st.1 st.2.1 st.2.2.1 st.2.2.2)
      (fun r : Trie × Ref => ∃ path', Found T r.1 path path' key r.2)
      (fun st => seekBound st.1 st.2.2.1 st.2.2.2) hround (s := (T, P, k, x)) hstart hbound
  refine ⟨T', path', r, ?_, hfound⟩
  unfold hattrieGet
  simp only [trieAt_eq_some.mpr ht₀, if_neg hne, hconsume, hloop, Option.bind_eq_bind,
    Option.bind_some]

/-! ## The byte behind the key -/

end

end Ayubd.HatTrie
