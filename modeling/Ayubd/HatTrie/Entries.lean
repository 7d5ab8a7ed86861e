import Ayubd.HatTrie.IterInv

/-!
# Ayubd — the entries of a hat-trie

What an iterator sees (`entries`) is what the trie holds: every key with its value, no key twice,
and a sorted iterator sees the keys in the lexicographic order. The order comes from the nodes: a
trie node's own key is a prefix of those below it, and the keys below two of its pointers differ in
the character behind its path, which is in one run of equal pointers or in the other (`key_below`,
`Runs.lt_of_lt`).
-/

namespace Ayubd.HatTrie

/-- The order in which keys are met: a sorted iterator goes up, any iterator meets no key twice. -/
def Before (sorted : Bool) (k k' : Bytes) : Prop := if sorted then k < k' else k ≠ k'

section
variable {T : Trie} {path : Addr → Bytes} {sorted : Bool} {a x : Addr} {t : TrieNode} {b : AhTable}
  {k k' : Bytes} {v : Value} {c d c' d' : UInt8} {f : Bytes → Option Value}

theorem Before.of_lt (h : k < k') : Before sorted k k' := by
  unfold Before
  cases sorted with
  | true => exact h
  | false =>
    rintro rfl
    exact List.lt_irrefl k h

theorem Before.ne (h : Before sorted k k') : k ≠ k' := by
  unfold Before at h
  cases sorted with
  | true =>
    rintro rfl
    exact List.lt_irrefl k h
  | false => exact h

/-- Behind a common path the order is the same. -/
theorem Before.append_left (p : Bytes) (h : Before sorted k k') :
    Before sorted (p ++ k) (p ++ k') := by
  unfold Before at h ⊢
  cases sorted with
  | true => exact List.append_left_lt h
  | false => exact fun heq => h (List.append_cancel_left heq)

theorem pairwise_listing (h : Represents b f) (sorted : Bool) :
    (listing b sorted).Pairwise fun e e' => Before sorted e.1 e'.1 := by
  obtain ⟨hnodup, -, -, hsorted⟩ := h.listing sorted
  cases sorted with
  | true => exact (hsorted rfl).imp Before.of_lt
  | false => exact List.pairwise_map.mp hnodup

/-! ## What the trie holds -/

/-- The place of a key below a pure bucket. -/
theorem place_pure {q : Addr} (h : Ok T path) (ht : T.cell q = some (.trie t))
    (hb : T.cell (t.xs c) = some (.bucket b)) (hflag : b.flag = nodeTypePureBucket) (s : Bytes) :
    place T T.root (path q ++ c :: s) = some (.bucket (t.xs c) s) := by
  rw [h.place_path ht, place_bucket ht hb, isPure_of_pure hflag, if_pos rfl]

/-- The place of a key below a hybrid bucket. -/
theorem place_hybrid {q : Addr} (h : Ok T path) (ht : T.cell q = some (.trie t))
    (hb : T.cell (t.xs c) = some (.bucket b)) (hflag : b.flag = nodeTypeHybridBucket) (s : Bytes) :
    place T T.root (path q ++ c :: s) = some (.bucket (t.xs c) (c :: s)) := by
  rw [h.place_path ht, place_bucket ht hb, isPure_of_hybrid hflag, if_neg Bool.false_ne_true]

/-- The keys of a bucket belong there. -/
theorem Ok.place_contents (h : Ok T path) (hb : T.cell a = some (.bucket b))
    (hk : contents b k = some v) : place T T.root (path a ++ k) = some (.bucket a k) := by
  rcases h.owned a _ hb with rfl | ⟨q, t, c, hq, rfl⟩
  · obtain ⟨t, ht⟩ := h.root
    rw [ht] at hb
    cases hb
  · cases h.child q t hq c with
    | trie t' hcell =>
      rw [hcell] at hb
      cases hb
    | pure b₀ hcell _ hflag _ _ hpath =>
      rw [hpath, List.append_assoc, List.singleton_append]
      exact place_pure h hq hcell hflag k
    | hybrid b₀ hcell _ hflag _ _ _ hkeys hpath hrange =>
      rw [hcell] at hb
      cases hb
      obtain ⟨d, s, rfl, hlo, hhi⟩ := hkeys k v hk
      have hd := hrange d hlo hhi
      rw [hpath, ← hd]
      exact place_hybrid h hq (by rw [hd]; exact hcell) hflag s

/-- The entries of a node are those of the keys that belong there. -/
theorem mem_ownEntries (h : Ok T path) {n : Node} (hn : T.cell x = some n) :
    (k, v) ∈ ownEntries T path sorted x ↔
      ∃ p, place T T.root k = some p ∧ valueAt T p = some v ∧
        (p = .node x ∨ ∃ s, p = .bucket x s) := by
  cases n with
  -- a trie node has at most one entry, the key of its own path
  | trie t =>
    rw [ownEntries_trie hn]
    have hplace : place T T.root (path x) = some (.node x) := by
      have hpath := h.place_path hn []
      rwa [List.append_nil, place_nil hn] at hpath
    constructor
    · intro hmem
      have hval : valueAt T (.node x) = if t.hasVal then some t.val else none := valueAt_node hn
      by_cases hhas : t.hasVal = true
      · rw [if_pos hhas] at hmem hval
        obtain ⟨rfl, rfl⟩ := Prod.mk.inj (List.mem_singleton.mp hmem)
        exact ⟨_, hplace, hval, .inl rfl⟩
      · rw [if_neg hhas] at hmem
        exact absurd hmem List.not_mem_nil
    · rintro ⟨p, hp, hv, rfl | ⟨s, rfl⟩⟩
      · obtain rfl := h.place_inj hp hplace
        rw [valueAt_node hn] at hv
        by_cases hhas : t.hasVal = true
        · rw [if_pos hhas] at hv ⊢
          rw [Option.some.inj hv]
          exact List.mem_singleton_self _
        · rw [if_neg hhas] at hv
          cases hv
      · rw [valueAt] at hv
        obtain ⟨b, hb, -⟩ := Option.bind_eq_some_iff.mp hv
        rw [bucketAt_eq_some, hn] at hb
        cases hb
  -- a bucket has the entries of its table, below its path
  | bucket b =>
    have hmem := ((h.bucket hn).1.rep.listing sorted).2.1
    rw [ownEntries_bucket hn, List.mem_map]
    constructor
    · rintro ⟨⟨s, v'⟩, he, heq⟩
      obtain ⟨rfl, rfl⟩ := Prod.mk.inj heq
      have hs := (hmem s v').mpr he
      exact ⟨_, h.place_contents hn hs, (valueAt_bucket hn s).trans hs, .inr ⟨s, rfl⟩⟩
    · rintro ⟨p, hp, hv, rfl | ⟨s, rfl⟩⟩
      · rw [valueAt] at hv
        obtain ⟨t, ht, -⟩ := Option.bind_eq_some_iff.mp hv
        rw [trieAt_eq_some, hn] at ht
        cases ht
      · rw [valueAt_bucket hn] at hv
        obtain rfl := h.place_inj hp (h.place_contents hn hv)
        exact ⟨(s, v), (hmem s v).mp hv, rfl⟩

/-- **The entries of a trie are what it holds.** -/
theorem mem_entries (h : Ok T path) : (k, v) ∈ entries T path sorted ↔ denote T k = some v := by
  obtain ⟨t₀, ht₀⟩ := h.root
  unfold entries entriesBelow denote denoteFrom
  rw [mem_gather h ht₀, Option.bind_eq_some_iff]
  constructor
  · rintro ⟨x, hx, hmem⟩
    obtain ⟨n, hn⟩ := exists_of_mem_nodes h ht₀ hx
    obtain ⟨p, hp, hv, -⟩ := (mem_ownEntries h hn).mp hmem
    exact ⟨p, hp, hv⟩
  · rintro ⟨p, hp, hv⟩
    obtain ⟨q, hq, -, hplace⟩ := h.exists_place k
    rw [hp] at hq
    cases hq
    cases hplace with
    | node ht => exact ⟨_, mem_nodes_root h ht, (mem_ownEntries h ht).mpr ⟨_, hp, hv, .inl rfl⟩⟩
    | bucket hb =>
      exact ⟨_, mem_nodes_root h hb, (mem_ownEntries h hb).mpr ⟨_, hp, hv, .inr ⟨_, rfl⟩⟩⟩

/-! ## The order -/

/-- The keys below a node begin with its path. -/
theorem path_of_mem_entries (h : Ok T path) {n : Node} (hn : T.cell a = some n)
    (hk : (k, v) ∈ entriesBelow T path sorted a) : ∃ s, k = path a ++ s := by
  obtain ⟨x, hx, hmem⟩ := (mem_gather h hn).mp hk
  obtain ⟨s, hs⟩ := path_of_mem_nodes h hn hx
  obtain ⟨n', hn'⟩ := exists_of_mem_nodes h hn hx
  obtain ⟨p, hp, -, hnode⟩ := (mem_ownEntries h hn').mp hmem
  obtain ⟨q, hq, hlabel, -⟩ := h.exists_place k
  rw [hp] at hq
  cases hq
  rcases hnode with rfl | ⟨s', rfl⟩
  · exact ⟨s, hlabel.symm.trans hs⟩
  · refine ⟨s ++ s', hlabel.symm.trans ?_⟩
    rw [Place.label, hs, List.append_assoc]

/-- Below a pointer the keys go on with a character of its run. -/
theorem key_below (h : Ok T path) (ht : T.cell a = some (.trie t))
    (hk : (k, v) ∈ entriesBelow T path sorted (t.xs c)) :
    ∃ d s, k = path a ++ d :: s ∧ t.xs d = t.xs c := by
  obtain ⟨n, hn⟩ := h.exists_child ht c
  cases h.child a t ht c with
  | trie t' hcell hpath =>
    obtain ⟨s, rfl⟩ := path_of_mem_entries h hcell hk
    exact ⟨c, s, by rw [hpath, List.append_assoc, List.singleton_append], rfl⟩
  | pure b hcell _ _ _ _ hpath =>
    obtain ⟨s, rfl⟩ := path_of_mem_entries h hcell hk
    exact ⟨c, s, by rw [hpath, List.append_assoc, List.singleton_append], rfl⟩
  | hybrid b hcell hok _ _ _ _ hkeys hpath hrange =>
    rw [entriesBelow_bucket hcell] at hk
    obtain ⟨⟨s, v'⟩, he, heq⟩ := List.mem_map.mp hk
    obtain ⟨rfl, rfl⟩ := Prod.mk.inj heq
    obtain ⟨d, s, rfl, hlo, hhi⟩ := hkeys s v' (((hok.rep.listing sorted).2.1 s v').mpr he)
    exact ⟨d, s, by rw [hpath], hrange d hlo hhi⟩

/-- Of two runs one lies before the other. -/
theorem Runs.lt_of_lt {xs : UInt8 → Addr} (h : Runs xs) (hlt : c < d) (hne : xs c ≠ xs d)
    (hc : xs c' = xs c) (hd : xs d' = xs d) : c' < d' := by
  refine UInt8.not_le.mp fun hle => ?_
  rcases UInt8.le_total d' c with hdc | hcd
  · -- then `c` is in the run of `d`
    obtain ⟨lo, hi, -, hhi, hrun⟩ := h d
    exact hne ((hrun c).mpr ⟨UInt8.le_trans ((hrun d').mp hd).1 hdc,
      UInt8.le_trans (UInt8.le_of_lt hlt) hhi⟩)
  · -- then `d'` is in the run of `c`
    obtain ⟨lo, hi, hlo, -, hrun⟩ := h c
    exact hne (((hrun d').mpr ⟨UInt8.le_trans hlo hcd,
      UInt8.le_trans hle ((hrun c').mp hc).2⟩).symm.trans hd)

/-- **The order of an iterator.** -/
theorem pairwise_entriesBelow (h : Ok T path) (sorted : Bool) {n : Node} (hn : T.cell a = some n) :
    (entriesBelow T path sorted a).Pairwise fun e e' => Before sorted e.1 e'.1 := by
  refine h.below
    (Q := fun a => (entriesBelow T path sorted a).Pairwise fun e e' => Before sorted e.1 e'.1)
    ?_ ?_ hn
  · intro a b hb
    rw [entriesBelow_bucket hb, List.pairwise_map]
    exact (pairwise_listing (h.bucket hb).1.rep sorted).imp fun hbefore =>
      hbefore.append_left (path a)
  · intro a t ht ih
    have hcovers := (h.runs ht).covers_lasts
    rw [entriesBelow_trie h ht, List.pairwise_append, List.pairwise_flatMap]
    refine ⟨?_, ⟨fun c _ => ih c, ?_⟩, ?_⟩
    · split
      · exact List.pairwise_singleton _ _
      · exact List.Pairwise.nil
    · refine hcovers.sorted.imp_of_mem ?_
      rintro c d hc hd hlt ⟨k, v⟩ he ⟨k', v'⟩ he'
      obtain ⟨c', s, rfl, hc'⟩ := key_below h ht he
      obtain ⟨d', s', rfl, hd'⟩ := key_below h ht he'
      -- two runs have two children, and their characters do not cross
      have hne : t.xs c ≠ t.xs d := by
        intro heq
        rw [hcovers.inj c hc d hd heq] at hlt
        exact UInt8.lt_irrefl _ hlt
      refine Before.append_left _ (Before.of_lt (List.cons_lt_cons_iff.mpr (.inl ?_)))
      exact (h.runs ht).lt_of_lt hlt hne hc' hd'
    · rintro ⟨k, v⟩ hk ⟨k', v'⟩ hk'
      obtain ⟨c, -, hk'⟩ := List.mem_flatMap.mp hk'
      obtain ⟨d, s, rfl, -⟩ := key_below h ht hk'
      -- the node's own key is a prefix of every key below
      have heq : k = path a := by
        split at hk
        · exact (Prod.mk.inj (List.mem_singleton.mp hk)).1
        · exact absurd hk List.not_mem_nil
      have hlt : path a ++ [] < path a ++ d :: s := List.append_left_lt (List.nil_lt_cons d s)
      rw [List.append_nil] at hlt
      rw [heq]
      exact Before.of_lt hlt

/-- **No key is met twice.** -/
theorem nodup_entries (h : Ok T path) (sorted : Bool) :
    ((entries T path sorted).map Prod.fst).Nodup := by
  obtain ⟨t₀, ht₀⟩ := h.root
  exact List.pairwise_map.mpr ((pairwise_entriesBelow h sorted ht₀).imp Before.ne)

/-- The sorted walk is in ascending order. -/
theorem sorted_entries (h : Ok T path) :
    (entries T path true).Pairwise fun e e' => e.1 < e'.1 := by
  obtain ⟨t₀, ht₀⟩ := h.root
  exact pairwise_entriesBelow h true ht₀

/-! ## Their number -/

theorem length_flatMap_le {α β γ : Type} {f : α → List β} {g : α → List γ} {bound : Nat}
    (h : ∀ x, (f x).length ≤ (g x).length * bound) (xs : List α) :
    (xs.flatMap f).length ≤ (xs.flatMap g).length * bound := by
  induction xs with
  | nil => exact Nat.zero_le _
  | cons x xs ih =>
    rw [List.flatMap_cons, List.flatMap_cons, List.length_append, List.length_append, Nat.add_mul]
    exact Nat.add_le_add (h x) ih

/-- A node has no more entries than a bucket has room for. -/
theorem length_entriesBelow_le (h : Ok T path) (sorted : Bool) {n : Node} (hn : T.cell a = some n) :
    (entriesBelow T path sorted a).length ≤ (nodes T path a).length * maxBucketSize := by
  refine h.below
    (Q := fun a => (entriesBelow T path sorted a).length ≤
      (nodes T path a).length * maxBucketSize) ?_ ?_ hn
  · intro a b hb
    obtain ⟨hrep, hsize⟩ := (h.bucket hb).1
    rw [entriesBelow_bucket hb, nodes_bucket hb, List.length_map, (hrep.listing sorted).2.2.1,
      List.length_singleton, Nat.one_mul]
    exact hsize
  · intro a t ht ih
    have hown : (if t.hasVal then [(path a, t.val)] else []).length ≤ 1 := by
      split
      · exact Nat.le_refl 1
      · exact Nat.zero_le 1
    have hmax : 1 ≤ maxBucketSize := by decide
    rw [entriesBelow_trie h ht, nodes_trie h ht, List.length_append, List.length_cons, Nat.add_mul,
      Nat.one_mul, Nat.add_comm (_ * maxBucketSize)]
    exact Nat.add_le_add (Nat.le_trans hown hmax) (length_flatMap_le ih _)

/-- There are at most so many entries as the buckets can hold. -/
theorem length_entries_le (h : Ok T path) (sorted : Bool) :
    (entries T path sorted).length ≤ T.next * maxBucketSize := by
  obtain ⟨t₀, ht₀⟩ := h.root
  exact Nat.le_trans (length_entriesBelow_le h sorted ht₀)
    (Nat.mul_le_mul_right _ (length_nodes_le h))

end

end Ayubd.HatTrie
