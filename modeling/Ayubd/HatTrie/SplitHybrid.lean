import Ayubd.HatTrie.Split

/-!
# Ayubd — splitting a hybrid bucket

`Splits` is what a split may do to a trie: the nodes stay linked as a trie, and every key keeps its
value. A hybrid bucket is replaced under the pointers of its range by the two buckets its keys have
been dealt out to, and freed; `splitHybrid_spec` says that this is a split, and that the pointer of
a key then leads to a bucket with a smaller range.
-/

namespace Ayubd.HatTrie

/-- What a split does, as far as keys can tell. -/
structure Splits (T T' : Trie) (path path' : Addr → Bytes) : Prop where
  ok : Ok T' path'
  root : T'.root = T.root
  m : T'.m = T.m
  keeps : ∀ a t, T.cell a = some (.trie t) →
    (∃ t', T'.cell a = some (.trie t')) ∧ path' a = path a
  denote : ∀ a t, T.cell a = some (.trie t) → ∀ k, denoteFrom T' a k = denoteFrom T a k

section
variable {T T' : Trie} {path path' : Addr → Bytes} {a x P : Addr} {t p : TrieNode} {b : AhTable}
  {c : UInt8} {k : Bytes}

/-- A split keeps the map. -/
theorem Splits.denote_eq (h : Ok T path) (hs : Splits T T' path path') :
    HatTrie.denote T' = HatTrie.denote T := by
  obtain ⟨t, ht⟩ := h.root
  funext k
  rw [HatTrie.denote, hs.root]
  exact hs.denote _ t ht k

theorem Ok.lt_next (h : Ok T path) {n : Node} (hn : T.cell a = some n) : a < T.next := by
  by_contra hge
  rw [h.fresh a (Nat.le_of_not_lt hge)] at hn
  cases hn

/-- A hybrid bucket has one parent, and its pointers are those of its range. -/
theorem Ok.parent_hybrid (h : Ok T path) (hb : T.cell x = some (.bucket b))
    (hflag : b.flag = nodeTypeHybridBucket) (ht : T.cell a = some (.trie t))
    (hx : t.xs c = x) : path x = path a ∧ b.c0 ≤ c ∧ c ≤ b.c1 ∧ b.c0 < b.c1 ∧
      ∀ d, b.c0 ≤ d → d ≤ b.c1 → t.xs d = x := by
  subst hx
  cases h.child a t ht c with
  | trie t' hcell =>
    rw [hcell] at hb
    cases hb
  | pure b₀ hcell _ hflag₀ =>
    rw [hcell] at hb
    cases hb
    rw [hflag₀] at hflag
    cases hflag
  | hybrid b₀ hcell _ _ hlo hhi hlt _ hpath hrange =>
    rw [hcell] at hb
    cases hb
    exact ⟨hpath, hlo, hhi, hlt, hrange⟩

/-- A pure bucket has one parent, and one pointer to it. -/
theorem Ok.parent_pure (h : Ok T path) (hb : T.cell x = some (.bucket b))
    (hflag : b.flag = nodeTypePureBucket) (ht : T.cell a = some (.trie t))
    (hx : t.xs c = x) : path x = path a ++ [c] ∧ b.c0 = c := by
  subst hx
  cases h.child a t ht c with
  | trie t' hcell =>
    rw [hcell] at hb
    cases hb
  | pure b₀ hcell _ _ hc0 _ hpath =>
    rw [hcell] at hb
    cases hb
    exact ⟨hpath, hc0⟩
  | hybrid b₀ hcell _ hflag₀ =>
    rw [hcell] at hb
    cases hb
    rw [hflag₀] at hflag
    cases hflag

/-- The nodes after a hybrid bucket has been split. -/
structure HybridCells (T T' : Trie) (P x : Addr) (p : TrieNode) (b left right : AhTable)
    (j : UInt8) : Prop where
  root : T'.root = T.root
  m : T'.m = T.m
  next : T'.next = T.next + 2
  freed : T'.cell x = none
  parent : T'.cell P =
    some (.trie { p with xs := splitXs b j T.next (T.next + 1) p.xs })
  left : T'.cell T.next = some (.bucket left)
  right : T'.cell (T.next + 1) = some (.bucket right)
  other : ∀ a, a ≠ x → a ≠ P → a ≠ T.next → a ≠ T.next + 1 → T'.cell a = T.cell a

/-- The paths after a hybrid bucket has been split. -/
def splitPath (T : Trie) (path : Addr → Bytes) (P : Addr) (b : AhTable) (j : UInt8) (a : Addr) :
    Bytes :=
  if a = T.next then if b.c0 = j then path P ++ [b.c0] else path P
  else if a = T.next + 1 then if j + 1 = b.c1 then path P ++ [j + 1] else path P
  else path a

/-- A pointer that is left alone leads to the same kind of node as before. -/
theorem Child.transport {cell cell' : Addr → Option Node} {t₁ : TrieNode}
    (h : Child cell path a t c) (ha : path' a = path a) (hx : path' (t.xs c) = path (t.xs c))
    (htrie : ∀ t', cell (t.xs c) = some (.trie t') → ∃ t'', cell' (t.xs c) = some (.trie t''))
    (hbucket : ∀ b, cell (t.xs c) = some (.bucket b) → cell' (t.xs c) = some (.bucket b))
    (hxs : t₁.xs c = t.xs c) (hshare : ∀ d, t.xs d = t.xs c → t₁.xs d = t.xs c) :
    Child cell' path' a t₁ c := by
  cases h with
  | trie t' hcell hpath =>
    obtain ⟨t'', ht''⟩ := htrie t' hcell
    exact .trie t'' (hxs ▸ ht'') (by rw [hxs, hx, ha]; exact hpath)
  | pure b hcell hok hflag hc0 hc1 hpath =>
    exact .pure b (hxs ▸ hbucket b hcell) hok hflag hc0 hc1 (by rw [hxs, hx, ha]; exact hpath)
  | hybrid b hcell hok hflag hlo hhi hlt hkeys hpath hrange =>
    refine .hybrid b (hxs ▸ hbucket b hcell) hok hflag hlo hhi hlt hkeys
      (by rw [hxs, hx, ha]; exact hpath) fun d hd hd' => ?_
    rw [hxs]
    exact hshare d (hrange d hd hd')

/-- Along a pointer that is left alone a key keeps its value, if it does below. -/
theorem Child.denote_eq {t₁ : TrieNode} (h : Child T.cell path a t c)
    (ht : T.cell a = some (.trie t)) (ht₁ : T'.cell a = some (.trie t₁)) (hxs : t₁.xs c = t.xs c)
    (htrie : ∀ t', T.cell (t.xs c) = some (.trie t') → ∃ t'', T'.cell (t.xs c) = some (.trie t''))
    (hbucket : ∀ b, T.cell (t.xs c) = some (.bucket b) → T'.cell (t.xs c) = some (.bucket b))
    (hbelow : ∀ t', T.cell (t.xs c) = some (.trie t') →
      denoteFrom T' (t.xs c) k = denoteFrom T (t.xs c) k) :
    denoteFrom T' a (c :: k) = denoteFrom T a (c :: k) := by
  have hsame : ∀ b, T.cell (t.xs c) = some (.bucket b) →
      denoteFrom T' a (c :: k) = denoteFrom T a (c :: k) := by
    intro b hb
    have hb' : T'.cell (t₁.xs c) = some (.bucket b) := by
      rw [hxs]
      exact hbucket b hb
    rw [denoteFrom_bucket ht hb, denoteFrom_bucket ht₁ hb']
  cases h with
  | trie t' hcell =>
    obtain ⟨t'', ht''⟩ := htrie t' hcell
    have hcell' : T'.cell (t₁.xs c) = some (.trie t'') := by
      rw [hxs]
      exact ht''
    rw [denoteFrom_trie ht hcell, denoteFrom_trie ht₁ hcell', hxs]
    exact hbelow t' hcell
  | pure b hcell => exact hsame b hcell
  | hybrid b hcell => exact hsame b hcell

/-! ## The nodes afterwards -/

section
variable {j : UInt8}

theorem toNat_succ_of_lt {hi : UInt8} (h : j < hi) : (j + 1).toNat = j.toNat + 1 := by
  have := hi.toNat_lt
  rw [UInt8.lt_iff_toNat_lt] at h
  rw [UInt8.toNat_add]
  exact Nat.mod_eq_of_lt (by show j.toNat + 1 < 256; omega)

theorem succ_le_iff {hi d : UInt8} (h : j < hi) : j + 1 ≤ d ↔ j < d := by
  rw [UInt8.le_iff_toNat_le, UInt8.lt_iff_toNat_lt, toNat_succ_of_lt h]
  exact Iff.rfl

theorem splitXs_left {d : UInt8} (l r : Addr) (xs : UInt8 → Addr) (hlo : b.c0 ≤ d) (hhi : d ≤ j) :
    splitXs b j l r xs d = l := if_pos ⟨hlo, hhi⟩

/-- The bytes above the split point go to the right half. -/
theorem splitXs_right {d : UInt8} (hj : j < b.c1) (l r : Addr) (xs : UInt8 → Addr)
    (hlo : j + 1 ≤ d) (hhi : d ≤ b.c1) : splitXs b j l r xs d = r := by
  have hlt := (succ_le_iff hj).mp hlo
  unfold splitXs
  rw [if_neg fun h => UInt8.not_lt.mpr h.2 hlt, if_pos ⟨hlt, hhi⟩]

theorem splitXs_out {d : UInt8} (hj : b.c0 ≤ j) (hj' : j < b.c1) (l r : Addr)
    (xs : UInt8 → Addr) (hout : ¬ (b.c0 ≤ d ∧ d ≤ b.c1)) : splitXs b j l r xs d = xs d := by
  unfold splitXs
  rw [if_neg fun h => hout ⟨h.1, UInt8.le_trans h.2 (UInt8.le_of_lt hj')⟩,
    if_neg fun h => hout ⟨UInt8.le_trans hj (UInt8.le_of_lt h.1), h.2⟩]

/-- The pointers of the parent: to the left, to the right, or where they led before. -/
theorem xs_cases (hj : b.c0 ≤ j) (hj' : j < b.c1) (l r : Addr) (xs : UInt8 → Addr) (d : UInt8) :
    (b.c0 ≤ d ∧ d ≤ j ∧ splitXs b j l r xs d = l) ∨
      (j + 1 ≤ d ∧ d ≤ b.c1 ∧ splitXs b j l r xs d = r) ∨
      (¬ (b.c0 ≤ d ∧ d ≤ b.c1) ∧ splitXs b j l r xs d = xs d) := by
  by_cases hd : b.c0 ≤ d ∧ d ≤ b.c1
  · rcases UInt8.le_total d j with hdj | hjd
    · exact .inl ⟨hd.1, hdj, splitXs_left l r xs hd.1 hdj⟩
    · by_cases heq : d = j
      · exact .inl ⟨hd.1, heq ▸ UInt8.le_refl _, splitXs_left l r xs hd.1 (heq ▸ UInt8.le_refl _)⟩
      · have hlt : j + 1 ≤ d := (succ_le_iff hj').mpr (UInt8.lt_of_le_of_ne hjd (Ne.symm heq))
        exact .inr (.inl ⟨hlt, hd.2, splitXs_right hj' l r xs hlt hd.2⟩)
  · exact .inr (.inr ⟨hd, splitXs_out hj hj' l r xs hd⟩)

end

namespace HybridCells

variable {left right : AhTable} {j : UInt8} {es : List Entry}

theorem splitPath_old {n : Node} (h : Ok T path) (ha : T.cell a = some n) :
    splitPath T path P b j a = path a := by
  have hlt := h.lt_next ha
  unfold splitPath
  rw [if_neg (Nat.ne_of_lt hlt), if_neg (Nat.ne_of_lt (Nat.lt_succ_of_lt hlt))]

/-- The trie nodes are those before. -/
theorem trie (h : Ok T path) (hb : T.cell x = some (.bucket b))
    (hcells : HybridCells T T' P x p b left right j) (ht : T.cell a = some (.trie t)) :
    a = P ∨ a ≠ P ∧ T'.cell a = some (.trie t) := by
  by_cases ha : a = P
  · exact .inl ha
  · have hlt := h.lt_next ht
    have hax : a ≠ x := by
      rintro rfl
      rw [ht] at hb
      cases hb
    exact .inr ⟨ha, (hcells.other a hax ha (Nat.ne_of_lt hlt)
      (Nat.ne_of_lt (Nat.lt_succ_of_lt hlt))).trans ht⟩

/-- A trie node after the split is the parent, or it was there. -/
theorem trie_inv (hcells : HybridCells T T' P x p b left right j)
    (ht : T'.cell a = some (.trie t)) : a = P ∨ a ≠ P ∧ T.cell a = some (.trie t) := by
  by_cases ha : a = P
  · exact .inl ha
  · have hax : a ≠ x := by
      rintro rfl
      rw [hcells.freed] at ht
      cases ht
    have hal : a ≠ T.next := by
      rintro rfl
      rw [hcells.left] at ht
      cases ht
    have har : a ≠ T.next + 1 := by
      rintro rfl
      rw [hcells.right] at ht
      cases ht
    exact .inr ⟨ha, (hcells.other a hax ha hal har).symm.trans ht⟩

theorem exists_trie (h : Ok T path) (hb : T.cell x = some (.bucket b))
    (hcells : HybridCells T T' P x p b left right j)
    (ht : T.cell a = some (.trie t)) : ∃ t', T'.cell a = some (.trie t') := by
  rcases hcells.trie h hb ht with rfl | ⟨-, ht'⟩
  · exact ⟨_, hcells.parent⟩
  · exact ⟨t, ht'⟩

/-- The other buckets are left alone. -/
theorem bucket {b₀ : AhTable} (h : Ok T path) (hp : T.cell P = some (.trie p))
    (hcells : HybridCells T T' P x p b left right j) (ha : a ≠ x)
    (hb₀ : T.cell a = some (.bucket b₀)) : T'.cell a = some (.bucket b₀) := by
  have hlt := h.lt_next hb₀
  have haP : a ≠ P := by
    rintro rfl
    rw [hp] at hb₀
    cases hb₀
  exact (hcells.other a ha haP (Nat.ne_of_lt hlt) (Nat.ne_of_lt (Nat.lt_succ_of_lt hlt))).trans
    hb₀

/-- No other trie node has a pointer to the bucket. -/
theorem ne_of_ne (h : Ok T path) (hp : T.cell P = some (.trie p))
    (hb : T.cell x = some (.bucket b)) (hflag : b.flag = nodeTypeHybridBucket)
    {c₀ : UInt8} (hx : p.xs c₀ = x) (ht : T.cell a = some (.trie t)) (ha : a ≠ P) :
    t.xs c ≠ x := by
  intro heq
  have hpath := (h.parent_hybrid hb hflag ht heq).1
  have hpathP := (h.parent_hybrid hb hflag hp hx).1
  exact ha (h.inj a P t p ht hp (hpath.symm.trans hpathP))

/-- The pointers of the parent outside the range do not lead to the bucket. -/
theorem ne_of_out (h : Ok T path) (hp : T.cell P = some (.trie p))
    (hb : T.cell x = some (.bucket b)) (hflag : b.flag = nodeTypeHybridBucket)
    (hc : ¬ (b.c0 ≤ c ∧ c ≤ b.c1)) : p.xs c ≠ x := by
  intro heq
  obtain ⟨-, hlo, hhi, -⟩ := h.parent_hybrid hb hflag hp heq
  exact hc ⟨hlo, hhi⟩

theorem fresh (h : Ok T path) (hp : T.cell P = some (.trie p))
    (hb : T.cell x = some (.bucket b)) (hcells : HybridCells T T' P x p b left right j)
    (ha : T'.next ≤ a) : T'.cell a = none := by
  rw [hcells.next] at ha
  have hne : ∀ y, y < T.next + 2 → a ≠ y := fun y hy => Nat.ne_of_gt (Nat.lt_of_lt_of_le hy ha)
  rw [hcells.other a (hne x (Nat.lt_add_right 2 (h.lt_next hb)))
    (hne P (Nat.lt_add_right 2 (h.lt_next hp))) (hne _ (Nat.lt_add_of_pos_right (by decide)))
    (hne _ (Nat.lt_succ_self _))]
  exact h.fresh a (Nat.le_of_add_right_le ha)

/-- A pointer that does not lead to the bucket leads where it did. -/
theorem transport {t₁ : TrieNode} (h : Ok T path) (hp : T.cell P = some (.trie p))
    (hb : T.cell x = some (.bucket b)) (hcells : HybridCells T T' P x p b left right j)
    (ht : T.cell a = some (.trie t)) (hne : t.xs c ≠ x) (hxs : t₁.xs c = t.xs c)
    (hshare : ∀ d, t.xs d = t.xs c → t₁.xs d = t.xs c) :
    Child T'.cell (splitPath T path P b j) a t₁ c := by
  obtain ⟨n, hn⟩ := h.exists_child ht c
  exact (h.child a t ht c).transport (splitPath_old h ht) (splitPath_old h hn)
    (fun t' ht' => hcells.exists_trie h hb ht')
    (fun b₀ hb₀ => hcells.bucket h hp hne hb₀) hxs hshare

/-- The pointers of the parent lead to the two halves within the range. -/
theorem child_parent (h : Ok T path) (hp : T.cell P = some (.trie p))
    (hb : T.cell x = some (.bucket b)) (hflag : b.flag = nodeTypeHybridBucket) {c₀ : UInt8}
    (hx : p.xs c₀ = x) (hcells : HybridCells T T' P x p b left right j) (hj : b.c0 ≤ j)
    (hj' : j < b.c1) (hleft : Half left b.c0 j es) (hright : Half right (j + 1) b.c1 es)
    (hlen : es.length ≤ maxBucketSize) (c : UInt8) :
    Child T'.cell (splitPath T path P b j) P
      { p with xs := splitXs b j T.next (T.next + 1) p.xs } c := by
  obtain ⟨-, -, -, -, hrange⟩ := h.parent_hybrid hb hflag hp hx
  have hold : splitPath T path P b j P = path P := splitPath_old h hp
  have hpathL : splitPath T path P b j T.next =
      if b.c0 = j then splitPath T path P b j P ++ [b.c0] else splitPath T path P b j P := by
    rw [hold]
    exact if_pos rfl
  have hpathR : splitPath T path P b j (T.next + 1) =
      if j + 1 = b.c1 then splitPath T path P b j P ++ [j + 1]
      else splitPath T path P b j P := by
    rw [hold]
    unfold splitPath
    rw [if_neg (Nat.succ_ne_self _), if_pos rfl]
  rcases xs_cases hj hj' T.next (T.next + 1) p.xs c with
    ⟨hlo, hhi, hxs⟩ | ⟨hlo, hhi, hxs⟩ | ⟨hc, hxs⟩
  · refine hleft.child hj hlen ?_ hlo hhi ?_ fun d hd hd' => ?_
    · exact (congrArg T'.cell hxs).trans hcells.left
    · exact (congrArg _ hxs).trans hpathL
    · exact (splitXs_left T.next (T.next + 1) p.xs hd hd').trans hxs.symm
  · refine hright.child ((succ_le_iff hj').mpr hj') hlen ?_ hlo hhi ?_ fun d hd hd' => ?_
    · exact (congrArg T'.cell hxs).trans hcells.right
    · exact (congrArg _ hxs).trans hpathR
    · exact (splitXs_right hj' T.next (T.next + 1) p.xs hd hd').trans hxs.symm
  · have hne : p.xs c ≠ x := ne_of_out h hp hb hflag hc
    refine hcells.transport h hp hb hp hne hxs fun d hd => ?_
    have hd' : ¬ (b.c0 ≤ d ∧ d ≤ b.c1) := by
      rintro ⟨hlo, hhi⟩
      exact hne (hd.symm.trans (hrange d hlo hhi))
    exact (splitXs_out hj hj' T.next (T.next + 1) p.xs hd').trans hd

/-- No trie node is new. -/
theorem trie_old (hp : T.cell P = some (.trie p))
    (hcells : HybridCells T T' P x p b left right j) (ht : T'.cell a = some (.trie t)) :
    ∃ t₀, T.cell a = some (.trie t₀) := by
  rcases hcells.trie_inv ht with rfl | ⟨-, ht₀⟩
  · exact ⟨p, hp⟩
  · exact ⟨t, ht₀⟩

/-- The two halves are below the parent, and every other node is below what it was below. -/
theorem owned (h : Ok T path) (hp : T.cell P = some (.trie p))
    (hb : T.cell x = some (.bucket b)) (hflag : b.flag = nodeTypeHybridBucket) {c₀ : UInt8}
    (hx : p.xs c₀ = x) (hcells : HybridCells T T' P x p b left right j) (hj : b.c0 ≤ j)
    (hj' : j < b.c1) {n : Node} (hn : T'.cell a = some n) :
    a = T'.root ∨ ∃ q t c, T'.cell q = some (.trie t) ∧ t.xs c = a := by
  obtain ⟨-, -, -, -, hrange⟩ := h.parent_hybrid hb hflag hp hx
  by_cases hL : a = T.next
  · exact .inr ⟨P, _, b.c0, hcells.parent,
      hL ▸ splitXs_left T.next (T.next + 1) p.xs (UInt8.le_refl _) hj⟩
  by_cases hR : a = T.next + 1
  · exact .inr ⟨P, _, b.c1, hcells.parent,
      hR ▸ splitXs_right hj' T.next (T.next + 1) p.xs ((succ_le_iff hj').mpr hj')
        (UInt8.le_refl _)⟩
  have hax : a ≠ x := by
    rintro rfl
    rw [hcells.freed] at hn
    cases hn
  have hold : ∃ n₀, T.cell a = some n₀ := by
    by_cases haP : a = P
    · exact ⟨_, haP ▸ hp⟩
    · exact ⟨n, (hcells.other a hax haP hL hR).symm.trans hn⟩
  obtain ⟨n₀, hn₀⟩ := hold
  rcases h.owned a n₀ hn₀ with hroot | ⟨q, t, c, hq, hqc⟩
  · exact .inl (hroot.trans hcells.root.symm)
  · rcases hcells.trie h hb hq with rfl | ⟨-, hq'⟩
    · rw [hp] at hq
      cases hq
      have hc : ¬ (b.c0 ≤ c ∧ c ≤ b.c1) := by
        rintro ⟨hlo, hhi⟩
        exact hax (hqc.symm.trans (hrange c hlo hhi))
      exact .inr ⟨q, _, c, hcells.parent,
        (splitXs_out hj hj' T.next (T.next + 1) p.xs hc).trans hqc⟩
    · exact .inr ⟨q, t, c, hq', hqc⟩

/-- The invariant after a hybrid split. -/
theorem ok (h : Ok T path) (hp : T.cell P = some (.trie p))
    (hb : T.cell x = some (.bucket b)) (hflag : b.flag = nodeTypeHybridBucket) {c₀ : UInt8}
    (hx : p.xs c₀ = x) (hcells : HybridCells T T' P x p b left right j) (hj : b.c0 ≤ j)
    (hj' : j < b.c1) (hleft : Half left b.c0 j es) (hright : Half right (j + 1) b.c1 es)
    (hlen : es.length ≤ maxBucketSize) : Ok T' (splitPath T path P b j) := by
  obtain ⟨r, hroot⟩ := h.root
  refine ⟨fun a ha => hcells.fresh h hp hb ha, ?_, ?_, ?_, ?_,
    fun a n hn => hcells.owned h hp hb hflag hx hj hj' hn, ?_⟩
  · rw [hcells.root]
    exact hcells.exists_trie h hb hroot
  · rw [hcells.root, splitPath_old h hroot]
    exact h.path_root
  · intro a t ht c
    rcases hcells.trie_inv ht with rfl | ⟨ha, ht₀⟩
    · rw [hcells.parent] at ht
      cases ht
      exact hcells.child_parent h hp hb hflag hx hj hj' hleft hright hlen c
    · exact hcells.transport h hp hb ht₀ (ne_of_ne h hp hb hflag hx ht₀ ha) rfl fun d hd => hd
  · intro a a' t t' ht ht'
    obtain ⟨t₀, ht₀⟩ := hcells.trie_old hp ht
    obtain ⟨t₀', ht₀'⟩ := hcells.trie_old hp ht'
    rw [splitPath_old h ht₀, splitPath_old h ht₀']
    exact h.inj a a' t₀ t₀' ht₀ ht₀'
  · intro a t ht
    rcases hcells.trie_inv ht with rfl | ⟨-, ht₀⟩
    · rw [hcells.parent] at ht
      cases ht
      exact h.blank a p hp
    · exact h.blank a t ht₀

/-- A key has the value it had, seen from any trie node. -/
theorem denote_eq (h : Ok T path) (hp : T.cell P = some (.trie p))
    (hb : T.cell x = some (.bucket b)) (hflag : b.flag = nodeTypeHybridBucket) {c₀ : UInt8}
    (hx : p.xs c₀ = x) (hcells : HybridCells T T' P x p b left right j) (hj : b.c0 ≤ j)
    (hj' : j < b.c1) (hleft : Half left b.c0 j es) (hright : Half right (j + 1) b.c1 es)
    (hes : ∀ s v, contents b s = some v ↔ (s, v) ∈ es) (ht : T.cell a = some (.trie t)) :
    denoteFrom T' a k = denoteFrom T a k := by
  obtain ⟨-, -, -, -, hrange⟩ := h.parent_hybrid hb hflag hp hx
  induction k generalizing a t with
  | nil =>
    rcases hcells.trie h hb ht with rfl | ⟨-, ht'⟩
    · rw [hp] at ht
      cases ht
      rw [denoteFrom_nil hp, denoteFrom_nil hcells.parent]
    · rw [denoteFrom_nil ht, denoteFrom_nil ht']
  | cons c k ih =>
    have hsame : ∀ t₁, T'.cell a = some (.trie t₁) → t.xs c ≠ x → t₁.xs c = t.xs c →
        denoteFrom T' a (c :: k) = denoteFrom T a (c :: k) :=
      fun t₁ ht₁ hne hxs => (h.child a t ht c).denote_eq ht ht₁ hxs
        (fun t' ht' => hcells.exists_trie h hb ht')
        (fun b₀ hb₀ => hcells.bucket h hp hne hb₀) fun t' ht' => ih ht'
    rcases hcells.trie h hb ht with rfl | ⟨ha, ht'⟩
    · rw [hp] at ht
      cases ht
      -- a pointer to the bucket leads to one of the new ones
      have hnew : ∀ d, b.c0 ≤ d → d ≤ b.c1 →
          denoteFrom T a (d :: k) = contents b (d :: k) := by
        intro d hd hd'
        have hcell : T.cell (p.xs d) = some (.bucket b) := by
          rw [hrange d hd hd']
          exact hb
        rw [denoteFrom_bucket hp hcell, isPure_of_hybrid hflag, if_neg Bool.false_ne_true]
      rcases xs_cases hj hj' T.next (T.next + 1) p.xs c with
        ⟨hlo, hhi, hxs⟩ | ⟨hlo, hhi, hxs⟩ | ⟨hc, hxs⟩
      · rw [hnew c hlo (UInt8.le_trans hhi (UInt8.le_of_lt hj')),
          denoteFrom_bucket hcells.parent ((congrArg T'.cell hxs).trans hcells.left)]
        exact hleft.contents_eq hes hlo hhi
      · rw [hnew c (UInt8.le_trans hj (UInt8.le_of_lt ((succ_le_iff hj').mp hlo))) hhi,
          denoteFrom_bucket hcells.parent ((congrArg T'.cell hxs).trans hcells.right)]
        exact hright.contents_eq hes hlo hhi
      · exact hsame _ hcells.parent (ne_of_out h hp hb hflag hc) hxs
    · exact hsame t ht' (ne_of_ne h hp hb hflag hx ht ha) rfl

/-- A hybrid split keeps the invariant and the map. -/
theorem splits (h : Ok T path) (hp : T.cell P = some (.trie p))
    (hb : T.cell x = some (.bucket b)) (hflag : b.flag = nodeTypeHybridBucket) {c₀ : UInt8}
    (hx : p.xs c₀ = x) (hcells : HybridCells T T' P x p b left right j) (hj : b.c0 ≤ j)
    (hj' : j < b.c1) (hleft : Half left b.c0 j es) (hright : Half right (j + 1) b.c1 es)
    (hes : ∀ s v, contents b s = some v ↔ (s, v) ∈ es) (hlen : es.length ≤ maxBucketSize) :
    Splits T T' path (splitPath T path P b j) where
  ok := hcells.ok h hp hb hflag hx hj hj' hleft hright hlen
  root := hcells.root
  m := hcells.m
  keeps _ _ ht := ⟨hcells.exists_trie h hb ht, splitPath_old h ht⟩
  denote _ _ ht _ := hcells.denote_eq h hp hb hflag hx hj hj' hleft hright hes ht

end HybridCells

/-- **`hattrie_split` of a hybrid bucket.** -/
theorem splitHybrid_spec (h : Ok T path) (hp : T.cell P = some (.trie p))
    (hb : T.cell x = some (.bucket b)) (hflag : b.flag = nodeTypeHybridBucket)
    (hx : p.xs c = x) :
    ∃ T' path', splitHybrid T P x p b = some T' ∧ Splits T T' path path' ∧
      (∀ a t, T'.cell a = some (.trie t) → ∃ t', T.cell a = some (.trie t')) ∧
      ∃ p' b', T'.cell P = some (.trie p') ∧ T'.cell (p'.xs c) = some (.bucket b') ∧
        b'.c1.toNat - b'.c0.toNat < b.c1.toNat - b.c0.toNat := by
  obtain ⟨hok, hkeys⟩ := h.bucket hb
  obtain ⟨-, hlo, hhi, hlt, -⟩ := h.parent_hybrid hb hflag hp hx
  obtain ⟨es, hiter, hnodup, hes, hlen, hshort⟩ := hok.rep.iterate
  have hin : ∀ e ∈ es, ∃ c k, e.1 = c :: k ∧ b.c0 ≤ c ∧ c ≤ b.c1 :=
    fun e he => hkeys hflag e.1 e.2 ((hes e.1 e.2).mpr he)
  have hall : es.all (fun e => e.1 ≠ []) = true := by
    rw [List.all_eq_true]
    intro e he
    obtain ⟨c, k, hkey, -⟩ := hin e he
    rw [hkey]
    simp
  -- the split point leaves a character on each side
  obtain ⟨hj, hj'⟩ := splitPoint_range b es hlt
  generalize hpoint : splitPoint b es = point at hj hj'
  obtain ⟨j, leftM, rightM⟩ := point
  obtain ⟨left, right, hdeal, hleft, hright⟩ := half_distribute hj' (half_new leftM b.c0 j)
    (half_new rightM (j + 1) b.c1) hin hshort hnodup
  rw [List.nil_append] at hleft hright
  -- the two new buckets take addresses no node has
  have hnext : ∀ a n, T.cell a = some n → a ≠ T.next ∧ a ≠ T.next + 1 := by
    intro a n hn
    have hlt := h.lt_next hn
    exact ⟨Nat.ne_of_lt hlt, Nat.ne_of_lt (Nat.lt_succ_of_lt hlt)⟩
  have hPx : P ≠ x := by
    rintro rfl
    rw [hp] at hb
    cases hb
  obtain ⟨hxL, hxR⟩ := hnext x _ hb
  obtain ⟨hPL, hPR⟩ := hnext P _ hp
  have hcells : HybridCells T
      ((((T.alloc (.bucket left)).alloc (.bucket right)).set P
        (some (.trie { p with xs := splitXs b j T.next (T.next + 1) p.xs }))).set x none)
      P x p b left right j := by
    refine ⟨rfl, rfl, rfl, cell_set_self _ _ _, ?_, ?_, ?_, ?_⟩
    · rw [cell_set_of_ne hPx, cell_set_self]
    · rw [cell_set_of_ne hxL.symm, cell_set_of_ne hPL.symm]
      exact (Function.update_of_ne (Nat.ne_of_lt (Nat.lt_succ_self _)) _ _).trans
        (Function.update_self ..)
    · rw [cell_set_of_ne hxR.symm, cell_set_of_ne hPR.symm]
      exact Function.update_self ..
    · intro a hax haP haL haR
      rw [cell_set_of_ne hax, cell_set_of_ne haP]
      exact (Function.update_of_ne haR _ _).trans (Function.update_of_ne haL _ _)
  refine ⟨_, splitPath T path P b j, ?_,
    hcells.splits h hp hb hflag hx hj hj' hleft hright hes (hlen ▸ hok.size), ?_, ?_⟩
  · unfold splitHybrid
    simp only [hiter, hpoint, hdeal, guard, hall, if_true, Option.pure_def, Option.bind_eq_bind,
      Option.bind_some]
    rfl
  · intro a t ht
    exact hcells.trie_old hp ht
  · -- the bucket now below `c` has a smaller range
    have hj₁ := UInt8.le_iff_toNat_le.mp hj
    have hj₂ := UInt8.lt_iff_toNat_lt.mp hj'
    rcases xs_cases hj hj' T.next (T.next + 1) p.xs c with
      ⟨-, -, hxs⟩ | ⟨-, -, hxs⟩ | ⟨hc, -⟩
    · refine ⟨_, left, hcells.parent, (congrArg _ hxs).trans hcells.left, ?_⟩
      rw [hleft.c0, hleft.c1]
      omega
    · refine ⟨_, right, hcells.parent, (congrArg _ hxs).trans hcells.right, ?_⟩
      rw [hright.c0, hright.c1, toNat_succ_of_lt hj']
      omega
    · exact absurd ⟨hlo, hhi⟩ hc

end

end Ayubd.HatTrie
