import Ayubd.HatTrie.SplitHybrid

/-!
# Ayubd — splitting a pure bucket

A pure bucket that is full becomes a hybrid bucket for all characters, below a new trie node that
takes its place, and its empty key becomes the value of that node. With this, `hattrieSplit_spec`
says what `hattrie_split` does to either kind of bucket: it is a split, and leads closer to a place
for the key, into a smaller range or down by one character (`Closer`).
-/

namespace Ayubd.HatTrie

section
variable {T T' : Trie} {path path' : Addr → Bytes} {a x P : Addr} {t p : TrieNode} {b : AhTable}
  {c : UInt8} {k : Bytes}

/-- The nodes after a pure bucket has been split. -/
structure PureCells (T T' : Trie) (P x : Addr) (p new : TrieNode) (b b' : AhTable) : Prop where
  root : T'.root = T.root
  m : T'.m = T.m
  next : T'.next = T.next + 1
  parent : T'.cell P = some (.trie { p with xs := Function.update p.xs b.c0 T.next })
  new : T'.cell T.next = some (.trie new)
  bucket : T'.cell x = some (.bucket b')
  other : ∀ a, a ≠ x → a ≠ P → a ≠ T.next → T'.cell a = T.cell a

/-- The paths after a pure bucket has been split: the new trie node takes that of the bucket. -/
def downPath (T : Trie) (path : Addr → Bytes) (x a : Addr) : Bytes :=
  if a = T.next then path x else path a

namespace PureCells

variable {new : TrieNode} {b' : AhTable}

theorem trie (h : Ok T path) (hb : T.cell x = some (.bucket b))
    (hcells : PureCells T T' P x p new b b') (ht : T.cell a = some (.trie t)) :
    a = P ∨ a ≠ P ∧ T'.cell a = some (.trie t) := by
  by_cases ha : a = P
  · exact .inl ha
  · have hax : a ≠ x := by
      rintro rfl
      rw [ht] at hb
      cases hb
    exact .inr ⟨ha, (hcells.other a hax ha (Nat.ne_of_lt (h.lt_next ht))).trans ht⟩

/-- A trie node after the split is the parent, the new one, or it was there. -/
theorem trie_inv (hcells : PureCells T T' P x p new b b') (ht : T'.cell a = some (.trie t)) :
    a = P ∨ a = T.next ∨ a ≠ P ∧ T.cell a = some (.trie t) := by
  by_cases ha : a = P
  · exact .inl ha
  by_cases hn : a = T.next
  · exact .inr (.inl hn)
  have hax : a ≠ x := by
    rintro rfl
    rw [hcells.bucket] at ht
    cases ht
  exact .inr (.inr ⟨ha, (hcells.other a hax ha hn).symm.trans ht⟩)

theorem exists_trie (h : Ok T path) (hb : T.cell x = some (.bucket b))
    (hcells : PureCells T T' P x p new b b') (ht : T.cell a = some (.trie t)) :
    ∃ t', T'.cell a = some (.trie t') := by
  rcases hcells.trie h hb ht with rfl | ⟨-, ht'⟩
  · exact ⟨_, hcells.parent⟩
  · exact ⟨t, ht'⟩

theorem other_bucket {b₀ : AhTable} (h : Ok T path) (hp : T.cell P = some (.trie p))
    (hcells : PureCells T T' P x p new b b') (ha : a ≠ x)
    (hb₀ : T.cell a = some (.bucket b₀)) : T'.cell a = some (.bucket b₀) := by
  have haP : a ≠ P := by
    rintro rfl
    rw [hp] at hb₀
    cases hb₀
  exact (hcells.other a ha haP (Nat.ne_of_lt (h.lt_next hb₀))).trans hb₀

/-- Nothing else leads to a pure bucket. -/
theorem ne_of_ne (h : Ok T path) (hp : T.cell P = some (.trie p))
    (hb : T.cell x = some (.bucket b)) (hflag : b.flag = nodeTypePureBucket)
    (hx : p.xs b.c0 = x) (ht : T.cell a = some (.trie t)) (ha : ¬ (a = P ∧ c = b.c0)) :
    t.xs c ≠ x := by
  intro heq
  have hpath := (h.parent_pure hb hflag ht heq).1
  have hpathP := (h.parent_pure hb hflag hp hx).1
  obtain ⟨hpp, hc⟩ := List.append_inj' (hpath.symm.trans hpathP) rfl
  exact ha ⟨h.inj a P t p ht hp hpp, (List.cons.inj hc).1⟩

theorem downPath_old {n : Node} (h : Ok T path) (ha : T.cell a = some n) :
    downPath T path x a = path a := if_neg (Nat.ne_of_lt (h.lt_next ha))

theorem downPath_new : downPath T path x T.next = path x := if_pos rfl

theorem fresh (h : Ok T path) (hp : T.cell P = some (.trie p))
    (hb : T.cell x = some (.bucket b)) (hcells : PureCells T T' P x p new b b')
    (ha : T'.next ≤ a) : T'.cell a = none := by
  rw [hcells.next] at ha
  have hne : ∀ y, y < T.next + 1 → a ≠ y := fun y hy => Nat.ne_of_gt (Nat.lt_of_lt_of_le hy ha)
  rw [hcells.other a (hne x (Nat.lt_succ_of_lt (h.lt_next hb)))
    (hne P (Nat.lt_succ_of_lt (h.lt_next hp))) (hne _ (Nat.lt_succ_self _))]
  exact h.fresh a (Nat.le_of_succ_le ha)

/-- A pointer that does not lead to the bucket leads where it did. -/
theorem transport {t₁ : TrieNode} (h : Ok T path) (hp : T.cell P = some (.trie p))
    (hb : T.cell x = some (.bucket b)) (hcells : PureCells T T' P x p new b b')
    (ht : T.cell a = some (.trie t)) (hne : t.xs c ≠ x) (hxs : t₁.xs c = t.xs c)
    (hshare : ∀ d, t.xs d = t.xs c → t₁.xs d = t.xs c) :
    Child T'.cell (downPath T path x) a t₁ c := by
  obtain ⟨n, hn⟩ := h.exists_child ht c
  exact (h.child a t ht c).transport (downPath_old h ht) (downPath_old h hn)
    (fun t' ht' => hcells.exists_trie h hb ht')
    (fun b₀ hb₀ => hcells.other_bucket h hp hne hb₀) hxs hshare

/-- Below the new trie node there is the bucket, now for all characters. -/
theorem child_new (h : Ok T path) (hb : T.cell x = some (.bucket b))
    (hcells : PureCells T T' P x p new b b') (hxs : new.xs = fun _ => x) (hok : BucketOk b')
    (hc0 : b'.c0 = 0x00) (hc1 : b'.c1 = nodeMaxchar) (hflag' : b'.flag = nodeTypeHybridBucket)
    (hcontents : contents b' = Function.update (contents b) [] none) (c : UInt8) :
    Child T'.cell (downPath T path x) T.next new c := by
  have hlow : ∀ d : UInt8, b'.c0 ≤ d := by
    intro d
    rw [hc0, UInt8.le_iff_toNat_le]
    exact Nat.zero_le _
  have hhigh : ∀ d : UInt8, d ≤ b'.c1 := by
    intro d
    rw [hc1, UInt8.le_iff_toNat_le]
    exact Nat.le_of_lt_succ d.toNat_lt
  have hxc : new.xs c = x := congrFun hxs c
  refine .hybrid b' (by rw [hxc]; exact hcells.bucket) hok hflag' (hlow c) (hhigh c) ?_ ?_ ?_ ?_
  · rw [hc0, hc1]
    decide
  · intro s v hs
    rw [hcontents] at hs
    cases s with
    | nil =>
      rw [Function.update_self] at hs
      cases hs
    | cons d s => exact ⟨d, s, rfl, hlow d, hhigh d⟩
  · rw [hxc, downPath_old h hb, downPath_new]
  · intro d _ _
    rw [hxc]
    exact congrFun hxs d

/-- The parent's pointer to the bucket leads to the new trie node. -/
theorem child_parent (h : Ok T path) (hp : T.cell P = some (.trie p))
    (hb : T.cell x = some (.bucket b)) (hflag : b.flag = nodeTypePureBucket)
    (hx : p.xs b.c0 = x) (hcells : PureCells T T' P x p new b b') (c : UInt8) :
    Child T'.cell (downPath T path x) P
      { p with xs := Function.update p.xs b.c0 T.next } c := by
  by_cases hc : c = b.c0
  · subst hc
    have hxc : Function.update p.xs b.c0 T.next b.c0 = T.next := Function.update_self ..
    refine .trie new ((congrArg T'.cell hxc).trans hcells.new) ?_
    show downPath T path x (Function.update p.xs b.c0 T.next b.c0) = _
    rw [hxc, downPath_new, downPath_old h hp]
    exact (h.parent_pure hb hflag hp hx).1
  · have hxc : Function.update p.xs b.c0 T.next c = p.xs c := Function.update_of_ne hc ..
    have hne : p.xs c ≠ x := ne_of_ne h hp hb hflag hx hp fun h => hc h.2
    refine hcells.transport h hp hb hp hne hxc fun d hd => ?_
    have hd' : d ≠ b.c0 := by
      rintro rfl
      exact hne (hd.symm.trans hx)
    exact (Function.update_of_ne hd' ..).trans hd

/-- No trie node had the path of a pure bucket. -/
theorem path_ne (h : Ok T path) (hp : T.cell P = some (.trie p))
    (hb : T.cell x = some (.bucket b)) (hflag : b.flag = nodeTypePureBucket)
    (hx : p.xs b.c0 = x) (ht : T.cell a = some (.trie t)) : path a ≠ path x := by
  obtain ⟨hpathx, -⟩ := h.parent_pure hb hflag hp hx
  intro heq
  rcases h.owned a _ ht with rfl | ⟨q, s, c, hq, rfl⟩
  · rw [h.path_root, hpathx] at heq
    exact List.cons_ne_nil _ _ (List.append_eq_nil_iff.mp heq.symm).2
  · cases h.child q s hq c with
    | trie t' hcell hpath =>
      -- its parent would be that of the bucket, and its character too
      rw [hpath, hpathx] at heq
      obtain ⟨hpp, hc⟩ := List.append_inj' heq rfl
      obtain rfl := h.inj q P s p hq hp hpp
      rw [hp] at hq
      cases hq
      rw [(List.cons.inj hc).1, hx, hb] at ht
      cases ht
    | pure b₀ hcell =>
      rw [hcell] at ht
      cases ht
    | hybrid b₀ hcell =>
      rw [hcell] at ht
      cases ht

/-- The only new trie node is the one allocated. -/
theorem trie_old (hp : T.cell P = some (.trie p)) (hcells : PureCells T T' P x p new b b')
    (ht : T'.cell a = some (.trie t)) : a = T.next ∨ ∃ t₀, T.cell a = some (.trie t₀) := by
  rcases hcells.trie_inv ht with rfl | rfl | ⟨-, ht₀⟩
  · exact .inr ⟨p, hp⟩
  · exact .inl rfl
  · exact .inr ⟨t, ht₀⟩

theorem inj {a' : Addr} {t' : TrieNode} (h : Ok T path) (hp : T.cell P = some (.trie p))
    (hb : T.cell x = some (.bucket b)) (hflag : b.flag = nodeTypePureBucket)
    (hx : p.xs b.c0 = x) (hcells : PureCells T T' P x p new b b')
    (ht : T'.cell a = some (.trie t)) (ht' : T'.cell a' = some (.trie t'))
    (heq : downPath T path x a = downPath T path x a') : a = a' := by
  rcases hcells.trie_old hp ht with rfl | ⟨t₀, ht₀⟩
  · rcases hcells.trie_old hp ht' with rfl | ⟨t₀', ht₀'⟩
    · rfl
    · rw [downPath_new, downPath_old h ht₀'] at heq
      exact absurd heq.symm (path_ne h hp hb hflag hx ht₀')
  · rcases hcells.trie_old hp ht' with rfl | ⟨t₀', ht₀'⟩
    · rw [downPath_new, downPath_old h ht₀] at heq
      exact absurd heq (path_ne h hp hb hflag hx ht₀)
    · rw [downPath_old h ht₀, downPath_old h ht₀'] at heq
      exact h.inj a a' t₀ t₀' ht₀ ht₀' heq

/-- The new node is below the parent, the bucket below the new node, and every other node is below
what it was below. -/
theorem owned (h : Ok T path) (hp : T.cell P = some (.trie p))
    (hb : T.cell x = some (.bucket b)) (hx : p.xs b.c0 = x)
    (hcells : PureCells T T' P x p new b b') (hxs : new.xs = fun _ => x) {n : Node}
    (hn : T'.cell a = some n) :
    a = T'.root ∨ ∃ q t c, T'.cell q = some (.trie t) ∧ t.xs c = a := by
  by_cases hnext : a = T.next
  · exact .inr ⟨P, _, b.c0, hcells.parent, hnext ▸ Function.update_self ..⟩
  by_cases hax : a = x
  · exact .inr ⟨T.next, new, 0, hcells.new, hax ▸ congrFun hxs 0⟩
  have hold : ∃ n₀, T.cell a = some n₀ := by
    by_cases haP : a = P
    · exact ⟨_, haP ▸ hp⟩
    · exact ⟨n, (hcells.other a hax haP hnext).symm.trans hn⟩
  obtain ⟨n₀, hn₀⟩ := hold
  rcases h.owned a n₀ hn₀ with hroot | ⟨q, t, c, hq, hqc⟩
  · exact .inl (hroot.trans hcells.root.symm)
  · rcases hcells.trie h hb hq with rfl | ⟨-, hq'⟩
    · rw [hp] at hq
      cases hq
      have hc : c ≠ b.c0 := by
        rintro rfl
        exact hax (hqc.symm.trans hx)
      exact .inr ⟨q, _, c, hcells.parent, (Function.update_of_ne hc ..).trans hqc⟩
    · exact .inr ⟨q, t, c, hq', hqc⟩

/-- The invariant after a pure split. -/
theorem ok (h : Ok T path) (hp : T.cell P = some (.trie p))
    (hb : T.cell x = some (.bucket b)) (hflag : b.flag = nodeTypePureBucket)
    (hx : p.xs b.c0 = x) (hcells : PureCells T T' P x p new b b')
    (hxs : new.xs = fun _ => x) (hblank : new.hasVal = false → new.val = 0) (hok : BucketOk b')
    (hc0 : b'.c0 = 0x00) (hc1 : b'.c1 = nodeMaxchar) (hflag' : b'.flag = nodeTypeHybridBucket)
    (hcontents : contents b' = Function.update (contents b) [] none) :
    Ok T' (downPath T path x) := by
  obtain ⟨r, hroot⟩ := h.root
  refine ⟨fun a ha => hcells.fresh h hp hb ha, ?_, ?_, ?_,
    fun a a' t t' ht ht' heq => hcells.inj h hp hb hflag hx ht ht' heq,
    fun a n hn => hcells.owned h hp hb hx hxs hn, ?_⟩
  · rw [hcells.root]
    exact hcells.exists_trie h hb hroot
  · rw [hcells.root, downPath_old h hroot]
    exact h.path_root
  · intro a t ht c
    rcases hcells.trie_inv ht with rfl | rfl | ⟨ha, ht₀⟩
    · rw [hcells.parent] at ht
      cases ht
      exact hcells.child_parent h hp hb hflag hx c
    · rw [hcells.new] at ht
      cases ht
      exact hcells.child_new h hb hxs hok hc0 hc1 hflag' hcontents c
    · have hne : t.xs c ≠ x := ne_of_ne h hp hb hflag hx ht₀ fun h => ha h.1
      exact hcells.transport h hp hb ht₀ hne rfl fun d hd => hd
  · intro a t ht
    rcases hcells.trie_inv ht with rfl | rfl | ⟨-, ht₀⟩
    · rw [hcells.parent] at ht
      cases ht
      exact h.blank a p hp
    · rw [hcells.new] at ht
      cases ht
      exact hblank
    · exact h.blank a t ht₀

/-- From the new trie node a key leads where it led in the pure bucket. -/
theorem denote_new (hcells : PureCells T T' P x p new b b') (hxs : new.xs = fun _ => x)
    (hnew : (if new.hasVal then some new.val else none) = contents b [])
    (hflag' : b'.flag = nodeTypeHybridBucket)
    (hcontents : contents b' = Function.update (contents b) [] none) :
    denoteFrom T' T.next k = contents b k := by
  cases k with
  | nil => rw [denoteFrom_nil hcells.new, hnew]
  | cons d k =>
    have hxd : T'.cell (new.xs d) = some (.bucket b') := by
      rw [hxs]
      exact hcells.bucket
    rw [denoteFrom_bucket hcells.new hxd, isPure_of_hybrid hflag', if_neg Bool.false_ne_true,
      hcontents, Function.update_of_ne (List.cons_ne_nil d k)]

/-- A key has the value it had, seen from any trie node there was. -/
theorem denote_eq (h : Ok T path) (hp : T.cell P = some (.trie p))
    (hb : T.cell x = some (.bucket b)) (hflag : b.flag = nodeTypePureBucket)
    (hx : p.xs b.c0 = x) (hcells : PureCells T T' P x p new b b')
    (hxs : new.xs = fun _ => x) (hnew : (if new.hasVal then some new.val else none) = contents b [])
    (hflag' : b'.flag = nodeTypeHybridBucket)
    (hcontents : contents b' = Function.update (contents b) [] none)
    (ht : T.cell a = some (.trie t)) : denoteFrom T' a k = denoteFrom T a k := by
  induction k generalizing a t with
  | nil =>
    rcases hcells.trie h hb ht with rfl | ⟨-, ht'⟩
    · rw [hp] at ht
      cases ht
      rw [denoteFrom_nil hp, denoteFrom_nil hcells.parent]
    · rw [denoteFrom_nil ht, denoteFrom_nil ht']
  | cons c k ih =>
    have hsame : ∀ t₁, T'.cell a = some (.trie t₁) → t.xs c ≠ x → t₁.xs c = t.xs c →
        denoteFrom T' a (c :: k) = denoteFrom T a (c :: k) :=
      fun t₁ ht₁ hne hxs => (h.child a t ht c).denote_eq ht ht₁ hxs
        (fun t' ht' => hcells.exists_trie h hb ht')
        (fun b₀ hb₀ => hcells.other_bucket h hp hne hb₀) fun t' ht' => ih ht'
    rcases hcells.trie h hb ht with rfl | ⟨ha, ht'⟩
    · rw [hp] at ht
      cases ht
      by_cases hc : c = b.c0
      · subst hc
        have hxc : Function.update p.xs b.c0 T.next b.c0 = T.next := Function.update_self ..
        have hbx : T.cell (p.xs b.c0) = some (.bucket b) := by
          rw [hx]
          exact hb
        rw [denoteFrom_bucket hp hbx, isPure_of_pure hflag, if_pos rfl,
          denoteFrom_trie hcells.parent ((congrArg T'.cell hxc).trans hcells.new)]
        show denoteFrom T' (Function.update p.xs b.c0 T.next b.c0) k = _
        rw [hxc]
        exact hcells.denote_new hxs hnew hflag' hcontents
      · exact hsame _ hcells.parent (ne_of_ne h hp hb hflag hx hp fun h => hc h.2)
          (Function.update_of_ne hc ..)
    · exact hsame t ht' (ne_of_ne h hp hb hflag hx ht fun h => ha h.1) rfl

/-- A pure split keeps the invariant and the map. -/
theorem splits (h : Ok T path) (hp : T.cell P = some (.trie p))
    (hb : T.cell x = some (.bucket b)) (hflag : b.flag = nodeTypePureBucket)
    (hx : p.xs b.c0 = x) (hcells : PureCells T T' P x p new b b')
    (hxs : new.xs = fun _ => x) (hnew : (if new.hasVal then some new.val else none) = contents b [])
    (hblank : new.hasVal = false → new.val = 0) (hok : BucketOk b')
    (hc0 : b'.c0 = 0x00) (hc1 : b'.c1 = nodeMaxchar) (hflag' : b'.flag = nodeTypeHybridBucket)
    (hcontents : contents b' = Function.update (contents b) [] none) :
    Splits T T' path (downPath T path x) where
  ok := hcells.ok h hp hb hflag hx hxs hblank hok hc0 hc1 hflag' hcontents
  root := hcells.root
  m := hcells.m
  keeps _ _ ht := ⟨hcells.exists_trie h hb ht, downPath_old h ht⟩
  denote _ _ ht _ := hcells.denote_eq h hp hb hflag hx hxs hnew hflag' hcontents ht

/-- What a pure split leads to, once the new node has its value and the bucket is without the empty
key. -/
theorem leads {b₁ : AhTable} (h : Ok T path) (hp : T.cell P = some (.trie p))
    (hb : T.cell x = some (.bucket b)) (hflag : b.flag = nodeTypePureBucket)
    (hx : p.xs b.c0 = x) (hcells : PureCells T T' P x p new b
      { b₁ with c0 := 0x00, c1 := nodeMaxchar, flag := nodeTypeHybridBucket })
    (hxs : new.xs = fun _ => x) (hnew : (if new.hasVal then some new.val else none) = contents b [])
    (hblank : new.hasVal = false → new.val = 0)
    (hrep : Represents b₁ (Function.update (contents b) [] none)) (hm : b₁.m ≤ b.m) :
    Splits T T' path (downPath T path x) ∧
      (∀ a t, T'.cell a = some (.trie t) → (∃ t', T.cell a = some (.trie t')) ∨
        downPath T path x a = path x) ∧
      ∃ p' t', T'.cell P = some (.trie p') ∧ T'.cell (p'.xs b.c0) = some (.trie t') ∧
        ∀ d, ∃ b', T'.cell (t'.xs d) = some (.bucket b') ∧ b'.flag = nodeTypeHybridBucket := by
  have hrep' : Represents { b₁ with c0 := 0x00, c1 := nodeMaxchar, flag := nodeTypeHybridBucket }
      (Function.update (contents b) [] none) := hrep.setRange nodeTypeHybridBucket 0x00 nodeMaxchar
  have hcontents := hrep'.contents_eq
  have hok : BucketOk
      { b₁ with c0 := 0x00, c1 := nodeMaxchar, flag := nodeTypeHybridBucket } :=
    ⟨hcontents ▸ hrep', Nat.le_trans hm (h.bucket hb).1.size⟩
  refine ⟨hcells.splits h hp hb hflag hx hxs hnew hblank hok rfl rfl rfl hcontents, ?_, _, new,
    hcells.parent, ?_, ?_⟩
  · intro a t ht
    rcases hcells.trie_old hp ht with rfl | hold
    · exact .inr downPath_new
    · exact .inl hold
  · exact (congrArg T'.cell (Function.update_self b.c0 T.next p.xs)).trans hcells.new
  · intro d
    exact ⟨_, (congrArg T'.cell (congrFun hxs d)).trans hcells.bucket, rfl⟩

end PureCells

/-- **`hattrie_split` of a pure bucket.** -/
theorem splitPure_spec (h : Ok T path) (hp : T.cell P = some (.trie p))
    (hb : T.cell x = some (.bucket b)) (hflag : b.flag = nodeTypePureBucket)
    (hx : p.xs c = x) :
    ∃ T' path', splitPure T P x p b = some T' ∧ Splits T T' path path' ∧
      (∀ a t, T'.cell a = some (.trie t) → (∃ t', T.cell a = some (.trie t')) ∨
        path' a = path x) ∧
      ∃ p' t', T'.cell P = some (.trie p') ∧ T'.cell (p'.xs c) = some (.trie t') ∧
        ∀ d, ∃ b', T'.cell (t'.xs d) = some (.bucket b') ∧ b'.flag = nodeTypeHybridBucket := by
  obtain ⟨hok, -⟩ := h.bucket hb
  obtain ⟨-, rfl⟩ := h.parent_pure hb hflag hp hx
  have hxnext : x ≠ T.next := Nat.ne_of_lt (h.lt_next hb)
  have hPnext : P ≠ T.next := Nat.ne_of_lt (h.lt_next hp)
  have hPx : P ≠ x := by
    rintro rfl
    rw [hp] at hb
    cases hb
  obtain ⟨r, htryget, hnone, hpoints⟩ := hok.rep.tryget []
  cases r with
  | none =>
    -- the bucket has no empty key, and the new node no value
    have hempty : contents b [] = none := hnone.mpr rfl
    have hcells : PureCells T
        (((T.alloc (.trie (newTrieNode x))).set P
          (some (.trie { p with xs := Function.update p.xs b.c0 T.next }))).set x
            (some (.bucket { b with c0 := 0x00, c1 := nodeMaxchar, flag := nodeTypeHybridBucket })))
        P x p (newTrieNode x) b
          { b with c0 := 0x00, c1 := nodeMaxchar, flag := nodeTypeHybridBucket } := by
      refine ⟨rfl, rfl, rfl, ?_, ?_, cell_set_self _ _ _, ?_⟩
      · rw [cell_set_of_ne hPx, cell_set_self]
      · rw [cell_set_of_ne hxnext.symm, cell_set_of_ne hPnext.symm]
        exact Function.update_self ..
      · intro a hax haP han
        rw [cell_set_of_ne hax, cell_set_of_ne haP]
        exact Function.update_of_ne han _ _
    refine ⟨_, _, ?_, hcells.leads h hp hb hflag hx rfl (by rw [hempty]; rfl) (fun _ => rfl) ?_
      (Nat.le_refl _)⟩
    · unfold splitPure
      simp only [htryget, Option.bind_eq_bind, Option.bind_some]
    · rw [← hempty, Function.update_eq_self]
      exact hok.rep
  | some l =>
    -- the value of the empty key moves to the new node
    have hl := hpoints l rfl
    obtain ⟨hload, hne⟩ := hl.load
    obtain ⟨v, hv⟩ := Option.ne_none_iff_exists'.mp hne
    obtain ⟨b₁, hstore, hrep₁, hm₁, -⟩ := hl.store 0
    obtain ⟨b₂, hdel, hrep₂, hm₂, -⟩ := hrep₁.del []
    rw [Function.update_idem] at hrep₂
    rw [hv] at hload
    have hcells : PureCells T
        ((((T.alloc (.trie (newTrieNode x))).set P
          (some (.trie { p with xs := Function.update p.xs b.c0 T.next }))).set T.next
            (some (.trie ⟨true, v, fun _ => x⟩))).set x
              (some (.bucket
                { b₂ with c0 := 0x00, c1 := nodeMaxchar, flag := nodeTypeHybridBucket })))
        P x p ⟨true, v, fun _ => x⟩ b
          { b₂ with c0 := 0x00, c1 := nodeMaxchar, flag := nodeTypeHybridBucket } := by
      refine ⟨rfl, rfl, rfl, ?_, ?_, cell_set_self _ _ _, ?_⟩
      · rw [cell_set_of_ne hPx, cell_set_of_ne hPnext, cell_set_self]
      · rw [cell_set_of_ne hxnext.symm, cell_set_self]
      · intro a hax haP han
        rw [cell_set_of_ne hax, cell_set_of_ne han, cell_set_of_ne haP]
        exact Function.update_of_ne han _ _
    refine ⟨_, _, ?_, hcells.leads h hp hb hflag hx rfl (by rw [hv]; rfl) (by simp) hrep₂
      (by omega)⟩
    unfold splitPure
    simp only [htryget, hload, hstore, hdel, Option.bind_eq_bind, Option.bind_some]

/-- What a split leads to, at the pointer to the bucket: a smaller range, or a trie node above
hybrid buckets. -/
inductive Closer (T' : Trie) (P : Addr) (c : UInt8) (b : AhTable) : Prop where
  | range (p' : TrieNode) (b' : AhTable) (hp : T'.cell P = some (.trie p'))
      (hb : T'.cell (p'.xs c) = some (.bucket b'))
      (hflag : b.flag = nodeTypeHybridBucket)
      (hlt : b'.c1.toNat - b'.c0.toNat < b.c1.toNat - b.c0.toNat)
  | down (p' t' : TrieNode) (hp : T'.cell P = some (.trie p'))
      (ht : T'.cell (p'.xs c) = some (.trie t'))
      (hbelow : ∀ d, ∃ b', T'.cell (t'.xs d) = some (.bucket b') ∧
        b'.flag = nodeTypeHybridBucket)

/-- **`hattrie_split`.** A new trie node is where a pure bucket was. -/
theorem hattrieSplit_spec (h : Ok T path) (hp : T.cell P = some (.trie p))
    (hb : T.cell (p.xs c) = some (.bucket b)) :
    ∃ T' path', hattrieSplit T P (p.xs c) = some T' ∧ Splits T T' path path' ∧
      (∀ a t, T'.cell a = some (.trie t) → (∃ t', T.cell a = some (.trie t')) ∨
        b.flag = nodeTypePureBucket ∧ path' a = path (p.xs c)) ∧
      Closer T' P c b := by
  have hstep : hattrieSplit T P (p.xs c) =
      if b.isPure then splitPure T P (p.xs c) p b
      else if b.isHybrid then splitHybrid T P (p.xs c) p b else none := by
    unfold hattrieSplit
    simp only [bucketAt_eq_some.mpr hb, trieAt_eq_some.mpr hp, Option.bind_eq_bind,
      Option.bind_some]
  rw [hstep]
  cases h.child P p hp c with
  | trie t' hcell =>
    rw [hcell] at hb
    cases hb
  | pure b₀ hcell _ hflag =>
    rw [hcell] at hb
    cases hb
    obtain ⟨T', path', hsplit, hs, hnew, p', t', hp', ht', hbelow⟩ :=
      splitPure_spec h hp hcell hflag rfl
    refine ⟨T', path', ?_, hs, fun a t ht => (hnew a t ht).imp_right fun h => ⟨hflag, h⟩,
      .down p' t' hp' ht' hbelow⟩
    rw [isPure_of_pure hflag, if_pos rfl]
    exact hsplit
  | hybrid b₀ hcell _ hflag =>
    rw [hcell] at hb
    cases hb
    obtain ⟨T', path', hsplit, hs, hnew, p', b', hp', hb', hlt⟩ :=
      splitHybrid_spec h hp hcell hflag rfl
    refine ⟨T', path', ?_, hs, fun a t ht => .inl (hnew a t ht), .range p' b' hp' hb' hflag hlt⟩
    rw [isPure_of_hybrid hflag, isHybrid_of_hybrid hflag, if_neg Bool.false_ne_true, if_pos rfl]
    exact hsplit

end

end Ayubd.HatTrie
