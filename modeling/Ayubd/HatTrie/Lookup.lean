import Ayubd.HatTrie.TrieInv

/-!
# Ayubd — looking up and deleting in a hat-trie

An operation that has found the place of a key changes the trie in one node. What this does to the
keys is said once for a bucket and once for a trie node (`denote_bucket_update`,
`denote_node_update`); `Refers T r key` says that a pointer leads to the value of a key.

`hattrie_tryget` and `hattrie_del` walk down to the last character of the key and look at the node
it leads to. They are right for every key that is not empty (`hattrieTryget_spec`,
`hattrieDel_spec`).
-/

namespace Ayubd.HatTrie

section
variable {T T' : Trie} {path : Addr → Bytes} {x : Addr} {t t' : TrieNode} {b b' : AhTable}
  {key s : Bytes} {new : Option Value} {r : Ref} {v : Value} {l : Loc}

/-- A change in a bucket. -/
theorem denote_bucket_update (h : Ok T path) (hshape : SameShape T T')
    (hkey : place T T.root key = some (.bucket x s)) (hb : T.cell x = some (.bucket b))
    (hb' : T'.cell x = some (.bucket b')) (hother : ∀ a, a ≠ x → T'.cell a = T.cell a)
    (hcontents : contents b' = Function.update (contents b) s new) :
    denote T' = Function.update (denote T) key new := by
  have hvalue : ∀ p, p ≠ .bucket x s → IsPlace T p → valueAt T' p = valueAt T p := by
    intro p hne hp
    cases hp with
    | @node a t ht =>
      have ha : a ≠ x := by
        rintro rfl
        rw [ht] at hb
        cases hb
      rw [valueAt_node ht, valueAt_node ((hother a ha).trans ht)]
    | @bucket a b₀ s' hb₀ =>
      by_cases ha : a = x
      · subst ha
        rw [hb] at hb₀
        cases hb₀
        have hs : s' ≠ s := fun heq => hne (by rw [heq])
        rw [valueAt_bucket hb, valueAt_bucket hb', hcontents, Function.update_of_ne hs]
      · rw [valueAt_bucket hb₀, valueAt_bucket ((hother a ha).trans hb₀)]
  funext k
  obtain ⟨p, hp, -, hplace⟩ := h.exists_place k
  have hleft : denote T' k = valueAt T' p := by
    rw [denote, denoteFrom, hshape.place_root h, hp, Option.bind_some]
  by_cases hk : k = key
  · subst hk
    rw [hkey] at hp
    cases hp
    rw [hleft, Function.update_self, valueAt_bucket hb', hcontents, Function.update_self]
  · have hne : p ≠ .bucket x s := by
      rintro rfl
      exact hk (h.place_inj hp hkey)
    rw [hleft, Function.update_of_ne hk, hvalue p hne hplace, denote, denoteFrom, hp,
      Option.bind_some]

/-- A change of the value of a trie node. -/
theorem denote_node_update (h : Ok T path) (hshape : SameShape T T')
    (hkey : place T T.root key = some (.node x)) (ht' : T'.cell x = some (.trie t'))
    (hother : ∀ a, a ≠ x → T'.cell a = T.cell a)
    (hnew : (if t'.hasVal then some t'.val else none) = new) :
    denote T' = Function.update (denote T) key new := by
  obtain ⟨t, ht, -⟩ := hshape.symm.trie ht'
  have hvalue : ∀ p, p ≠ .node x → IsPlace T p → valueAt T' p = valueAt T p := by
    intro p hne hp
    cases hp with
    | @node a t₀ ht₀ =>
      have ha : a ≠ x := fun heq => hne (by rw [heq])
      rw [valueAt_node ht₀, valueAt_node ((hother a ha).trans ht₀)]
    | @bucket a b₀ s' hb₀ =>
      have ha : a ≠ x := by
        rintro rfl
        rw [ht] at hb₀
        cases hb₀
      rw [valueAt_bucket hb₀, valueAt_bucket ((hother a ha).trans hb₀)]
  funext k
  obtain ⟨p, hp, -, hplace⟩ := h.exists_place k
  have hleft : denote T' k = valueAt T' p := by
    rw [denote, denoteFrom, hshape.place_root h, hp, Option.bind_some]
  by_cases hk : k = key
  · subst hk
    rw [hkey] at hp
    cases hp
    rw [hleft, Function.update_self, valueAt_node ht', hnew]
  · have hne : p ≠ .node x := by
      rintro rfl
      exact hk (h.place_inj hp hkey)
    rw [hleft, Function.update_of_ne hk, hvalue p hne hplace, denote, denoteFrom, hp,
      Option.bind_some]

theorem denote_node (hkey : place T T.root key = some (.node x))
    (ht : T.cell x = some (.trie t)) :
    denote T key = if t.hasVal then some t.val else none := by
  rw [denote, denoteFrom, hkey]
  exact valueAt_node ht

theorem denote_bucket (hkey : place T T.root key = some (.bucket x s))
    (hb : T.cell x = some (.bucket b)) : denote T key = contents b s := by
  rw [denote, denoteFrom, hkey]
  exact valueAt_bucket hb s

/-! ## Pointers to values -/

/-- A pointer to the value of a key. -/
inductive Refers (T : Trie) (key : Bytes) : Ref → Prop where
  | node {x : Addr} {t : TrieNode} (hkey : place T T.root key = some (.node x))
      (ht : T.cell x = some (.trie t)) (hval : t.hasVal = true) : Refers T key (.node x)
  | slot {x : Addr} {s : Bytes} {b : AhTable} {l : Loc}
      (hkey : place T T.root key = some (.bucket x s)) (hb : T.cell x = some (.bucket b))
      (hl : Points b (contents b) l s) : Refers T key (.slot x l)

theorem Refers.load (h : Refers T key r) : T.load r = denote T key ∧ denote T key ≠ none := by
  cases h with
  | node hkey ht hval =>
    rw [denote_node hkey ht, if_pos hval, Trie.load, trieAt_eq_some.mpr ht]
    exact ⟨rfl, Option.some_ne_none _⟩
  | slot hkey hb hl =>
    rw [denote_bucket hkey hb, Trie.load, bucketAt_eq_some.mpr hb]
    exact hl.load

/-- **A store through a pointer** changes the value of its key. -/
theorem Refers.store (h : Ok T path) (hr : Refers T key r) (v : Value) :
    ∃ T', T.store r v = some T' ∧ Ok T' path ∧ SameShape T T' ∧
      denote T' = Function.update (denote T) key (some v) ∧ T'.m = T.m := by
  cases hr with
  | @node x t hkey ht hval =>
    refine ⟨T.set x (some (.trie { t with val := v })), ?_, ?_, sameShape_set ht rfl, ?_, rfl⟩
    · rw [Trie.store, trieAt_eq_some.mpr ht]
      rfl
    · exact h.setVal ht t.hasVal v fun hfalse => absurd (hval.symm.trans hfalse) (by decide)
    · refine denote_node_update h (sameShape_set ht rfl) hkey (cell_set_self _ _ _)
        (fun a ha => cell_set_of_ne ha _) ?_
      rw [if_pos hval]
  | @slot x s b l hkey hb hl =>
    obtain ⟨b', hstore, hrep, hm, hrange⟩ := hl.store v
    have hcontents := hrep.contents_eq
    have hshape : SameShape T (T.set x (some (.bucket b'))) := by
      refine sameShape_set hb ?_
      show Sum.inr b'.isPure = Sum.inr b.isPure
      rw [AhTable.isPure, AhTable.isPure, hrange.1]
    refine ⟨T.set x (some (.bucket b')), ?_, ?_, hshape, ?_, rfl⟩
    · rw [Trie.store, bucketAt_eq_some.mpr hb]
      simp only [Option.bind_eq_bind, Option.bind_some, hstore]
    · have hok : BucketOk b ∧ (b.flag = nodeTypeHybridBucket → KeysWithin b) := h.bucket hb
      refine h.setBucket hb ⟨hcontents ▸ hrep, hm ▸ hok.1.size⟩ hrange fun hflag => ?_
      intro k w hk
      rw [hcontents] at hk
      by_cases hks : k = s
      · obtain ⟨u, hu⟩ := Option.ne_none_iff_exists'.mp hl.load.2
        rw [hrange.2.1, hrange.2.2, hks]
        exact hok.2 hflag s u hu
      · rw [Function.update_of_ne hks] at hk
        rw [hrange.2.1, hrange.2.2]
        exact hok.2 hflag k w hk
    · exact denote_bucket_update h hshape hkey hb (cell_set_self _ _ _)
        (fun a ha => cell_set_of_ne ha _) hcontents

/-! ## `hattrie_find` -/

/-- Walking down to the last character of a key leads to its place. -/
theorem consume_last (h : Ok T path) {a : Addr} (ht : T.cell a = some (.trie t)) {k : Bytes}
    (hk : k ≠ []) :
    ∃ p k' x, hattrieConsume T 1 0 a k = some (p, k', x) ∧
      ((∃ t', T.cell x = some (.trie t') ∧ place T a k = some (.node x)) ∨
        ∃ b, T.cell x = some (.bucket b) ∧
          place T a k = some (.bucket x (if b.isPure then k'.tail else k'))) := by
  induction k generalizing a t with
  | nil => exact absurd rfl hk
  | cons c k ih =>
    have hbucket : ∀ b, T.cell (t.xs c) = some (.bucket b) →
        hattrieConsume T 1 0 a (c :: k) = some (a, c :: k, t.xs c) ∧
          place T a (c :: k) = some (.bucket (t.xs c) (if b.isPure then k else c :: k)) := by
      intro b hb
      refine ⟨?_, place_bucket ht hb⟩
      rw [hattrieConsume, trieAt_eq_some.mpr ht]
      simp only [Option.bind_eq_bind, Option.bind_some, hb]
    cases h.child a t ht c with
    | trie t' hcell =>
      have hstep : hattrieConsume T 1 0 a (c :: k) =
          if 1 < (c :: k).length then hattrieConsume T 1 0 (t.xs c) k
          else some (a, c :: k, t.xs c) := by
        rw [hattrieConsume, trieAt_eq_some.mpr ht]
        simp only [Option.bind_eq_bind, Option.bind_some, hcell]
      rw [hstep, place_trie ht hcell]
      cases k with
      | nil => exact ⟨a, [c], t.xs c, rfl, .inl ⟨t', hcell, place_nil hcell⟩⟩
      | cons d k =>
        rw [if_pos (by simp)]
        exact ih hcell (List.cons_ne_nil d k)
    | pure b hcell =>
      obtain ⟨hconsume, hplace⟩ := hbucket b hcell
      exact ⟨a, c :: k, t.xs c, hconsume, .inr ⟨b, hcell, hplace⟩⟩
    | hybrid b hcell =>
      obtain ⟨hconsume, hplace⟩ := hbucket b hcell
      exact ⟨a, c :: k, t.xs c, hconsume, .inr ⟨b, hcell, hplace⟩⟩

/-- `hattrie_find` for a key which ends at a trie node. -/
theorem hattrieFind_node (h : Ok T path) (hne : key ≠ [])
    (hkey : place T T.root key = some (.node x)) (ht : T.cell x = some (.trie t)) :
    ∃ k, hattrieFind T key = some (if t.hasVal then some (x, k) else none) := by
  obtain ⟨t₀, ht₀⟩ := h.root
  obtain ⟨p, k, y, hconsume, ⟨t', ht', hplace⟩ | ⟨b, hb, hplace⟩⟩ := consume_last h ht₀ hne
  · rw [hkey] at hplace
    cases hplace
    rw [ht] at ht'
    cases ht'
    refine ⟨k, ?_⟩
    unfold hattrieFind
    simp only [trieAt_eq_some.mpr ht₀, if_neg hne, hconsume, ht, Option.bind_eq_bind,
      Option.bind_some]
  · rw [hkey] at hplace
    cases hplace

theorem hattrieFind_bucket (h : Ok T path) (hne : key ≠ [])
    (hkey : place T T.root key = some (.bucket x s)) :
    hattrieFind T key = some (some (x, s)) := by
  obtain ⟨t₀, ht₀⟩ := h.root
  obtain ⟨p, k, y, hconsume, ⟨t', ht', hplace⟩ | ⟨b, hb, hplace⟩⟩ := consume_last h ht₀ hne
  · rw [hkey] at hplace
    cases hplace
  · rw [hkey] at hplace
    cases hplace
    unfold hattrieFind
    simp only [trieAt_eq_some.mpr ht₀, if_neg hne, hconsume, hb, Option.bind_eq_bind,
      Option.bind_some]

/-! ## Lookup and deletion -/

/-- **`hattrie_tryget`** finds a key and changes nothing. -/
theorem hattrieTryget_spec (h : Ok T path) (hne : key ≠ []) :
    ∃ r, hattrieTryget T key = some r ∧ (denote T key = none ↔ r = none) ∧
      ∀ ref ∈ r, Refers T key ref := by
  obtain ⟨p, hkey, -, hplace⟩ := h.exists_place key
  cases hplace with
  | @node x t ht =>
    obtain ⟨k, hfind⟩ := hattrieFind_node h hne hkey ht
    rw [denote_node hkey ht]
    unfold hattrieTryget
    rw [hfind]
    cases hval : t.hasVal with
    | false => exact ⟨none, rfl, by simp, nofun⟩
    | true =>
      refine ⟨some (.node x), ?_, by simp, ?_⟩
      · simp only [if_true, Option.bind_eq_bind, Option.bind_some, ht]
      · intro ref href
        cases href
        exact .node hkey ht hval
  | @bucket x b s hb =>
    obtain ⟨r, htryget, hnone, hpoints⟩ := (h.bucket hb).1.rep.tryget s
    rw [denote_bucket hkey hb]
    unfold hattrieTryget
    rw [hattrieFind_bucket h hne hkey]
    refine ⟨r.map (Ref.slot x), ?_, ?_, ?_⟩
    · simp only [Option.bind_eq_bind, Option.bind_some, hb, htryget, Option.map_some]
    · rw [hnone, Option.map_eq_none_iff]
    · intro ref href
      obtain ⟨l, hl, rfl⟩ := Option.map_eq_some_iff.mp href
      exact .slot hkey hb (hpoints l hl)

/-- **`hattrie_del`** removes a key. -/
theorem hattrieDel_spec (h : Ok T path) (hne : key ≠ []) :
    ∃ T', hattrieDel T key = some (T', (denote T key).isSome) ∧ Ok T' path ∧ SameShape T T' ∧
      denote T' = Function.update (denote T) key none ∧
      T'.m = countSub T.m (if denote T key = none then 0 else 1) := by
  obtain ⟨p, hkey, -, hplace⟩ := h.exists_place key
  cases hplace with
  -- the key ends at a trie node, which keeps its place and loses its value
  | @node x t ht =>
    obtain ⟨k, hfind⟩ := hattrieFind_node h hne hkey ht
    have hdenote := denote_node hkey ht
    unfold hattrieDel
    rw [hfind]
    cases hval : t.hasVal with
    | false =>
      rw [hval, if_neg Bool.false_ne_true] at hdenote
      refine ⟨T, ?_, h, ⟨rfl, fun _ => rfl⟩, ?_, ?_⟩
      · rw [hdenote]
        rfl
      · rw [← hdenote, Function.update_eq_self]
      · rw [hdenote]
        simp [countSub]
    | true =>
      rw [hval, if_pos rfl] at hdenote
      have hok := h.setVal ht false 0 fun _ => rfl
      have hshape : SameShape T (T.set x (some (.trie ⟨false, 0, t.xs⟩))) := sameShape_set ht rfl
      have hcell : (T.set x (some (.trie ⟨false, 0, t.xs⟩))).cell x =
          some (.trie ⟨false, 0, t.xs⟩) := cell_set_self _ _ _
      have hother : ∀ a, a ≠ x → (T.set x (some (.trie ⟨false, 0, t.xs⟩))).cell a = T.cell a :=
        fun a ha => cell_set_of_ne ha _
      refine ⟨{ T.set x (some (.trie ⟨false, 0, t.xs⟩)) with m := countSub T.m 1 }, ?_,
        hok.withM _, hshape.withM _, ?_, ?_⟩
      · rw [hdenote]
        simp only [if_true, Option.bind_eq_bind, Option.bind_some, ht, hattrieClrval,
          trieAt_eq_some.mpr ht, hval, Option.isSome_some]
      · exact denote_node_update h (hshape.withM _) hkey hcell hother rfl
      · rw [hdenote]
        rfl
  -- the key is in a bucket, which is left with one key fewer
  | @bucket x b s hb =>
    obtain ⟨hok, hkeys⟩ := h.bucket hb
    obtain ⟨b', hdel, hrep, hm, hrange⟩ := hok.rep.del s
    have hcontents := hrep.contents_eq
    have hshape : SameShape T (T.set x (some (.bucket b'))) := by
      refine sameShape_set hb ?_
      show Sum.inr b'.isPure = Sum.inr b.isPure
      rw [AhTable.isPure, AhTable.isPure, hrange.1]
    have hok' : Ok (T.set x (some (.bucket b'))) path := by
      have hsize := hok.size
      refine h.setBucket hb ⟨hcontents ▸ hrep, by omega⟩ hrange fun hflag k w hk => ?_
      rw [hcontents] at hk
      -- no other key of the bucket has changed, so its range is kept
      have hks : k ≠ s := by
        rintro rfl
        rw [Function.update_self] at hk
        cases hk
      rw [Function.update_of_ne hks] at hk
      rw [hrange.2.1, hrange.2.2]
      exact hkeys hflag k w hk
    have hcell : (T.set x (some (.bucket b'))).cell x = some (.bucket b') := cell_set_self _ _ _
    have hother : ∀ a, a ≠ x → (T.set x (some (.bucket b'))).cell a = T.cell a :=
      fun a ha => cell_set_of_ne ha _
    have hdenote := denote_bucket hkey hb
    refine ⟨{ T.set x (some (.bucket b')) with
        m := countSub T.m (ahtableSize b - ahtableSize b') }, ?_,
      hok'.withM _, hshape.withM _, ?_, ?_⟩
    · unfold hattrieDel
      rw [hattrieFind_bucket h hne hkey, hdenote]
      simp only [Option.bind_eq_bind, Option.bind_some, hb, hdel]
    · exact denote_bucket_update h (hshape.withM _) hkey hb hcell hother hcontents
    · have hdiff : ahtableSize b - ahtableSize b' = if denote T key = none then 0 else 1 := by
        rw [hdenote]
        unfold ahtableSize
        omega
      rw [hdiff]

end

end Ayubd.HatTrie
