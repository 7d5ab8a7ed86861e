import Ayubd.HatTrie.Lookup

/-!
# Ayubd — cutting a full bucket in two

`hattrie_split` chooses a split point in the range of a hybrid bucket and deals the keys out to two
new buckets, for the characters up to the point and for those behind it. Wherever the point is, it
leaves two ranges that are not empty (`splitPoint_range`), and the new buckets hold together what
the old one held (`half_distribute`, `Half.contents_eq`).
-/

namespace Ayubd.HatTrie

/-! ## The split point -/

section
variable {cs : UInt8 → UInt32} {allM : UInt32}

/-- The split point stays in the range. -/
theorem choosePoint_range (cs : UInt8 → UInt32) (allM : UInt32) (between : Nat) (j : UInt8)
    (leftM rightM : UInt32) (hj : j.toNat + between < 256) :
    j ≤ (choosePoint cs allM between (j, leftM, rightM)).1 ∧
      (choosePoint cs allM between (j, leftM, rightM)).1.toNat ≤ j.toNat + between := by
  induction between generalizing j leftM rightM with
  | zero => exact ⟨UInt8.le_refl j, Nat.le_refl _⟩
  | succ between ih =>
    have hnext : (j + 1).toNat = j.toNat + 1 := by
      rw [UInt8.toNat_add]
      exact Nat.mod_eq_of_lt (by show j.toNat + 1 < 256; omega)
    rw [choosePoint]
    split
    · obtain ⟨hle, hlt⟩ := ih (j + 1) (leftM + cs (j + 1)) (rightM - cs (j + 1)) (by omega)
      rw [UInt8.le_iff_toNat_le] at hle ⊢
      omega
    · exact ⟨UInt8.le_refl j, Nat.le_add_right _ _⟩

end

/-- The range of a bucket is cut into two that are not empty. -/
theorem splitPoint_range (b : AhTable) (es : List Entry) (hlt : b.c0 < b.c1) :
    b.c0 ≤ (splitPoint b es).1 ∧ (splitPoint b es).1 < b.c1 := by
  have hbound := b.c1.toNat_lt
  rw [UInt8.lt_iff_toNat_lt] at hlt ⊢
  obtain ⟨hle, hpoint⟩ := choosePoint_range (countFirst es) b.m.toUInt32
    (b.c1.toNat - (b.c0.toNat + 1)) b.c0 (countFirst es b.c0)
    (b.m.toUInt32 - countFirst es b.c0) (by omega)
  refine ⟨hle, ?_⟩
  show (choosePoint (countFirst es) b.m.toUInt32 (b.c1.toNat - (b.c0.toNat + 1))
    (b.c0, countFirst es b.c0, b.m.toUInt32 - countFirst es b.c0)).1.toNat < b.c1.toNat
  omega

/-! ## Dealing the keys out -/

section
variable {b b' : AhTable} {lo hi c : UInt8} {k : Bytes} {u : Value} {es dealt rest : List Entry}
  {f : Bytes → Option Value}

/-- The range and the flag of a bucket are no part of its map. -/
theorem Represents.setRange (h : Represents b f) (flag c0 c1 : UInt8) :
    Represents { b with flag := flag, c0 := c0, c1 := c1 } f := by
  obtain ⟨rows, hrows, hf⟩ := h
  exact ⟨rows, ⟨hrows.pos, hrows.length, hrows.sizes, hrows.slots, hrows.short, hrows.hashed,
    hrows.nodup, hrows.count⟩, hf⟩

/-- The key under which a bucket holds `c :: k`. -/
def bucketKey (b : AhTable) (c : UInt8) (k : Bytes) : Bytes := if b.isPure then k else c :: k

/-- A new bucket for a range, which holds the entries of that range that have been dealt out. -/
structure Half (b : AhTable) (lo hi : UInt8) (dealt : List Entry) : Prop where
  c0 : b.c0 = lo
  c1 : b.c1 = hi
  flag : b.flag = if lo = hi then nodeTypePureBucket else nodeTypeHybridBucket
  rep : Represents b (contents b)
  mem : ∀ s v, contents b s = some v ↔
    ∃ c k, (c :: k, v) ∈ dealt ∧ lo ≤ c ∧ c ≤ hi ∧ s = bucketKey b c k
  size : b.m ≤ dealt.length

/-- A bucket tells the keys of its range apart. -/
theorem bucketKey_inj (hflag : b.flag = if lo = hi then nodeTypePureBucket
      else nodeTypeHybridBucket) {c' : UInt8} {k' : Bytes} (hlo : lo ≤ c) (hhi : c ≤ hi)
    (hlo' : lo ≤ c') (hhi' : c' ≤ hi) (h : bucketKey b c k = bucketKey b c' k') :
    c = c' ∧ k = k' := by
  unfold bucketKey at h
  by_cases heq : lo = hi
  · subst heq
    rw [if_pos rfl] at hflag
    rw [isPure_of_pure hflag, if_pos rfl, if_pos rfl] at h
    exact ⟨(UInt8.le_antisymm hhi hlo).trans (UInt8.le_antisymm hhi' hlo').symm, h⟩
  · rw [if_neg heq] at hflag
    rw [isPure_of_hybrid hflag, if_neg Bool.false_ne_true, if_neg Bool.false_ne_true] at h
    exact List.cons.inj h

theorem half_new (m : UInt32) (lo hi : UInt8) : Half (newBucket m lo hi) lo hi [] := by
  have hpos : 0 < numSlots m 4 ahtableInitialSize := by
    have hgrow : ∀ fuel n, 0 < n → 0 < numSlots m fuel n := by
      intro fuel
      induction fuel with
      | zero =>
        intro n hn
        exact hn
      | succ fuel ih =>
        intro n hn
        rw [numSlots]
        split
        · exact ih (2 * n) (by omega)
        · exact hn
    exact hgrow 4 ahtableInitialSize (by decide)
  have hrep : Represents (newBucket m lo hi) fun _ => none :=
    (represents_create hpos).setRange
      (if lo = hi then nodeTypePureBucket else nodeTypeHybridBucket) lo hi
  refine ⟨rfl, rfl, rfl, ?_, ?_, Nat.le_refl _⟩
  · rw [hrep.contents_eq]
    exact hrep
  · intro s v
    rw [hrep.contents_eq]
    exact iff_of_false nofun nofun

/-- **One key is put into the bucket of its range.** -/
theorem Half.put (h : Half b lo hi dealt) (hlo : lo ≤ c) (hhi : c ≤ hi)
    (hnew : ∀ v, (c :: k, v) ∉ dealt) (hlen : (c :: k).length ≤ maxKey) :
    ∃ b', putEntry b c k u = some b' ∧ Half b' lo hi (dealt ++ [(c :: k, u)]) := by
  have hkey : (bucketKey b c k).length ≤ maxKey := by
    rw [List.length_cons] at hlen
    unfold bucketKey
    split
    · omega
    · exact hlen
  obtain ⟨b₁, l, hget, hpoints, hm₁, hrange₁⟩ := h.rep.get hkey
  obtain ⟨b', hstore, hrep, hm, hrange⟩ := hpoints.store u
  rw [Function.update_idem] at hrep
  have hcontents := hrep.contents_eq
  have hflag : b'.flag = b.flag := hrange.1.trans hrange₁.1
  -- the table keeps its flag, so keys are stored in the same form as before
  have hbucketKey : ∀ c k, bucketKey b' c k = bucketKey b c k := by
    intro c k
    unfold bucketKey AhTable.isPure
    rw [hflag]
  refine ⟨b', ?_, hrange.2.1.trans (hrange₁.2.1.trans h.c0),
    hrange.2.2.trans (hrange₁.2.2.trans h.c1), hflag.trans h.flag, hcontents ▸ hrep, ?_, ?_⟩
  · unfold putEntry
    unfold bucketKey at hget
    simp only [hget, Option.bind_eq_bind, Option.bind_some]
    exact hstore
  · intro s v
    rw [hcontents]
    constructor
    · intro hs
      by_cases hsk : s = bucketKey b c k
      · subst hsk
        rw [Function.update_self] at hs
        cases hs
        exact ⟨c, k, List.mem_append_right _ (List.mem_singleton.mpr rfl), hlo, hhi,
          (hbucketKey c k).symm⟩
      · rw [Function.update_of_ne hsk] at hs
        obtain ⟨c', k', hmem, hlo', hhi', rfl⟩ := (h.mem s v).mp hs
        exact ⟨c', k', List.mem_append_left _ hmem, hlo', hhi', (hbucketKey c' k').symm⟩
    · rintro ⟨c', k', hmem, hlo', hhi', rfl⟩
      rw [hbucketKey]
      rcases List.mem_append.mp hmem with hold | hmem
      · -- within the range a stored key belongs to one key only
        have hne : bucketKey b c' k' ≠ bucketKey b c k := by
          intro heq
          obtain ⟨rfl, rfl⟩ := bucketKey_inj h.flag hlo' hhi' hlo hhi heq
          exact hnew v hold
        rw [Function.update_of_ne hne]
        exact (h.mem _ v).mpr ⟨c', k', hold, hlo', hhi', rfl⟩
      · have heq := List.mem_singleton.mp hmem
        rw [Prod.mk.injEq, List.cons.injEq] at heq
        obtain ⟨⟨rfl, rfl⟩, rfl⟩ := heq
        rw [Function.update_self]
  · have hsize := h.size
    rw [List.length_append, List.length_singleton, hm, hm₁]
    split <;> omega

/-- A key of another range changes nothing. -/
theorem Half.skip (h : Half b lo hi dealt) (hout : ¬ (lo ≤ c ∧ c ≤ hi)) :
    Half b lo hi (dealt ++ [(c :: k, u)]) := by
  refine ⟨h.c0, h.c1, h.flag, h.rep, fun s v => (h.mem s v).trans ?_, ?_⟩
  · constructor
    · rintro ⟨c', k', hmem, hrest⟩
      exact ⟨c', k', List.mem_append_left _ hmem, hrest⟩
    · rintro ⟨c', k', hmem, hlo, hhi, hs⟩
      rcases List.mem_append.mp hmem with hmem | hmem
      · exact ⟨c', k', hmem, hlo, hhi, hs⟩
      · have heq := List.mem_singleton.mp hmem
        rw [Prod.mk.injEq, List.cons.injEq] at heq
        exact absurd (heq.1.1 ▸ ⟨hlo, hhi⟩) hout
  · have hsize := h.size
    rw [List.length_append]
    omega

/-- **All keys are dealt out.** -/
theorem half_distribute {j : UInt8} {left right : AhTable} (hj : j < hi)
    (hleft : Half left lo j dealt) (hright : Half right (j + 1) hi dealt)
    (hkeys : ∀ e ∈ rest, ∃ c k, e.1 = c :: k ∧ lo ≤ c ∧ c ≤ hi) (hshort : Short rest)
    (hnodup : ((dealt ++ rest).map Prod.fst).Nodup) :
    ∃ left' right', rest.foldlM (distribute j) (left, right) = some (left', right') ∧
      Half left' lo j (dealt ++ rest) ∧ Half right' (j + 1) hi (dealt ++ rest) := by
  have hnext : (j + 1).toNat = j.toNat + 1 := by
    rw [UInt8.lt_iff_toNat_lt] at hj
    have := hi.toNat_lt
    rw [UInt8.toNat_add]
    exact Nat.mod_eq_of_lt (by show j.toNat + 1 < 256; omega)
  -- induction on the entries that have not been dealt yet
  induction rest generalizing dealt left right with
  | nil =>
    rw [List.append_nil]
    exact ⟨left, right, rfl, hleft, hright⟩
  | cons e rest ih =>
    obtain ⟨c, k, hkey, hlo, hhi⟩ := hkeys e List.mem_cons_self
    obtain ⟨key, u⟩ := e
    obtain rfl : key = c :: k := hkey
    have hlen : (c :: k).length ≤ maxKey := hshort (c :: k, u) List.mem_cons_self
    have hnew : ∀ v, (c :: k, v) ∉ dealt := by
      intro v hmem
      rw [List.map_append, List.map_cons] at hnodup
      exact List.disjoint_of_nodup_append hnodup (List.mem_map_of_mem hmem) List.mem_cons_self
    have hassoc : dealt ++ (c :: k, u) :: rest = dealt ++ [(c :: k, u)] ++ rest := by
      rw [List.append_assoc, List.singleton_append]
    rw [hassoc] at hnodup ⊢
    rw [List.foldlM_cons]
    -- each entry goes to one half, and the other half is not responsible for it
    by_cases hcj : c ≤ j
    · obtain ⟨left', hput, hleft'⟩ := hleft.put (u := u) hlo hcj hnew hlen
      have hright' : Half right (j + 1) hi (dealt ++ [(c :: k, u)]) := by
        refine hright.skip fun h => ?_
        rw [UInt8.le_iff_toNat_le] at hcj
        have hge := UInt8.le_iff_toNat_le.mp h.1
        omega
      have hstep : distribute j (left, right) (c :: k, u) = some (left', right) := by
        simp only [distribute, if_pos hcj, hput, Option.map_some]
      rw [hstep]
      exact ih hleft' hright' (fun e he => hkeys e (List.mem_cons_of_mem _ he))
        (fun e he => hshort e (List.mem_cons_of_mem _ he)) hnodup
    · have hjc : j + 1 ≤ c := by
        rw [UInt8.le_iff_toNat_le] at hcj ⊢
        omega
      obtain ⟨right', hput, hright'⟩ := hright.put (u := u) hjc hhi hnew hlen
      have hleft' : Half left lo j (dealt ++ [(c :: k, u)]) := hleft.skip fun h => hcj h.2
      have hstep : distribute j (left, right) (c :: k, u) = some (left, right') := by
        simp only [distribute, if_neg hcj, hput, Option.map_some]
      rw [hstep]
      exact ih hleft' hright' (fun e he => hkeys e (List.mem_cons_of_mem _ he))
        (fun e he => hshort e (List.mem_cons_of_mem _ he)) hnodup

/-- What the new bucket holds for a key of its range is what the old one held. -/
theorem Half.contents_eq {old : AhTable} (h : Half b lo hi es)
    (hes : ∀ s v, contents old s = some v ↔ (s, v) ∈ es) (hlo : lo ≤ c) (hhi : c ≤ hi) :
    contents b (bucketKey b c k) = contents old (c :: k) := by
  refine Option.ext fun v => ?_
  rw [h.mem, hes]
  constructor
  · rintro ⟨c', k', hmem, hlo', hhi', heq⟩
    obtain ⟨rfl, rfl⟩ := bucketKey_inj h.flag hlo hhi hlo' hhi' heq
    exact hmem
  · intro hmem
    exact ⟨c, k, hmem, hlo, hhi, rfl⟩

/-- The new bucket under the pointers of its range. -/
theorem Half.child {cell : Addr → Option Node} {path : Addr → Bytes} {a : Addr} {t : TrieNode}
    (h : Half b lo hi es) (hle : lo ≤ hi) (hlen : es.length ≤ maxBucketSize)
    (hcell : cell (t.xs c) = some (.bucket b)) (hlo : lo ≤ c) (hhi : c ≤ hi)
    (hpath : path (t.xs c) = if lo = hi then path a ++ [lo] else path a)
    (hrange : ∀ d, lo ≤ d → d ≤ hi → t.xs d = t.xs c) : Child cell path a t c := by
  have hok : BucketOk b := ⟨h.rep, Nat.le_trans h.size hlen⟩
  have hflag := h.flag
  by_cases heq : lo = hi
  · subst heq
    obtain rfl : c = lo := UInt8.le_antisymm hhi hlo
    rw [if_pos rfl] at hpath hflag
    exact .pure b hcell hok hflag h.c0 h.c1 hpath
  · rw [if_neg heq] at hpath hflag
    have hlt : lo < hi := UInt8.lt_of_le_of_ne hle heq
    refine .hybrid b hcell hok hflag (h.c0 ▸ hlo) (h.c1 ▸ hhi) ?_ ?_ hpath ?_
    · rw [h.c0, h.c1]
      exact hlt
    · intro s v hs
      obtain ⟨c', k', -, hlo', hhi', rfl⟩ := (h.mem s v).mp hs
      refine ⟨c', k', ?_, h.c0 ▸ hlo', h.c1 ▸ hhi'⟩
      unfold bucketKey
      rw [isPure_of_hybrid hflag, if_neg Bool.false_ne_true]
    · rw [h.c0, h.c1]
      exact hrange

end

end Ayubd.HatTrie
