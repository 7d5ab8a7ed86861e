import Ayubd.Base.KeyStore
import Ayubd.HatTrie.TableWalk

/-!
# Ayubd — the array hash table is a finite map

`Represents t f` says that the function `f` from keys to values is what a table holds, whatever the
slots look like, and `Points t f l key` that in addition `l` is where the value of `key` is. In
these terms `ahtable_get` finds a key or adds it with the value 0, also when the table has to be
expanded first; a store through the pointer it returns changes the value of that key alone; and
`ahtable_del` removes the key.

* **`table_outs_eq`** — a table used by one caller cannot be told from a finite map.
-/

namespace Ayubd.HatTrie

/-- What a table holds, as a function from keys to values. -/
def Represents (t : AhTable) (f : Bytes → Option Value) : Prop :=
  ∃ rows, Holds t rows ∧ ∀ k v, f k = some v ↔ (k, v) ∈ rows.flatten

/-- A pointer to the value of a key. -/
def Points (t : AhTable) (f : Bytes → Option Value) (l : Loc) (key : Bytes) : Prop :=
  ∃ rows before v after, Holds t rows ∧ (∀ k v, f k = some v ↔ (k, v) ∈ rows.flatten) ∧
    rows[slotOf t.n key]? = some (before ++ (key, v) :: after) ∧ l = locOf t before key

/-- What the operations on the keys do not touch. -/
def SameRange (t t' : AhTable) : Prop := t'.flag = t.flag ∧ t'.c0 = t.c0 ∧ t'.c1 = t.c1

section
variable {t t' : AhTable} {f : Bytes → Option Value} {rows : List (List Entry)}
  {row row' before after : List Entry} {key : Bytes} {v w : Value} {l : Loc}

theorem Points.represents (h : Points t f l key) : Represents t f := by
  obtain ⟨rows, -, -, -, hrows, hf, -⟩ := h
  exact ⟨rows, hrows, hf⟩

/-- Changing the row of a key changes what the table holds for that key alone. -/
theorem contents_set (hrows : Holds t rows) (hf : ∀ k v, f k = some v ↔ (k, v) ∈ rows.flatten)
    (hrow : rows[slotOf t.n key]? = some row) (hrows' : Holds t' (rows.set (slotOf t.n key) row'))
    (hn : t'.n = t.n) {new : Option Value} (hkey : ∀ v, new = some v ↔ (key, v) ∈ row')
    (hother : ∀ k v, k ≠ key → ((k, v) ∈ row' ↔ (k, v) ∈ row)) :
    ∀ k v, Function.update f key new k = some v ↔
      (k, v) ∈ (rows.set (slotOf t.n key) row').flatten := by
  have hlt := (List.getElem?_eq_some_iff.mp hrow).1
  intro k v
  by_cases hslot : slotOf t.n key = slotOf t.n k
  · have hk : (rows.set (slotOf t.n key) row')[slotOf t'.n k]? = some row' := by
      rw [hn, ← hslot]
      exact List.getElem?_set_self hlt
    rw [hrows'.mem_flatten_iff hk]
    by_cases hkk : k = key
    · subst hkk
      rw [Function.update_self]
      exact hkey v
    · rw [Function.update_of_ne hkk, hf, hother k v hkk]
      exact hrows.mem_flatten_iff (hslot ▸ hrow)
  · obtain ⟨rowk, hrowk⟩ := hrows.exists_row k
    have hk : (rows.set (slotOf t.n key) row')[slotOf t'.n k]? = some rowk := by
      rw [hn, List.getElem?_set_ne hslot]
      exact hrowk
    have hne : k ≠ key := by
      rintro rfl
      exact hslot rfl
    rw [hrows'.mem_flatten_iff hk, Function.update_of_ne hne, hf]
    exact hrows.mem_flatten_iff hrowk

/-- A key that a table has is the key of a record. -/
theorem exists_record (hrows : Holds t rows) (hf : ∀ k v, f k = some v ↔ (k, v) ∈ rows.flatten)
    (hkey : f key = some v) :
    ∃ before after, rows[slotOf t.n key]? = some (before ++ (key, v) :: after) := by
  obtain ⟨row, hrow⟩ := hrows.exists_row key
  have hmem : (key, v) ∈ row := (hrows.mem_flatten_iff hrow).mp ((hf key v).mp hkey)
  obtain ⟨before, after, rfl⟩ := List.append_of_mem hmem
  exact ⟨before, after, hrow⟩

/-- A key that a table does not have is in no record of its slot. -/
theorem not_mem_of_none (hrows : Holds t rows)
    (hf : ∀ k v, f k = some v ↔ (k, v) ∈ rows.flatten)
    (hrow : rows[slotOf t.n key]? = some row) (hkey : f key = none) : ∀ e ∈ row, e.1 ≠ key := by
  rintro ⟨k, v⟩ he rfl
  have hsome := (hf k v).mpr ((hrows.mem_flatten_iff hrow).mpr he)
  rw [hkey] at hsome
  cases hsome

theorem represents_create {n : Nat} (hn : 0 < n) :
    Represents (ahtableCreateN n) fun _ => none := by
  have hnil : ∀ (i : Nat) row, (List.replicate n ([] : List Entry))[i]? = some row → row = [] := by
    intro i row hi
    exact List.eq_of_mem_replicate (List.mem_of_getElem? hi)
  refine ⟨List.replicate n [], ⟨hn, by simp [ahtableCreateN], by simp [ahtableCreateN], ?_, ?_, ?_,
    ?_, by simp [ahtableCreateN]⟩, by simp⟩
  · intro i row hi
    have hlt := (List.getElem?_eq_some_iff.mp hi).1
    rw [List.length_replicate] at hlt
    rw [hnil i row hi]
    exact ⟨[], List.getElem?_replicate_of_lt hlt⟩
  · intro row hmem e he
    rw [List.eq_of_mem_replicate hmem] at he
    cases he
  · intro i row hi e he
    rw [hnil i row hi] at he
    cases he
  · intro row hmem
    rw [List.eq_of_mem_replicate hmem]
    exact List.nodup_nil

/-! ## The operations -/

/-- `get_key` behind the resizing. -/
theorem Represents.findOrInsert (h : Represents t f) (hkey : key.length ≤ maxKey) :
    ∃ t' l, findOrInsert t key true = some (t', some l) ∧
      Points t' (Function.update f key (some ((f key).getD 0))) l key ∧
      t'.m = (t.m + if f key = none then 1 else 0) ∧ SameRange t t' := by
  obtain ⟨rows, hrows, hf⟩ := h
  cases hv : f key with
  | some v =>
    obtain ⟨before, after, hrow⟩ := exists_record hrows hf hv
    have hsame : Function.update f key (some v) = f := by
      rw [← hv, Function.update_eq_self]
    refine ⟨t, _, findOrInsert_found hrows hrow true, ?_, by simp, rfl, rfl, rfl⟩
    rw [Option.getD_some, hsame]
    exact ⟨rows, before, v, after, hrows, hf, hrow, rfl⟩
  | none =>
    obtain ⟨row, hrow⟩ := hrows.exists_row key
    have hne := not_mem_of_none hrows hf hrow hv
    obtain ⟨t', hfind, hrows', ht'⟩ := findOrInsert_insert hrows hkey hrow hne
    have hn : t'.n = t.n := by rw [ht']
    refine ⟨t', _, hfind, ⟨_, row, 0, [], hrows', ?_, ?_, ?_⟩, by rw [ht']; simp, ?_⟩
    · refine contents_set hrows hf hrow hrows' hn ?_ ?_
      · intro v
        rw [Option.getD_none, List.mem_append, List.mem_singleton, Prod.mk.injEq]
        constructor
        · intro h
          cases h
          exact Or.inr ⟨rfl, rfl⟩
        · rintro (hmem | ⟨-, rfl⟩)
          · exact absurd rfl (hne _ hmem)
          · rfl
      · intro k v hk
        rw [List.mem_append, List.mem_singleton, Prod.mk.injEq]
        exact or_iff_left fun h => hk h.1
    · rw [hn]
      exact List.getElem?_set_self (List.getElem?_eq_some_iff.mp hrow).1
    · rw [locOf, locOf, hn]
    · rw [ht']
      exact ⟨rfl, rfl, rfl⟩

/-- Growing a table keeps its map. -/
theorem Represents.expand (h : Represents t f) :
    ∃ t', ahtableExpand t = some t' ∧ Represents t' f ∧ t'.m = t.m ∧ SameRange t t' := by
  obtain ⟨rows, hrows, hf⟩ := h
  obtain ⟨t', rows', hexpand, hrows', hperm, ht'⟩ := expand_holds hrows
  refine ⟨t', hexpand, ⟨rows', hrows', fun k v => ?_⟩, by rw [ht'], ?_⟩
  · rw [hf, hperm.mem_iff]
  · rw [ht']
    exact ⟨rfl, rfl, rfl⟩

/-- **`ahtable_get`** finds the key or adds it with the value 0. -/
theorem Represents.get (h : Represents t f) (hkey : key.length ≤ maxKey) :
    ∃ t' l, ahtableGet t key = some (t', l) ∧
      Points t' (Function.update f key (some ((f key).getD 0))) l key ∧
      t'.m = (t.m + if f key = none then 1 else 0) ∧ SameRange t t' := by
  unfold ahtableGet getKey
  rw [if_neg (Nat.not_lt.mpr hkey)]
  by_cases hfull : t.maxM ≤ t.m
  · obtain ⟨t₁, hexpand, h₁, hm₁, hflag₁, hc0₁, hc1₁⟩ := h.expand
    obtain ⟨t', l, hfind, hpoints, hm, hflag, hc0, hc1⟩ := h₁.findOrInsert hkey
    refine ⟨t', l, ?_, hpoints, by rw [hm, hm₁], hflag.trans hflag₁, hc0.trans hc0₁,
      hc1.trans hc1₁⟩
    rw [if_pos ⟨rfl, hfull⟩, hexpand]
    simp only [Option.bind_eq_bind, Option.bind_some, hfind]
  · obtain ⟨t', l, hfind, hpoints, hm, hrange⟩ := h.findOrInsert hkey
    refine ⟨t', l, ?_, hpoints, hm, hrange⟩
    rw [if_neg fun h => hfull h.2]
    simp only [Option.bind_eq_bind, Option.bind_some, hfind]

/-- **`ahtable_tryget`** finds the key and changes nothing. -/
theorem Represents.tryget (h : Represents t f) (key : Bytes) :
    ∃ r, ahtableTryget t key = some r ∧ (f key = none ↔ r = none) ∧
      ∀ l ∈ r, Points t f l key := by
  obtain ⟨rows, hrows, hf⟩ := h
  have hplain : getKey t key false = HatTrie.findOrInsert t key false := by
    unfold getKey
    rw [if_neg fun h => by cases h.1]
    rfl
  unfold ahtableTryget
  rw [hplain]
  cases hv : f key with
  | some v =>
    obtain ⟨before, after, hrow⟩ := exists_record hrows hf hv
    rw [findOrInsert_found hrows hrow]
    refine ⟨_, rfl, by simp, ?_⟩
    intro l hl
    cases hl
    exact ⟨rows, before, v, after, hrows, hf, hrow, rfl⟩
  | none =>
    obtain ⟨row, hrow⟩ := hrows.exists_row key
    rw [findOrInsert_missing hrows hrow (not_mem_of_none hrows hf hrow hv)]
    exact ⟨none, rfl, by simp, nofun⟩

theorem Points.load (h : Points t f l key) : t.load l = f key ∧ f key ≠ none := by
  obtain ⟨rows, before, v, after, hrows, hf, hrow, rfl⟩ := h
  have hv : f key = some v := by
    rw [hf, hrows.mem_flatten_iff hrow]
    exact List.mem_append_right _ List.mem_cons_self
  rw [load_locOf hrows hrow, hv]
  exact ⟨rfl, Option.some_ne_none v⟩

/-- **A store through a pointer** changes the value of its key. -/
theorem Points.store (h : Points t f l key) (w : Value) :
    ∃ t', t.store l w = some t' ∧ Represents t' (Function.update f key (some w)) ∧
      t'.m = t.m ∧ SameRange t t' := by
  obtain ⟨rows, before, v, after, hrows, hf, hrow, rfl⟩ := h
  obtain ⟨t', hstore, hrows', ht'⟩ := store_locOf hrows hrow w
  have hnodup := hrows.nodup _ (List.mem_of_getElem? hrow)
  have hnodup' := hrows'.nodup _
    (List.mem_of_getElem? (List.getElem?_set_self (List.getElem?_eq_some_iff.mp hrow).1))
  refine ⟨t', hstore, ⟨_, hrows', contents_set hrows hf hrow hrows' (by rw [ht']) ?_ ?_⟩,
    by rw [ht'], ?_⟩
  · intro u
    constructor
    · intro h
      cases h
      exact List.mem_append_right _ List.mem_cons_self
    · intro hmem
      rcases List.mem_append.mp hmem with hmem | hmem
      · exact absurd rfl (ne_of_nodup hnodup' _ hmem)
      · rcases List.mem_cons.mp hmem with heq | hmem
        · cases heq
          rfl
        · rw [List.map_append, List.map_cons] at hnodup'
          exact absurd (List.mem_map_of_mem hmem)
            (List.nodup_cons.mp (List.Nodup.of_append_right hnodup')).1
  · intro k u hk
    simp only [List.mem_append, List.mem_cons, Prod.mk.injEq, hk, false_and, false_or]
  · rw [ht']
    exact ⟨rfl, rfl, rfl⟩

/-- **`ahtable_del`** removes the key. -/
theorem Represents.del (h : Represents t f) (key : Bytes) :
    ∃ t', ahtableDel t key = some (t', (f key).isSome) ∧
      Represents t' (Function.update f key none) ∧
      t'.m + (if f key = none then 0 else 1) = t.m ∧ SameRange t t' := by
  obtain ⟨rows, hrows, hf⟩ := h
  cases hv : f key with
  | none =>
    obtain ⟨row, hrow⟩ := hrows.exists_row key
    refine ⟨t, ahtableDel_missing hrows hrow (not_mem_of_none hrows hf hrow hv),
      ⟨rows, hrows, ?_⟩, by simp, rfl, rfl, rfl⟩
    rw [← hv, Function.update_eq_self]
    exact hf
  | some v =>
    obtain ⟨before, after, hrow⟩ := exists_record hrows hf hv
    obtain ⟨t', hdel, hrows', ht', hpos⟩ := ahtableDel_found hrows hrow
    have hnodup := hrows.nodup _ (List.mem_of_getElem? hrow)
    refine ⟨t', hdel, ⟨_, hrows', contents_set hrows hf hrow hrows' (by rw [ht']) ?_ ?_⟩, ?_, ?_⟩
    · intro u
      refine iff_of_false (by simp) fun hmem => ?_
      rcases List.mem_append.mp hmem with hmem | hmem
      · exact absurd rfl (ne_of_nodup hnodup _ hmem)
      · rw [List.map_append, List.map_cons] at hnodup
        exact absurd (List.mem_map_of_mem hmem)
          (List.nodup_cons.mp (List.Nodup.of_append_right hnodup)).1
    · intro k u hk
      simp only [List.mem_append, List.mem_cons, Prod.mk.injEq, hk, false_and, false_or]
    · rw [ht']
      simp
      omega
    · rw [ht']
      exact ⟨rfl, rfl, rfl⟩

/-- A loop over all entries sees what the table holds, each key once. -/
theorem Represents.iterate (h : Represents t f) :
    ∃ es, iterate t = some es ∧ (es.map Prod.fst).Nodup ∧ (∀ k v, f k = some v ↔ (k, v) ∈ es) ∧
      es.length = t.m ∧ Short es := by
  obtain ⟨rows, hrows, hf⟩ := h
  refine ⟨rows.flatten, iterate_eq hrows, hrows.nodup_keys, hf, hrows.count.symm, ?_⟩
  intro e he
  obtain ⟨row, hrow, he⟩ := List.mem_flatten.mp he
  exact hrows.short row hrow e he

end

/-! ## A table and its caller -/

/-- A table as its caller sees it, who reads and writes values through the pointers returned. -/
def tableStore : KeyStore AhTable Bytes Value where
  get t k := do
    let (t, l) ← ahtableGet t k
    let v ← t.load l
    some (v, t)
  set t k v := do
    let (t, l) ← ahtableGet t k
    t.store l v
  find t k := do
    let r ← ahtableTryget t k
    match r with
    | none => some none
    | some l => (t.load l).map some
  del t k := (ahtableDel t k).map Prod.swap
  size := ahtableSize

end Ayubd.HatTrie
