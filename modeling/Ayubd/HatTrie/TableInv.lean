import Ayubd.HatTrie.Table
import Mathlib.Data.List.Nodup
import Mathlib.Data.List.Lookmap

/-!
# Ayubd — the records of an array hash table

`Holds t rows` says which records the slots of a table hold, and that every key is in the slot of
its hash, once. Searching a key, adding it, storing a value through the pointer that a search
returned and deleting a key change these rows in one place (`Holds.set`).
-/

namespace Ayubd.HatTrie

/-- The slots of a table hold these records. -/
structure Holds (t : AhTable) (rows : List (List Entry)) : Prop where
  pos : 0 < t.n
  length : rows.length = t.n
  sizes : t.slotSizes = rows.map fun row => (coded row).length
  slots : ∀ (i : Nat) row, rows[i]? = some row → ∃ rest, t.slots[i]? = some (coded row ++ rest)
  short : ∀ row ∈ rows, Short row
  hashed : ∀ (i : Nat) row, rows[i]? = some row → ∀ e ∈ row, slotOf t.n e.1 = i
  nodup : ∀ row ∈ rows, (row.map Prod.fst).Nodup
  count : t.m = rows.flatten.length

namespace Holds

section
variable {t : AhTable} {rows : List (List Entry)} {row row' : List Entry} {i : Nat}
  {key rest : Bytes} {v : Value}

theorem slotOf_lt (h : Holds t rows) (key : Bytes) : slotOf t.n key < t.n :=
  Nat.mod_lt _ h.pos

/-- The row of a key. -/
theorem exists_row (h : Holds t rows) (key : Bytes) : ∃ row, rows[slotOf t.n key]? = some row :=
  ⟨_, List.getElem?_eq_getElem (h.length ▸ h.slotOf_lt key)⟩

theorem size (h : Holds t rows) (hrow : rows[i]? = some row) :
    t.slotSizes[i]? = some (coded row).length := by
  rw [h.sizes, List.getElem?_map, hrow]
  rfl

/-- Where a key would be, there is all that the table knows about it. -/
theorem mem_flatten_iff (h : Holds t rows) (hrow : rows[slotOf t.n key]? = some row) :
    (key, v) ∈ rows.flatten ↔ (key, v) ∈ row := by
  rw [List.mem_flatten]
  constructor
  · rintro ⟨row', hmem, hv⟩
    obtain ⟨j, hj⟩ := List.getElem?_of_mem hmem
    have hslot : slotOf t.n key = j := h.hashed j row' hj (key, v) hv
    rw [hslot, hj] at hrow
    cases hrow
    exact hv
  · intro hv
    exact ⟨row, List.mem_of_getElem? hrow, hv⟩

/-- No key is twice in a table. -/
theorem nodup_keys (h : Holds t rows) : (rows.flatten.map Prod.fst).Nodup := by
  rw [List.map_flatten, List.nodup_flatten]
  constructor
  · intro ks hks
    obtain ⟨row, hrow, rfl⟩ := List.mem_map.mp hks
    exact h.nodup row hrow
  · rw [List.pairwise_iff_getElem]
    intro i j hi hj hij k hki hkj
    simp only [List.getElem_map, List.mem_map] at hki hkj
    rw [List.length_map] at hi hj
    obtain ⟨e, he, rfl⟩ := hki
    obtain ⟨e', he', hkey⟩ := hkj
    have hslot := h.hashed i _ (List.getElem?_eq_getElem hi) e he
    have hslot' := h.hashed j _ (List.getElem?_eq_getElem hj) e' he'
    rw [hkey, hslot] at hslot'
    omega

/-- A change in one row is a change in the middle of all entries. -/
theorem flatten_set (hrow : rows[i]? = some row) (row' : List Entry) :
    ∃ front back, rows.flatten = front ++ (row ++ back) ∧
      (rows.set i row').flatten = front ++ (row' ++ back) := by
  obtain ⟨hi, rfl⟩ := List.getElem?_eq_some_iff.mp hrow
  refine ⟨(rows.take i).flatten, (rows.drop (i + 1)).flatten, ?_, ?_⟩
  · conv_lhs => rw [← List.take_append_drop i rows, List.drop_eq_getElem_cons hi]
    rw [List.flatten_append, List.flatten_cons]
  · rw [List.set_eq_take_append_cons_drop, if_pos hi, List.flatten_append, List.flatten_cons]

/-- **Changing one row.** -/
theorem set (h : Holds t rows) (hrow : rows[i]? = some row) (row' : List Entry) (hshort : Short row')
    (hhash : ∀ e ∈ row', slotOf t.n e.1 = i) (hnodup : (row'.map Prod.fst).Nodup)
    (rest : Bytes) {m : Nat} (hm : m + row.length = t.m + row'.length) :
    Holds { t with m := m, slots := t.slots.set i (coded row' ++ rest),
                   slotSizes := t.slotSizes.set i (coded row').length } (rows.set i row') := by
  obtain ⟨hi, -⟩ := List.getElem?_eq_some_iff.mp hrow
  refine ⟨h.pos, by rw [List.length_set]; exact h.length, ?_, ?_, ?_, ?_, ?_, ?_⟩
  · show t.slotSizes.set i _ = _
    rw [h.sizes, List.map_set]
  · intro j rowj hj
    show ∃ rest', (t.slots.set i (coded row' ++ rest))[j]? = some (coded rowj ++ rest')
    -- the slot that is replaced, then every other one
    by_cases hji : i = j
    · subst hji
      obtain ⟨rest₀, hslot⟩ := h.slots i row hrow
      rw [List.getElem?_set_self hi] at hj
      cases hj
      exact ⟨rest, List.getElem?_set_self (List.getElem?_eq_some_iff.mp hslot).1⟩
    · rw [List.getElem?_set_ne hji] at hj ⊢
      exact h.slots j rowj hj
  · intro row₀ hmem
    rcases List.mem_or_eq_of_mem_set hmem with hmem | rfl
    · exact h.short row₀ hmem
    · exact hshort
  · intro j rowj hj e he
    by_cases hji : i = j
    · subst hji
      rw [List.getElem?_set_self hi] at hj
      cases hj
      exact hhash e he
    · rw [List.getElem?_set_ne hji] at hj
      exact h.hashed j rowj hj e he
  · intro row₀ hmem
    rcases List.mem_or_eq_of_mem_set hmem with hmem | rfl
    · exact h.nodup row₀ hmem
    · exact hnodup
  · obtain ⟨front, back, hold, hnew⟩ := flatten_set hrow row'
    have hcount := h.count
    rw [hold] at hcount
    rw [hnew]
    simp only [List.length_append] at hcount ⊢
    omega

end

end Holds

/-! ## Search, insertion and deletion -/

section
variable {t : AhTable} {rows : List (List Entry)} {row before after : List Entry}
  {key rest : Bytes} {v : Value}

/-- Where the value of a key is, behind the records before it. -/
def locOf (t : AhTable) (before : List Entry) (key : Bytes) : Loc :=
  ⟨slotOf t.n key, (coded before).length + headerSize key.length + key.length⟩

/-- The records before that of a key have other keys. -/
theorem ne_of_nodup (h : ((before ++ (key, v) :: after).map Prod.fst).Nodup) :
    ∀ e ∈ before, e.1 ≠ key := by
  intro e he hkey
  rw [List.map_append, List.map_cons] at h
  refine List.disjoint_of_nodup_append h (List.mem_map_of_mem he) ?_
  rw [hkey]
  exact List.mem_cons_self

/-- The scan of a slot finds the key which is in its row. -/
theorem Holds.scan_found (h : Holds t rows)
    (hrow : rows[slotOf t.n key]? = some (before ++ (key, v) :: after)) :
    scan (coded (before ++ (key, v) :: after) ++ rest) (coded (before ++ (key, v) :: after)).length
      key = some (some ((coded before).length + headerSize key.length)) := by
  have hmem := List.mem_of_getElem? hrow
  exact HatTrie.scan_found _ (h.short _ hmem) (ne_of_nodup (h.nodup _ hmem))

/-- A key which is there is found where it is. -/
theorem findOrInsert_found (h : Holds t rows)
    (hrow : rows[slotOf t.n key]? = some (before ++ (key, v) :: after)) (insertMissing : Bool) :
    findOrInsert t key insertMissing = some (t, some (locOf t before key)) := by
  obtain ⟨rest, hslot⟩ := h.slots _ _ hrow
  unfold findOrInsert locOf
  simp only [hslot, h.size hrow, h.scan_found hrow, Option.bind_eq_bind, Option.bind_some]

/-- A key which is not there is not found, and nothing changes. -/
theorem findOrInsert_missing (h : Holds t rows) (hrow : rows[slotOf t.n key]? = some row)
    (hne : ∀ e ∈ row, e.1 ≠ key) : findOrInsert t key false = some (t, none) := by
  obtain ⟨rest, hslot⟩ := h.slots _ _ hrow
  have hscan : scan (coded row ++ rest) (coded row).length key = some none :=
    scan_missing _ (h.short _ (List.mem_of_getElem? hrow)) hne
  unfold findOrInsert
  simp only [hslot, h.size hrow, hscan, Option.bind_eq_bind, Option.bind_some,
    Bool.false_eq_true, if_false]

/-- **A key that is not there becomes the last record of its slot.** -/
theorem findOrInsert_insert (h : Holds t rows) (hkey : key.length ≤ maxKey)
    (hrow : rows[slotOf t.n key]? = some row) (hne : ∀ e ∈ row, e.1 ≠ key) :
    ∃ t', findOrInsert t key true = some (t', some (locOf t row key)) ∧
      Holds t' (rows.set (slotOf t.n key) (row ++ [(key, 0)])) ∧
      t' = { t with m := t.m + 1, slots := t'.slots, slotSizes := t'.slotSizes } := by
  obtain ⟨rest, hslot⟩ := h.slots _ _ hrow
  have hmem := List.mem_of_getElem? hrow
  have hscan : scan (coded row ++ rest) (coded row).length key = some none :=
    scan_missing _ (h.short _ hmem) hne
  -- the block has grown by exactly one record
  have hsize : (coded row).length + (1 + if 128 ≤ key.length then 1 else 0) + key.length +
      valueSize = (coded row).length + (headerSize key.length + key.length + valueSize) := by
    unfold headerSize
    split <;> split <;> omega
  obtain ⟨fill, hfill, hrealloc⟩ := Block.realloc_append (coded row) rest
    (headerSize key.length + key.length + valueSize)
  have hins := insKey_coded (coded row) [] rfl hfill
  rw [List.append_nil, List.append_nil] at hins
  have hcoded : coded row ++ record (key, 0) = coded (row ++ [(key, 0)]) ++ [] := by
    rw [coded_append, coded_cons, coded_nil, List.append_nil, List.append_nil]
  have hlength : (coded row).length + (headerSize key.length + key.length + valueSize) =
      (coded (row ++ [(key, 0)])).length := by
    rw [coded_append, coded_cons, coded_nil, List.append_nil, List.length_append, length_record]
  refine ⟨{ t with
      m := t.m + 1
      slots := t.slots.set (slotOf t.n key) (coded (row ++ [(key, 0)]) ++ [])
      slotSizes := t.slotSizes.set (slotOf t.n key) (coded (row ++ [(key, 0)])).length },
    ?_, ?_, rfl⟩
  · unfold findOrInsert locOf
    simp only [hslot, h.size hrow, hscan, hsize, hrealloc, hins, Option.bind_eq_bind,
      Option.bind_some, if_true]
    rw [hcoded, hlength]
  · refine h.set hrow _ ?_ ?_ ?_ [] ?_
    · intro e he
      rcases List.mem_append.mp he with he | he
      · exact h.short _ hmem e he
      · rw [List.mem_singleton.mp he]
        exact hkey
    · intro e he
      rcases List.mem_append.mp he with he | he
      · exact h.hashed _ _ hrow e he
      · rw [List.mem_singleton.mp he]
    · rw [List.map_append, List.nodup_append]
      refine ⟨h.nodup _ hmem, List.nodup_singleton _, ?_⟩
      rintro k hk k' hk' rfl
      obtain ⟨e, he, rfl⟩ := List.mem_map.mp hk
      exact hne e he (List.mem_singleton.mp hk')
    · rw [List.length_append, List.length_singleton]
      omega

theorem load_locOf (h : Holds t rows)
    (hrow : rows[slotOf t.n key]? = some (before ++ (key, v) :: after)) :
    t.load (locOf t before key) = some v := by
  obtain ⟨rest, hslot⟩ := h.slots _ _ hrow
  have hblock : coded (before ++ (key, v) :: after) ++ rest =
      coded before ++ record (key, v) ++ (coded after ++ rest) := by
    simp only [coded_append, coded_cons, List.append_assoc]
  have hpeek := peek_value (coded before) (coded after ++ rest) (key, v) rfl
  unfold AhTable.load locOf
  simp only [hslot, hblock, hpeek, Option.bind_eq_bind, Option.bind_some, ofLeBytes_valueBytes]

/-- **A store changes the value of its key.** -/
theorem store_locOf (h : Holds t rows)
    (hrow : rows[slotOf t.n key]? = some (before ++ (key, v) :: after)) (w : Value) :
    ∃ t', t.store (locOf t before key) w = some t' ∧
      Holds t' (rows.set (slotOf t.n key) (before ++ (key, w) :: after)) ∧
      t' = { t with slots := t'.slots } := by
  obtain ⟨rest, hslot⟩ := h.slots _ _ hrow
  have hmem := List.mem_of_getElem? hrow
  have hblock : ∀ u, coded (before ++ (key, u) :: after) ++ rest =
      coded before ++ record (key, u) ++ (coded after ++ rest) := by
    intro u
    simp only [coded_append, coded_cons, List.append_assoc]
  have hpoke := poke_value (coded before) (coded after ++ rest) key rfl v w
  have hkeys : (before ++ (key, w) :: after).map Prod.fst =
      (before ++ (key, v) :: after).map Prod.fst := by
    simp only [List.map_append, List.map_cons]
  have hother : ∀ e ∈ before ++ (key, w) :: after,
      ∃ e' ∈ before ++ (key, v) :: after, e'.1 = e.1 := by
    intro e he
    exact List.mem_map.mp (hkeys ▸ List.mem_map_of_mem he)
  -- the slot keeps its size
  have hsize : t.slotSizes.set (slotOf t.n key) (coded (before ++ (key, w) :: after)).length =
      t.slotSizes := by
    have hlength : (coded (before ++ (key, w) :: after)).length =
        (coded (before ++ (key, v) :: after)).length := by
      simp only [coded_append, coded_cons, List.length_append, length_record]
    obtain ⟨hi, hget⟩ := List.getElem?_eq_some_iff.mp (h.size hrow)
    rw [hlength, ← hget]
    exact List.set_getElem_self hi
  refine ⟨{ t with
      slots := t.slots.set (slotOf t.n key) (coded (before ++ (key, w) :: after) ++ rest) },
    ?_, ?_, rfl⟩
  · unfold AhTable.store locOf
    simp only [hslot, hblock, hpoke, Option.bind_eq_bind, Option.bind_some]
  · have hset := h.set hrow (before ++ (key, w) :: after) (m := t.m) ?_ ?_ ?_ rest ?_
    · rw [hsize] at hset
      exact hset
    · intro e he
      obtain ⟨e', he', hkey⟩ := hother e he
      rw [← hkey]
      exact h.short _ hmem e' he'
    · intro e he
      obtain ⟨e', he', hkey⟩ := hother e he
      rw [← hkey]
      exact h.hashed _ _ hrow e' he'
    · rw [hkeys]
      exact h.nodup _ hmem
    · simp only [List.length_append, List.length_cons]

/-- Deleting a key which is not there changes nothing. -/
theorem ahtableDel_missing (h : Holds t rows) (hrow : rows[slotOf t.n key]? = some row)
    (hne : ∀ e ∈ row, e.1 ≠ key) : ahtableDel t key = some (t, false) := by
  obtain ⟨rest, hslot⟩ := h.slots _ _ hrow
  have hscan : scan (coded row ++ rest) (coded row).length key = some none :=
    scan_missing _ (h.short _ (List.mem_of_getElem? hrow)) hne
  unfold ahtableDel
  simp only [hslot, h.size hrow, hscan, Option.bind_eq_bind, Option.bind_some]

/-- **A deleted record is closed up.** -/
theorem ahtableDel_found (h : Holds t rows)
    (hrow : rows[slotOf t.n key]? = some (before ++ (key, v) :: after)) :
    ∃ t', ahtableDel t key = some (t', true) ∧
      Holds t' (rows.set (slotOf t.n key) (before ++ after)) ∧
      t' = { t with m := t.m - 1, slots := t'.slots, slotSizes := t'.slotSizes } ∧ 0 < t.m := by
  obtain ⟨rest, hslot⟩ := h.slots _ _ hrow
  have hmem := List.mem_of_getElem? hrow
  have hsize : (coded (before ++ (key, v) :: after)).length =
      (coded before).length + (headerSize key.length + key.length + valueSize) +
        (coded after).length := by
    simp only [coded_append, coded_cons, List.length_append, length_record]
    omega
  have hblock : coded (before ++ (key, v) :: after) ++ rest =
      (coded before ++ record (key, v)) ++ coded after ++ rest := by
    simp only [coded_append, coded_cons, List.append_assoc]
  have hbehind : (coded before).length + headerSize key.length + key.length + valueSize =
      (coded before ++ record (key, v)).length := by
    have hrecord := length_record (key, v)
    rw [List.length_append, hrecord]
    show _ = _ + (headerSize key.length + key.length + valueSize)
    omega
  -- what `memmove` reads are the records behind the deleted one
  have hpeek : Block.peek ((coded before ++ record (key, v)) ++ coded after ++ rest)
      ((coded before).length + headerSize key.length + key.length + valueSize)
      ((coded (before ++ (key, v) :: after)).length -
        ((coded before).length + headerSize key.length + key.length + valueSize)) =
        some (coded after) := by
    refine Block.peek_append hbehind ?_
    rw [hsize]
    omega
  -- they are written over it, and what was behind them is garbage
  have hpoke : Block.poke ((coded before ++ record (key, v)) ++ coded after ++ rest)
      ((coded before).length + headerSize key.length - headerSize key.length) (coded after) =
        some (coded (before ++ after) ++
          (record (key, v) ++ (coded after ++ rest)).drop (coded after).length) := by
    rw [Nat.add_sub_cancel, coded_append, List.append_assoc (coded before ++ record (key, v)),
      List.append_assoc (coded before)]
    refine Block.poke_over ?_
    simp only [List.length_append]
    omega
  have hnew : (coded (before ++ (key, v) :: after)).length -
      ((coded before).length + headerSize key.length + key.length + valueSize -
        ((coded before).length + headerSize key.length - headerSize key.length)) =
        (coded (before ++ after)).length := by
    rw [hsize, coded_append, List.length_append]
    omega
  -- the record is counted
  have hpos : 0 < t.m := by
    rw [h.count]
    refine List.length_pos_of_mem (a := (key, v)) ?_
    rw [h.mem_flatten_iff hrow]
    exact List.mem_append_right _ List.mem_cons_self
  refine ⟨_, ?_, h.set hrow (before ++ after) (m := t.m - 1) ?_ ?_ ?_
    ((record (key, v) ++ (coded after ++ rest)).drop (coded after).length) ?_, rfl, hpos⟩
  · unfold ahtableDel
    simp only [hslot, h.size hrow, h.scan_found hrow, Option.bind_eq_bind, Option.bind_some]
    simp only [hblock, hpeek, hpoke, hnew, Option.bind_some]
  · intro e he
    exact h.short _ hmem e (List.mem_append.mpr ((List.mem_append.mp he).imp_right
      (List.mem_cons_of_mem _)))
  · intro e he
    exact h.hashed _ _ hrow e (List.mem_append.mpr ((List.mem_append.mp he).imp_right
      (List.mem_cons_of_mem _)))
  · refine List.Nodup.sublist ?_ (h.nodup _ hmem)
    rw [List.map_append, List.map_append, List.map_cons]
    exact (List.Sublist.refl _).append (List.sublist_cons_self _ _)
  · simp only [List.length_append, List.length_cons]
    omega

end

end Ayubd.HatTrie
