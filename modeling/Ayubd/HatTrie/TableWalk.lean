import Ayubd.HatTrie.TableInv
import Mathlib.Algebra.Order.BigOperators.Group.List
import Mathlib.Data.List.Perm.Basic

/-!
# Ayubd — walking over the array hash table

An unsorted iterator of `ahtable.c` is a position in a slot. `Stands` says which entries are still
ahead of it; a step takes the first of them, and at the end of a slot goes on with the next slot
that is in use. The loops over all entries, in `ahtable_expand` and in `hattrie_split`, therefore
see the records of the table, slot by slot (`iterate_eq`).

`ahtable_expand` adds up first how many bytes each new slot will need, allocates just these, and
then writes the records without looking at the room left. `expand_holds` says that this is safe, and
that the table holds the same entries afterwards.
-/

namespace Ayubd.HatTrie

section
variable {t : AhTable} {rows : List (List Entry)} {es : List Entry} {e : Entry} {l : Loc}

/-- The entries that are ahead of a position. -/
def Stands (t : AhTable) (rows : List (List Entry)) (l : Loc) (es : List Entry) : Prop :=
  (es = [] ∧ t.n ≤ l.slot) ∨
    ∃ before e after, rows[l.slot]? = some (before ++ e :: after) ∧
      l.off = (coded before).length ∧ es = e :: (after ++ (rows.drop (l.slot + 1)).flatten)

/-- The iterator is at its end exactly where no entry is left. -/
theorem Stands.finished_iff (h : Holds t rows) (hl : Stands t rows l es) :
    t.n ≤ l.slot ↔ es = [] := by
  rcases hl with ⟨hes, hend⟩ | ⟨before, e, after, hrow, -, hes⟩
  · exact iff_of_true hend hes
  · refine iff_of_false ?_ (by simp [hes])
    have hlt := (List.getElem?_eq_some_iff.mp hrow).1
    rw [h.length] at hlt
    omega

/-- Skipping the slots that are not in use. -/
theorem stands_nextUsed (h : Holds t rows) (i : Nat) :
    Stands t rows ⟨nextUsed t.slotSizes i, 0⟩ (rows.drop i).flatten := by
  have hsizes : ∀ j, t.slotSizes.drop j = (rows.drop j).map fun row => (coded row).length := by
    intro j
    rw [h.sizes, List.map_drop]
  generalize hrest : rows.drop i = rest
  -- induction on the rows from `i` on; empty ones are skipped
  induction rest generalizing i with
  | nil =>
    have hge : t.n ≤ i := by
      rw [← h.length]
      exact List.drop_eq_nil_iff.mp hrest
    refine Or.inl ⟨rfl, ?_⟩
    show t.n ≤ nextUsed t.slotSizes i
    unfold nextUsed
    omega
  | cons row rest ih =>
    have hrow : rows[i]? = some row := by
      rw [← List.head?_drop, hrest]
      rfl
    have hnext : rows.drop (i + 1) = rest := by
      rw [← List.tail_drop, hrest]
      rfl
    cases row with
    | nil =>
      have hskip : nextUsed t.slotSizes i = nextUsed t.slotSizes (i + 1) := by
        unfold nextUsed
        rw [hsizes, hsizes, hrest, hnext]
        simp
        omega
      rw [hskip, List.flatten_cons, List.nil_append]
      exact ih (i + 1) hnext
    | cons e after =>
      have hstay : nextUsed t.slotSizes i = i := by
        unfold nextUsed
        rw [hsizes, hrest, List.map_cons, List.takeWhile_cons_of_neg]
        · rfl
        · rw [coded_cons, List.length_append, length_record]
          unfold valueSize
          simp only [decide_eq_true_eq]
          omega
      rw [hstay]
      refine Or.inr ⟨[], e, after, hrow, rfl, ?_⟩
      rw [List.flatten_cons, List.cons_append]
      show _ = e :: (after ++ (rows.drop (i + 1)).flatten)
      rw [hnext]

/-- The iterator starts in front of all entries. -/
theorem stands_begin (h : Holds t rows) :
    Stands t rows (ahtableUnsortedIterBegin t) rows.flatten := by
  have hfirst := stands_nextUsed h 0
  rw [List.drop_zero] at hfirst
  exact hfirst

/-- The iterator is at the first of the entries left. -/
theorem Stands.entryAt (h : Holds t rows) (hl : Stands t rows l (e :: es)) :
    entryAt t l = some e := by
  rcases hl with ⟨hes, -⟩ | ⟨before, e', after, hrow, hoff, hes⟩
  · cases hes
  · obtain ⟨rfl, -⟩ := List.cons.inj hes
    obtain ⟨rest, hslot⟩ := h.slots _ _ hrow
    have hshort : e.1.length ≤ maxKey :=
      h.short _ (List.mem_of_getElem? hrow) e (List.mem_append_right _ List.mem_cons_self)
    have hblock : coded (before ++ e :: after) ++ rest =
        coded before ++ record e ++ (coded after ++ rest) := by
      simp only [coded_append, coded_cons, List.append_assoc]
    have hkey := keyAt_record (coded before) (coded after ++ rest) hshort hoff
    have hbytes := peek_key (coded before) (coded after ++ rest) e
      (congrArg (· + headerSize e.1.length) hoff)
    have hvalue := peek_value (coded before) (coded after ++ rest) e
      (congrArg (· + headerSize e.1.length + e.1.length) hoff)
    unfold HatTrie.entryAt
    simp only [hslot, hblock, hkey, hbytes, hvalue, Option.bind_eq_bind, Option.bind_some,
      ofLeBytes_valueBytes]

/-- **One step of an iterator.** -/
theorem Stands.next (h : Holds t rows) (hl : Stands t rows l (e :: es)) :
    ∃ l', ahtableUnsortedIterNext t l = some l' ∧ Stands t rows l' es := by
  have hin : ¬ t.n ≤ l.slot := fun hend => by cases (hl.finished_iff h).mp hend
  rcases hl with ⟨hes, -⟩ | ⟨before, e', after, hrow, hoff, hes⟩
  · cases hes
  · obtain ⟨rfl, rfl⟩ := List.cons.inj hes
    obtain ⟨rest, hslot⟩ := h.slots _ _ hrow
    have hshort : e.1.length ≤ maxKey :=
      h.short _ (List.mem_of_getElem? hrow) e (List.mem_append_right _ List.mem_cons_self)
    have hblock : coded (before ++ e :: after) ++ rest =
        coded before ++ record e ++ (coded after ++ rest) := by
      simp only [coded_append, coded_cons, List.append_assoc]
    have hkey := keylen_record (coded before) (coded after ++ rest) hshort hoff
    have hbehind : l.off + headerSize e.1.length + e.1.length + valueSize =
        (coded (before ++ [e])).length := by
      rw [coded_append, coded_cons, coded_nil, List.append_nil, List.length_append, length_record,
        hoff]
      omega
    have hsize : (coded (before ++ e :: after)).length =
        (coded (before ++ [e])).length + (coded after).length := by
      simp only [coded_append, coded_cons, coded_nil, List.append_nil, List.length_append]
      omega
    unfold ahtableUnsortedIterNext
    rw [if_neg hin]
    simp only [hslot, h.size hrow, Option.bind_eq_bind, Option.bind_some]
    simp only [hblock, hkey, hbehind, hsize, Option.bind_some]
    -- the next record of this slot, or the first one of a slot further on
    cases after with
    | nil =>
      rw [if_pos (by simp)]
      exact ⟨_, rfl, by simpa using stands_nextUsed h (l.slot + 1)⟩
    | cons e' after =>
      rw [if_neg (by rw [coded_cons, List.length_append, length_record]; unfold valueSize; omega)]
      refine ⟨_, rfl, Or.inr ⟨before ++ [e], e', after, ?_, rfl, rfl⟩⟩
      rw [List.append_assoc]
      exact hrow

/-- **An iteration sees the records of the table, slot by slot.** -/
theorem iterate_eq (h : Holds t rows) : iterate t = some rows.flatten := by
  have hloop : ∀ es l acc fuel, Stands t rows l es → es.length < fuel →
      loop
        (fun st : Loc × List Entry =>
          if t.n ≤ st.1.slot then some (.inr st.2)
          else do
            let e ← entryAt t st.1
            let l ← ahtableUnsortedIterNext t st.1
            some (.inl (l, st.2 ++ [e])))
        fuel (l, acc) = some (acc ++ es) := by
    intro es
    -- induction on the entries ahead of the position
    induction es with
    | nil =>
      intro l acc fuel hl hfuel
      obtain ⟨fuel, rfl⟩ := Nat.exists_eq_succ_of_ne_zero (show fuel ≠ 0 by omega)
      rw [List.append_nil]
      refine loop_leave ?_
      rw [if_pos ((hl.finished_iff h).mpr rfl)]
    | cons e es ih =>
      intro l acc fuel hl hfuel
      obtain ⟨fuel, rfl⟩ := Nat.exists_eq_succ_of_ne_zero (show fuel ≠ 0 by omega)
      rw [List.length_cons] at hfuel
      obtain ⟨l', hnext, hl'⟩ := hl.next h
      refine (loop_again ?_).trans ((ih l' (acc ++ [e]) fuel hl' (by omega)).trans ?_)
      · rw [if_neg fun hend => by cases (hl.finished_iff h).mp hend]
        simp only [hl.entryAt h, hnext, Option.bind_eq_bind, Option.bind_some]
      · rw [List.append_assoc, List.singleton_append]
  have hfuel : rows.flatten.length < t.slotSizes.sum + 1 := by
    rw [h.sizes, List.length_flatten]
    refine Nat.lt_succ_of_le (List.sum_le_sum fun row _ => ?_)
    exact length_le_length_coded row
  exact hloop rows.flatten _ [] _ (stands_begin h) hfuel

end

/-! ## Expansion -/

section
variable {n : Nat} {es dealt rest : List Entry} {e : Entry} {st : List Bytes × List Nat}

/-- The entries of a list that belong into one of `n` slots. -/
def deal (n : Nat) (es : List Entry) (h : Nat) : List Entry :=
  es.filter fun e => slotOf n e.1 = h

theorem deal_cons_self (n : Nat) (e : Entry) (es : List Entry) :
    deal n (e :: es) (slotOf n e.1) = e :: deal n es (slotOf n e.1) :=
  List.filter_cons_of_pos (by simp)

theorem deal_cons_of_ne {h : Nat} (hne : slotOf n e.1 ≠ h) : deal n (e :: es) h = deal n es h :=
  List.filter_cons_of_neg (by simpa using hne)

theorem deal_append (n : Nat) (es es' : List Entry) (h : Nat) :
    deal n (es ++ es') h = deal n es h ++ deal n es' h := List.filter_append ..

theorem recordSize_eq (e : Entry) : recordSize e.1.length = (record e).length := by
  rw [length_record]
  unfold recordSize headerSize
  split <;> split <;> omega

/-- The first loop of `ahtable_expand` adds up what each slot needs. -/
theorem foldl_sizes (es : List Entry) (g : Nat → Nat) :
    es.foldl (fun sizes e => sizes.modify (slotOf n e.1) (· + recordSize e.1.length))
        ((List.range n).map g) =
      (List.range n).map fun h => g h + (coded (deal n es h)).length := by
  induction es generalizing g with
  | nil => simp [deal]
  | cons e es ih =>
    have hmodify : ((List.range n).map g).modify (slotOf n e.1) (· + recordSize e.1.length) =
        (List.range n).map fun h =>
          if slotOf n e.1 = h then g h + (record e).length else g h := by
      refine List.ext_getElem? fun h => ?_
      rw [List.getElem?_modify, List.getElem?_map, List.getElem?_map, recordSize_eq]
      rcases Nat.lt_or_ge h n with hlt | hge
      · rw [List.getElem?_range hlt]
        by_cases hslot : slotOf n e.1 = h
        · simp [hslot]
        · simp [hslot]
      · rw [List.getElem?_eq_none (by rw [List.length_range]; exact hge)]
        simp
    rw [List.foldl_cons, hmodify, ih]
    refine List.map_congr_left fun h _ => ?_
    by_cases hslot : slotOf n e.1 = h
    · subst hslot
      rw [if_pos rfl, deal_cons_self, coded_cons, List.length_append, Nat.add_assoc]
    · rw [if_neg hslot, deal_cons_of_ne hslot]

/-- The slots while the entries are dealt out: what has been dealt is written, and the room that
is left is just what the rest needs. -/
def Dealing (n : Nat) (dealt rest : List Entry) (st : List Bytes × List Nat) : Prop :=
  ∀ h < n, ∃ fill, st.1[h]? = some (coded (deal n dealt h) ++ fill) ∧
    fill.length = (coded (deal n rest h)).length ∧
    st.2[h]? = some (coded (deal n dealt h)).length

/-- **One record is written where there is room for it.** -/
theorem Dealing.rehash (hn : 0 < n) (hst : Dealing n dealt (e :: rest) st) :
    ∃ st', rehash n st e = some st' ∧ Dealing n (dealt ++ [e]) rest st' := by
  have hslot : slotOf n e.1 < n := Nat.mod_lt _ hn
  obtain ⟨fill, hblock, hfill, hnext⟩ := hst _ hslot
  rw [deal_cons_self, coded_cons, List.length_append, length_record] at hfill
  -- the record takes the beginning of what is left
  obtain ⟨room, fill', rfl, hroom⟩ : ∃ room fill', fill = room ++ fill' ∧
      room.length = headerSize e.1.length + e.1.length + valueSize :=
    ⟨fill.take (headerSize e.1.length + e.1.length + valueSize), _,
      (List.take_append_drop _ fill).symm, by rw [List.length_take]; omega⟩
  have hins := insKey_coded (coded (deal n dealt (slotOf n e.1))) fill' rfl hroom
  have hpoke := poke_value (coded (deal n dealt (slotOf n e.1))) fill' e.1 rfl 0 e.2
  rw [← List.append_assoc] at hblock
  have hcoded : coded (deal n (dealt ++ [e]) (slotOf n e.1)) =
      coded (deal n dealt (slotOf n e.1)) ++ record e := by
    rw [deal_append, deal_cons_self, coded_append, coded_cons]
    simp [deal]
  refine ⟨(st.1.set (slotOf n e.1) (coded (deal n dealt (slotOf n e.1)) ++ record e ++ fill'),
    st.2.set (slotOf n e.1) ((coded (deal n dealt (slotOf n e.1))).length +
      headerSize e.1.length + e.1.length + valueSize)), ?_, ?_⟩
  · unfold HatTrie.rehash
    simp only [hblock, hnext, hins, hpoke, Option.bind_eq_bind, Option.bind_some]
  · intro h hh
    by_cases hsame : slotOf n e.1 = h
    · subst hsame
      refine ⟨fill', ?_, ?_, ?_⟩
      · rw [hcoded]
        exact List.getElem?_set_self (List.getElem?_eq_some_iff.mp hblock).1
      · rw [List.length_append] at hfill
        omega
      · rw [hcoded, List.length_append, length_record, ← Nat.add_assoc, ← Nat.add_assoc]
        exact List.getElem?_set_self (List.getElem?_eq_some_iff.mp hnext).1
    · obtain ⟨fill₀, hblock₀, hfill₀, hnext₀⟩ := hst h hh
      have hdealt : deal n (dealt ++ [e]) h = deal n dealt h := by
        rw [deal_append, deal_cons_of_ne hsame]
        simp [deal]
      rw [deal_cons_of_ne hsame] at hfill₀
      refine ⟨fill₀, ?_, hfill₀, ?_⟩
      · rw [hdealt]
        exact (List.getElem?_set_ne hsame).trans hblock₀
      · rw [hdealt]
        exact (List.getElem?_set_ne hsame).trans hnext₀

/-- Dealing all entries succeeds. -/
theorem Dealing.foldlM (hn : 0 < n) (hst : Dealing n dealt rest st) :
    ∃ st', rest.foldlM (HatTrie.rehash n) st = some st' ∧ Dealing n (dealt ++ rest) [] st' := by
  induction rest generalizing dealt st with
  | nil => exact ⟨st, rfl, by rwa [List.append_nil]⟩
  | cons e rest ih =>
    obtain ⟨st', hstep, hst'⟩ := hst.rehash hn
    obtain ⟨st'', hrest, hst''⟩ := ih hst'
    refine ⟨st'', ?_, by rwa [List.append_assoc, List.singleton_append] at hst''⟩
    rw [List.foldlM_cons, hstep]
    exact hrest

/-- Dealing loses and adds no entry. -/
theorem perm_flatten_deal (hn : 0 < n) (es : List Entry) :
    ((List.range n).map (deal n es)).flatten.Perm es := by
  induction es with
  | nil =>
    have hnil : ∀ h, deal n [] h = [] := fun _ => rfl
    simp [hnil]
  | cons e es ih =>
    have hslot : slotOf n e.1 < n := Nat.mod_lt _ hn
    obtain ⟨front, back, hrange⟩ := List.append_of_mem (List.mem_range.mpr hslot)
    have hnodup : (front ++ slotOf n e.1 :: back).Nodup := hrange ▸ List.nodup_range
    have hother : ∀ h, h ≠ slotOf n e.1 → deal n (e :: es) h = deal n es h := by
      intro h hne
      exact deal_cons_of_ne fun heq => hne heq.symm
    have hfront : front.map (deal n (e :: es)) = front.map (deal n es) := by
      refine List.map_congr_left fun h hh => hother h ?_
      rintro rfl
      exact (List.nodup_middle.mp hnodup).notMem (List.mem_append_left _ hh)
    have hback : back.map (deal n (e :: es)) = back.map (deal n es) := by
      refine List.map_congr_left fun h hh => hother h ?_
      rintro rfl
      exact (List.nodup_middle.mp hnodup).notMem (List.mem_append_right _ hh)
    rw [hrange, List.map_append, List.map_cons, List.flatten_append, List.flatten_cons] at ih ⊢
    rw [hfront, hback, deal_cons_self, List.cons_append]
    exact List.perm_middle.trans (ih.cons e)

end

/-- **The expanded table holds the same entries** in twice as many slots; no record is written
outside the block allocated for its slot. -/
theorem expand_holds {t : AhTable} {rows : List (List Entry)} (h : Holds t rows) :
    ∃ t' rows', ahtableExpand t = some t' ∧ Holds t' rows' ∧ rows'.flatten.Perm rows.flatten ∧
      t' = { t with n := 2 * t.n, maxM := ahtableMaxLoadFactor * (2 * t.n), slots := t'.slots,
                    slotSizes := t'.slotSizes } := by
  have hn : 0 < 2 * t.n := by
    have := h.pos
    omega
  have hzero : List.replicate (2 * t.n) 0 = (List.range (2 * t.n)).map fun _ => 0 := by
    simp
  -- the first pass adds up the sizes of the new slots
  have hsizes := foldl_sizes (n := 2 * t.n) rows.flatten fun _ => 0
  simp only [Nat.zero_add] at hsizes
  rw [← hzero] at hsizes
  have hstart : Dealing (2 * t.n) [] rows.flatten
      (((List.range (2 * t.n)).map fun h =>
        (coded (deal (2 * t.n) rows.flatten h)).length).map Block.alloc,
        List.replicate (2 * t.n) 0) := by
    intro h hh
    refine ⟨Block.alloc (coded (deal (2 * t.n) rows.flatten h)).length, ?_, ?_, ?_⟩
    · simp [List.getElem?_range hh, deal]
    · exact Block.length_alloc _
    · simp [deal, hh]
  -- the second pass fills them to the last byte
  obtain ⟨st, hfold, hst⟩ := hstart.foldlM hn
  rw [List.nil_append] at hst
  have hperm := perm_flatten_deal hn rows.flatten
  refine ⟨{ t with
      slots := st.1
      slotSizes := (List.range (2 * t.n)).map fun h =>
        (coded (deal (2 * t.n) rows.flatten h)).length
      n := 2 * t.n
      maxM := ahtableMaxLoadFactor * (2 * t.n) },
    (List.range (2 * t.n)).map (deal (2 * t.n) rows.flatten), ?_, ?_, hperm, rfl⟩
  · unfold ahtableExpand
    simp only [iterate_eq h, hsizes, hfold, Option.bind_eq_bind, Option.bind_some, guard,
      if_pos h.pos, if_pos h.count.symm, Option.pure_def]
  · have hrow : ∀ (i : Nat) row, ((List.range (2 * t.n)).map (deal (2 * t.n) rows.flatten))[i]? =
        some row → i < 2 * t.n ∧ row = deal (2 * t.n) rows.flatten i := by
      intro i row hi
      rw [List.getElem?_map, Option.map_eq_some_iff] at hi
      obtain ⟨j, hj, rfl⟩ := hi
      obtain ⟨hlt, rfl⟩ := List.getElem?_eq_some_iff.mp hj
      rw [List.length_range] at hlt
      rw [List.getElem_range]
      exact ⟨hlt, rfl⟩
    -- each new slot has some of the old entries, in their order
    have hsub : ∀ row ∈ (List.range (2 * t.n)).map (deal (2 * t.n) rows.flatten),
        row.Sublist rows.flatten := by
      intro row hmem
      obtain ⟨i, -, rfl⟩ := List.mem_map.mp hmem
      exact List.filter_sublist
    refine ⟨hn, by simp, by simp [Function.comp_def], ?_, ?_, ?_, ?_, ?_⟩
    · intro i row hi
      obtain ⟨hlt, rfl⟩ := hrow i row hi
      obtain ⟨fill, hblock, -⟩ := hst i hlt
      exact ⟨fill, hblock⟩
    · intro row hmem e he
      obtain ⟨row₀, hrow₀, he₀⟩ := List.mem_flatten.mp ((hsub row hmem).subset he)
      exact h.short row₀ hrow₀ e he₀
    · intro i row hi e he
      obtain ⟨-, rfl⟩ := hrow i row hi
      simpa [deal] using (List.mem_filter.mp he).2
    · intro row hmem
      exact h.nodup_keys.sublist ((hsub row hmem).map Prod.fst)
    · show t.m = _
      rw [hperm.length_eq]
      exact h.count

end Ayubd.HatTrie
