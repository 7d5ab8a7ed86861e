import Ayubd.HatTrie.TableMap
import Mathlib.Data.List.Forall2

/-!
# Ayubd — iterators of the array hash table

`ahtable_iter_begin` and what is called on the iterator it returns. An unsorted iterator walks over
the slots; a sorted one collects the positions of all records first and sorts them by `cmpkey`,
which compares keys as `memcmp` does and a key before its extensions (`cmpkey_pos_iff`). `Ahead`
says which entries are still ahead of an iterator, and `Represents.listing` that at the beginning
these are the entries of the table, each once, and in order if they are sorted.
-/

namespace Ayubd.HatTrie

/-! ## The order of keys -/

theorem cmpkey_cons_self (x : UInt8) (a b : Bytes) : cmpkey (x :: a) (x :: b) = cmpkey a b := by
  unfold cmpkey
  rw [memcmp, if_pos rfl, List.length_cons, List.length_cons]
  split
  · omega
  · rfl

/-- Keys are compared at the first byte which differs. -/
theorem cmpkey_cons_of_ne {x y : UInt8} (h : x ≠ y) (a b : Bytes) :
    cmpkey (x :: a) (y :: b) = x.toNat - y.toNat := by
  have hne : (x.toNat : Int) - y.toNat ≠ 0 := by
    intro heq
    exact h (UInt8.toNat_inj.mp (by omega))
  unfold cmpkey
  rw [memcmp, if_neg h, if_neg hne]

/-- **`cmpkey`** is the lexicographic order. -/
theorem cmpkey_pos_iff (a b : Bytes) : 0 < cmpkey a b ↔ b < a := by
  induction a generalizing b with
  | nil =>
    refine iff_of_false ?_ (List.not_lt_nil b)
    show ¬ (0 : Int) < ([] : Bytes).length - b.length
    rw [List.length_nil]
    omega
  | cons x a ih =>
    cases b with
    | nil =>
      refine iff_of_true ?_ (List.nil_lt_cons x a)
      show (0 : Int) < (x :: a).length - ([] : Bytes).length
      rw [List.length_cons, List.length_nil]
      omega
    | cons y b =>
      rw [List.cons_lt_cons_iff]
      by_cases h : x = y
      · subst h
        rw [cmpkey_cons_self, ih]
        simp
      · rw [cmpkey_cons_of_ne h]
        constructor
        · intro hpos
          exact .inl (UInt8.lt_iff_toNat_lt.mpr (by omega))
        · rintro (hlt | ⟨heq, -⟩)
          · rw [UInt8.lt_iff_toNat_lt] at hlt
            omega
          · exact absurd heq.symm h

/-- `cmpkey` is the order of byte strings. -/
theorem cmpkey_nonpos_iff (a b : Bytes) : cmpkey a b ≤ 0 ↔ a ≤ b := by
  rw [← List.not_lt, ← cmpkey_pos_iff]
  omega

def cmpEntry (a b : Entry) : Bool := cmpkey a.1 b.1 ≤ 0

theorem pairwise_sorted (es : List Entry) :
    (es.mergeSort cmpEntry).Pairwise fun a b => a.1 ≤ b.1 := by
  have hpair : (es.mergeSort cmpEntry).Pairwise fun a b => cmpEntry a b = true :=
    List.pairwise_mergeSort ?_ ?_ es
  · refine hpair.imp fun {a b} h => ?_
    exact (cmpkey_nonpos_iff _ _).mp (of_decide_eq_true h)
  · intro a b c hab hbc
    refine decide_eq_true ((cmpkey_nonpos_iff _ _).mpr (List.le_trans
      ((cmpkey_nonpos_iff a.1 b.1).mp (of_decide_eq_true hab))
      ((cmpkey_nonpos_iff b.1 c.1).mp (of_decide_eq_true hbc))))
  · intro a b
    rcases List.le_total a.1 b.1 with h | h
    · exact Bool.or_eq_true_iff.mpr (.inl (decide_eq_true ((cmpkey_nonpos_iff _ _).mpr h)))
    · exact Bool.or_eq_true_iff.mpr (.inr (decide_eq_true ((cmpkey_nonpos_iff _ _).mpr h)))

/-! ## The positions of all records -/

section
variable {t : AhTable} {rows : List (List Entry)} {row before after : List Entry} {e : Entry}
  {es : List Entry} {rest : Bytes} {i : Nat} {f : Bytes → Option Value}

/-- What the inner loop of `ahtable_sorted_iter_begin` does for one record. -/
theorem slotStarts_spec (rest : Bytes) (hshort : Short row) :
    ∃ offs, slotStarts (coded row ++ rest) (coded row).length = some offs ∧
      List.Forall₂ (fun off e => ∃ before after, row = before ++ e :: after ∧
        off = (coded before).length) offs row := by
  -- the loop behind the records `before`, whose starts it has collected
  have hloop : ∀ after before offs fuel, row = before ++ after → after.length < fuel →
      List.Forall₂ (fun off e => ∃ before after, row = before ++ e :: after ∧
        off = (coded before).length) offs before →
      ∃ offs', loop
        (fun st : Nat × List Nat =>
          if st.1 < (coded row).length then do
            let k ← keylen (coded row ++ rest) st.1
            some (.inl (st.1 + headerSize k + k + valueSize, st.2 ++ [st.1]))
          else some (.inr st.2))
        fuel ((coded before).length, offs) = some offs' ∧
        List.Forall₂ (fun off e => ∃ before after, row = before ++ e :: after ∧
          off = (coded before).length) offs' row := by
    intro after
    -- induction on the records it has not come to
    induction after with
    | nil =>
      intro before offs fuel hrow hfuel hoffs
      obtain ⟨fuel, rfl⟩ := Nat.exists_eq_succ_of_ne_zero (show fuel ≠ 0 by omega)
      rw [List.append_nil] at hrow
      refine ⟨offs, loop_leave ?_, hrow ▸ hoffs⟩
      rw [hrow, if_neg (Nat.lt_irrefl _)]
    | cons e after ih =>
      intro before offs fuel hrow hfuel hoffs
      obtain ⟨fuel, rfl⟩ := Nat.exists_eq_succ_of_ne_zero (show fuel ≠ 0 by omega)
      rw [List.length_cons] at hfuel
      have hin : (coded before).length < (coded row).length := by
        rw [hrow, coded_append, coded_cons, List.length_append, List.length_append, length_record]
        unfold valueSize
        omega
      have he : e.1.length ≤ maxKey := by
        refine hshort e ?_
        rw [hrow]
        exact List.mem_append_right _ List.mem_cons_self
      have hblock : coded row ++ rest = coded before ++ record e ++ (coded after ++ rest) := by
        rw [hrow]
        simp only [coded_append, coded_cons, List.append_assoc]
      have hlen : keylen (coded row ++ rest) (coded before).length = some e.1.length := by
        rw [hblock]
        exact keylen_record _ _ he rfl
      have hnext : (coded before).length + headerSize e.1.length + e.1.length + valueSize =
          (coded (before ++ [e])).length := by
        rw [coded_append, coded_cons, coded_nil, List.append_nil, List.length_append, length_record]
        omega
      obtain ⟨offs', hrest, hall⟩ := ih (before ++ [e]) (offs ++ [(coded before).length]) fuel
        (by rw [hrow, List.append_assoc, List.singleton_append]) (by omega)
        (List.rel_append hoffs (.cons ⟨before, after, hrow, rfl⟩ .nil))
      refine ⟨offs', ?_, hall⟩
      rw [← hrest]
      refine loop_again ?_
      rw [if_pos hin]
      simp only [hlen, hnext, Option.bind_eq_bind, Option.bind_some]
  have hfuel : row.length < (coded row).length + 1 := Nat.lt_succ_of_le (length_le_length_coded row)
  exact hloop row [] [] _ rfl hfuel .nil

/-- A position of a record. -/
theorem entryAt_coded (h : Holds t rows) (hrow : rows[i]? = some (before ++ e :: after)) :
    entryAt t ⟨i, (coded before).length⟩ = some e := by
  have hstands : Stands t rows ⟨i, (coded before).length⟩
      (e :: (after ++ (rows.drop (i + 1)).flatten)) := .inr ⟨before, e, after, hrow, rfl, rfl⟩
  exact hstands.entryAt h

/-- The starts collected are those of the records. -/
theorem recordStarts_spec (h : Holds t rows) {j : Nat} (hj : j ≤ t.n) :
    ∃ xs, recordStarts t j = some xs ∧
      List.Forall₂ (fun l e => entryAt t l = some e) xs (rows.take j).flatten := by
  induction j with
  | zero => exact ⟨[], rfl, .nil⟩
  | succ j ih =>
    obtain ⟨xs, hxs, hall⟩ := ih (Nat.le_of_succ_le hj)
    have hlt : j < rows.length := by
      rw [h.length]
      exact hj
    have hrow : rows[j]? = some rows[j] := List.getElem?_eq_getElem hlt
    obtain ⟨rest, hslot⟩ := h.slots j _ hrow
    obtain ⟨offs, hoffs, hrecords⟩ :=
      slotStarts_spec rest (h.short _ (List.mem_of_getElem? hrow))
    refine ⟨xs ++ offs.map (Loc.mk j), ?_, ?_⟩
    · rw [recordStarts]
      simp only [hxs, hslot, h.size hrow, hoffs, Option.bind_eq_bind, Option.bind_some]
    · rw [List.take_add_one, hrow, Option.toList_some, List.flatten_append, List.flatten_singleton]
      refine List.rel_append hall ?_
      rw [List.forall₂_map_left_iff]
      refine hrecords.imp fun off e hoff => ?_
      obtain ⟨before, after, hsplit, rfl⟩ := hoff
      exact entryAt_coded h (hrow.trans (congrArg some hsplit))

/-! ## Iterators -/

/-- The entries of a table in the order of an iterator. -/
def listing (t : AhTable) (sorted : Bool) : List Entry :=
  if sorted then ((iterate t).getD []).mergeSort cmpEntry else (iterate t).getD []

/-- The entries that are ahead of an iterator. -/
def Ahead (t : AhTable) (it : AhIter) (es : List Entry) : Prop :=
  match it with
  | .unsorted l => ∃ rows, Holds t rows ∧ Stands t rows l es
  | .sorted xs i => xs.length = t.m ∧ (xs.drop i).map (entryAt t) = es.map some

theorem mapM_keys {xs : List Loc} (h : List.Forall₂ (fun l e => entryAt t l = some e) xs es) :
    ∃ keyed, (xs.mapM fun l => (entryAt t l).map fun e => (l, e.1)) = some keyed ∧
      keyed.map (fun p => entryAt t p.1) = es.map some ∧
      ∀ p ∈ keyed, (entryAt t p.1).map Prod.fst = some p.2 := by
  induction h with
  | nil => exact ⟨[], rfl, rfl, by simp⟩
  | @cons l e xs es hl _ ih =>
    obtain ⟨keyed, hkeyed, hmap, hkeys⟩ := ih
    refine ⟨(l, e.1) :: keyed, ?_, ?_, ?_⟩
    · rw [List.mapM_cons, hl, hkeyed]
      rfl
    · rw [List.map_cons, List.map_cons, hmap, hl]
    · intro p hp
      rcases List.mem_cons.mp hp with rfl | hp
      · rw [hl]
        rfl
      · exact hkeys p hp

/-- The sorted iterator holds the entries in the order of their keys. -/
theorem sortedIterBegin_spec (h : Holds t rows) :
    ∃ xs, ahtableSortedIterBegin t = some xs ∧ xs.length = t.m ∧
      xs.map (entryAt t) = (rows.flatten.mergeSort cmpEntry).map some := by
  obtain ⟨xs, hxs, hall⟩ := recordStarts_spec h (Nat.le_refl t.n)
  rw [← h.length, List.take_length] at hall
  obtain ⟨keyed, hkeyed, hmap, hkeys⟩ := mapM_keys hall
  have hlen : xs.length = t.m := by
    rw [hall.length_eq, h.count]
  have hlen' : keyed.length = t.m := by
    have hsame := congrArg List.length hmap
    rw [List.length_map, List.length_map] at hsame
    rw [hsame, h.count]
  refine ⟨(keyed.mergeSort fun a b => cmpkey a.2 b.2 ≤ 0).map Prod.fst, ?_, ?_, ?_⟩
  · unfold ahtableSortedIterBegin
    simp only [hxs, hlen, hkeyed, guard, if_true, Option.pure_def, Option.bind_eq_bind,
      Option.bind_some]
  · rw [List.length_map, List.length_mergeSort, hlen']
  · -- sorting commutes with reading the records
    let le : Option Entry → Option Entry → Bool := fun a b =>
      cmpkey ((a.map Prod.fst).getD []) ((b.map Prod.fst).getD []) ≤ 0
    rw [List.map_map]
    show (keyed.mergeSort _).map (fun p => entryAt t p.1) = _
    rw [List.map_mergeSort (s := le), hmap]
    · exact (List.map_mergeSort (f := some) (r := cmpEntry) (s := le) fun a _ b _ => rfl).symm
    · intro a ha b hb
      show decide (cmpkey a.2 b.2 ≤ 0) =
        decide (cmpkey (((entryAt t a.1).map Prod.fst).getD [])
          (((entryAt t b.1).map Prod.fst).getD []) ≤ 0)
      rw [hkeys a ha, hkeys b hb]
      rfl

/-- **`ahtable_iter_begin`**: all entries are ahead. -/
theorem iterBegin_spec (h : Holds t rows) (sorted : Bool) :
    ∃ it, ahtableIterBegin t sorted = some it ∧ Ahead t it (listing t sorted) := by
  unfold ahtableIterBegin listing
  rw [iterate_eq h, Option.getD_some]
  cases sorted with
  | true =>
    obtain ⟨xs, hbegin, hlen, hmap⟩ := sortedIterBegin_spec h
    refine ⟨.sorted xs 0, ?_, hlen, ?_⟩
    · rw [if_pos rfl, hbegin]
      rfl
    · rw [List.drop_zero]
      exact hmap
  | false => exact ⟨.unsorted (ahtableUnsortedIterBegin t), rfl, rows, h, stands_begin h⟩

/-- **`ahtable_iter_finished`**. -/
theorem Ahead.finished_iff {it : AhIter} (h : Ahead t it es) :
    ahtableIterFinished t it = true ↔ es = [] := by
  cases it with
  | unsorted l =>
    obtain ⟨rows, hrows, hl⟩ := h
    rw [← hl.finished_iff hrows]
    exact decide_eq_true_iff
  | sorted xs i =>
    obtain ⟨hlen, hmap⟩ := h
    have hsame := congrArg List.length hmap
    rw [List.length_map, List.length_map, List.length_drop, hlen] at hsame
    rw [← List.length_eq_zero_iff]
    show decide (t.m ≤ i) = true ↔ _
    rw [decide_eq_true_iff]
    omega

/-- **`ahtable_iter_key` and `ahtable_iter_val`**. -/
theorem Ahead.entry {it : AhIter} (h : Ahead t it (e :: es)) :
    ahtableIterEntry t it = some e := by
  cases it with
  | unsorted l =>
    obtain ⟨rows, hrows, hl⟩ := h
    exact hl.entryAt hrows
  | sorted xs i =>
    obtain ⟨hlen, hmap⟩ := h
    show xs[i]?.bind (entryAt t) = some e
    rw [← List.head?_drop]
    cases hd : xs.drop i with
    | nil =>
      rw [hd] at hmap
      cases hmap
    | cons l ls =>
      rw [hd, List.map_cons, List.map_cons] at hmap
      exact (List.cons.inj hmap).1

/-- **`ahtable_iter_next`**. -/
theorem Ahead.next {it : AhIter} (h : Ahead t it (e :: es)) :
    ∃ it', ahtableIterNext t it = some it' ∧ Ahead t it' es := by
  cases it with
  | unsorted l =>
    obtain ⟨rows, hrows, hl⟩ := h
    obtain ⟨l', hnext, hl'⟩ := hl.next hrows
    exact ⟨.unsorted l', by rw [ahtableIterNext, hnext]; rfl, rows, hrows, hl'⟩
  | sorted xs i =>
    have hin : ¬ t.m ≤ i := by
      intro hend
      have hnil : e :: es = [] := h.finished_iff.mp (decide_eq_true hend)
      cases hnil
    obtain ⟨hlen, hmap⟩ := h
    refine ⟨.sorted xs (i + 1), ?_, hlen, ?_⟩
    · rw [ahtableIterNext, if_neg hin]
    · rw [← List.tail_drop, List.map_tail, hmap]
      rfl

/-- **The entries of a table**, as an iterator sees them. -/
theorem Represents.listing (h : Represents t f) (sorted : Bool) :
    ((listing t sorted).map Prod.fst).Nodup ∧
      (∀ k v, f k = some v ↔ (k, v) ∈ HatTrie.listing t sorted) ∧
      (HatTrie.listing t sorted).length = t.m ∧
      (sorted = true → (HatTrie.listing t sorted).Pairwise fun a b => a.1 < b.1) := by
  obtain ⟨es, hes, hnodup, hmem, hlen, -⟩ := h.iterate
  unfold HatTrie.listing
  rw [hes, Option.getD_some]
  cases sorted with
  | false => exact ⟨hnodup, hmem, hlen, by simp⟩
  | true =>
    rw [if_pos rfl]
    have hperm := List.mergeSort_perm es cmpEntry
    have hnodup' : ((es.mergeSort cmpEntry).map Prod.fst).Nodup :=
      (hperm.map Prod.fst).nodup_iff.mpr hnodup
    refine ⟨hnodup', fun k v => ?_, ?_, fun _ => ?_⟩
    · rw [hmem, List.mem_mergeSort]
    · rw [List.length_mergeSort, hlen]
    · have hne : (es.mergeSort cmpEntry).Pairwise fun a b => a.1 ≠ b.1 :=
        List.pairwise_map.mp hnodup'
      refine ((pairwise_sorted es).and hne).imp fun {a b} hab => ?_
      rcases List.le_iff_lt_or_eq.mp hab.1 with hlt | heq
      · exact hlt
      · exact absurd heq hab.2

end

end Ayubd.HatTrie
