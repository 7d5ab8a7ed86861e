import Ayubd.HatTrie.Get

/-!
# Ayubd — the associative arrays of the program

`assoc_array_impl_hattrie.h`: an array is a hat-trie, `array_get` and `array_set` read and write
through the pointer that `hattrie_get` returns. The program passes `strlen(k) + 1` or `sizeof(k)`
with every key, so that keys end with their NUL and none is a prefix of another (`PrefixFree`).
Among such keys no key ends at a trie node, which is where `hattrie_get` would look at the byte
behind it (`Keeps`).

* **`array_outs_eq`** — an array cannot be told from a finite map, whatever the bytes behind the
  keys are.
-/

namespace Ayubd.HatTrie

/-- `array_get`, `*hattrie_get(a, k, klen)`: the value and the array afterwards. -/
def arrayGet (T : Trie) (k : Bytes) (past : UInt8) : Option (Value × Trie) := do
  let (T, r) ← hattrieGet T k past
  let v ← T.load r
  some (v, T)

/-- `array_set`, `*hattrie_get(a, k, klen) = val`. -/
def arraySet (T : Trie) (k : Bytes) (past : UInt8) (val : Value) : Option Trie := do
  let (T, r) ← hattrieGet T k past
  T.store r val

def arrayKeyExists (T : Trie) (k : Bytes) : Option Bool := (hattrieTryget T k).map Option.isSome

def arrayFind (T : Trie) (k : Bytes) : Option (Option Value) := do
  match ← hattrieTryget T k with
  | none => some none
  | some r => (T.load r).map some

/-! ## Keys -/

/-- No key of the set is empty or a prefix of another one. -/
structure PrefixFree (D : Set Bytes) : Prop where
  nil : [] ∉ D
  longer : ∀ k ∈ D, ∀ s, s ≠ [] → k ++ s ∉ D

theorem PrefixFree.subset {D E : Set Bytes} (h : PrefixFree D) (hE : E ⊆ D) : PrefixFree E :=
  ⟨fun hnil => h.nil (hE hnil), fun k hk s hs hlong => h.longer k (hE hk) s hs (hE hlong)⟩

/-- The keys of the program: strings with their NUL. -/
def cKeys : Set Bytes := {k | ∃ s, (0 : UInt8) ∉ s ∧ k = s ++ [0]}

/-- No C string is a proper prefix of another, its `NUL` included. -/
theorem prefixFree_cKeys : PrefixFree cKeys := by
  constructor
  · rintro ⟨s, -, hs⟩
    exact List.cons_ne_nil _ _ (List.append_eq_nil_iff.mp hs.symm).2
  · rintro k ⟨s, -, rfl⟩ s' hs' ⟨s'', hnul, heq⟩
    -- the NUL of the shorter key would be inside the longer one
    have hlast : s' = s'.dropLast ++ [s'.getLast hs'] := (List.dropLast_append_getLast hs').symm
    rw [hlast, ← List.append_assoc] at heq
    obtain ⟨heq, -⟩ := List.append_inj' heq rfl
    rw [← heq] at hnul
    exact hnul (by simp)

/-! ## What an array holds -/

/-- A trie holds `f`, whose keys are in `D`, and no trie node is where a key of `D` ends. -/
structure Keeps (D : Set Bytes) (T : Trie) (f : Bytes → Option Value) : Prop where
  exists_path : ∃ path, Ok T path ∧ ∀ x t, T.cell x = some (.trie t) → path x ∉ D
  denote : denote T = f
  keys : ∀ k, f k ≠ none → k ∈ D

section
variable {D : Set Bytes} {T : Trie} {f : Bytes → Option Value} {k : Bytes} {r : Ref}

theorem keeps_create (hD : PrefixFree D) : Keeps D hattrieCreate fun _ => none :=
  ⟨⟨_, ok_create, fun _ _ _ => hD.nil⟩, denote_create, fun _ h => absurd rfl h⟩

/-- A key ends in a bucket. -/
theorem Keeps.clean (h : Keeps D T f) (hk : k ∈ D) (past : UInt8) : Clean T past k := by
  obtain ⟨path, hok, htries⟩ := h.exists_path
  intro a t hplace ht
  obtain ⟨p, hp, hlabel, -⟩ := hok.exists_place k
  rw [hplace] at hp
  cases hp
  have hpath : path a = k := hlabel
  exact absurd (hpath ▸ hk) (htries a t ht)

/-- **`hattrie_get`** on an array. -/
theorem Keeps.get (hD : PrefixFree D) (h : Keeps D T f) (hk : k ∈ D) (hlen : k.length ≤ maxKey)
    (past : UInt8) :
    ∃ T' r, hattrieGet T k past = some (T', r) ∧ Refers T' k r ∧
      Keeps D T' (Function.update f k (some ((f k).getD 0))) ∧
      T'.m = T.m + if f k = none then 1 else 0 := by
  obtain ⟨path, hok, htries⟩ := h.exists_path
  have hne : k ≠ [] := fun heq => hD.nil (heq ▸ hk)
  obtain ⟨T', path', r, hget, hfound⟩ := hattrieGet_spec hok hne hlen (h.clean hk past)
  have hdenote := hfound.denote
  have hm := hfound.m
  rw [h.denote] at hdenote hm
  refine ⟨T', r, hget, hfound.refers, ⟨⟨path', hfound.ok, ?_⟩, hdenote, ?_⟩, hm⟩
  · intro x t ht
    rcases hfound.tries x t ht with ⟨⟨t₀, ht₀⟩, hpath⟩ | ⟨s, hs, hval⟩
    · rw [hpath]
      exact htries x t₀ ht₀
    · -- a trie node above a key is not where another key ends
      rw [h.denote] at hval
      intro hmem
      exact hD.longer _ hmem s hs (h.keys _ hval)
  · intro k' hk'
    by_cases heq : k' = k
    · rw [heq]
      exact hk
    · rw [Function.update_of_ne heq] at hk'
      exact h.keys k' hk'

/-- A store through the reference updates the map at its key. -/
theorem Keeps.store (h : Keeps D T f) (hr : Refers T k r) (hk : k ∈ D) (v : Value) :
    ∃ T', T.store r v = some T' ∧ Keeps D T' (Function.update f k (some v)) ∧ T'.m = T.m := by
  obtain ⟨path, hok, htries⟩ := h.exists_path
  obtain ⟨T', hstore, hok', hshape, hdenote, hm⟩ := hr.store hok v
  rw [h.denote] at hdenote
  refine ⟨T', hstore, ⟨⟨path, hok', ?_⟩, hdenote, ?_⟩, hm⟩
  · intro x t ht
    obtain ⟨t₀, ht₀, -⟩ := hshape.symm.trie ht
    exact htries x t₀ ht₀
  · intro k' hk'
    by_cases heq : k' = k
    · rw [heq]
      exact hk
    · rw [Function.update_of_ne heq] at hk'
      exact h.keys k' hk'

/-- **`array_set`**. -/
theorem Keeps.set (hD : PrefixFree D) (h : Keeps D T f) (hk : k ∈ D) (hlen : k.length ≤ maxKey)
    (past : UInt8) (v : Value) :
    ∃ T', arraySet T k past v = some T' ∧ Keeps D T' (Function.update f k (some v)) ∧
      T'.m = T.m + if f k = none then 1 else 0 := by
  obtain ⟨T₁, r, hget, hrefers, hkeeps₁, hm₁⟩ := h.get hD hk hlen past
  obtain ⟨T', hstore, hkeeps, hm⟩ := hkeeps₁.store hrefers hk v
  rw [Function.update_idem] at hkeeps
  refine ⟨T', ?_, hkeeps, hm.trans hm₁⟩
  simp only [arraySet, hget, hstore, Option.bind_eq_bind, Option.bind_some]

/-- A look-up gives the entry of the map. -/
theorem Keeps.find (hD : PrefixFree D) (h : Keeps D T f) (hk : k ∈ D) :
    arrayFind T k = some (f k) ∧ arrayKeyExists T k = some (f k).isSome := by
  obtain ⟨path, hok, -⟩ := h.exists_path
  have hne : k ≠ [] := fun heq => hD.nil (heq ▸ hk)
  obtain ⟨r, htryget, hnone, hrefers⟩ := hattrieTryget_spec hok hne
  rw [h.denote] at hnone
  unfold arrayFind arrayKeyExists
  simp only [htryget, Option.bind_eq_bind, Option.bind_some, Option.map_some]
  cases r with
  | none =>
    rw [hnone.mpr rfl]
    exact ⟨rfl, rfl⟩
  | some ref =>
    obtain ⟨hload, hval⟩ := (hrefers ref rfl).load
    rw [h.denote] at hload hval
    obtain ⟨v, hv⟩ := Option.ne_none_iff_exists'.mp hval
    show (T.load ref).map some = some (f k) ∧ some true = some (f k).isSome
    rw [hload, hv]
    exact ⟨rfl, rfl⟩

/-- A deletion clears the map at its key and counts it. -/
theorem Keeps.del (hD : PrefixFree D) (h : Keeps D T f) (hk : k ∈ D) :
    ∃ T', hattrieDel T k = some (T', (f k).isSome) ∧ Keeps D T' (Function.update f k none) ∧
      T'.m = countSub T.m (if f k = none then 0 else 1) := by
  obtain ⟨path, hok, htries⟩ := h.exists_path
  have hne : k ≠ [] := fun heq => hD.nil (heq ▸ hk)
  obtain ⟨T', hdel, hok', hshape, hdenote, hm⟩ := hattrieDel_spec hok hne
  rw [h.denote] at hdel hdenote hm
  refine ⟨T', hdel, ⟨⟨path, hok', ?_⟩, hdenote, ?_⟩, hm⟩
  · intro x t ht
    obtain ⟨t₀, ht₀, -⟩ := hshape.symm.trie ht
    exact htries x t₀ ht₀
  · intro k' hk'
    by_cases heq : k' = k
    · rw [heq, Function.update_self] at hk'
      exact absurd rfl hk'
    · rw [Function.update_of_ne heq] at hk'
      exact h.keys k' hk'

end

/-! ## An array and its caller -/

/-- An array as its caller sees it, with the bytes that will lie behind the keys of calls of
`hattrie_get`. -/
def arrayStore : KeyStore (Trie × (Nat → UInt8)) Bytes Value where
  get s k := do
    let (v, T) ← arrayGet s.1 k (s.2 0)
    some (v, T, fun i => s.2 (i + 1))
  set s k v := do
    let T ← arraySet s.1 k (s.2 0) v
    some (T, fun i => s.2 (i + 1))
  find s k := arrayFind s.1 k
  del s k := do
    let (T, ret) ← hattrieDel s.1 k
    some (ret, T, s.2)
  size s := hattrieSize s.1

def ArrayRep (D : Set Bytes) (s : Trie × (Nat → UInt8)) (a : AList fun _ : Bytes => Value) :
    Prop :=
  Keeps D s.1 a.lookup ∧ s.1.m = a.keys.length

/-- The array is a store of keys and values. -/
theorem arrayStore_represents {D : Set Bytes} (hD : PrefixFree D) :
    arrayStore.Represents 0 (fun k => k ∈ D ∧ k.length ≤ maxKey) (ArrayRep D) where
  get s a k hk h := by
    obtain ⟨T', r, hget, hrefers, hkeeps, hm⟩ := h.1.get hD hk.1 hk.2 (s.2 0)
    refine ⟨(T', fun i => s.2 (i + 1)), ?_, ?_, ?_⟩
    · have hload := hrefers.load.1
      rw [hkeeps.denote, Function.update_self] at hload
      simp only [arrayStore, arrayGet, hget, hload, Option.bind_eq_bind, Option.bind_some]
    · rw [KeyStore.lookup_mapGet]
      exact hkeeps
    · rw [KeyStore.length_keys_mapGet, ← h.2]
      exact hm
  set s a k v hk h := by
    obtain ⟨T', hset, hkeeps, hm⟩ := h.1.set hD hk.1 hk.2 (s.2 0) v
    refine ⟨(T', fun i => s.2 (i + 1)), ?_, ?_, ?_⟩
    · simp only [arrayStore, hset, Option.bind_eq_bind, Option.bind_some]
    · rw [KeyStore.lookup_insert_eq_update]
      exact hkeeps
    · rw [KeyStore.length_keys_insert, ← h.2]
      exact hm
  find s a k hk h := (h.1.find hD hk.1).1
  del s a k hk h := by
    obtain ⟨T', hdel, hkeeps, hm⟩ := h.1.del hD hk.1
    refine ⟨(T', s.2), ?_, ?_, ?_⟩
    · simp only [arrayStore, hdel, Option.bind_eq_bind, Option.bind_some]
    · rw [KeyStore.lookup_erase_eq_update]
      exact hkeeps
    · have hlen := KeyStore.length_keys_erase a k
      have hsize := h.2
      show T'.m = (a.erase k).keys.length
      rw [hm, countSub, if_pos (by omega)]
      omega
  size s a h := h.2

/-- The map after any operations on a new array is the one that the array represents. -/
theorem array_after {D : Set Bytes} (hD : PrefixFree D) (past : Nat → UInt8)
    (ops : List (MapOp Bytes Value))
    (hkeys : ∀ op ∈ ops, ∀ k ∈ op.key, k ∈ D ∧ k.length ≤ maxKey) :
    ∃ s, arrayStore.after (hattrieCreate, past) ops = some s ∧
      ArrayRep D s (KeyStore.mapAfter 0 ∅ ops) :=
  (arrayStore_represents hD).after ⟨keeps_create hD, rfl⟩ ops hkeys

end Ayubd.HatTrie
