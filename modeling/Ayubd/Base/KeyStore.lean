import Mathlib.Data.List.AList

/-!
# Ayubd — key-value stores used by one caller

A store as its only caller sees it: values are looked up, set and deleted by their keys, each
operation run to its end before the next begins. An operation that touches memory it must not, or
ends the process, has no result. `KeyStore.outs` is what a list of operations returns, `mapOuts`
what a finite map returns, and `Represents.outs_eq` derives their agreement over all lists of
operations from what one operation does to a state that represents a map.

A lookup that finds nothing leaves an entry with a blank value behind, as in AWK; `find` is the
lookup that does not.
-/

namespace Ayubd

inductive MapOp (κ ν : Type) where
  | get (k : κ)
  | set (k : κ) (v : ν)
  | find (k : κ)
  | del (k : κ)
  | size
deriving DecidableEq

def MapOp.key {κ ν : Type} : MapOp κ ν → Option κ
  | .get k | .set k _ | .find k | .del k => some k
  | .size => none

/-- An operation on keys and values that are encoded. -/
def MapOp.map {κ κ' ν ν' : Type} (e : κ → κ') (p : ν → ν') : MapOp κ ν → MapOp κ' ν'
  | .get k => .get (e k)
  | .set k v => .set (e k) (p v)
  | .find k => .find (e k)
  | .del k => .del (e k)
  | .size => .size

inductive MapOut (ν : Type) where
  | done
  | value (v : ν)
  | found (v : Option ν)
  | deleted (b : Bool)
  | size (n : Nat)
deriving DecidableEq

/-- What is returned when values are encoded. -/
def MapOut.map {ν ν' : Type} (p : ν → ν') : MapOut ν → MapOut ν'
  | .done => .done
  | .value v => .value (p v)
  | .found v => .found (v.map p)
  | .deleted b => .deleted b
  | .size n => .size n

/-- A store with states `σ` for values `ν` by keys `κ`. -/
structure KeyStore (σ κ ν : Type) where
  get : σ → κ → Option (ν × σ)
  set : σ → κ → ν → Option σ
  find : σ → κ → Option (Option ν)
  del : σ → κ → Option (Bool × σ)
  size : σ → Nat

namespace KeyStore

variable {σ κ ν : Type}

/-- One operation: what it returns and the state it leaves. -/
def exec (S : KeyStore σ κ ν) (s : σ) : MapOp κ ν → Option (MapOut ν × σ)
  | .get k => (S.get s k).map fun r => (.value r.1, r.2)
  | .set k v => (S.set s k v).map fun s => (.done, s)
  | .find k => (S.find s k).map fun v => (.found v, s)
  | .del k => (S.del s k).map fun r => (.deleted r.1, r.2)
  | .size => some (.size (S.size s), s)

def outs (S : KeyStore σ κ ν) (s : σ) : List (MapOp κ ν) → Option (List (MapOut ν))
  | [] => some []
  | op :: ops => do
    let (out, s) ← S.exec s op
    let rest ← S.outs s ops
    some (out :: rest)

def after (S : KeyStore σ κ ν) (s : σ) : List (MapOp κ ν) → Option σ
  | [] => some s
  | op :: ops => do
    let (_, s) ← S.exec s op
    S.after s ops

section
variable [DecidableEq κ] (blank : ν)

/-- The map after a lookup. -/
def mapGet (a : AList fun _ : κ => ν) (k : κ) : AList fun _ : κ => ν :=
  if k ∈ a then a else a.insert k blank

def mapExec (a : AList fun _ : κ => ν) : MapOp κ ν → MapOut ν × AList fun _ : κ => ν
  | .get k => (.value ((a.lookup k).getD blank), mapGet blank a k)
  | .set k v => (.done, a.insert k v)
  | .find k => (.found (a.lookup k), a)
  | .del k => (.deleted (a.lookup k).isSome, a.erase k)
  | .size => (.size a.keys.length, a)

/-- What a list of operations on a finite map returns. -/
def mapOuts (a : AList fun _ : κ => ν) : List (MapOp κ ν) → List (MapOut ν)
  | [] => []
  | op :: ops => (mapExec blank a op).1 :: mapOuts (mapExec blank a op).2 ops

def mapAfter (a : AList fun _ : κ => ν) : List (MapOp κ ν) → AList fun _ : κ => ν
  | [] => a
  | op :: ops => mapAfter (mapExec blank a op).2 ops

/-- `R` relates the states of `S` to the maps they represent: an operation with a key that
satisfies `valid` does what it does to the map. -/
structure Represents (S : KeyStore σ κ ν) (valid : κ → Prop)
    (R : σ → (AList fun _ : κ => ν) → Prop) : Prop where
  get : ∀ s a k, valid k → R s a →
    ∃ s', S.get s k = some ((a.lookup k).getD blank, s') ∧ R s' (mapGet blank a k)
  set : ∀ s a k v, valid k → R s a → ∃ s', S.set s k v = some s' ∧ R s' (a.insert k v)
  find : ∀ s a k, valid k → R s a → S.find s k = some (a.lookup k)
  del : ∀ s a k, valid k → R s a →
    ∃ s', S.del s k = some ((a.lookup k).isSome, s') ∧ R s' (a.erase k)
  size : ∀ s a, R s a → S.size s = a.keys.length

variable {blank} {S : KeyStore σ κ ν} {valid : κ → Prop}
  {R : σ → (AList fun _ : κ => ν) → Prop} {s : σ} {a : AList fun _ : κ => ν}

/-- One operation on a represented state does what it does to the map. -/
theorem Represents.exec (hS : Represents blank S valid R) (hs : R s a) (op : MapOp κ ν)
    (hop : ∀ k ∈ op.key, valid k) :
    ∃ s', S.exec s op = some ((mapExec blank a op).1, s') ∧ R s' (mapExec blank a op).2 := by
  cases op with
  | get k =>
    obtain ⟨s', hget, hR⟩ := hS.get s a k (hop k rfl) hs
    exact ⟨s', by rw [KeyStore.exec, hget]; rfl, hR⟩
  | set k v =>
    obtain ⟨s', hset, hR⟩ := hS.set s a k v (hop k rfl) hs
    exact ⟨s', by rw [KeyStore.exec, hset]; rfl, hR⟩
  | find k =>
    exact ⟨s, by rw [KeyStore.exec, hS.find s a k (hop k rfl) hs]; rfl, hs⟩
  | del k =>
    obtain ⟨s', hdel, hR⟩ := hS.del s a k (hop k rfl) hs
    exact ⟨s', by rw [KeyStore.exec, hdel]; rfl, hR⟩
  | size => exact ⟨s, by rw [KeyStore.exec, hS.size s a hs]; rfl, hs⟩

/-- **Agreement.** A store that represents finite maps returns what the map returns, for every
list of operations. -/
theorem Represents.outs_eq (hS : Represents blank S valid R) (hs : R s a) (ops : List (MapOp κ ν))
    (hops : ∀ op ∈ ops, ∀ k ∈ op.key, valid k) : S.outs s ops = some (mapOuts blank a ops) := by
  induction ops generalizing s a with
  | nil => rfl
  | cons op ops ih =>
    obtain ⟨s', hexec, hR⟩ := hS.exec hs op (hops op List.mem_cons_self)
    have hrest := ih hR fun op' hop' => hops op' (List.mem_cons_of_mem _ hop')
    rw [KeyStore.outs, hexec]
    simp only [Option.bind_eq_bind, Option.bind_some, hrest, mapOuts]

/-- The state that is left represents the map that is left. -/
theorem Represents.after (hS : Represents blank S valid R) (hs : R s a) (ops : List (MapOp κ ν))
    (hops : ∀ op ∈ ops, ∀ k ∈ op.key, valid k) :
    ∃ s', S.after s ops = some s' ∧ R s' (mapAfter blank a ops) := by
  induction ops generalizing s a with
  | nil => exact ⟨s, rfl, hs⟩
  | cons op ops ih =>
    obtain ⟨s₁, hexec, hR⟩ := hS.exec hs op (hops op List.mem_cons_self)
    obtain ⟨s', hrest, hR'⟩ := ih hR fun op' hop' => hops op' (List.mem_cons_of_mem _ hop')
    refine ⟨s', ?_, hR'⟩
    rw [KeyStore.after, hexec]
    exact hrest

end

/-! ## Keys and values of maps -/

section
variable [DecidableEq κ] {a : AList fun _ : κ => ν} {k : κ}

theorem mem_iff_lookup : k ∈ a ↔ a.lookup k ≠ none := by
  rw [← AList.lookup_isSome, Option.isSome_iff_ne_none]

/-- An insertion adds one key, or none where the key was there. -/
theorem length_keys_insert (a : AList fun _ : κ => ν) (k : κ) (v : ν) :
    (a.insert k v).keys.length = a.keys.length + if a.lookup k = none then 1 else 0 := by
  by_cases hk : k ∈ a
  · have hlookup : a.lookup k ≠ none := mem_iff_lookup.mp hk
    have hlen := List.length_erase_of_mem (AList.mem_keys.mp hk)
    have hpos := List.length_pos_of_mem (AList.mem_keys.mp hk)
    rw [if_neg hlookup, AList.keys_insert, List.length_cons, hlen]
    omega
  · have hlookup : a.lookup k = none := AList.lookup_eq_none.mpr hk
    rw [if_pos hlookup, AList.keys_insert, List.length_cons,
      List.erase_of_not_mem fun h => hk (AList.mem_keys.mpr h)]

/-- An erasure takes one key, or none where the key was not there. -/
theorem length_keys_erase (a : AList fun _ : κ => ν) (k : κ) :
    (a.erase k).keys.length + (if a.lookup k = none then 0 else 1) = a.keys.length := by
  rw [AList.keys_erase]
  by_cases hk : k ∈ a
  · have hlookup : a.lookup k ≠ none := mem_iff_lookup.mp hk
    have hlen := List.length_erase_of_mem (AList.mem_keys.mp hk)
    have hpos := List.length_pos_of_mem (AList.mem_keys.mp hk)
    rw [if_neg hlookup, hlen]
    omega
  · have hlookup : a.lookup k = none := AList.lookup_eq_none.mpr hk
    rw [if_pos hlookup, List.erase_of_not_mem fun h => hk (AList.mem_keys.mpr h)]
    rfl

/-- An insertion updates the map at its key. -/
theorem lookup_insert_eq_update (a : AList fun _ : κ => ν) (k : κ) (v : ν) :
    (a.insert k v).lookup = Function.update a.lookup k (some v) := by
  funext k'
  by_cases hk : k' = k
  · subst hk
    rw [AList.lookup_insert, Function.update_self]
  · rw [AList.lookup_insert_ne hk, Function.update_of_ne hk]

/-- An erasure clears the map at its key. -/
theorem lookup_erase_eq_update (a : AList fun _ : κ => ν) (k : κ) :
    (a.erase k).lookup = Function.update a.lookup k none := by
  funext k'
  by_cases hk : k' = k
  · subst hk
    rw [AList.lookup_erase, Function.update_self]
  · rw [AList.lookup_erase_ne hk, Function.update_of_ne hk]

/-- Where a lookup leads: the key has its value, or the blank one. -/
theorem lookup_mapGet (blank : ν) (a : AList fun _ : κ => ν) (k : κ) :
    (mapGet blank a k).lookup = Function.update a.lookup k (some ((a.lookup k).getD blank)) := by
  unfold mapGet
  split
  · next hk =>
    obtain ⟨v, hv⟩ := Option.ne_none_iff_exists'.mp (mem_iff_lookup.mp hk)
    rw [hv, Option.getD_some, ← hv, Function.update_eq_self]
  · next hk =>
    rw [lookup_insert_eq_update, AList.lookup_eq_none.mpr hk]
    rfl

/-- A read adds one key, or none where the key was there. -/
theorem length_keys_mapGet (blank : ν) (a : AList fun _ : κ => ν) (k : κ) :
    (mapGet blank a k).keys.length = a.keys.length + if a.lookup k = none then 1 else 0 := by
  unfold mapGet
  split
  · next hk => rw [if_neg (mem_iff_lookup.mp hk), Nat.add_zero]
  · next hk => rw [length_keys_insert]

end

/-! ## Encoded keys and values -/

section
variable {κ' ν' : Type} [DecidableEq κ] [DecidableEq κ'] {e : κ → κ'} {p : ν → ν'} {blank : ν}
  {a : AList fun _ : κ => ν} {a' : AList fun _ : κ' => ν'}

/-- `a'` is `a` with keys encoded by `e` and values by `p`. -/
def Encodes (e : κ → κ') (p : ν → ν') (a : AList fun _ : κ => ν) (a' : AList fun _ : κ' => ν') :
    Prop :=
  (∀ k, a'.lookup (e k) = (a.lookup k).map p) ∧ a'.keys.length = a.keys.length

/-- The encoding survives an insertion on both sides. -/
theorem Encodes.insert (he : Function.Injective e) (h : Encodes e p a a') (k : κ) (v : ν) :
    Encodes e p (a.insert k v) (a'.insert (e k) (p v)) := by
  refine ⟨fun k' => ?_, ?_⟩
  · by_cases hk : k' = k
    · subst hk
      rw [AList.lookup_insert, AList.lookup_insert, Option.map_some]
    · rw [AList.lookup_insert_ne hk, AList.lookup_insert_ne fun heq => hk (he heq), h.1]
  · rw [length_keys_insert, length_keys_insert, h.1, h.2]
    simp only [Option.map_eq_none_iff]

/-- The encoding survives an erasure on both sides. -/
theorem Encodes.erase (he : Function.Injective e) (h : Encodes e p a a') (k : κ) :
    Encodes e p (a.erase k) (a'.erase (e k)) := by
  refine ⟨fun k' => ?_, ?_⟩
  · by_cases hk : k' = k
    · subst hk
      rw [AList.lookup_erase, AList.lookup_erase, Option.map_none]
    · rw [AList.lookup_erase_ne hk, AList.lookup_erase_ne fun heq => hk (he heq), h.1]
  · have hlen := length_keys_erase a k
    have hlen' := length_keys_erase a' (e k)
    rw [h.1] at hlen'
    simp only [Option.map_eq_none_iff] at hlen'
    have hsame := h.2
    omega

/-- One operation does the same to both. -/
theorem Encodes.mapExec (blank : ν) (he : Function.Injective e) (h : Encodes e p a a')
    (op : MapOp κ ν) :
    (mapExec (p blank) a' (op.map e p)).1 = (mapExec blank a op).1.map p ∧
      Encodes e p (mapExec blank a op).2 (mapExec (p blank) a' (op.map e p)).2 := by
  cases op with
  | get k =>
    refine ⟨?_, ?_⟩
    · show MapOut.value ((a'.lookup (e k)).getD (p blank)) = .value (p ((a.lookup k).getD blank))
      rw [h.1]
      cases a.lookup k <;> rfl
    · show Encodes e p (mapGet blank a k) (mapGet (p blank) a' (e k))
      have hmem : e k ∈ a' ↔ k ∈ a := by
        rw [mem_iff_lookup, mem_iff_lookup, h.1, ne_eq, Option.map_eq_none_iff]
      unfold mapGet
      -- the key is there on both sides or on neither, where both add it
      by_cases hk : k ∈ a
      · rw [if_pos hk, if_pos (hmem.mpr hk)]
        exact h
      · rw [if_neg hk, if_neg fun h' => hk (hmem.mp h')]
        exact h.insert he k blank
  | set k v => exact ⟨rfl, h.insert he k v⟩
  | find k =>
    refine ⟨?_, h⟩
    show MapOut.found (a'.lookup (e k)) = .found ((a.lookup k).map p)
    rw [h.1]
  | del k =>
    refine ⟨?_, h.erase he k⟩
    show MapOut.deleted (a'.lookup (e k)).isSome = .deleted (a.lookup k).isSome
    rw [h.1, Option.isSome_map]
  | size =>
    refine ⟨?_, h⟩
    show MapOut.size a'.keys.length = .size a.keys.length
    rw [h.2]

/-- **Encoding.** Operations on encoded keys and values return the encoded results. -/
theorem Encodes.mapOuts (he : Function.Injective e) (h : Encodes e p a a')
    (ops : List (MapOp κ ν)) :
    mapOuts (p blank) a' (ops.map (MapOp.map e p)) = (mapOuts blank a ops).map (MapOut.map p) := by
  induction ops generalizing a a' with
  | nil => rfl
  | cons op ops ih =>
    obtain ⟨hout, hnext⟩ := h.mapExec blank he op
    rw [List.map_cons, KeyStore.mapOuts, KeyStore.mapOuts, List.map_cons, hout, ih hnext]

theorem encodes_empty : Encodes e p ∅ ∅ := ⟨fun _ => rfl, rfl⟩

end

end KeyStore

end Ayubd
