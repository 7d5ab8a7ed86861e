import Ayubd.Assoc
import Ayubd.HatTrie.Dup

/-!
# Ayubd — the finite map under the associative arrays

`Ayubd.Assoc` takes an array to be a finite map from strings to values of which `none` is 0. Here
the map is what the hat-trie makes of the calls: a string is passed with its NUL and a value as a
word.

* **`assoc_results_eq`** — the calls on a finite map return what the calls on a hat-trie return.
-/

namespace Ayubd.HatTrie

/-- A call of `array_get`, `array_set` or `array_size`. -/
inductive AssocCall (α : Type) where
  | get (k : Bytes)
  | set (k : Bytes) (v : α)
  | size

section
variable {α : Type}

def AssocCall.key : AssocCall α → Option Bytes
  | .get k | .set k _ => some k
  | .size => none

/-- A value as a word, where `none` is 0. -/
def encodeValue (enc : α → Value) (v : Option α) : Value := v.elim 0 enc

/-- A string with its NUL, which the macros pass by its size. -/
def cString (s : Bytes) : Bytes := s ++ [0]

/-- A call as it is passed to the hat-trie. -/
def AssocCall.encode (enc : α → Value) : AssocCall α → MapOp Bytes Value
  | .get k => .get (cString k)
  | .set k v => .set (cString k) (enc v)
  | .size => .size

/-- A call on a finite map: what it returns and the map afterwards. -/
def assocCall (a : Assoc α) : AssocCall α → MapOut (Option α) × Assoc α
  | .get k => (.value (a.arrayGet k).1, (a.arrayGet k).2)
  | .set k v => (.done, a.arraySet k v)
  | .size => (.size a.arraySize, a)

/-- What calls on a finite map return, one after another. -/
def assocResults (a : Assoc α) : List (AssocCall α) → List (MapOut (Option α))
  | [] => []
  | call :: calls => (assocCall a call).1 :: assocResults (assocCall a call).2 calls

/-- A call as an operation of a caller of a store. -/
def AssocCall.op : AssocCall α → MapOp Bytes (Option α)
  | .get k => .get k
  | .set k v => .set k (some v)
  | .size => .size

theorem cString_injective : Function.Injective cString := fun _ _ h => List.append_cancel_right h

theorem cString_mem_cKeys {s : Bytes} (h : (0 : UInt8) ∉ s) : cString s ∈ cKeys := ⟨s, h, rfl⟩

theorem encode_eq (enc : α → Value) (call : AssocCall α) :
    call.encode enc = call.op.map cString (encodeValue enc) := by
  cases call <;> rfl

/-- A lookup leaves a blank entry in both. -/
theorem mapExec_op (a : Assoc α) (call : AssocCall α) :
    KeyStore.mapExec none a call.op = assocCall a call := by
  cases call with
  | get k =>
    show (MapOut.value ((a.lookup k).getD none), KeyStore.mapGet none a k) =
      (.value (a.arrayGet k).1, (a.arrayGet k).2)
    rw [Assoc.arrayGet_fst]
    refine congrArg (Prod.mk _) ?_
    unfold KeyStore.mapGet
    by_cases hk : k ∈ a
    · rw [if_pos hk, Assoc.arrayGet_of_mem hk]
    · rw [if_neg hk, Assoc.arrayGet, Assoc.hattrieGet, AList.lookup_eq_none.mpr hk]
  | set k v => rfl
  | size => rfl

/-- The calls on the map give the results of the association. -/
theorem mapOuts_op (a : Assoc α) (calls : List (AssocCall α)) :
    KeyStore.mapOuts none a (calls.map AssocCall.op) = assocResults a calls := by
  induction calls generalizing a with
  | nil => rfl
  | cons call calls ih =>
    rw [List.map_cons, KeyStore.mapOuts, mapExec_op, ih]
    rfl

/-- **An associative array is its finite map**: on a new hat-trie calls with strings return what
they return on an empty map, encoded as words. -/
theorem assoc_results_eq (enc : α → Value) (past : Nat → UInt8) (calls : List (AssocCall α))
    (hkeys : ∀ call ∈ calls, ∀ k ∈ call.key, (0 : UInt8) ∉ k ∧ k.length < maxKey) :
    arrayStore.outs (hattrieCreate, past) (calls.map (AssocCall.encode enc)) =
      some ((assocResults (∅ : Assoc α) calls).map (MapOut.map (encodeValue enc))) := by
  have hencode : calls.map (AssocCall.encode enc) =
      (calls.map AssocCall.op).map (MapOp.map cString (encodeValue enc)) := by
    rw [List.map_map]
    exact List.map_congr_left fun call _ => encode_eq enc call
  have hvalid : ∀ op ∈ calls.map (AssocCall.encode enc), ∀ k ∈ op.key,
      k ∈ cKeys ∧ k.length ≤ maxKey := by
    intro op hop k hk
    obtain ⟨call, hcall, rfl⟩ := List.mem_map.mp hop
    have hstring : ∃ s ∈ call.key, cString s = k := by
      cases call with
      | get s => exact ⟨s, rfl, Option.some.inj hk⟩
      | set s v => exact ⟨s, rfl, Option.some.inj hk⟩
      | size => cases hk
    obtain ⟨s, hs, rfl⟩ := hstring
    obtain ⟨hnul, hlen⟩ := hkeys call hcall s hs
    refine ⟨cString_mem_cKeys hnul, ?_⟩
    rw [cString, List.length_append, List.length_singleton]
    exact hlen
  rw [← mapOuts_op, ← KeyStore.Encodes.mapOuts cString_injective KeyStore.encodes_empty, ← hencode]
  have hrep : ArrayRep cKeys (hattrieCreate, past) ∅ := ⟨keeps_create prefixFree_cKeys, rfl⟩
  exact (arrayStore_represents prefixFree_cKeys).outs_eq hrep _ hvalid

/-- A key that is looked up first and then set. -/
theorem assoc_results_blank :
    arrayStore.outs (hattrieCreate, fun _ => 0)
        [.get [97, 0], .set [97, 0] 7, .get [97, 0], .size] =
      some [.value 0, .done, .value 7, .size 1] := by
  refine assoc_results_eq (fun v : UInt8 => v.toUInt64) (fun _ => 0)
    [.get [97], .set [97] 7, .get [97], .size] ?_
  simp [AssocCall.key, maxKey]

end

end Ayubd.HatTrie
