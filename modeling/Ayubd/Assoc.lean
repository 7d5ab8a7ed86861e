import Ayubd.Base.Buffer
import Mathlib.Data.List.AList

/-!
# Ayubd — associative arrays

`assoc_array.h` over its hat-trie implementation, `assoc_array_impl_hattrie.h`. A key is a C
string (the macros pass `strlen(k) + 1`, so keys with equal strings are equal keys), a value
is a `value_t`, of which the code only ever asks whether it is 0: `none` is 0. The trie
itself is a finite map: `hattrie_tryget` looks a key up, `hattrie_get` finds it or inserts it
with the value 0.
-/

namespace Ayubd

abbrev Assoc (α : Type) := AList fun _ : Bytes => Option α

namespace Assoc

variable {α : Type}

/-- `hattrie_get`: the value of a key and the array afterwards. -/
def hattrieGet (a : Assoc α) (k : Bytes) : Option α × Assoc α :=
  match a.lookup k with
  | some v => (v, a)
  | none => (none, a.insert k none)

/-- `array_get`, "awk style get, which will create blank entry if not exists". -/
def arrayGet (a : Assoc α) (k : Bytes) : Option α × Assoc α := a.hattrieGet k

def arraySet (a : Assoc α) (k : Bytes) (v : α) : Assoc α := a.insert k (some v)

def arraySize (a : Assoc α) : Nat := a.keys.length

/-- The value behind a key, with no distinction between an absent key and a blank entry. -/
def value (a : Assoc α) (k : Bytes) : Option α := (a.lookup k).getD none

theorem arrayGet_fst (a : Assoc α) (k : Bytes) : (a.arrayGet k).1 = a.value k := by
  unfold arrayGet hattrieGet value
  cases a.lookup k <;> rfl

/-- A lookup gives no key another value: the entry it may create is blank. -/
@[simp] theorem value_arrayGet (a : Assoc α) (k k' : Bytes) :
    (a.arrayGet k).2.value k' = a.value k' := by
  unfold arrayGet hattrieGet value
  cases h : a.lookup k with
  | some v => rfl
  | none =>
    by_cases hk : k' = k
    · subst hk
      simp [h]
    · simp [AList.lookup_insert_ne hk]

theorem arrayGet_of_mem {a : Assoc α} {k : Bytes} (h : k ∈ a) : (a.arrayGet k).2 = a := by
  obtain ⟨v, hv⟩ := Option.isSome_iff_exists.mp (AList.lookup_isSome.mpr h)
  simp only [arrayGet, hattrieGet, hv]

/-- A read adds its key. -/
theorem mem_arrayGet {a : Assoc α} {k k' : Bytes} : k' ∈ (a.arrayGet k).2 ↔ k' = k ∨ k' ∈ a := by
  unfold arrayGet hattrieGet
  cases h : a.lookup k with
  | some v =>
    have hk : k ∈ a := AList.lookup_isSome.mp (by rw [h]; rfl)
    constructor
    · exact Or.inr
    · rintro (rfl | hmem)
      · exact hk
      · exact hmem
  | none => exact AList.mem_insert a

/-- Two arrays that a reader cannot tell apart: the same keys, size and values. -/
def Same (a b : Assoc α) : Prop :=
  (∀ k, k ∈ a ↔ k ∈ b) ∧ a.arraySize = b.arraySize ∧ ∀ k, a.lookup k = b.lookup k

end Assoc

end Ayubd
