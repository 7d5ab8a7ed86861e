import Mathlib.Data.List.TakeWhile
import Mathlib.Data.Nat.Digits.Lemmas
import Mathlib.Tactic.Common

/-!
# Ayubd — fixed-size byte buffers and C strings

A `Buf n` is a block of exactly `n` bytes. What the C library does to such a block is
modelled as far as a program that keeps to it can tell: `memcpy` into its beginning, a copy
that is cut to leave room for the terminating NUL, `snprintf`, and reading it back as a
string. A write that does not fit has no result in this model, so every write carries the
proof that it fits; `sprintf`, which does not check, reports instead that it overflowed.
-/

namespace Ayubd

abbrev Bytes := List UInt8

def ascii (s : String) : Bytes := s.toList.map fun c => c.toNat.toUInt8

/-- `%ld` and `%d` of a number that is not negative. -/
def dec (n : Nat) : Bytes :=
  if n = 0 then [48] else (Nat.digits 10 n).reverse.map fun d => (48 + d).toUInt8

def decInt : Int → Bytes
  | .ofNat n => dec n
  | .negSucc n => 45 :: dec (n + 1)

theorem mem_dec {n : Nat} {b : UInt8} (hb : b ∈ dec n) : ∃ d, d < 10 ∧ b = (48 + d).toUInt8 := by
  unfold dec at hb
  split at hb
  · exact ⟨0, by omega, List.mem_singleton.mp hb⟩
  · obtain ⟨d, hd, rfl⟩ := List.mem_map.mp hb
    exact ⟨d, Nat.digits_lt_base (by omega) (List.mem_reverse.mp hd), rfl⟩

/-- A byte which is no digit is not in a decimal number. -/
theorem not_mem_dec {n : Nat} {b : UInt8} (hb : ∀ d, d < 10 → b ≠ (48 + d).toUInt8) :
    b ∉ dec n := by
  intro hmem
  obtain ⟨d, hd, heq⟩ := mem_dec hmem
  exact hb d hd heq

/-- A byte which is neither digit nor minus is not in a signed decimal number. -/
theorem not_mem_decInt {i : Int} {b : UInt8} (hb : ∀ d, d < 10 → b ≠ (48 + d).toUInt8)
    (hminus : b ≠ 45) : b ∉ decInt i := by
  cases i with
  | ofNat n => exact not_mem_dec hb
  | negSucc n =>
    simp only [decInt, List.mem_cons, not_or]
    exact ⟨hminus, not_mem_dec hb⟩

/-- A number below `10 ^ k` has at most `k` digits. -/
theorem length_dec_le {n k : Nat} (hk : 0 < k) (h : n < 10 ^ k) : (dec n).length ≤ k := by
  unfold dec
  split
  · exact hk
  · rw [List.length_map, List.length_reverse]
    exact (Nat.digits_length_le_iff (by omega) n).mpr h

/-- A C string ends at the first NUL. -/
def cstr (b : Bytes) : Bytes := b.takeWhile (· ≠ 0)

theorem cstr_of_not_mem {src : Bytes} (h : (0 : UInt8) ∉ src) : cstr src = src := by
  rw [cstr, List.takeWhile_eq_self_iff]
  intro b hb
  simp only [ne_eq, decide_not, Bool.not_eq_true', decide_eq_false_iff_not]
  rintro rfl
  exact h hb

/-- A C string ends at its first `NUL`, whatever follows. -/
theorem cstr_append_nul (src rest : Bytes) : cstr (src ++ 0 :: rest) = cstr src := by
  induction src with
  | nil => simp [cstr]
  | cons b src ih =>
    simp only [cstr, List.cons_append, List.takeWhile_cons] at ih ⊢
    split
    · rw [ih]
    · rfl

structure Buf (n : Nat) where
  data : Bytes
  size : data.length = n

namespace Buf

variable {n : Nat}

def zero (n : Nat) : Buf n := ⟨List.replicate n 0, List.length_replicate⟩

def write (b : Buf n) (src : Bytes) (h : src.length ≤ n) : Buf n where
  data := src ++ b.data.drop src.length
  size := by
    rw [List.length_append, List.length_drop, b.size]
    omega

/-- `memcpy(b, src, len)` and `b[len] = '\0'` with `len = MIN(|src|, n - 1)`. -/
def store (b : Buf n) (src : Bytes) (hn : 0 < n) : Buf n :=
  b.write (src.take (n - 1) ++ [0]) (by
    rw [List.length_append, List.length_take, List.length_singleton]
    omega)

def read (b : Buf n) (k : Nat) : Bytes := b.data.take k

def str (b : Buf n) : Bytes := cstr b.data

/-- What was stored is read back, cut to the room in front of the `NUL`. -/
theorem read_store (b : Buf n) (src : Bytes) (hn : 0 < n) :
    (b.store src hn).read (min src.length (n - 1)) = src.take (n - 1) := by
  have hlen : (src.take (n - 1)).length = min src.length (n - 1) := by
    rw [List.length_take, Nat.min_comm]
  simp only [store, read, write, List.append_assoc]
  rw [← hlen]
  exact List.take_left

/-- The C string in the buffer is the one stored, cut to the room. -/
theorem str_store (b : Buf n) (src : Bytes) (hn : 0 < n) :
    (b.store src hn).str = cstr (src.take (n - 1)) := by
  simp only [store, str, write, List.append_assoc, List.singleton_append]
  exact cstr_append_nul _ _

/-- A store ends in a `NUL`. -/
theorem getElem?_store (b : Buf n) (src : Bytes) (hn : 0 < n) :
    (b.store src hn).data[min src.length (n - 1)]? = some 0 := by
  have hlen : (src.take (n - 1)).length = min src.length (n - 1) := by
    rw [List.length_take, Nat.min_comm]
  simp only [store, write, List.append_assoc, ← hlen]
  rw [List.getElem?_append_right (Nat.le_refl _), Nat.sub_self]
  rfl

theorem length_read (b : Buf n) {k : Nat} (h : k ≤ n) : (b.read k).length = k := by
  rw [read, List.length_take, b.size]
  exact Nat.min_eq_left h

theorem slice_read (b : Buf n) {k off len : Nat} (h : off + len ≤ k) :
    ((b.read k).drop off).take len = (b.data.drop off).take len := by
  rw [read, List.drop_take, List.take_take, Nat.min_eq_left (by omega)]

/-- `sprintf(b, text)`: the block afterwards, as far as it is the block's own bytes, and
whether bytes were written behind it. -/
def sprintf (b : Buf n) (text : Bytes) : Buf n × Bool :=
  (b.write ((text ++ [0]).take n) (by rw [List.length_take]; omega), decide (n ≤ text.length))

/-- `snprintf(b, n, text)`: cuts the text and terminates it. -/
def snprintf (b : Buf n) (text : Bytes) (hn : 0 < n) : Buf n := b.store text hn

/-- What can be sent of a formatted text: the text itself when it fits with its NUL, else its
cut with the NUL. -/
theorem read_snprintf (b : Buf n) (text : Bytes) (hn : 0 < n) :
    (b.snprintf text hn).read (min text.length n) = (text.take (n - 1) ++ [0]).take text.length := by
  have hlen : (text.take (n - 1) ++ [(0 : UInt8)]).length = min (n - 1) text.length + 1 := by
    rw [List.length_append, List.length_take, List.length_singleton]
  simp only [snprintf, store, read, write]
  rw [List.take_append_of_le_length (by omega)]
  apply List.take_eq_take_iff.mpr
  omega

def terminate (b : Buf n) (k : Nat) : Buf n := ⟨b.data.set k 0, by rw [List.length_set, b.size]⟩

/-- A text that fits is written whole, and terminating it where it ends changes nothing. -/
theorem terminate_sprintf (b : Buf n) {text : Bytes} (h : text.length < n) :
    ((b.sprintf text).1.terminate text.length).str = cstr text ∧ (b.sprintf text).2 = false := by
  have htake : (text ++ [0]).take n = text ++ [0] := by
    apply List.take_of_length_le
    simp only [List.length_append, List.length_singleton]
    omega
  refine ⟨?_, by simp only [sprintf, decide_eq_false_iff_not]; omega⟩
  simp only [sprintf, terminate, str, write, htake, List.append_assoc, List.singleton_append]
  rw [List.set_append_right _ _ (Nat.le_refl _)]
  simp only [Nat.sub_self, List.set_cons_zero]
  exact cstr_append_nul _ _

/-- A text that is not empty leaves a string that is not empty, wherever it is cut. -/
theorem str_terminate_sprintf_ne_nil (b : Buf n) {c : UInt8} (hc : c ≠ 0) (text : Bytes)
    (hn : 0 < n) {k : Nat} (hk : 0 < k) : ((b.sprintf (c :: text)).1.terminate k).str ≠ [] := by
  obtain ⟨n, rfl⟩ := Nat.exists_eq_succ_of_ne_zero hn.ne'
  obtain ⟨k, rfl⟩ := Nat.exists_eq_succ_of_ne_zero hk.ne'
  simp only [sprintf, terminate, str, write, List.cons_append, List.take_succ_cons,
    List.set_cons_succ, cstr, List.takeWhile_cons, ne_eq, hc, not_false_eq_true, decide_true,
    if_true]
  exact List.cons_ne_nil _ _

end Buf

end Ayubd
