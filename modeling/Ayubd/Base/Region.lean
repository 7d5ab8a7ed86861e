import Ayubd.Base.Buffer

/-!
# Ayubd — memory behind a pointer

Code that computes an offset from lengths it has been told may leave the block it was given. A
`Region` is the memory from a pointer on, without an end, together with the ranges that have been
written: whether a program has kept to the first `len` bytes is a question about these ranges
(`Region.Within`), and what it has left there a question about the bytes (`Region.Holds`).
-/

namespace Ayubd

/-- Memory from a pointer on, and the ranges written so far, as offsets and lengths. -/
structure Region where
  byte : Nat → UInt8
  written : List (Nat × Nat)

namespace Region

def untouched (mem : Nat → UInt8) : Region := ⟨mem, []⟩

def write (r : Region) (off : Nat) (bs : Bytes) : Region where
  byte i := if off ≤ i then bs[i - off]?.getD (r.byte i) else r.byte i
  written := r.written ++ [(off, bs.length)]

/-- `snprintf(p + off, size, text)`: the text as far as there is room, and its NUL, or nothing
at all for no room. -/
def snprintf (r : Region) (off size : Nat) (text : Bytes) : Region :=
  if size = 0 then r else r.write off (text.take (size - 1) ++ [0])

/-- Nothing has been written outside the first `len` bytes. -/
def Within (r : Region) (len : Nat) : Prop := ∀ w ∈ r.written, w.1 + w.2 ≤ len

instance (r : Region) (len : Nat) : Decidable (r.Within len) :=
  inferInstanceAs (Decidable (∀ w ∈ r.written, w.1 + w.2 ≤ len))

/-- The memory starts with these bytes. -/
def Holds (r : Region) (bs : Bytes) : Prop := ∀ i, ∀ h : i < bs.length, r.byte i = bs[i]

def str (r : Region) (len : Nat) : Bytes := cstr ((List.range len).map r.byte)

section
variable {r : Region} {len off : Nat} {pre bs text : Bytes}

theorem within_untouched (mem : Nat → UInt8) (len : Nat) : (untouched mem).Within len := nofun

theorem holds_nil (r : Region) : r.Holds [] := nofun

/-- A write which fits stays inside. -/
theorem Within.write (h : r.Within len) (hfits : off + bs.length ≤ len) :
    (r.write off bs).Within len := by
  intro w hw
  rcases List.mem_append.mp hw with hw | hw
  · exact h w hw
  · rw [List.mem_singleton.mp hw]
    exact hfits

theorem byte_write_of_lt {i : Nat} (h : i < off) : (r.write off bs).byte i = r.byte i :=
  if_neg (Nat.not_le.mpr h)

theorem byte_write_add {i : Nat} (h : i < bs.length) : (r.write off bs).byte (off + i) = bs[i] := by
  show (if off ≤ off + i then bs[off + i - off]?.getD _ else _) = bs[i]
  rw [if_pos (Nat.le_add_right _ _), Nat.add_sub_cancel_left, List.getElem?_eq_getElem h,
    Option.getD_some]

/-- Writing behind the bytes at the start of the memory. -/
theorem Holds.write (h : r.Holds pre) (bs : Bytes) : (r.write pre.length bs).Holds (pre ++ bs) := by
  intro i hi
  rw [List.length_append] at hi
  by_cases hlt : i < pre.length
  · rw [byte_write_of_lt hlt, List.getElem_append_left hlt]
    exact h i hlt
  · obtain ⟨j, rfl⟩ := Nat.exists_eq_add_of_le (Nat.not_lt.mp hlt)
    rw [byte_write_add (by omega), List.getElem_append_right (Nat.not_lt.mp hlt)]
    simp only [Nat.add_sub_cancel_left]

/-- A text that fits, with its NUL, behind the bytes at the start of the memory. -/
theorem Holds.snprintf (h : r.Holds pre) {size : Nat} (hsize : text.length < size) :
    (r.snprintf pre.length size text).Holds (pre ++ (text ++ [0])) := by
  unfold Region.snprintf
  rw [if_neg (by omega), List.take_of_length_le (by omega)]
  exact h.write _

/-- `snprintf` stays inside where its size does. -/
theorem Within.snprintf (h : r.Within len) {size : Nat} (hsize : off + size ≤ len) :
    (r.snprintf off size text).Within len := by
  unfold Region.snprintf
  split
  · exact h
  · refine h.write ?_
    rw [List.length_append, List.length_take, List.length_singleton]
    omega

/-- A region which holds a text holds the front of it. -/
theorem Holds.of_append (h : r.Holds (pre ++ bs)) : r.Holds pre := by
  intro i hi
  rw [h i (by rw [List.length_append]; omega), List.getElem_append_left hi]

/-- The string at the start of the memory is what stands before its first NUL. -/
theorem Holds.str (h : r.Holds (pre ++ [0])) (hfree : (0 : UInt8) ∉ pre) (hlen : pre.length < len) :
    r.str len = pre := by
  have hread : (List.range len).map r.byte = pre ++ 0 :: ((List.range len).map r.byte).drop
      (pre.length + 1) := by
    apply List.ext_getElem?
    intro i
    by_cases hi : i < (pre ++ [0]).length
    · have hlt : i < len := by
        rw [List.length_append, List.length_singleton] at hi
        omega
      rw [List.append_cons, List.getElem?_append_left hi, List.getElem?_eq_getElem hi, ← h i hi,
        List.getElem?_map, List.getElem?_range hlt]
      rfl
    · rw [List.append_cons, List.getElem?_append_right (Nat.not_lt.mp hi), List.getElem?_drop]
      congr 1
      rw [List.length_append, List.length_singleton] at hi ⊢
      omega
  rw [Region.str, hread]
  exact cstr_append_nul pre _ ▸ cstr_of_not_mem hfree

end

end Region

end Ayubd
