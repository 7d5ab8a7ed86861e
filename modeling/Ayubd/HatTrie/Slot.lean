import Ayubd.Base.Block
import Ayubd.Base.Loop

/-!
# Ayubd — slots of the array hash table

A slot of `lib/hat-trie/src/ahtable.c` is one block of bytes with its records one behind the
other: the length of the key, the key, and the value. A length below 128 takes one byte, a longer
one two; the lowest bit of the first byte tells which. A slot has no other structure, so every
search walks over it from its beginning, from each record to the next.

* `record` and `coded` say which bytes stand for which records.
* `scan_found`, `scan_missing` — a search finds the key's record, and only that.
* `insKey_coded` — what `ins_key` writes behind the records is one more record.
-/

namespace Ayubd.HatTrie

/-- `value_t`, "an unsigned int that is guaranteed to be the same size as a pointer". -/
abbrev Value := UInt64

def valueSize : Nat := 8

def valueBytes (v : Value) : Bytes := leBytes valueSize v.toNat

/-- A key and its value. -/
abbrev Entry := Bytes × Value

/-- The longest key that a slot can hold. -/
def maxKey : Nat := 32767

/-! ## The source -/

/-- The length a record starts with, and where its key starts. -/
def keyAt (s : Bytes) (off : Nat) : Option (Nat × Nat) := do
  let b ← s[off]?
  if b.toNat % 2 = 1 then
    let w ← Block.peek s off 2
    some (ofLeBytes w / 2, off + 2)
  else
    some (b.toNat / 2, off + 1)

def keylen (s : Bytes) (off : Nat) : Option Nat := (keyAt s off).map Prod.fst

def headerSize (k : Nat) : Nat := if k < 128 then 1 else 2

/-- What `ins_key` stores for the length of a key. -/
def header (len : Nat) : Bytes :=
  if len < 128 then [(2 * len).toUInt8] else leBytes 2 (2 * len + 1)

/-- `ins_key`: the block afterwards, where the value is, and the position behind it. -/
def insKey (s : Bytes) (off : Nat) (key : Bytes) : Option (Bytes × Nat × Nat) := do
  let s ← Block.poke s off (header key.length)
  let off := off + (header key.length).length
  let s ← Block.poke s off key
  let off := off + key.length
  let s ← Block.poke s off (valueBytes 0)
  some (s, off, off + valueSize)

/-- The body of the loop in `get_key` and `ahtable_del` that searches a slot. It leaves the loop
with the position of the key's bytes, or with none at the end of the slot. -/
def scanBody (s : Bytes) (size : Nat) (key : Bytes) (off : Nat) :
    Option (Nat ⊕ Option Nat) :=
  if off < size then do
    let k ← keylen s off
    let off := off + headerSize k
    -- skip keys that are not as long as ours
    if k ≠ key.length then
      some (.inl (off + k + valueSize))
    else
      let there ← Block.peek s off key.length
      if there = key then some (.inr (some off)) else some (.inl (off + k + valueSize))
  else
    some (.inr none)

/-- The loop: every record is at least nine bytes long, so the size of the slot bounds it. -/
def scan (s : Bytes) (size : Nat) (key : Bytes) : Option (Option Nat) :=
  loop (scanBody s size key) (size + 1) 0

/-! ## Records -/

def record (e : Entry) : Bytes := header e.1.length ++ e.1 ++ valueBytes e.2

/-- The bytes of records one behind the other. -/
def coded (row : List Entry) : Bytes := row.flatMap record

/-- No key is too long for its length. -/
def Short (row : List Entry) : Prop := ∀ e ∈ row, e.1.length ≤ maxKey

section
variable {row before after : List Entry} {e : Entry} {key : Bytes} {v : Value} {off size : Nat}
  (pre post : Bytes)

@[simp] theorem length_valueBytes (v : Value) : (valueBytes v).length = valueSize :=
  length_leBytes _ _

theorem ofLeBytes_valueBytes (v : Value) : (ofLeBytes (valueBytes v)).toUInt64 = v := by
  have hlt : v.toNat < 256 ^ valueSize := v.toNat_lt
  rw [valueBytes, ofLeBytes_leBytes_of_lt hlt]
  exact UInt64.ofNat_toNat

@[simp] theorem length_header (len : Nat) : (header len).length = headerSize len := by
  unfold header headerSize
  split
  · rfl
  · exact length_leBytes _ _

theorem length_record (e : Entry) :
    (record e).length = headerSize e.1.length + e.1.length + valueSize := by
  rw [record, List.length_append, List.length_append, length_header, length_valueBytes]

@[simp] theorem coded_nil : coded [] = [] := rfl

@[simp] theorem coded_cons (e : Entry) (row : List Entry) :
    coded (e :: row) = record e ++ coded row := List.flatMap_cons

@[simp] theorem coded_append (row row' : List Entry) :
    coded (row ++ row') = coded row ++ coded row' := List.flatMap_append

/-- A row has no more records than bytes. -/
theorem length_le_length_coded (row : List Entry) : row.length ≤ (coded row).length := by
  induction row with
  | nil => exact Nat.le_refl _
  | cons e row ih =>
    rw [coded_cons, List.length_cons, List.length_append, length_record]
    unfold valueSize
    omega

/-- The length in front of a record is that of its key. -/
theorem keyAt_record (he : e.1.length ≤ maxKey) (hoff : off = pre.length) :
    keyAt (pre ++ record e ++ post) off =
      some (e.1.length, off + headerSize e.1.length) := by
  unfold maxKey at he
  have hget : ∀ b bs, header e.1.length = b :: bs →
      (pre ++ record e ++ post)[off]? = some b := by
    intro b bs hb
    rw [hoff, record, hb, List.append_assoc, List.getElem?_append_right (Nat.le_refl _)]
    simp
  unfold keyAt headerSize
  -- a short length is one even byte; a long one has two, the first of them odd
  by_cases hshort : e.1.length < 128
  · have hhead : header e.1.length = [(2 * e.1.length).toUInt8] := by
      rw [header, if_pos hshort]
    have hbyte : (2 * e.1.length).toUInt8.toNat = 2 * e.1.length := by
      simp only [Nat.toUInt8, UInt8.toNat_ofNat']
      omega
    rw [hget _ _ hhead, if_pos hshort]
    simp only [Option.bind_eq_bind, Option.bind_some, hbyte]
    rw [if_neg (by omega), Nat.mul_div_cancel_left _ (by decide)]
  · have hhead : header e.1.length = leBytes 2 (2 * e.1.length + 1) := by
      rw [header, if_neg hshort]
    have hbyte : (2 * e.1.length + 1).toUInt8.toNat % 2 = 1 := by
      simp only [Nat.toUInt8, UInt8.toNat_ofNat']
      omega
    have hpeek : Block.peek (pre ++ record e ++ post) off 2 =
        some (leBytes 2 (2 * e.1.length + 1)) := by
      have hsplit : pre ++ record e ++ post =
          pre ++ leBytes 2 (2 * e.1.length + 1) ++ (e.1 ++ valueBytes e.2 ++ post) := by
        rw [record, hhead]
        simp only [List.append_assoc]
      rw [hsplit]
      exact Block.peek_append hoff (length_leBytes _ _).symm
    rw [hget _ _ hhead, if_neg hshort]
    simp only [Option.bind_eq_bind, Option.bind_some]
    rw [if_pos hbyte, hpeek]
    simp only [Option.bind_some]
    rw [ofLeBytes_leBytes_of_lt (by omega)]
    congr 2
    omega

/-- The length of the key is read back from the header. -/
theorem keylen_record (he : e.1.length ≤ maxKey) (hoff : off = pre.length) :
    keylen (pre ++ record e ++ post) off = some e.1.length := by
  rw [keylen, keyAt_record pre post he hoff]
  rfl

theorem peek_key (e : Entry) (hoff : off = pre.length + headerSize e.1.length) :
    Block.peek (pre ++ record e ++ post) off e.1.length = some e.1 := by
  have hsplit : pre ++ record e ++ post =
      (pre ++ header e.1.length) ++ e.1 ++ (valueBytes e.2 ++ post) := by
    simp only [record, List.append_assoc]
  rw [hsplit]
  exact Block.peek_append (by simp [hoff]) rfl

theorem peek_value (e : Entry)
    (hoff : off = pre.length + headerSize e.1.length + e.1.length) :
    Block.peek (pre ++ record e ++ post) off valueSize = some (valueBytes e.2) := by
  have hsplit : pre ++ record e ++ post =
      (pre ++ header e.1.length ++ e.1) ++ valueBytes e.2 ++ post := by
    simp only [record, List.append_assoc]
  rw [hsplit]
  exact Block.peek_append (by simp [hoff]; omega) (length_valueBytes _).symm

/-- Storing a value changes the value of the record and nothing else. -/
theorem poke_value (key : Bytes) (hoff : off = pre.length + headerSize key.length + key.length)
    (v w : Value) :
    Block.poke (pre ++ record (key, v) ++ post) off (valueBytes w) =
      some (pre ++ record (key, w) ++ post) := by
  have hsplit : ∀ u, pre ++ record (key, u) ++ post =
      (pre ++ header key.length ++ key) ++ valueBytes u ++ post := by
    intro u
    simp only [record, List.append_assoc]
  rw [hsplit, hsplit]
  exact Block.poke_append (by simp [hoff]; omega) (by simp)

/-- What `ins_key` writes is a record with the value 0. -/
theorem insKey_coded {fill : Bytes} (hoff : off = pre.length)
    (hfill : fill.length = headerSize key.length + key.length + valueSize) :
    insKey (pre ++ fill ++ post) off key =
      some (pre ++ record (key, 0) ++ post,
        off + headerSize key.length + key.length,
        off + headerSize key.length + key.length + valueSize) := by
  -- the three parts that are overwritten, one after the other
  obtain ⟨f₁, rest, rfl, h₁⟩ : ∃ f₁ rest, fill = f₁ ++ rest ∧ f₁.length = headerSize key.length :=
    ⟨_, _, (List.take_append_drop (headerSize key.length) fill).symm, by
      rw [List.length_take]; omega⟩
  have hrest : rest.length = key.length + valueSize := by
    rw [List.length_append] at hfill
    omega
  obtain ⟨f₂, f₃, rfl, h₂⟩ : ∃ f₂ f₃, rest = f₂ ++ f₃ ∧ f₂.length = key.length :=
    ⟨_, _, (List.take_append_drop key.length rest).symm, by rw [List.length_take]; omega⟩
  have h₃ : f₃.length = valueSize := by
    rw [List.length_append] at hrest
    omega
  have hstore₁ : Block.poke (pre ++ (f₁ ++ (f₂ ++ f₃)) ++ post) off (header key.length) =
      some (pre ++ header key.length ++ (f₂ ++ (f₃ ++ post))) := by
    have hsplit : pre ++ (f₁ ++ (f₂ ++ f₃)) ++ post = pre ++ f₁ ++ (f₂ ++ (f₃ ++ post)) := by
      simp only [List.append_assoc]
    rw [hsplit]
    exact Block.poke_append hoff (by rw [length_header, h₁])
  have hstore₂ : Block.poke (pre ++ header key.length ++ (f₂ ++ (f₃ ++ post)))
      (off + headerSize key.length) key =
        some (pre ++ header key.length ++ key ++ (f₃ ++ post)) := by
    rw [← List.append_assoc]
    exact Block.poke_append (by simp [hoff]) h₂.symm
  have hstore₃ : Block.poke (pre ++ header key.length ++ key ++ (f₃ ++ post))
      (off + headerSize key.length + key.length) (valueBytes 0) =
        some (pre ++ header key.length ++ key ++ valueBytes 0 ++ post) := by
    rw [← List.append_assoc]
    exact Block.poke_append (by simp [hoff]; omega) (by rw [length_valueBytes, h₃])
  unfold insKey
  simp only [length_header, hstore₁, hstore₂, hstore₃, Option.bind_eq_bind, Option.bind_some]
  simp only [record, List.append_assoc]

/-! ## The search -/

/-- The search steps over a record with another key. -/
theorem scanBody_other (he : e.1.length ≤ maxKey) (hne : e.1 ≠ key) (hoff : off = pre.length)
    (hsize : off < size) :
    scanBody (pre ++ record e ++ post) size key off = some (.inl (off + (record e).length)) := by
  have hnext : off + (record e).length =
      off + headerSize e.1.length + e.1.length + valueSize := by
    rw [length_record]
    omega
  unfold scanBody
  rw [if_pos hsize, keylen_record pre post he hoff, hnext]
  simp only [Option.bind_eq_bind, Option.bind_some]
  by_cases hlen : e.1.length = key.length
  · have hpeek : Block.peek (pre ++ record e ++ post) (off + headerSize e.1.length)
        key.length = some e.1 := by
      rw [← hlen]
      exact peek_key pre post e (by rw [hoff])
    rw [if_neg (not_not.mpr hlen), hpeek]
    simp only [Option.bind_some, if_neg hne]
  · rw [if_pos hlen]

/-- The search stops at the record with the key. -/
theorem scanBody_key (hkey : key.length ≤ maxKey) (hoff : off = pre.length) (hsize : off < size) :
    scanBody (pre ++ record (key, v) ++ post) size key off =
      some (.inr (some (off + headerSize key.length))) := by
  have hpeek : Block.peek (pre ++ record (key, v) ++ post) (off + headerSize key.length)
      key.length = some key := peek_key pre post (key, v) (by rw [hoff])
  have hlen : keylen (pre ++ record (key, v) ++ post) off = some key.length :=
    keylen_record pre post hkey hoff
  unfold scanBody
  rw [if_pos hsize, hlen]
  simp only [Option.bind_eq_bind, Option.bind_some, ne_eq, not_true_eq_false, if_false, hpeek,
    if_true]

/-- The search walks over records with other keys. -/
theorem scan_skip (fuel : Nat) (hshort : Short row) (hne : ∀ e ∈ row, e.1 ≠ key)
    (hsize : pre.length + (coded row).length ≤ size) :
    loop (scanBody (pre ++ coded row ++ post) size key) (row.length + fuel) pre.length =
      loop (scanBody (pre ++ coded row ++ post) size key) fuel
        (pre.length + (coded row).length) := by
  induction row generalizing pre with
  | nil => simp
  | cons e row ih =>
    rw [coded_cons, List.length_append, length_record] at hsize
    have hblock : pre ++ coded (e :: row) ++ post =
        pre ++ record e ++ (coded row ++ post) := by
      simp only [coded_cons, List.append_assoc]
    have hstep : scanBody (pre ++ coded (e :: row) ++ post) size key pre.length =
        some (.inl (pre.length + (record e).length)) := by
      rw [hblock]
      refine scanBody_other pre _ (hshort e List.mem_cons_self) (hne e List.mem_cons_self) rfl ?_
      unfold valueSize at hsize
      omega
    have hrest := ih (pre ++ record e) (fun e' h => hshort e' (List.mem_cons_of_mem _ h))
      (fun e' h => hne e' (List.mem_cons_of_mem _ h))
      (by rw [List.length_append, length_record]; omega)
    rw [List.length_append, List.append_assoc (pre ++ record e), ← hblock] at hrest
    rw [List.length_cons, Nat.add_right_comm, loop_again hstep, hrest, coded_cons,
      List.length_append, Nat.add_assoc]

/-- **A key that is there is found.** -/
theorem scan_found (hshort : Short (before ++ (key, v) :: after)) (hne : ∀ e ∈ before, e.1 ≠ key) :
    scan (coded (before ++ (key, v) :: after) ++ post) (coded (before ++ (key, v) :: after)).length
      key = some (some ((coded before).length + headerSize key.length)) := by
  have hsize : (coded before).length < (coded (before ++ (key, v) :: after)).length := by
    rw [coded_append, coded_cons, List.length_append, List.length_append, length_record]
    unfold valueSize
    omega
  have hshort' : Short before := fun e he => hshort e (List.mem_append_left _ he)
  have hkey : key.length ≤ maxKey :=
    hshort (key, v) (List.mem_append_right _ List.mem_cons_self)
  have hbound := length_le_length_coded before
  obtain ⟨fuel, hfuel⟩ : ∃ fuel,
      (coded (before ++ (key, v) :: after)).length + 1 = before.length + (fuel + 1) :=
    ⟨(coded (before ++ (key, v) :: after)).length - before.length, by omega⟩
  have hblock : coded (before ++ (key, v) :: after) ++ post =
      [] ++ coded before ++ (record (key, v) ++ (coded after ++ post)) := by
    simp only [coded_append, coded_cons, List.nil_append, List.append_assoc]
  have hfits : ([] : Bytes).length + (coded before).length ≤
      (coded (before ++ (key, v) :: after)).length := by
    rw [List.length_nil]
    omega
  have hskip := scan_skip [] (record (key, v) ++ (coded after ++ post)) (fuel + 1) hshort' hne hfits
  unfold scan
  rw [hfuel, hblock]
  refine hskip.trans (loop_leave ?_)
  rw [List.length_nil, Nat.zero_add, List.nil_append, ← List.append_assoc]
  exact scanBody_key (coded before) _ hkey rfl hsize

/-- **A key that is not there is not found.** -/
theorem scan_missing (hshort : Short row) (hne : ∀ e ∈ row, e.1 ≠ key) :
    scan (coded row ++ post) (coded row).length key = some none := by
  have hbound := length_le_length_coded row
  obtain ⟨fuel, hfuel⟩ : ∃ fuel, (coded row).length + 1 = row.length + (fuel + 1) :=
    ⟨(coded row).length - row.length, by omega⟩
  have hfits : ([] : Bytes).length + (coded row).length ≤ (coded row).length := by
    rw [List.length_nil]
    omega
  have hskip := scan_skip [] post (fuel + 1) hshort hne hfits
  unfold scan
  rw [hfuel]
  refine hskip.trans (loop_leave ?_)
  unfold scanBody
  rw [if_neg (by simp)]

end

end Ayubd.HatTrie
