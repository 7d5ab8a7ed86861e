import Ayubd.HatTrie.Slot

/-!
# Ayubd — the array hash table

`lib/hat-trie/src/ahtable.c`, which holds the buckets of the hat-trie. A table is an array of slots;
the slot of a key is given by its hash. Whatever leaves a block, fails an assertion or ends the
process has no result.

Sizes and counters of type `size_t` are natural numbers, since there is not that much memory.
`ahtable_max_load_factor` times a number of slots is computed in floating point, exactly for every
product below `2 ^ 53`. Memory is little-endian.
-/

namespace Ayubd.HatTrie

/-! ## The hash -/

def rotl32 (x : UInt32) (r : UInt32) : UInt32 := (x <<< r) ||| (x >>> (32 - r))

def fmix (h : UInt32) : UInt32 :=
  let h := (h ^^^ (h >>> 16)) * 0x85ebca6b
  let h := (h ^^^ (h >>> 13)) * 0xc2b2ae35
  h ^^^ (h >>> 16)

/-- What a block of four bytes, or the tail, is turned into. -/
def mixK1 (k1 : UInt32) : UInt32 := rotl32 (k1 * 0xcc9e2d51) 15 * 0x1b873593

/-- The body and the tail of `hash`. -/
def hashFrom (h1 : UInt32) : Bytes → UInt32
  | a :: b :: c :: d :: rest =>
    let k1 := mixK1 (ofLeBytes [a, b, c, d]).toUInt32
    hashFrom (rotl32 (h1 ^^^ k1) 13 * 5 + 0xe6546b64) rest
  | [] => h1
  | tail => h1 ^^^ mixK1 (ofLeBytes tail).toUInt32

def hash (key : Bytes) : UInt32 := fmix (hashFrom 0xc062fb4a key ^^^ key.length.toUInt32)

/-! ## Tables -/

def ahtableInitialSize : Nat := 4096

def ahtableMaxLoadFactor : Nat := 100000

/-- `ahtable_t`. The size of a slot is the number of its bytes in use, its block may be longer. -/
structure AhTable where
  flag : UInt8
  c0 : UInt8
  c1 : UInt8
  n : Nat
  m : Nat
  maxM : Nat
  slotSizes : List Nat
  slots : List Bytes
deriving DecidableEq, Repr

/-- A pointer to a value: the slot, and the position in it. -/
structure Loc where
  slot : Nat
  off : Nat
deriving DecidableEq, Repr

def ahtableCreateN (n : Nat) : AhTable where
  flag := 0
  c0 := 0
  c1 := 0
  n := n
  m := 0
  maxM := ahtableMaxLoadFactor * n
  slotSizes := List.replicate n 0
  slots := List.replicate n []

def ahtableCreate : AhTable := ahtableCreateN ahtableInitialSize

def ahtableSize (t : AhTable) : Nat := t.m

def slotOf (n : Nat) (key : Bytes) : Nat := (hash key).toNat % n

namespace AhTable

def load (t : AhTable) (l : Loc) : Option Value := do
  let s ← t.slots[l.slot]?
  let w ← Block.peek s l.off valueSize
  some (ofLeBytes w).toUInt64

def store (t : AhTable) (l : Loc) (v : Value) : Option AhTable := do
  let s ← t.slots[l.slot]?
  let s ← Block.poke s l.off (valueBytes v)
  some { t with slots := t.slots.set l.slot s }

end AhTable

/-! ## Iteration -/

/-- The entry of a record at a position in a slot. -/
def entryAt (t : AhTable) (l : Loc) : Option Entry := do
  let s ← t.slots[l.slot]?
  let (k, off) ← keyAt s l.off
  let key ← Block.peek s off k
  let w ← Block.peek s (off + k) valueSize
  some (key, (ofLeBytes w).toUInt64)

/-- The first slot from `i` on that is in use, or `n`. -/
def nextUsed (sizes : List Nat) (i : Nat) : Nat :=
  i + ((sizes.drop i).takeWhile fun size => size = 0).length

/-- `ahtable_iter_t`: an unsorted iterator is at a record, a sorted one at an index of the
records it has sorted. -/
inductive AhIter where
  | unsorted (at_ : Loc)
  | sorted (xs : List Loc) (i : Nat)
deriving DecidableEq, Repr

def ahtableUnsortedIterBegin (t : AhTable) : Loc := ⟨nextUsed t.slotSizes 0, 0⟩

def ahtableUnsortedIterNext (t : AhTable) (l : Loc) : Option Loc :=
  if t.n ≤ l.slot then some l
  else do
    let s ← t.slots[l.slot]?
    let size ← t.slotSizes[l.slot]?
    let k ← keylen s l.off
    let off := l.off + headerSize k + k + valueSize
    if size ≤ off then some ⟨nextUsed t.slotSizes (l.slot + 1), 0⟩ else some ⟨l.slot, off⟩

/-- The loop over all entries in `ahtable_expand` and `hattrie_split`: the entries in the order of
an unsorted iteration. -/
def iterate (t : AhTable) : Option (List Entry) :=
  loop
    (fun st : Loc × List Entry =>
      if t.n ≤ st.1.slot then some (.inr st.2)
      else do
        let e ← entryAt t st.1
        let l ← ahtableUnsortedIterNext t st.1
        some (.inl (l, st.2 ++ [e])))
    (t.slotSizes.sum + 1) (ahtableUnsortedIterBegin t, [])

/-! ## Insertion, lookup and deletion -/

def recordSize (len : Nat) : Nat := len + valueSize + if 128 ≤ len then 2 else 1

/-- One entry of the second loop of `ahtable_expand`: the slots, and the ends of what has been
written to them. -/
def rehash (n : Nat) (st : List Bytes × List Nat) (e : Entry) :
    Option (List Bytes × List Nat) := do
  let h := slotOf n e.1
  let s ← st.1[h]?
  let off ← st.2[h]?
  let (s, u, off) ← insKey s off e.1
  let s ← Block.poke s u (valueBytes e.2)
  some (st.1.set h s, st.2.set h off)

def ahtableExpand (t : AhTable) : Option AhTable := do
  guard (0 < t.n)
  let newN := 2 * t.n
  let es ← iterate t
  guard (es.length = t.m)
  let slotSizes := es.foldl
    (fun sizes e => sizes.modify (slotOf newN e.1) (· + recordSize e.1.length))
    (List.replicate newN 0)
  let st ← es.foldlM (rehash newN) (slotSizes.map Block.alloc, List.replicate newN 0)
  some { t with
    slots := st.1
    slotSizes := slotSizes
    n := newN
    maxM := ahtableMaxLoadFactor * newN }

/-- `get_key` behind the resizing: search the slot, and add the key if it is not found. -/
def findOrInsert (t : AhTable) (key : Bytes) (insertMissing : Bool) :
    Option (AhTable × Option Loc) := do
  let i := slotOf t.n key
  let s ← t.slots[i]?
  let size ← t.slotSizes[i]?
  match ← scan s size key with
  | some off => some (t, some ⟨i, off + key.length⟩)
  | none =>
    if insertMissing then
      let newSize := size + (1 + if 128 ≤ key.length then 1 else 0) + key.length + valueSize
      let (s, val, _) ← insKey (Block.realloc s newSize) size key
      some
        ({ t with
            m := t.m + 1
            slots := t.slots.set i s
            slotSizes := t.slotSizes.set i newSize },
          some ⟨i, val⟩)
    else some (t, none)

/-- `get_key`: the table afterwards, and a pointer to the value unless it is NULL. -/
def getKey (t : AhTable) (key : Bytes) (insertMissing : Bool) : Option (AhTable × Option Loc) := do
  -- if we are at capacity, preemptively resize
  let t ← if insertMissing ∧ t.maxM ≤ t.m then ahtableExpand t else some t
  findOrInsert t key insertMissing

/-- `ahtable_get`, which ends the process for a key that is too long. -/
def ahtableGet (t : AhTable) (key : Bytes) : Option (AhTable × Loc) :=
  if maxKey < key.length then none
  else
    match getKey t key true with
    | some (t, some l) => some (t, l)
    | _ => none

def ahtableTryget (t : AhTable) (key : Bytes) : Option (Option Loc) :=
  (getKey t key false).map Prod.snd

/-- `ahtable_del`: the table afterwards, and whether 0 was returned and not -1. -/
def ahtableDel (t : AhTable) (key : Bytes) : Option (AhTable × Bool) := do
  let i := slotOf t.n key
  let s ← t.slots[i]?
  let size ← t.slotSizes[i]?
  match ← scan s size key with
  | some off =>
    -- move everything over, resize the array
    let behind := off + key.length + valueSize
    let start := off - headerSize key.length
    let rest ← Block.peek s behind (size - behind)
    let s ← Block.poke s start rest
    some
      ({ t with
          m := t.m - 1
          slots := t.slots.set i s
          slotSizes := t.slotSizes.set i (size - (behind - start)) },
        true)
  | none => some (t, false)

/-! ## Sorted iteration -/

/-- `memcmp` of two keys, as far as the shorter one goes. -/
def memcmp : Bytes → Bytes → Int
  | x :: a, y :: b => if x = y then memcmp a b else x.toNat - y.toNat
  | _, _ => 0

def cmpkey (a b : Bytes) : Int :=
  if memcmp a b = 0 then (a.length : Int) - b.length else memcmp a b

/-- The inner loop of `ahtable_sorted_iter_begin`: where the records of a slot start. -/
def slotStarts (s : Bytes) (size : Nat) : Option (List Nat) :=
  loop
    (fun st : Nat × List Nat =>
      if st.1 < size then do
        let k ← keylen s st.1
        some (.inl (st.1 + headerSize k + k + valueSize, st.2 ++ [st.1]))
      else some (.inr st.2))
    (size + 1) (0, [])

/-- Its outer loop. -/
def recordStarts (t : AhTable) : Nat → Option (List Loc)
  | 0 => some []
  | j + 1 => do
    let xs ← recordStarts t j
    let s ← t.slots[j]?
    let size ← t.slotSizes[j]?
    let starts ← slotStarts s size
    some (xs ++ starts.map (Loc.mk j))

/-- `ahtable_sorted_iter_begin`. There is room for `m` pointers, and `m` are sorted. -/
def ahtableSortedIterBegin (t : AhTable) : Option (List Loc) := do
  let xs ← recordStarts t t.n
  guard (xs.length = t.m)
  let keyed ← xs.mapM fun l => (entryAt t l).map fun e => (l, e.1)
  some ((keyed.mergeSort fun a b => cmpkey a.2 b.2 ≤ 0).map Prod.fst)

def ahtableIterBegin (t : AhTable) (sorted : Bool) : Option AhIter :=
  if sorted then (ahtableSortedIterBegin t).map (AhIter.sorted · 0)
  else some (.unsorted (ahtableUnsortedIterBegin t))

def ahtableIterFinished (t : AhTable) : AhIter → Bool
  | .unsorted l => t.n ≤ l.slot
  | .sorted _ i => t.m ≤ i

def ahtableIterNext (t : AhTable) : AhIter → Option AhIter
  | .unsorted l => (ahtableUnsortedIterNext t l).map .unsorted
  | .sorted xs i => if t.m ≤ i then some (.sorted xs i) else some (.sorted xs (i + 1))

/-- `ahtable_iter_key` and `*ahtable_iter_val`, before the end. -/
def ahtableIterEntry (t : AhTable) : AhIter → Option Entry
  | .unsorted l => entryAt t l
  | .sorted xs i => xs[i]?.bind (entryAt t)

end Ayubd.HatTrie
