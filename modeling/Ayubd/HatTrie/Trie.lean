import Ayubd.HatTrie.TableMap

/-!
# Ayubd — the hat-trie

`lib/hat-trie/src/hat-trie.c`, which `assoc_array_impl_hattrie.h` makes the associative arrays of.
A trie node has a value of its own and 256 pointers; what a pointer leads to is another trie node,
a pure bucket, which holds the rests of the keys behind its one character, or a hybrid bucket, which
several neighbouring pointers share and which holds keys with their first character. A bucket that
is full is split when the next key is to go into it.

The nodes lie in memory under addresses, a pointer may be followed only to a node that has been
allocated and not been freed, and a failed assertion or `exit` ends the process: all of these are
results that are missing. `hattrie_consume` reads one byte behind a key that ends at a trie node;
`past` is whatever lies there.
-/

namespace Ayubd.HatTrie

def maxBucketSize : Nat := 16384

def nodeTypePureBucket : UInt8 := 0x2

def nodeTypeHybridBucket : UInt8 := 0x4

def nodeMaxchar : UInt8 := 0xff

abbrev Addr := Nat

/-- `trie_node_t`; its flag is `NODE_TYPE_TRIE`, with `NODE_HAS_VAL` or without it. -/
structure TrieNode where
  hasVal : Bool
  val : Value
  xs : UInt8 → Addr

/-- What a `node_ptr` leads to. -/
inductive Node where
  | trie (t : TrieNode)
  | bucket (b : AhTable)

/-- `hattrie_t`, with the memory its nodes lie in. -/
structure Trie where
  root : Addr
  m : Nat
  cell : Addr → Option Node
  next : Addr

/-- `value_t *`: to the value of a trie node, or into a slot of a bucket. -/
inductive Ref where
  | node (a : Addr)
  | slot (a : Addr) (l : Loc)
deriving DecidableEq, Repr

def AhTable.isPure (b : AhTable) : Bool := b.flag &&& nodeTypePureBucket ≠ 0

def AhTable.isHybrid (b : AhTable) : Bool := b.flag &&& nodeTypeHybridBucket ≠ 0

/-- A difference of two numbers of type `size_t`. -/
def countSub (m d : Nat) : Nat := if d ≤ m then m - d else m + 2 ^ 64 - d

namespace Trie

def trieAt (T : Trie) (a : Addr) : Option TrieNode :=
  match T.cell a with
  | some (.trie t) => some t
  | _ => none

def bucketAt (T : Trie) (a : Addr) : Option AhTable :=
  match T.cell a with
  | some (.bucket b) => some b
  | _ => none

def set (T : Trie) (a : Addr) (n : Option Node) : Trie :=
  { T with cell := Function.update T.cell a n }

/-- `malloc` of a node: the trie afterwards; the address is the next one. -/
def alloc (T : Trie) (n : Node) : Trie :=
  { T with cell := Function.update T.cell T.next (some n), next := T.next + 1 }

def load (T : Trie) : Ref → Option Value
  | .node a => (T.trieAt a).map TrieNode.val
  | .slot a l => (T.bucketAt a).bind fun b => b.load l

def store (T : Trie) (r : Ref) (v : Value) : Option Trie :=
  match r with
  | .node a => (T.trieAt a).map fun t => T.set a (some (.trie { t with val := v }))
  | .slot a l => do
    let b ← T.bucketAt a
    let b ← b.store l v
    some (T.set a (some (.bucket b)))

end Trie

/-- `hattrie_consume`: the parent, the rest of the key, and the node. -/
def hattrieConsume (T : Trie) (brk : Nat) (past : UInt8) :
    Addr → Bytes → Option (Addr × Bytes × Addr)
  | p, [] => do
    let t ← T.trieAt p
    let _ ← T.cell (t.xs past)
    some (p, [], t.xs past)
  | p, c :: k => do
    let t ← T.trieAt p
    match ← T.cell (t.xs c) with
    | .trie _ =>
      if brk < (c :: k).length then hattrieConsume T brk past (t.xs c) k
      else some (p, c :: k, t.xs c)
    | .bucket _ => some (p, c :: k, t.xs c)

def hattrieUseval (T : Trie) (a : Addr) : Option (Trie × Ref) := do
  let t ← T.trieAt a
  if t.hasVal then some (T, .node a)
  else some ({ T.set a (some (.trie { t with hasVal := true })) with m := T.m + 1 }, .node a)

/-- `hattrie_clrval`: the trie afterwards, and whether 0 was returned and not -1. -/
def hattrieClrval (T : Trie) (a : Addr) : Option (Trie × Bool) := do
  let t ← T.trieAt a
  if t.hasVal then
    some ({ T.set a (some (.trie { t with hasVal := false, val := 0 })) with
      m := countSub T.m 1 }, true)
  else some (T, false)

/-- `hattrie_find`: the node and the rest of the key, unless it is NULL. -/
def hattrieFind (T : Trie) (key : Bytes) : Option (Option (Addr × Bytes)) := do
  let _ ← T.trieAt T.root
  if key = [] then some (some (T.root, []))
  else
    let (_, k, node) ← hattrieConsume T 1 0 T.root key
    match ← T.cell node with
    | .trie t => some (if t.hasVal then some (node, k) else none)
    | .bucket b => some (some (node, if b.isPure then k.tail else k))

def newTrieNode (child : Addr) : TrieNode := ⟨false, 0, fun _ => child⟩

/-- A root with a bucket for all keys, which `hattrie_create` and `hattrie_clear` make. -/
def newRoot (T : Trie) : Trie :=
  let node := { ahtableCreate with flag := nodeTypeHybridBucket, c0 := 0x00, c1 := nodeMaxchar }
  let b := T.next
  let T := T.alloc (.bucket node)
  let r := T.next
  { T.alloc (.trie (newTrieNode b)) with root := r }

def hattrieCreate : Trie := newRoot ⟨0, 0, fun _ => none, 0⟩

def hattrieSize (T : Trie) : Nat := T.m

/-! ## Splitting a bucket -/

/-- The loop that chooses a split point: `j`, `left_m` and `right_m`. It goes on while there is a
character between `j` and the last one. -/
def choosePoint (cs : UInt8 → UInt32) (allM : UInt32) :
    Nat → UInt8 × UInt32 × UInt32 → UInt8 × UInt32 × UInt32
  | 0, st => st
  | between + 1, (j, leftM, rightM) =>
    let c := cs (j + 1)
    let d := ((leftM + c).toInt32.toInt - (rightM - c).toInt32.toInt).natAbs
    if (d : Int) ≤ (leftM - rightM).toInt32.toInt ∧ leftM + c < allM then
      choosePoint cs allM between (j + 1, leftM + c, rightM - c)
    else (j, leftM, rightM)

/-- The number of occurrences of a leading character. -/
def countFirst (es : List Entry) (c : UInt8) : UInt32 :=
  (es.countP fun e => e.1.head? = some c).toUInt32

/-- The split point of a bucket with these entries. -/
def splitPoint (b : AhTable) (es : List Entry) : UInt8 × UInt32 × UInt32 :=
  let cs := countFirst es
  let allM := b.m.toUInt32
  choosePoint cs allM (b.c1.toNat - (b.c0.toNat + 1)) (b.c0, cs b.c0, allM - cs b.c0)

/-- The loops for `num_slots`. A number of keys is below `2 ^ 32`, so four doublings are enough. -/
def numSlots (m : UInt32) : Nat → Nat → Nat
  | 0, n => n
  | fuel + 1, n => if ahtableMaxLoadFactor * n < m.toNat then numSlots m fuel (2 * n) else n

def newBucket (m : UInt32) (c0 c1 : UInt8) : AhTable :=
  { ahtableCreateN (numSlots m 4 ahtableInitialSize) with
    c0 := c0
    c1 := c1
    flag := if c0 = c1 then nodeTypePureBucket else nodeTypeHybridBucket }

/-- `v = ahtable_get(b, ...); *v = *u`, where a pure bucket holds only key suffixes. -/
def putEntry (b : AhTable) (c : UInt8) (k : Bytes) (u : Value) : Option AhTable := do
  let (b, l) ← ahtableGet b (if b.isPure then k else c :: k)
  b.store l u

/-- One entry of the loop that distributes the keys. -/
def distribute (j : UInt8) (lr : AhTable × AhTable) (e : Entry) : Option (AhTable × AhTable) :=
  match e.1 with
  | [] => none
  | c :: k =>
    if c ≤ j then (putEntry lr.1 c k e.2).map fun left => (left, lr.2)
    else (putEntry lr.2 c k e.2).map fun right => (lr.1, right)

/-- `hattrie_split` of a pure bucket, which becomes a hybrid bucket below a new trie node. -/
def splitPure (T : Trie) (parent node : Addr) (p : TrieNode) (b : AhTable) : Option Trie := do
  let new := T.next
  let T := T.alloc (.trie (newTrieNode node))
  let T := T.set parent (some (.trie { p with xs := Function.update p.xs b.c0 new }))
  -- if the bucket had an empty key, move it to the new trie node
  let (T, b) ←
    match ← ahtableTryget b [] with
    | none => some (T, b)
    | some l => do
      let v ← b.load l
      let b ← b.store l 0
      let (b, _) ← ahtableDel b []
      some (T.set new (some (.trie ⟨true, v, fun _ => node⟩)), b)
  let b := { b with c0 := 0x00, c1 := nodeMaxchar, flag := nodeTypeHybridBucket }
  some (T.set node (some (.bucket b)))

/-- The loops that update the parent's pointers. -/
def splitXs (b : AhTable) (j : UInt8) (left right : Addr) (xs : UInt8 → Addr) (c : UInt8) : Addr :=
  if b.c0 ≤ c ∧ c ≤ j then left else if j < c ∧ c ≤ b.c1 then right else xs c

/-- `hattrie_split` of a hybrid bucket, into one for the characters up to the split point and one
for the others. -/
def splitHybrid (T : Trie) (parent node : Addr) (p : TrieNode) (b : AhTable) : Option Trie := do
  let es ← iterate b
  guard (es.all fun e => e.1 ≠ [])
  let (j, leftM, rightM) := splitPoint b es
  let (left, right) ← es.foldlM (distribute j) (newBucket leftM b.c0 j, newBucket rightM (j + 1) b.c1)
  let l := T.next
  let T := T.alloc (.bucket left)
  let r := T.next
  let T := T.alloc (.bucket right)
  let T := T.set parent (some (.trie { p with xs := splitXs b j l r p.xs }))
  some (T.set node none)

def hattrieSplit (T : Trie) (parent node : Addr) : Option Trie := do
  let b ← T.bucketAt node
  let p ← T.trieAt parent
  if b.isPure then splitPure T parent node p b
  else if b.isHybrid then splitHybrid T parent node p b
  else none

/-! ## Lookup, insertion and deletion -/

/-- The body of the loop of `hattrie_get`, after a call of `hattrie_consume`. -/
def getBody (past : UInt8) (st : Trie × Addr × Bytes × Addr) :
    Option ((Trie × Addr × Bytes × Addr) ⊕ (Trie × Ref)) :=
  let (T, parent, key, node) := st
  match T.cell node with
  | none => none
  | some (.trie _) =>
    -- the key has been consumed on a trie node, use its value
    if key = [] then (hattrieUseval T node).map .inr else none
  | some (.bucket b) =>
    if key = [] ∧ b.isHybrid then (hattrieUseval T parent).map .inr
    else if maxBucketSize ≤ ahtableSize b then do
      -- preemptively split the bucket if it is full
      let T ← hattrieSplit T parent node
      let (parent, key, node) ← hattrieConsume T 0 past parent key
      some (.inl (T, parent, key, node))
    else
      match key with
      | [] => none
      | c :: k => do
        let (b', l) ← ahtableGet b (if b.isPure then k else c :: k)
        some (.inr ({ T.set node (some (.bucket b')) with m := T.m + (b'.m - b.m) }, .slot node l))

/-- `hattrie_get`. A split takes a character from the key or narrows the range of its bucket. -/
def hattrieGet (T : Trie) (key : Bytes) (past : UInt8) : Option (Trie × Ref) := do
  let t ← T.trieAt T.root
  if key = [] then
    some (T.set T.root (some (.trie { t with hasVal := true })), .node T.root)
  else
    let (parent, k, node) ← hattrieConsume T 0 past T.root key
    loop (getBody past) (257 * (key.length + 1)) (T, parent, k, node)

def hattrieTryget (T : Trie) (key : Bytes) : Option (Option Ref) := do
  match ← hattrieFind T key with
  | none => some none
  | some (node, k) =>
    match ← T.cell node with
    | .trie _ => some (some (.node node))
    | .bucket b => (ahtableTryget b k).map fun r => r.map (Ref.slot node)

/-- `hattrie_del`: the trie afterwards, and whether 0 was returned and not -1. -/
def hattrieDel (T : Trie) (key : Bytes) : Option (Trie × Bool) := do
  match ← hattrieFind T key with
  | none => some (T, false)
  | some (node, k) =>
    match ← T.cell node with
    | .trie _ => hattrieClrval T node
    | .bucket b => do
      let (b', ret) ← ahtableDel b k
      some ({ T.set node (some (.bucket b')) with
        m := countSub T.m (ahtableSize b - ahtableSize b') }, ret)

end Ayubd.HatTrie
