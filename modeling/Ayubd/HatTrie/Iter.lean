import Ayubd.HatTrie.Array
import Ayubd.HatTrie.Nodes
import Ayubd.HatTrie.TableIter

/-!
# Ayubd — iterators of the hat-trie

`hattrie_iter_begin` and what is called on the iterator it returns. The iterator has a stack of the
nodes that it has still to visit, an iterator of the bucket it is in, and a block in which it builds
the key: the characters of the path of the node, and behind them the rest of the key. A trie node
with a value is a key by itself, whose value is copied.

Nothing in the repository passes a prefix to iterate over, so that `prefixsize` is 0 throughout.
-/

namespace Ayubd.HatTrie

/-- `hattrie_iter_t`, with `keysize` bytes at `key`, the nodes on the stack with their character and
level, and the bucket that `i` is an iterator of. -/
structure HatIter where
  key : Bytes
  level : Nat
  hasNilKey : Bool
  nilVal : Value
  sorted : Bool
  i : Option (Addr × AhIter)
  stack : List (UInt8 × Nat × Addr)

def hattrieIterPushchar (i : HatIter) (level : Nat) (c : UInt8) : Option HatIter := do
  let key := if i.key.length < level then Block.realloc i.key (i.key.length * 2) else i.key
  let key ← if 0 < level then Block.poke key (level - 1) [c] else some key
  some { i with key := key, level := level }

/-- "push all child nodes from right to left", but repeated pointers to a hybrid bucket. -/
def pushChildren (xs : UInt8 → Addr) (level : Nat) (stack : List (UInt8 × Nat × Addr)) :
    List (UInt8 × Nat × Addr) :=
  chars.foldr
    (fun j stack =>
      if j < nodeMaxchar ∧ xs j = xs (j + 1) then stack else (j, level, xs j) :: stack)
    stack

/-- The level of a bucket: the character of a pure bucket is part of the key. -/
def enterBucket (b : AhTable) (i : HatIter) (level : Nat) (c : UInt8) : Option HatIter :=
  if b.isPure then hattrieIterPushchar i level c
  else some { i with level := countSub level 1 }

def hattrieIterNextnode (T : Trie) (i : HatIter) : Option HatIter :=
  match i.stack with
  | [] => some i
  | (c, level, node) :: stack => do
    let i := { i with stack := stack }
    match ← T.cell node with
    | .trie t => do
      let i ← hattrieIterPushchar i level c
      let i := if t.hasVal then { i with hasNilKey := true, nilVal := t.val } else i
      some { i with stack := pushChildren t.xs (level + 1) i.stack }
    | .bucket b => do
      let i ← enterBucket b i level c
      let it ← ahtableIterBegin b i.sorted
      some { i with i := some (node, it) }

def tableFinished (T : Trie) (i : HatIter) : Option Bool :=
  match i.i with
  | none => some true
  | some (node, it) => (T.bucketAt node).map fun b => ahtableIterFinished b it

def continueBody (T : Trie) (i : HatIter) : Option (HatIter ⊕ HatIter) := do
  if (← tableFinished T i) ∧ i.hasNilKey = false ∧ i.stack ≠ [] then
    let i ← hattrieIterNextnode T { i with i := none }
    some (.inl i)
  else some (.inr i)

def hattrieIterContinue (T : Trie) (i : HatIter) : Option HatIter := do
  let i ← loop (continueBody T) (T.next + 1) i
  if ← tableFinished T i then some { i with i := none } else some i

def hattrieIterBegin (T : Trie) (sorted : Bool) : Option HatIter :=
  hattrieIterContinue T
    { key := Block.alloc 16
      level := 0
      hasNilKey := false
      nilVal := 0
      sorted := sorted
      i := none
      stack := [(0, 0, T.root)] }

def hattrieIterFinished (i : HatIter) : Bool :=
  i.stack = [] ∧ i.i = none ∧ i.hasNilKey = false

def tableNext (T : Trie) (i : HatIter) : Option HatIter :=
  match i.i with
  | none => none
  | some (node, it) => do
    let b ← T.bucketAt node
    let it ← ahtableIterNext b it
    some { i with i := some (node, it) }

def hattrieIterNext (T : Trie) (i : HatIter) : Option HatIter :=
  if hattrieIterFinished i then some i
  else do
    let i ←
      if (← tableFinished T i) = false then tableNext T i
      else if i.hasNilKey then hattrieIterNextnode T { i with hasNilKey := false, nilVal := 0 }
      else some i
    hattrieIterContinue T i

/-- `ahtable_iter_key(i->i, &sublen)` and `ahtable_iter_val(i->i)`. -/
def tableEntry (T : Trie) (i : HatIter) : Option Entry :=
  match i.i with
  | none => none
  | some (node, it) => do
    let b ← T.bucketAt node
    ahtableIterEntry b it

/-- `while (i->keysize < desired) i->keysize *= 2`. -/
def doubled (desired : Nat) : Nat → Nat → Nat
  | 0, n => n
  | fuel + 1, n => if n < desired then doubled desired fuel (n * 2) else n

/-- What `hattrie_iter_key` copies behind the path of the node. -/
def iterSubkey (T : Trie) (i : HatIter) : Option Bytes :=
  if i.hasNilKey then some [] else (tableEntry T i).map Prod.fst

/-- `hattrie_iter_key`, before the end: the iterator afterwards and the key. -/
def hattrieIterKey (T : Trie) (i : HatIter) : Option (HatIter × Bytes) := do
  let subkey ← iterSubkey T i
  let desired := i.level + subkey.length + 1
  let key :=
    if i.key.length < desired then Block.realloc i.key (doubled desired desired i.key.length)
    else i.key
  let key ← Block.poke key i.level subkey
  let key ← Block.poke key (i.level + subkey.length) [0]
  let out ← Block.peek key 0 (i.level + subkey.length)
  some ({ i with key := key }, out)

/-- `*hattrie_iter_val`, before the end. -/
def hattrieIterVal (T : Trie) (i : HatIter) : Option Value :=
  if i.hasNilKey then some i.nilVal else (tableEntry T i).map Prod.snd

/-! ## Loops over an array -/

/-- One round of a loop over an array, whose body works on a state. -/
def eachBody {σ : Type} (T : Trie) (body : σ → Entry → Option σ) (st : HatIter × σ) :
    Option ((HatIter × σ) ⊕ σ) :=
  if hattrieIterFinished st.1 then some (.inr st.2)
  else do
    let (iter, ikey) ← hattrieIterKey T st.1
    let val ← hattrieIterVal T iter
    let s ← body st.2 (ikey, val)
    let iter ← hattrieIterNext T iter
    some (.inl (iter, s))

/-- A loop from `array_iter_new` to `array_iter_finished`. There are no more keys than all nodes
together have room for. -/
def arrayEach {σ : Type} (T : Trie) (sorted : Bool) (body : σ → Entry → Option σ) (s : σ) :
    Option σ := do
  let iter ← hattrieIterBegin T sorted
  loop (eachBody T body) (T.next * maxBucketSize + 1) (iter, s)

end Ayubd.HatTrie
