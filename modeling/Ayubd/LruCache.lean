import Ayubd.Strings.Tokens
import Mathlib.Logic.Function.Basic

/-!
# Ayubd — the LRU cache

`lru-cache.c` keeps its entries in a `uthash` table. The macros of `uthash.h` keep the elements
of a table in the order of insertion, and represent the table by a variable that points to its
first element: adding to an empty table and deleting the first element assign that variable. Both
functions of `lru-cache.c` receive it by value, so these assignments are lost on return.

* **`lru_by_reference`** — if the variable were handed back, the functions would be an LRU cache.
* **`lru_contract_iff`** — as they are, they are one for those callers only that never add
  anything: every `lru_cache_add` makes a table of its own and leaves it behind.
-/

namespace Ayubd.LruCache

open Strings (CStr)

def lruCacheMaxSize : Nat := 100000

inductive Call where
  | add (key : CStr) (value : Bytes)
  | find (key : CStr)

/-! ## What an LRU cache is -/

/-- The entries of a cache, the least recently added or found one first. -/
abbrev Cache := List (CStr × Bytes)

/-- What a call may do with a cache, and return. An entry found becomes the most recent one, so
the last entry of a key is the one added last. What is evicted is the first entry. -/
inductive Step : Cache → Call → Option Bytes → Cache → Prop
  | add {c key value} : Step c (.add key value) none (c ++ [(key, value)])
  | evict {c key value oldest c'} (h : c ++ [(key, value)] = oldest :: c') :
      Step c (.add key value) none c'
  | hit {pre key value post} (latest : ∀ x ∈ post, x.1 ≠ key) :
      Step (pre ++ (key, value) :: post) (.find key) (some value) (pre ++ post ++ [(key, value)])
  | miss {c key} (h : ∀ x ∈ c, x.1 ≠ key) : Step c (.find key) none c

theorem Step.miss_eq {c c' : Cache} {key : CStr} (h : Step c (.find key) none c') : c' = c := by
  cases h
  rfl

/-! ## Entries and tables -/

abbrev Ref := Nat

/-- `lru_cache_t`, with the table from its `hh`; `vlen` is the length of the value. -/
structure Entry where
  key : CStr
  value : Bytes
  tbl : Nat

/-- The memory: the entries that are allocated, and the elements of each table in the order of
insertion. `next` has not been used yet. -/
structure Heap where
  entry : Ref → Option Entry
  table : Nat → List Ref
  next : Nat

/-- How a table is searched. The elements of one key share a bucket, and the chain of a bucket is
in no fixed order, since it is turned around when the buckets are split. -/
structure Uthash where
  search : (Ref → Option CStr) → List Ref → CStr → Option Ref
  search_some : ∀ {keys es key e}, search keys es key = some e → e ∈ es ∧ keys e = some key
  search_none : ∀ {keys es key}, search keys es key = none → ∀ e ∈ es, keys e ≠ some key

namespace Heap

def empty : Heap := ⟨fun _ => none, fun _ => [], 0⟩

def keyOf (h : Heap) (e : Ref) : Option CStr := (h.entry e).map Entry.key

/-- What an entry that is allocated stands for. -/
def content (h : Heap) (e : Ref) : Option (CStr × Bytes) :=
  (h.entry e).map fun x => (x.key, x.value)

def malloc (h : Heap) (key : CStr) (value : Bytes) : Ref × Heap :=
  (h.next, { h with entry := Function.update h.entry h.next (some ⟨key, value, 0⟩),
                    next := h.next + 1 })

def free (h : Heap) (e : Ref) : Heap := { h with entry := Function.update h.entry e none }

/-- The elements of the table with this head; none for a head that has been freed. -/
def elements (h : Heap) : Option Ref → Option (List Ref)
  | none => some []
  | some e => (h.entry e).map fun x => h.table x.tbl

def hashCount (h : Heap) (head : Option Ref) : Option Nat := (h.elements head).map List.length

def hashFindStr (h : Heap) (U : Uthash) (head : Option Ref) (key : CStr) : Option (Option Ref) := do
  let es ← h.elements head
  some (U.search h.keyOf es key)

/-- `HASH_ADD_KEYPTR`: the memory and the head afterwards. An element added to no table at all
gets a new one, and becomes its head. -/
def hashAddKeyptr (h : Heap) (head : Option Ref) (add : Ref) : Option (Heap × Option Ref) := do
  let x ← h.entry add
  match head with
  | none =>
    some ({ entry := Function.update h.entry add (some { x with tbl := h.next })
            table := Function.update h.table h.next [add]
            next := h.next + 1 }, some add)
  | some e =>
    let t := (← h.entry e).tbl
    some ({ h with entry := Function.update h.entry add (some { x with tbl := t })
                   table := Function.update h.table t (h.table t ++ [add]) }, some e)

/-- `HASH_DELETE`: the memory and the head afterwards. With its only element the table is
freed. -/
def hashDelete (h : Heap) (head : Option Ref) (del : Ref) : Option (Heap × Option Ref) := do
  let first ← head
  let t := (← h.entry first).tbl
  let es := h.table t
  if es = [del] then
    some ({ h with table := Function.update h.table t [] }, none)
  else
    some ({ h with table := Function.update h.table t (es.erase del) },
      if es.head? = some del then (es.erase del).head? else head)

end Heap

/-! ## The two functions

Both return the memory and what is in their own variable `cache` at the end, `lru_cache_find`
also the value. No result means that memory was read that is not allocated. -/

/-- The end of `lru_cache_add`: "prune the cache to MAX_CACHE_SIZE". The loop over the entries is
left with the first of them. -/
def prune (h : Heap) (cache : Option Ref) : Option (Heap × Option Ref) := do
  if lruCacheMaxSize ≤ (← h.hashCount cache) then
    match cache with
    | none => some (h, none)
    | some first =>
      let (h, cache) ← h.hashDelete cache first
      some (h.free first, cache)
  else some (h, cache)

def lruCacheAdd (h : Heap) (cache : Option Ref) (key : CStr) (value : Bytes) :
    Option (Heap × Option Ref) := do
  let (entry, h) := h.malloc key value
  let (h, cache) ← h.hashAddKeyptr cache entry
  prune h cache

def lruCacheFind (U : Uthash) (h : Heap) (cache : Option Ref) (key : CStr) :
    Option (Heap × Option Ref × Option Bytes) := do
  match ← h.hashFindStr U cache key with
  | none => some (h, cache, none)
  | some entry =>
    let value := (← h.entry entry).value
    let (h, cache) ← h.hashDelete cache entry
    let (h, cache) ← h.hashAddKeyptr cache entry
    some (h, cache, some value)

/-- A caller: the memory and its variable. -/
structure Caller where
  heap : Heap
  cache : Option Ref

namespace Caller

def start : Caller := ⟨Heap.empty, none⟩

/-- A call, and what the function has in its own variable at the end. -/
def callee (U : Uthash) (s : Caller) : Call → Option (Caller × Option Bytes)
  | .add key value =>
    (lruCacheAdd s.heap s.cache key value).map fun (h, cache) => (⟨h, cache⟩, none)
  | .find key =>
    (lruCacheFind U s.heap s.cache key).map fun (h, cache, found) => (⟨h, cache⟩, found)

/-- A call as it is made: the variable is passed by value. -/
def call (U : Uthash) (s : Caller) (c : Call) : Option (Caller × Option Bytes) :=
  (s.callee U c).map fun (s', found) => (⟨s'.heap, s.cache⟩, found)

/-- The caller's variable points to the first entry of a table, nothing of which is freed, that
has exactly the entries of the cache, and there are no other entries. -/
def Denotes (s : Caller) (c : Cache) : Prop :=
  ∃ es, s.heap.elements s.cache = some es ∧ s.cache = es.head? ∧
    es.map s.heap.content = c.map some ∧ ∀ e, (s.heap.entry e).isSome ↔ e ∈ es

end Caller

/-- **The contract**: at every moment of the sequence of calls the variable denotes a cache that is
not too large, and every call does what it may do with that cache. -/
inductive Kept (call : Caller → Call → Option (Caller × Option Bytes)) :
    Caller → Cache → List Call → Prop
  | nil {s c} (denotes : s.Denotes c) (size : c.length ≤ lruCacheMaxSize) : Kept call s c []
  | cons {s c x s' found c' calls} (denotes : s.Denotes c) (size : c.length ≤ lruCacheMaxSize)
      (returns : call s x = some (s', found)) (step : Step c x found c')
      (rest : Kept call s' c' calls) : Kept call s c (x :: calls)

/-! ## The macros -/

/-- The head and the elements of a table: every one of them belongs to that table. -/
structure Linked (h : Heap) (head : Option Ref) (es : List Ref) : Prop where
  head_eq : head = es.head?
  nodup : es.Nodup
  table : ∃ t, (∀ e ∈ es, ∃ x, h.entry e = some x ∧ x.tbl = t) ∧ (es ≠ [] → h.table t = es)

section
variable {h : Heap} {head : Option Ref} {es : List Ref}

theorem linked_nil (h : Heap) : Linked h none [] :=
  ⟨rfl, List.nodup_nil, 0, nofun, fun hne => absurd rfl hne⟩

/-- A table that is not empty, by its first element. -/
theorem Linked.cons {e : Ref} (hl : Linked h head (e :: es)) :
    ∃ x, head = some e ∧ h.entry e = some x ∧ h.table x.tbl = e :: es ∧
      ∀ e' ∈ e :: es, ∃ x', h.entry e' = some x' ∧ x'.tbl = x.tbl := by
  obtain ⟨hhead, -, t, htbl, htable⟩ := hl
  obtain ⟨x, hx, rfl⟩ := htbl e List.mem_cons_self
  exact ⟨x, hhead, hx, htable (List.cons_ne_nil _ _), htbl⟩

/-- The list of the cache is read from its head. -/
theorem Linked.elements (hl : Linked h head es) : h.elements head = some es := by
  cases es with
  | nil =>
    rw [hl.head_eq]
    rfl
  | cons e es =>
    obtain ⟨x, rfl, hx, htable, -⟩ := hl.cons
    show (h.entry e).map _ = _
    rw [hx, Option.map_some, htable]

theorem content_eq {h' : Heap} (h_entry : h'.entry = h.entry) : h'.content = h.content := by
  funext e
  show (h'.entry e).map _ = (h.entry e).map _
  rw [h_entry]

theorem keyOf_of_content {e : Ref} {x : CStr × Bytes} (hx : h.content e = some x) :
    h.keyOf e = some x.1 := by
  obtain ⟨y, hy, rfl⟩ := Option.map_eq_some_iff.mp hx
  show (h.entry e).map _ = _
  rw [hy]
  rfl

/-- A change of one entry changes the content at that entry. -/
theorem content_update (h : Heap) (e : Ref) (x : Option Entry) (table : Nat → List Ref)
    (next : Nat) : Heap.content ⟨Function.update h.entry e x, table, next⟩ =
      Function.update h.content e (x.map fun x => (x.key, x.value)) :=
  Function.comp_update (Option.map fun x : Entry => (x.key, x.value)) h.entry e x

/-- Changing the table of an entry does not change what it stands for. -/
theorem content_tbl {add : Ref} {x : Entry} (hx : h.entry add = some x) (t : Nat)
    (table : Nat → List Ref) (next : Nat) :
    Heap.content ⟨Function.update h.entry add (some { x with tbl := t }), table, next⟩ =
      h.content := by
  rw [content_update, Function.update_eq_self_iff]
  show _ = (h.entry add).map _
  rw [hx]
  rfl

/-- A table does not depend on entries that are not in it. -/
theorem Linked.update (hl : Linked h head es) {e : Ref} (hnot : e ∉ es) (x : Option Entry)
    (next : Nat) : Linked ⟨Function.update h.entry e x, h.table, next⟩ head es := by
  obtain ⟨hhead, hnodup, t, htbl, htable⟩ := hl
  refine ⟨hhead, hnodup, t, fun e' he' => ?_, htable⟩
  obtain ⟨x', hx', ht⟩ := htbl e' he'
  have hne : e' ≠ e := fun heq => hnot (heq ▸ he')
  exact ⟨x', (Function.update_of_ne hne _ _).trans hx', ht⟩

/-- **An element is added at the end.** -/
theorem Linked.hashAddKeyptr (hl : Linked h head es) {add : Ref} {x : Entry}
    (hx : h.entry add = some x) (hnew : add ∉ es) :
    ∃ h' head', h.hashAddKeyptr head add = some (h', head') ∧ Linked h' head' (es ++ [add]) ∧
      h'.content = h.content ∧ h.next ≤ h'.next := by
  cases es with
  -- the first element makes the table and becomes the head
  | nil =>
    obtain rfl : head = none := hl.head_eq
    refine ⟨⟨Function.update h.entry add (some { x with tbl := h.next }),
      Function.update h.table h.next [add], h.next + 1⟩, some add, ?_, ?_,
      content_tbl hx _ _ _, Nat.le_succ _⟩
    · show (h.entry add).bind _ = _
      rw [hx]
      rfl
    · refine ⟨rfl, List.nodup_singleton _, h.next, ?_, fun _ => Function.update_self _ _ _⟩
      intro e he
      obtain rfl := List.mem_singleton.mp he
      exact ⟨_, Function.update_self _ _ _, rfl⟩
  -- the table is found through the head and stays where it is
  | cons e es =>
    obtain ⟨y, rfl, hy, htable, htbl⟩ := hl.cons
    refine ⟨⟨Function.update h.entry add (some { x with tbl := y.tbl }),
      Function.update h.table y.tbl (h.table y.tbl ++ [add]), h.next⟩, some e, ?_, ?_,
      content_tbl hx _ _ _, Nat.le_refl _⟩
    · show (h.entry add).bind _ = _
      rw [hx]
      show (h.entry e).bind _ = _
      rw [hy]
      rfl
    · refine ⟨rfl, ?_, y.tbl, ?_, fun _ => ?_⟩
      · exact List.nodup_append.mpr ⟨hl.nodup, List.nodup_singleton _, fun a ha b hb hab =>
          hnew (List.mem_singleton.mp hb ▸ hab ▸ ha)⟩
      · intro e' he'
        by_cases heq : e' = add
        · subst heq
          exact ⟨_, Function.update_self _ _ _, rfl⟩
        · rcases List.mem_append.mp he' with he' | he'
          · obtain ⟨x', hx', htbl'⟩ := htbl e' he'
            exact ⟨x', (Function.update_of_ne heq _ _).trans hx', htbl'⟩
          · exact absurd (List.mem_singleton.mp he') heq
      · show Function.update _ _ _ _ = _
        rw [Function.update_self, htable]

/-- **An element is deleted from anywhere in the table.** -/
theorem Linked.hashDelete (hl : Linked h head es) {del : Ref} (hmem : del ∈ es) :
    ∃ h' head', h.hashDelete head del = some (h', head') ∧ Linked h' head' (es.erase del) ∧
      h'.entry = h.entry ∧ h'.next = h.next := by
  cases es with
  | nil => cases hmem
  | cons e es =>
    obtain ⟨y, rfl, hy, htable, htbl⟩ := hl.cons
    have hdelete : h.hashDelete (some e) del = if e :: es = [del] then
        some (⟨h.entry, Function.update h.table y.tbl [], h.next⟩, none)
      else some (⟨h.entry, Function.update h.table y.tbl ((e :: es).erase del), h.next⟩,
        if (e :: es).head? = some del then ((e :: es).erase del).head? else some e) := by
      show (h.entry e).bind _ = _
      rw [hy, ← htable]
      rfl
    rw [hdelete]
    split
    · next honly =>
      refine ⟨_, _, rfl, ?_, rfl, rfl⟩
      rw [honly, List.erase_cons_head]
      exact linked_nil _
    · refine ⟨_, _, rfl, ⟨?_, hl.nodup.erase del, y.tbl, ?_, fun _ => ?_⟩, rfl, rfl⟩
      · split
        · rfl
        · next hne =>
          rw [List.erase_cons_tail (by simpa using hne), List.head?_cons]
      · exact fun e' he' => htbl e' (List.mem_of_mem_erase he')
      · exact Function.update_self _ _ _

/-- An element is deleted and added again, so that it is the last one. -/
theorem Linked.moved {pre post : List Ref} {e : Ref} (hl : Linked h head (pre ++ e :: post))
    {x : Entry} (hx : h.entry e = some x) :
    ∃ h' head', (h.hashDelete head e).bind (fun r => r.1.hashAddKeyptr r.2 e) = some (h', head') ∧
      Linked h' head' (pre ++ post ++ [e]) ∧ h'.content = h.content ∧ h.next ≤ h'.next := by
  have hnot : e ∉ pre ++ post := (List.nodup_middle.mp hl.nodup).notMem
  obtain ⟨h₁, head₁, hdelete, hlinked, hentry, hnext⟩ :=
    hl.hashDelete (show e ∈ pre ++ e :: post by simp)
  rw [List.erase_append_right _ fun hmem => hnot (List.mem_append_left _ hmem),
    List.erase_cons_head] at hlinked
  obtain ⟨h', head', hadd, hlinked', hcontent, hle⟩ :=
    hlinked.hashAddKeyptr ((congrFun hentry e).trans hx) hnot
  refine ⟨h', head', ?_, hlinked', hcontent.trans (content_eq hentry), hnext ▸ hle⟩
  rw [hdelete]
  exact hadd

end

/-! ## The variable handed back -/

/-- A caller whose variable has all entries there are, and these stand for the cache. -/
structure Owned (s : Caller) (es : List Ref) (c : Cache) : Prop where
  linked : Linked s.heap s.cache es
  live : ∀ e, (s.heap.content e).isSome ↔ e ∈ es
  fresh : ∀ e ∈ es, e < s.heap.next
  content : es.map s.heap.content = c.map some

section
variable {s : Caller} {es : List Ref} {c : Cache} {key : CStr} {value : Bytes}

theorem owned_start : Owned Caller.start [] [] :=
  ⟨linked_nil _, fun _ => ⟨nofun, nofun⟩, nofun, rfl⟩

theorem Owned.length (hs : Owned s es c) : es.length = c.length := by
  have := congrArg List.length hs.content
  rwa [List.length_map, List.length_map] at this

/-- The heap holds the cache the caller has. -/
theorem Owned.denotes (hs : Owned s es c) : s.Denotes c := by
  refine ⟨es, hs.linked.elements, hs.linked.head_eq, hs.content, fun e => ?_⟩
  rw [← hs.live e]
  show _ ↔ ((s.heap.entry e).map _).isSome
  rw [Option.isSome_map]

/-- The memory in which the new entry has been added at the end. -/
theorem Owned.added (hs : Owned s es c) (key : CStr) (value : Bytes) :
    ∃ h' head', (s.heap.malloc key value).2.hashAddKeyptr s.cache s.heap.next = some (h', head') ∧
      Owned ⟨h', head'⟩ (es ++ [s.heap.next]) (c ++ [(key, value)]) := by
  have hnew : s.heap.next ∉ es := fun hmem => Nat.lt_irrefl _ (hs.fresh _ hmem)
  have hother : ∀ e ∈ es, e ≠ s.heap.next := fun e he heq => hnew (heq ▸ he)
  have hlinked : Linked (s.heap.malloc key value).2 s.cache es := hs.linked.update hnew _ _
  obtain ⟨h', head', hadd, hlinked', hcontent', hnext⟩ :=
    hlinked.hashAddKeyptr (Function.update_self _ _ _) hnew
  rw [Heap.malloc, content_update, Option.map_some] at hcontent'
  refine ⟨h', head', hadd, hlinked', fun e => ?_, fun e he => ?_, ?_⟩
  · show (h'.content e).isSome ↔ _
    rw [hcontent', List.mem_append, List.mem_singleton, ← hs.live e]
    by_cases he : e = s.heap.next
    · simp only [he, Function.update_self, Option.isSome_some, or_true]
    · simp only [he, Function.update_of_ne he, or_false]
  · have hlt : e < s.heap.next + 1 := by
      rcases List.mem_append.mp he with he | he
      · exact Nat.lt_succ_of_lt (hs.fresh e he)
      · exact List.mem_singleton.mp he ▸ Nat.lt_succ_self _
    exact Nat.lt_of_lt_of_le hlt hnext
  · show (es ++ [s.heap.next]).map h'.content = _
    rw [hcontent', List.map_append, List.map_append, ← hs.content, List.map_singleton,
      Function.update_self]
    congr 1
    exact List.map_congr_left fun e he => Function.update_of_ne (hother e he) _ _

/-- The oldest entry is pruned. -/
theorem Owned.pruned {first : Ref} {x : CStr × Bytes} (hs : Owned s (first :: es) (x :: c)) :
    ∃ h' head', s.heap.hashDelete s.cache first = some (h', head') ∧
      Owned ⟨h'.free first, head'⟩ es c := by
  obtain ⟨h', head', hdelete, hlinked, hentry, hnext⟩ := hs.linked.hashDelete List.mem_cons_self
  rw [List.erase_cons_head] at hlinked
  have hnot : first ∉ es := (List.nodup_cons.mp hs.linked.nodup).1
  have hother : ∀ e ∈ es, e ≠ first := fun e he heq => hnot (heq ▸ he)
  have hcontent : (h'.free first).content = Function.update s.heap.content first none := by
    rw [Heap.free, content_update, content_eq hentry]
    rfl
  refine ⟨h', head', hdelete, hlinked.update hnot _ _, fun e => ?_, fun e he => ?_, ?_⟩
  · show ((h'.free first).content e).isSome ↔ _
    rw [hcontent]
    by_cases he : e = first
    · simp only [he, Function.update_self, Option.isSome_none, hnot, Bool.false_eq_true]
    · rw [Function.update_of_ne he, hs.live e, List.mem_cons, or_iff_right he]
  · show e < h'.next
    rw [hnext]
    exact hs.fresh e (List.mem_cons_of_mem _ he)
  · have htail : es.map s.heap.content = c.map some :=
      (List.cons_eq_cons.mp hs.content).2
    show es.map (h'.free first).content = _
    rw [hcontent, ← htail]
    exact List.map_congr_left fun e he => Function.update_of_ne (hother e he) _ _

/-- The count of the table is the length of the cache. -/
theorem Owned.hashCount (hs : Owned s es c) : s.heap.hashCount s.cache = some c.length := by
  unfold Heap.hashCount
  rw [hs.linked.elements, Option.map_some, hs.length]

/-- Nothing is pruned below the maximum. -/
theorem Owned.prune_of_lt (hs : Owned s es c) (hsize : c.length < lruCacheMaxSize) :
    LruCache.prune s.heap s.cache = some (s.heap, s.cache) := by
  unfold LruCache.prune
  rw [hs.hashCount, Option.bind_eq_bind, Option.bind_some, if_neg (Nat.not_le.mpr hsize)]

/-- A cache that is full loses its oldest entry. -/
theorem Owned.prune (hs : Owned s es c) (hsize : c.length ≤ lruCacheMaxSize) :
    ∃ h' head' es' c', prune s.heap s.cache = some (h', head') ∧
      (c' = c ∨ ∃ oldest, c = oldest :: c') ∧ Owned ⟨h', head'⟩ es' c' ∧
      c'.length < lruCacheMaxSize := by
  by_cases hfull : lruCacheMaxSize ≤ c.length
  · unfold LruCache.prune
    rw [hs.hashCount, Option.bind_eq_bind, Option.bind_some, if_pos hfull]
    cases c with
    | nil => contradiction
    | cons oldest c =>
      cases es with
      | nil => cases hs.length
      | cons first es =>
        obtain ⟨h', head', hdelete, hpruned⟩ := hs.pruned
        rw [show s.cache = some first from hs.linked.head_eq] at hdelete ⊢
        refine ⟨h'.free first, head', es, c, ?_, .inr ⟨oldest, rfl⟩, hpruned, hsize⟩
        show (s.heap.hashDelete (some first) first).bind _ = _
        rw [hdelete]
        rfl
  · have hroom := Nat.lt_of_not_le hfull
    exact ⟨_, _, es, c, hs.prune_of_lt hroom, .inl rfl, hs, hroom⟩

theorem lruCacheAdd_eq (h : Heap) (cache : Option Ref) (key : CStr) (value : Bytes) :
    lruCacheAdd h cache key value = ((h.malloc key value).2.hashAddKeyptr cache h.next).bind
      fun r => LruCache.prune r.1 r.2 := rfl

/-- **Adding.** -/
theorem Owned.lruCacheAdd (hs : Owned s es c) (hsize : c.length < lruCacheMaxSize) (key : CStr)
    (value : Bytes) :
    ∃ h' head' es' c', lruCacheAdd s.heap s.cache key value = some (h', head') ∧
      Step c (.add key value) none c' ∧ Owned ⟨h', head'⟩ es' c' ∧
      c'.length < lruCacheMaxSize := by
  obtain ⟨h₁, head₁, hadd, hadded⟩ := hs.added key value
  obtain ⟨h', head', es', c', hprune, hc', hpruned, hsize'⟩ := hadded.prune (by simpa using hsize)
  refine ⟨h', head', es', c', ?_, ?_, hpruned, hsize'⟩
  · rw [lruCacheAdd_eq, hadd, Option.bind_some]
    exact hprune
  · obtain rfl | ⟨oldest, holdest⟩ := hc'
    · exact .add
    · exact .evict holdest

/-- The order of the buckets' chains in a table whose buckets have not been split: what was added
last is found first. -/
def Uthash.FindsLatest (U : Uthash) : Prop :=
  ∀ keys pre e post key, (pre ++ e :: post).Nodup →
    U.search keys (pre ++ e :: post) key = some e → ∀ e' ∈ post, keys e' ≠ some key

/-- The elements in the reverse order of insertion. -/
def Uthash.lastFirst : Uthash where
  search keys es key := es.reverse.find? fun e => keys e = some key
  search_some h := by
    refine ⟨List.mem_reverse.mp (List.mem_of_find?_eq_some h), ?_⟩
    have := List.find?_some h
    exact of_decide_eq_true this
  search_none h e he := by
    have := List.find?_eq_none.mp h e (List.mem_reverse.mpr he)
    simpa using this

/-- A table which searches from the last entry finds the latest. -/
theorem findsLatest_lastFirst : Uthash.lastFirst.FindsLatest := by
  intro keys pre e post key hnodup hsearch e' he' hkey
  have hnot : e ∉ post := fun he => by
    have := (List.nodup_append.mp hnodup).2.1
    exact (List.nodup_cons.mp this).1 he
  have hin : (post.reverse.find? fun e => keys e = some key).isSome := by
    rw [List.find?_isSome]
    exact ⟨e', List.mem_reverse.mpr he', decide_eq_true hkey⟩
  obtain ⟨e₁, he₁⟩ := Option.isSome_iff_exists.mp hin
  have hfirst : Uthash.lastFirst.search keys (pre ++ e :: post) key = some e₁ := by
    show (pre ++ e :: post).reverse.find? (fun e => keys e = some key) = some e₁
    rw [List.reverse_append, List.reverse_cons, List.append_assoc, List.find?_append, he₁,
      Option.some_or]
  rw [hsearch, Option.some.injEq] at hfirst
  exact hnot (hfirst ▸ List.mem_reverse.mp (List.mem_of_find?_eq_some he₁))

/-- Every entry of the cache is in one of its blocks. -/
theorem exists_of_content {h : Heap} {es : List Ref} {c : Cache}
    (hcontent : es.map h.content = c.map some) {x : CStr × Bytes} (hx : x ∈ c) :
    ∃ e ∈ es, h.content e = some x := by
  have hmem : some x ∈ es.map h.content := by
    rw [hcontent]
    exact List.mem_map_of_mem hx
  exact List.mem_map.mp hmem

/-- The blocks before and after one stand for the parts of the cache before and after it. -/
theorem Owned.split {pre post : List Ref} {e : Ref} (hs : Owned s (pre ++ e :: post) c)
    {x : CStr × Bytes} (hx : s.heap.content e = some x) :
    ∃ cpre cpost, c = cpre ++ x :: cpost ∧ pre.map s.heap.content = cpre.map some ∧
      post.map s.heap.content = cpost.map some := by
  have hcontent := hs.content
  rw [List.map_append, List.map_cons] at hcontent
  obtain ⟨cpre, ctail, rfl, hcpre, hctail⟩ := List.map_eq_append_iff.mp hcontent.symm
  obtain ⟨x', cpost, rfl, hx', hcpost⟩ := List.map_eq_cons_iff.mp hctail
  obtain rfl : x' = x := Option.some.inj (hx'.trans hx)
  exact ⟨cpre, cpost, rfl, hcpre.symm, hcpost.symm⟩

/-- **Finding.** -/
theorem Owned.lruCacheFind {U : Uthash} (hU : U.FindsLatest) (hs : Owned s es c) (key : CStr) :
    ∃ h' head' found es' c', lruCacheFind U s.heap s.cache key = some (h', head', found) ∧
      Step c (.find key) found c' ∧ Owned ⟨h', head'⟩ es' c' ∧ c'.length = c.length := by
  have hfind : s.heap.hashFindStr U s.cache key = some (U.search s.heap.keyOf es key) := by
    unfold Heap.hashFindStr
    rw [hs.linked.elements]
    rfl
  unfold LruCache.lruCacheFind
  rw [hfind, Option.bind_eq_bind, Option.bind_some]
  cases hsearch : U.search s.heap.keyOf es key with
  -- no entry of the table has the key, so none of the cache has
  | none =>
    refine ⟨_, _, _, es, c, rfl, .miss fun x hx heq => ?_, hs, rfl⟩
    obtain ⟨e, he, hcontent⟩ := exists_of_content hs.content hx
    exact U.search_none hsearch e he (heq ▸ keyOf_of_content hcontent)
  -- the entry found is deleted and added again, which puts it last
  | some e =>
    obtain ⟨hmem, hkey⟩ := U.search_some hsearch
    obtain ⟨pre, post, rfl⟩ := List.append_of_mem hmem
    obtain ⟨y, hy, hykey⟩ := Option.map_eq_some_iff.mp hkey
    have hx : s.heap.content e = some (key, y.value) := by
      show (s.heap.entry e).map _ = _
      rw [hy, ← hykey]
      rfl
    obtain ⟨cpre, cpost, rfl, hcpre, hcpost⟩ := hs.split hx
    -- the same elements, in another order
    have hmoves : ∀ e', e' ∈ pre ++ post ++ [e] ↔ e' ∈ pre ++ e :: post := by
      intro e'
      simp only [List.mem_append, List.mem_cons, List.not_mem_nil, or_false]
      tauto
    obtain ⟨h', head', hmoved, hlinked, hsame, hnext⟩ := hs.linked.moved hy
    refine ⟨h', head', some y.value, pre ++ post ++ [e], cpre ++ cpost ++ [(key, y.value)], ?_,
      .hit ?_, ⟨hlinked, fun e' => ?_, fun e' he' => ?_, ?_⟩, ?_⟩
    · show (s.heap.entry e).bind _ = _
      rw [hy]
      show (s.heap.hashDelete s.cache e).bind _ = _
      obtain ⟨r, hdelete, hadd⟩ := Option.bind_eq_some_iff.mp hmoved
      rw [hdelete, Option.bind_some]
      show (r.1.hashAddKeyptr r.2 e).bind _ = _
      rw [hadd]
      rfl
    · intro x' hx' heq
      obtain ⟨e', he', hcontent'⟩ := exists_of_content hcpost hx'
      exact hU _ pre e post key hs.linked.nodup hsearch e' he' (heq ▸ keyOf_of_content hcontent')
    · show (h'.content e').isSome ↔ _
      rw [hsame, hs.live e', hmoves]
    · exact Nat.lt_of_lt_of_le (hs.fresh e' ((hmoves e').mp he')) hnext
    · show (pre ++ post ++ [e]).map h'.content = _
      rw [hsame, List.map_append, List.map_append, List.map_append, List.map_append, hcpre, hcpost,
        List.map_singleton, List.map_singleton, hx]
    · simp only [List.length_append, List.length_cons, List.length_nil]
      omega

/-- **A call** does what it may do with the cache behind the function's own variable. -/
theorem Owned.callee {U : Uthash} (hU : U.FindsLatest) (hs : Owned s es c)
    (hsize : c.length < lruCacheMaxSize) (x : Call) :
    ∃ s' found es' c', s.callee U x = some (s', found) ∧ Step c x found c' ∧ Owned s' es' c' ∧
      c'.length < lruCacheMaxSize := by
  cases x with
  | add key value =>
    obtain ⟨h', head', es', c', hcode, hstep, hs', hsize'⟩ := hs.lruCacheAdd hsize key value
    refine ⟨⟨h', head'⟩, none, es', c', ?_, hstep, hs', hsize'⟩
    show (LruCache.lruCacheAdd s.heap s.cache key value).map _ = _
    rw [hcode]
    rfl
  | find key =>
    obtain ⟨h', head', found, es', c', hcode, hstep, hs', hsize'⟩ := hs.lruCacheFind hU key
    refine ⟨⟨h', head'⟩, found, es', c', ?_, hstep, hs', hsize' ▸ hsize⟩
    show (LruCache.lruCacheFind U s.heap s.cache key).map _ = _
    rw [hcode]
    rfl

/-- **With the variable handed back**, the functions are an LRU cache. -/
theorem lru_by_reference {U : Uthash} (hU : U.FindsLatest) (calls : List Call) :
    Kept (Caller.callee U) Caller.start [] calls := by
  suffices h : ∀ s es c, Owned s es c → c.length < lruCacheMaxSize →
      Kept (Caller.callee U) s c calls from h _ _ _ owned_start (by decide)
  induction calls with
  | nil => exact fun s es c hs hsize => .nil hs.denotes hsize.le
  | cons x calls ih =>
    intro s es c hs hsize
    obtain ⟨s', found, es', c', hcall, hstep, hs', hsize'⟩ := hs.callee hU hsize x
    exact .cons hs.denotes hsize.le hcall hstep (ih s' es' c' hs' hsize')

end

example (calls : List Call) : Kept (Caller.callee .lastFirst) Caller.start [] calls :=
  lru_by_reference findsLatest_lastFirst calls

/-! ## The variable by value -/

/-- What is added to no table is in the memory afterwards, in a table of its own. -/
theorem lruCacheAdd_start (key : CStr) (value : Bytes) :
    ∃ h' head' e, lruCacheAdd Caller.start.heap Caller.start.cache key value = some (h', head') ∧
      Owned ⟨h', head'⟩ [e] [(key, value)] := by
  obtain ⟨h', head', hadd, hadded⟩ := owned_start.added key value
  refine ⟨h', head', _, ?_, hadded⟩
  rw [lruCacheAdd_eq, hadd, Option.bind_some]
  exact hadded.prune_of_lt (by decide : 1 < lruCacheMaxSize)

theorem lruCacheFind_null (U : Uthash) (h : Heap) (key : CStr) :
    lruCacheFind U h none key = some (h, none, none) := by
  have hnone : U.search h.keyOf [] key = none := by
    rw [Option.eq_none_iff_forall_ne_some]
    intro e he
    exact List.not_mem_nil (U.search_some he).1
  unfold lruCacheFind Heap.hashFindStr Heap.elements
  rw [Option.bind_eq_bind, Option.bind_eq_bind, Option.bind_some, hnone]
  rfl

/-- After an `lru_cache_add` the variable is still `NULL`, and does not denote the new entry. -/
theorem not_denotes_add {U : Uthash} {key : CStr} {value : Bytes} {s' : Caller}
    {found : Option Bytes} (hcall : Caller.start.call U (.add key value) = some (s', found))
    (c : Cache) : ¬ s'.Denotes c := by
  obtain ⟨h', head', e, hadd, hadded⟩ := lruCacheAdd_start key value
  have hs' : s' = ⟨h', none⟩ := by
    have hcode : Caller.start.call U (.add key value) = some (⟨h', none⟩, none) := by
      simp only [Caller.call, Caller.callee, hadd, Option.map_some]
      rfl
    rw [hcode] at hcall
    exact (congrArg Prod.fst (Option.some.inj hcall)).symm
  rintro ⟨es, hes, -, -, hlive⟩
  rw [hs'] at hes hlive
  obtain rfl : [] = es := Option.some.inj hes
  have hin : (h'.entry e).isSome := by
    have := (hadded.live e).mpr (List.mem_singleton_self e)
    rwa [Heap.content, Option.isSome_map] at this
  exact List.not_mem_nil ((hlive e).mp hin)

theorem call_find_start (U : Uthash) (key : CStr) :
    Caller.start.call U (.find key) = some (Caller.start, none) := by
  have hfind := lruCacheFind_null U Caller.start.heap key
  simp only [Caller.call, Caller.callee, show Caller.start.cache = none from rfl, hfind,
    Option.map_some]
  rfl

/-- **When the contract is kept**: exactly for those callers that never add anything. -/
theorem lru_contract_iff (U : Uthash) (calls : List Call) :
    Kept (Caller.call U) Caller.start [] calls ↔ ∀ x ∈ calls, ∃ key, x = .find key := by
  induction calls with
  | nil => exact ⟨nofun, fun _ => .nil owned_start.denotes (Nat.zero_le _)⟩
  | cons x calls ih =>
    rw [List.forall_mem_cons, ← ih]
    constructor
    · rintro (_ | ⟨-, -, hcall, hstep, hrest⟩)
      cases x with
      | add key value =>
        exfalso
        cases hrest with
        | nil hdenotes _ => exact not_denotes_add hcall _ hdenotes
        | cons hdenotes _ _ _ _ => exact not_denotes_add hcall _ hdenotes
      | find key =>
        rw [call_find_start] at hcall
        cases hcall
        exact ⟨⟨key, rfl⟩, hstep.miss_eq ▸ hrest⟩
    · rintro ⟨⟨key, rfl⟩, hrest⟩
      exact .cons owned_start.denotes (Nat.zero_le _) (call_find_start U key) (.miss nofun) hrest

/-- `main` of `lru-cache.c`: what it has added, it does not find. -/
theorem lru_main_not_found :
    ((Caller.start.call .lastFirst (.add ⟨ascii "ayub", by decide⟩ (ascii "hello world\x00"))).bind
        fun r => (r.1.call .lastFirst (.find ⟨ascii "ayub", by decide⟩)).map Prod.snd) =
          some none ∧
      ¬ Kept (Caller.call .lastFirst) Caller.start []
        [.add ⟨ascii "ayub", by decide⟩ (ascii "hello world\x00"),
          .find ⟨ascii "ayub", by decide⟩] := by
  refine ⟨by decide +kernel, ?_⟩
  intro hkept
  cases hkept with
  | cons _ _ hcall _ hrest =>
    cases hrest with
    | cons hdenotes _ _ _ _ => exact not_denotes_add hcall _ hdenotes

end Ayubd.LruCache
