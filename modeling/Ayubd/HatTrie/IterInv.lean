import Ayubd.HatTrie.Iter

/-!
# Ayubd — what an iterator of the hat-trie sees

`Walking T path sorted p i es` says that `p` is the beginning of the key that an iterator has built
so far, and that `es` are the entries still ahead of it: those of the trie node or bucket it is in,
and behind them those of the nodes on its stack. The block for the key holds the paths of the
parents of all nodes on the stack, since none is deeper than the node that the iterator is in, and
nothing is written before the end of its path.
-/

namespace Ayubd.HatTrie

/-- The entries of a node by itself. -/
def ownEntries (T : Trie) (path : Addr → Bytes) (sorted : Bool) (a : Addr) : List Entry :=
  match T.cell a with
  | some (.trie t) => if t.hasVal then [(path a, t.val)] else []
  | some (.bucket b) => (listing b sorted).map fun e => (path a ++ e.1, e.2)
  | none => []

/-- The entries of a node and the nodes below it, in the order of an iterator. -/
def entriesBelow (T : Trie) (path : Addr → Bytes) (sorted : Bool) (a : Addr) : List Entry :=
  gather T path (ownEntries T path sorted) a

def entries (T : Trie) (path : Addr → Bytes) (sorted : Bool) : List Entry :=
  entriesBelow T path sorted T.root

/-- A node on the stack: the root, or a node whose parent's path the key begins with. -/
inductive Pending (T : Trie) (path : Addr → Bytes) (key : Bytes) : UInt8 × Nat × Addr → Prop where
  | root : Pending T path key (0, 0, T.root)
  | child {q : Addr} {t : TrieNode} {c : UInt8} (ht : T.cell q = some (.trie t))
      (hkey : path q <+: key) : Pending T path key (c, (path q).length + 1, t.xs c)

/-- The entries of the bucket that an iterator is in. -/
def TablePart (T : Trie) (i : HatIter) (es : List Entry) : Prop :=
  match i.i with
  | none => es = []
  | some (node, it) => ∃ b, T.cell node = some (.bucket b) ∧ Ahead b it es

/-- The entry of the trie node that an iterator is at. -/
def nilPart (p : Bytes) (i : HatIter) : List Entry :=
  if i.hasNilKey then [(p, i.nilVal)] else []

def stackPart (T : Trie) (path : Addr → Bytes) (sorted : Bool)
    (stack : List (UInt8 × Nat × Addr)) : List Entry :=
  stack.flatMap fun e => entriesBelow T path sorted e.2.2

/-- The nodes that are still to be visited. -/
def stackNodes (T : Trie) (path : Addr → Bytes) (stack : List (UInt8 × Nat × Addr)) : List Addr :=
  stack.flatMap fun e => nodes T path e.2.2

/-- The stack of an iterator whose key begins with `p`. -/
structure StackOk (T : Trie) (path : Addr → Bytes) (level : Nat) (key : Bytes)
    (stack : List (UInt8 × Nat × Addr)) : Prop where
  pending : ∀ e ∈ stack, Pending T path key e
  below : ∀ e ∈ stack, e.2.1 ≤ level + 1
  levels : stack.Pairwise fun e e' => e'.2.1 ≤ e.2.1

/-- An iterator on its way. -/
structure Walking (T : Trie) (path : Addr → Bytes) (sorted : Bool) (p : Bytes) (i : HatIter)
    (es : List Entry) : Prop where
  order : i.sorted = sorted
  room : 16 ≤ i.key.length
  here : p <+: i.key
  level : i.level = p.length
  stack : StackOk T path i.level i.key i.stack
  visit : (stackNodes T path i.stack).length ≤ T.next
  ahead : ∃ tes, TablePart T i tes ∧
    es = nilPart p i ++ (tes.map fun e => (p ++ e.1, e.2)) ++ stackPart T path sorted i.stack

section
variable {T : Trie} {path : Addr → Bytes} {sorted : Bool} {p key key' : Bytes} {i : HatIter}
  {es : List Entry} {e : Entry} {level : Nat} {c : UInt8} {a node : Addr} {t : TrieNode}
  {b : AhTable} {stack : List (UInt8 × Nat × Addr)} {x : UInt8 × Nat × Addr}

theorem tablePart_none (hi : i.i = none) : TablePart T i es ↔ es = [] := by
  unfold TablePart
  rw [hi]

theorem tablePart_some {it : AhIter} (hi : i.i = some (node, it)) :
    TablePart T i es ↔ ∃ b, T.cell node = some (.bucket b) ∧ Ahead b it es := by
  unfold TablePart
  rw [hi]

/-! ## The block of the key -/

/-- Writing behind the paths of the parents. -/
theorem Pending.mono (h : Pending T path key x) (hx : x.2.1 ≤ level + 1)
    (hkeep : ∀ p, p <+: key → p.length ≤ level → p <+: key') : Pending T path key' x := by
  cases h with
  | root => exact .root
  | child ht hkey => exact .child ht (hkeep _ hkey (Nat.le_of_succ_le_succ hx))

/-- The stack depends on the front of the key only. -/
theorem StackOk.mono (h : StackOk T path level key stack)
    (hkeep : ∀ p, p <+: key → p.length ≤ level → p <+: key') : StackOk T path level key' stack :=
  ⟨fun e he => (h.pending e he).mono (h.below e he) hkeep, h.below, h.levels⟩

/-- **`hattrie_iter_pushchar`** for a node on the stack. -/
theorem pushchar_spec (h : Ok T path) (hpending : Pending T path i.key (c, level, node))
    (hroom : 16 ≤ i.key.length) (hpath : level ≠ 0 →
      ∀ q t, T.cell q = some (.trie t) → t.xs c = node → level = (path q).length + 1 →
        path node = path q ++ [c]) :
    ∃ key', hattrieIterPushchar i level c = some { i with key := key', level := level } ∧
      16 ≤ key'.length ∧ path node <+: key' ∧ (path node).length = level ∧
      ∀ p, p <+: i.key → p.length + 1 ≤ level → p <+: key' := by
  cases hpending with
  | root =>
    refine ⟨i.key, ?_, hroom, ?_, ?_, fun p hp _ => hp⟩
    · unfold hattrieIterPushchar
      rw [if_neg (Nat.not_lt_zero _)]
      rfl
    · rw [h.path_root]
      exact List.nil_prefix
    · rw [h.path_root]
      rfl
  | @child q t _ ht hkey =>
    have hnode := hpath (Nat.succ_ne_zero _) q t ht rfl rfl
    have hlen := hkey.length_le
    -- the block has room for one more character
    have hgrown : ∃ block, (if i.key.length < (path q).length + 1 then
        Block.realloc i.key (i.key.length * 2) else i.key) = block ∧ i.key <+: block ∧
          (path q).length + 1 ≤ block.length ∧ 16 ≤ block.length := by
      by_cases hfull : i.key.length < (path q).length + 1
      · obtain ⟨hkeep, hsize⟩ :=
          Block.prefix_realloc (s := i.key) (n := i.key.length * 2) (by omega)
        exact ⟨_, if_pos hfull, hkeep, by omega, by omega⟩
      · exact ⟨_, if_neg hfull, List.prefix_refl _, by omega, hroom⟩
    obtain ⟨block, hblock, hkeep, hfits, hsize⟩ := hgrown
    obtain ⟨key', hpoke, hlen', hbefore, hwrite⟩ :=
      Block.exists_poke (s := block) (path q).length [c]
        (by rw [List.length_singleton]; exact hfits)
    refine ⟨key', ?_, by omega, ?_, ?_, fun p hp hp' => ?_⟩
    · unfold hattrieIterPushchar
      simp only [hblock, Nat.succ_pos, if_true, Nat.add_sub_cancel, hpoke, Option.bind_eq_bind,
        Option.bind_some]
    · rw [hnode]
      exact hwrite _ (hkey.trans hkeep) rfl
    · rw [hnode, List.length_append, List.length_singleton]
    · exact hbefore p (hp.trans hkeep) (Nat.le_of_succ_le_succ hp')

/-! ## The next node -/

/-- The children are pushed one for each run. -/
theorem pushChildren_eq (xs : UInt8 → Addr) (level : Nat) (stack : List (UInt8 × Nat × Addr)) :
    pushChildren xs level stack = (lasts xs).map (fun j => (j, level, xs j)) ++ stack := by
  unfold pushChildren lasts
  induction chars with
  | nil => rfl
  | cons j cs ih =>
    have hiff : (j < nodeMaxchar ∧ xs j = xs (j + 1)) ↔ ¬ (j = 255 ∨ xs j ≠ xs (j + 1)) := by
      have hlt : j < nodeMaxchar ↔ j ≠ 255 := by
        constructor
        · rintro hlt rfl
          exact UInt8.lt_irrefl _ hlt
        · exact UInt8.lt_of_le_of_ne (UInt8.le_iff_toNat_le.mpr (Nat.le_of_lt_succ j.toNat_lt))
      rw [hlt, not_or, not_not]
    rw [List.foldr_cons, ih]
    by_cases hj : j = 255 ∨ xs j ≠ xs (j + 1)
    · rw [if_neg fun h => hiff.mp h hj, List.filter_cons_of_pos (by simpa using hj)]
      rfl
    · rw [if_pos (hiff.mpr hj), List.filter_cons_of_neg (by simpa using hj)]

/-- A trie node has its own value for an entry. -/
theorem ownEntries_trie (ht : T.cell a = some (.trie t)) :
    ownEntries T path sorted a = if t.hasVal then [(path a, t.val)] else [] := by
  rw [ownEntries, ht]

theorem ownEntries_bucket (hb : T.cell a = some (.bucket b)) :
    ownEntries T path sorted a = (listing b sorted).map fun e => (path a ++ e.1, e.2) := by
  rw [ownEntries, hb]

theorem entriesBelow_bucket (hb : T.cell a = some (.bucket b)) :
    entriesBelow T path sorted a = (listing b sorted).map fun e => (path a ++ e.1, e.2) := by
  unfold entriesBelow
  rw [gather_bucket hb, ownEntries_bucket hb]

/-- Below a trie node there are its value and the entries of its children. -/
theorem entriesBelow_trie (h : Ok T path) (ht : T.cell a = some (.trie t)) :
    entriesBelow T path sorted a =
      (if t.hasVal then [(path a, t.val)] else []) ++
        (lasts t.xs).flatMap fun c => entriesBelow T path sorted (t.xs c) := by
  unfold entriesBelow
  rw [gather_trie h ht, ownEntries_trie ht]

theorem nodes_trie (h : Ok T path) (ht : T.cell a = some (.trie t)) :
    nodes T path a = a :: (lasts t.xs).flatMap fun c => nodes T path (t.xs c) := by
  unfold nodes
  rw [gather_trie h ht]
  rfl

theorem stackNodes_cons (node : Addr) : stackNodes T path ((c, level, node) :: stack) =
    nodes T path node ++ stackNodes T path stack := rfl

/-- The children of a trie node are all that is still to be visited of it. -/
theorem stackNodes_pushChildren (h : Ok T path) (ht : T.cell a = some (.trie t)) (level : Nat)
    (stack : List (UInt8 × Nat × Addr)) :
    (stackNodes T path (pushChildren t.xs level stack)).length + 1 =
      (nodes T path a ++ stackNodes T path stack).length := by
  rw [pushChildren_eq, nodes_trie h ht, stackNodes, stackNodes, List.flatMap_append,
    List.flatMap_map, List.cons_append, List.length_cons]

theorem stackPart_pushChildren (h : Ok T path) (ht : T.cell a = some (.trie t)) (level : Nat)
    (stack : List (UInt8 × Nat × Addr)) :
    (if t.hasVal then [(path a, t.val)] else []) ++
        stackPart T path sorted (pushChildren t.xs level stack) =
      entriesBelow T path sorted a ++ stackPart T path sorted stack := by
  rw [pushChildren_eq, entriesBelow_trie h ht, stackPart, stackPart, List.flatMap_append,
    List.flatMap_map, List.append_assoc]

/-- Nothing on the stack is deeper than its top. -/
theorem StackOk.le_top {l : Nat} (h : StackOk T path l key ((c, level, node) :: stack)) :
    ∀ e ∈ stack, e.2.1 ≤ level := (List.pairwise_cons.mp h.levels).1

/-- The rest of the stack, when the key has been written up to the level of the top. -/
theorem StackOk.written {l : Nat} (h : StackOk T path l key ((c, level, node) :: stack))
    (hkeep : ∀ p, p <+: key → p.length + 1 ≤ level → p <+: key') :
    StackOk T path level key' stack := by
  refine ⟨fun e he => ?_, fun e he => Nat.le_succ_of_le (h.le_top e he),
    (List.pairwise_cons.mp h.levels).2⟩
  have hle := h.le_top e he
  cases h.pending e (List.mem_cons_of_mem _ he) with
  | root => exact .root
  | child ht hkey => exact .child ht (hkeep _ hkey hle)

/-- The children of the trie node that the key leads to may be pushed. -/
theorem StackOk.pushChildren (h : StackOk T path level key stack)
    (ht : T.cell a = some (.trie t)) (hkey : path a <+: key) (hlevel : (path a).length = level) :
    StackOk T path level key (pushChildren t.xs (level + 1) stack) := by
  rw [pushChildren_eq]
  refine ⟨?_, ?_, ?_⟩
  · intro e he
    rcases List.mem_append.mp he with he | he
    · obtain ⟨j, -, rfl⟩ := List.mem_map.mp he
      rw [← hlevel]
      exact .child ht hkey
    · exact h.pending e he
  · intro e he
    rcases List.mem_append.mp he with he | he
    · obtain ⟨j, -, rfl⟩ := List.mem_map.mp he
      exact Nat.le_refl _
    · exact h.below e he
  · rw [List.pairwise_append]
    refine ⟨?_, h.levels, ?_⟩
    · rw [List.pairwise_map]
      exact List.pairwise_of_forall fun _ _ => Nat.le_refl _
    · intro e he e' he'
      obtain ⟨j, -, rfl⟩ := List.mem_map.mp he
      exact h.below e' he'

/-- At a bucket the key is written up to its character, or left alone where the keys of the bucket
hold it. -/
theorem enterBucket_spec (h : Ok T path) (hb : T.cell node = some (.bucket b))
    (hroom : 16 ≤ i.key.length)
    (hstack : StackOk T path i.level i.key ((c, level, node) :: stack)) :
    ∃ key' level', enterBucket b { i with stack := stack } level c =
        some { i with key := key', level := level', stack := stack } ∧ 16 ≤ key'.length ∧
      path node <+: key' ∧ (path node).length = level' ∧ StackOk T path level' key' stack := by
  have hpending := hstack.pending _ List.mem_cons_self
  cases hpending with
  | root =>
    obtain ⟨t, ht⟩ := h.root
    rw [ht] at hb
    cases hb
  | @child q t _ ht hkey =>
    cases h.child q t ht c with
    | trie t' hcell =>
      rw [hcell] at hb
      cases hb
    | pure b₀ hcell _ hflag =>
      rw [hcell] at hb
      cases hb
      obtain ⟨key', hpush, hroom', hhere', hlen', hkeep⟩ :=
        pushchar_spec (i := { i with stack := stack }) h (.child ht hkey) hroom
          fun _ q' s hq hqc _ => (h.parent_pure hcell hflag hq hqc).1
      refine ⟨key', _, ?_, hroom', hhere', hlen', hstack.written hkeep⟩
      rw [enterBucket, isPure_of_pure hflag, if_pos rfl]
      exact hpush
    | hybrid b₀ hcell _ hflag _ _ _ _ hpath =>
      rw [hcell] at hb
      cases hb
      refine ⟨i.key, (path q).length, ?_, hroom, hpath ▸ hkey, by rw [hpath], ?_⟩
      · have hlevel : countSub ((path q).length + 1) 1 = (path q).length :=
          if_pos (Nat.succ_le_succ (Nat.zero_le _))
        rw [enterBucket, isPure_of_hybrid hflag, if_neg Bool.false_ne_true, hlevel]
      · exact ⟨fun e he => hstack.pending e (List.mem_cons_of_mem _ he), hstack.le_top,
          (List.pairwise_cons.mp hstack.levels).2⟩

/-- With nothing left of a node or a bucket, all that is ahead is on the stack. -/
theorem Walking.ahead_top (hw : Walking T path sorted p i es) (hnil : i.hasNilKey = false)
    (hi : i.i = none) (hs : i.stack = (c, level, node) :: stack) :
    es = entriesBelow T path sorted node ++ stackPart T path sorted stack := by
  obtain ⟨tes, htable, hes⟩ := hw.ahead
  obtain rfl := (tablePart_none hi).mp htable
  rw [hes, hs, nilPart, hnil]
  rfl

/-- The next node is a trie node: it has its value ahead, and its children are pushed. -/
theorem nextnode_trie (h : Ok T path) (hw : Walking T path sorted p i es)
    (hnil : i.hasNilKey = false) (hi : i.i = none) (hs : i.stack = (c, level, node) :: stack)
    (ht : T.cell node = some (.trie t)) :
    ∃ p' i', hattrieIterNextnode T i = some i' ∧ Walking T path sorted p' i' es ∧
      (i'.hasNilKey = true → i'.i = none) ∧
      (stackNodes T path i'.stack).length < (stackNodes T path i.stack).length := by
  have hstack := hw.stack
  rw [hs] at hstack
  have hfewer := stackNodes_pushChildren h ht (level + 1) stack
  have hvisit := hw.visit
  rw [hs, stackNodes_cons] at hvisit
  obtain ⟨key', hpush, hroom', hhere', hlen', hkeep⟩ :=
    pushchar_spec (i := { i with stack := stack }) h (hstack.pending _ List.mem_cons_self) hw.room
      fun _ q s hq hqc _ => by
        rcases h.path_child hq c with hpath | ⟨-, b, hb, -⟩
        · rw [← hqc]
          exact hpath
        · rw [hqc, ht] at hb
          cases hb
  refine ⟨path node, { i with
      key := key'
      level := level
      hasNilKey := t.hasVal
      nilVal := if t.hasVal then t.val else i.nilVal
      stack := pushChildren t.xs (level + 1) stack }, ?_, ⟨hw.order, hroom', hhere', hlen'.symm,
        (hstack.written hkeep).pushChildren ht hhere' hlen', ?_, [], ?_, ?_⟩, fun _ => hi, ?_⟩
  · unfold hattrieIterNextnode
    rw [hs]
    simp only [ht, hpush, Option.bind_eq_bind, Option.bind_some]
    cases t.hasVal
    · simp [hnil]
    · simp
  · show (stackNodes T path (pushChildren t.xs (level + 1) stack)).length ≤ T.next
    omega
  · exact (tablePart_none hi).mpr rfl
  · rw [hw.ahead_top hnil hi hs, ← stackPart_pushChildren h ht (level + 1)]
    show _ = nilPart (path node) _ ++ [] ++ stackPart T path sorted (pushChildren t.xs _ stack)
    rw [List.append_nil]
    congr 1
    unfold nilPart
    cases t.hasVal <;> rfl
  · show (stackNodes T path (pushChildren t.xs (level + 1) stack)).length < _
    rw [hs, stackNodes_cons]
    omega

/-- The next node is a bucket: its table is walked from the beginning. -/
theorem nextnode_bucket (h : Ok T path) (hw : Walking T path sorted p i es)
    (hnil : i.hasNilKey = false) (hi : i.i = none) (hs : i.stack = (c, level, node) :: stack)
    (hb : T.cell node = some (.bucket b)) :
    ∃ p' i', hattrieIterNextnode T i = some i' ∧ Walking T path sorted p' i' es ∧
      (i'.hasNilKey = true → i'.i = none) ∧
      (stackNodes T path i'.stack).length < (stackNodes T path i.stack).length := by
  have hstack := hw.stack
  rw [hs] at hstack
  have hvisit := hw.visit
  rw [hs, stackNodes_cons, nodes_bucket hb, List.length_append] at hvisit
  obtain ⟨key', level', hstep, hroom', hhere', hlen', hok⟩ := enterBucket_spec h hb hw.room hstack
  obtain ⟨rows, hrows, -⟩ := (h.bucket hb).1.rep
  obtain ⟨it, hbegin, hahead⟩ := iterBegin_spec hrows sorted
  refine ⟨path node, { i with
      key := key'
      level := level'
      i := some (node, it)
      stack := stack }, ?_, ⟨hw.order, hroom', hhere', hlen'.symm, hok, ?_, listing b sorted, ?_,
        ?_⟩, fun hnil' => ?_, ?_⟩
  · unfold hattrieIterNextnode
    rw [hs]
    have hbegin' : ahtableIterBegin b i.sorted = some it := by
      rw [hw.order]
      exact hbegin
    simp only [hb, hstep, hbegin', Option.bind_eq_bind, Option.bind_some]
  · exact Nat.le_trans (Nat.le_add_left _ _) hvisit
  · exact (tablePart_some rfl).mpr ⟨b, hb, hahead⟩
  · rw [hw.ahead_top hnil hi hs, entriesBelow_bucket hb, nilPart, hnil]
    rfl
  · rw [hnil] at hnil'
    cases hnil'
  · rw [hs, stackNodes_cons, nodes_bucket hb, List.length_append]
    exact Nat.lt_add_of_pos_left (Nat.succ_pos 0)

/-- **`hattrie_iter_nextnode`** goes on to the node on top of the stack. -/
theorem nextnode_spec (h : Ok T path) (hw : Walking T path sorted p i es)
    (hnil : i.hasNilKey = false) (hi : i.i = none) (hstack : i.stack ≠ []) :
    ∃ p' i', hattrieIterNextnode T i = some i' ∧ Walking T path sorted p' i' es ∧
      (i'.hasNilKey = true → i'.i = none) ∧
      (stackNodes T path i'.stack).length < (stackNodes T path i.stack).length := by
  cases hs : i.stack with
  | nil => exact absurd hs hstack
  | cons x rest =>
    obtain ⟨c, level, node⟩ := x
    have hnode : ∃ n, T.cell node = some n := by
      have hpending := hw.stack.pending (c, level, node) (hs ▸ List.mem_cons_self)
      cases hpending with
      | root =>
        obtain ⟨t, ht⟩ := h.root
        exact ⟨_, ht⟩
      | child ht _ => exact h.exists_child ht c
    obtain ⟨n, hn⟩ := hnode
    rw [← hs]
    cases n with
    | trie t => exact nextnode_trie h hw hnil hi hs hn
    | bucket b => exact nextnode_bucket h hw hnil hi hs hn

/-! ## Between two calls -/

/-- Where an iterator is between two calls: at the end, at a trie node, or in a bucket. -/
inductive Stop (T : Trie) (path : Addr → Bytes) (sorted : Bool) (p : Bytes) (i : HatIter) :
    List Entry → Prop where
  | done (hi : i.i = none) (hnil : i.hasNilKey = false) (hstack : i.stack = []) :
      Stop T path sorted p i []
  | node (hi : i.i = none) (hnil : i.hasNilKey = true) :
      Stop T path sorted p i ((p, i.nilVal) :: stackPart T path sorted i.stack)
  | table {node : Addr} {it : AhIter} {b : AhTable} {e : Entry} {tes : List Entry}
      (hi : i.i = some (node, it)) (hnil : i.hasNilKey = false)
      (hb : T.cell node = some (.bucket b)) (hahead : Ahead b it (e :: tes)) :
      Stop T path sorted p i ((p ++ e.1, e.2) ::
        ((tes.map fun e => (p ++ e.1, e.2)) ++ stackPart T path sorted i.stack))

/-- An iterator between two calls. -/
def Ready (T : Trie) (path : Addr → Bytes) (sorted : Bool) (i : HatIter) (es : List Entry) : Prop :=
  ∃ p, Walking T path sorted p i es ∧ Stop T path sorted p i es

theorem tableFinished_none (hi : i.i = none) : tableFinished T i = some true := by
  unfold tableFinished
  rw [hi]

/-- The inner iterator is at its end exactly where nothing is ahead. -/
theorem tableFinished_some {it : AhIter} (hi : i.i = some (node, it))
    (hb : T.cell node = some (.bucket b)) (hahead : Ahead b it es) :
    tableFinished T i = some (decide (es = [])) := by
  have hfin : ahtableIterFinished b it = decide (es = []) := by
    rw [Bool.eq_iff_iff, hahead.finished_iff, decide_eq_true_iff]
  unfold tableFinished
  rw [hi]
  simp only [bucketAt_eq_some.mpr hb, Option.map_some, hfin]

/-- What the loop of `hattrie_iter_continue` does in one round: it goes on to the next node, or
stops at an entry or at the end. -/
def Continues (T : Trie) (path : Addr → Bytes) (sorted : Bool) (es : List Entry) (i : HatIter) :
    Prop :=
  (∃ i', continueBody T i = some (.inl i') ∧ (∃ p, Walking T path sorted p i' es) ∧
    (i'.hasNilKey = true → i'.i = none) ∧
    (stackNodes T path i'.stack).length < (stackNodes T path i.stack).length) ∨
  (continueBody T i = some (.inr i) ∧ ∃ fin, tableFinished T i = some fin ∧
    Ready T path sorted (if fin then { i with i := none } else i) es)

/-- A round behind the last entry of a node. -/
theorem Walking.continue_empty (h : Ok T path)
    (hw : Walking T path sorted p { i with i := none } es) (hnil : i.hasNilKey = false)
    (hfin : tableFinished T i = some true) : Continues T path sorted es i := by
  by_cases hstack : i.stack = []
  · refine .inr ⟨?_, true, hfin, p, hw, ?_⟩
    · unfold continueBody
      simp only [hfin, Option.bind_eq_bind, Option.bind_some]
      rw [if_neg fun h => h.2.2 hstack]
    · obtain ⟨tes, htable, hes⟩ := hw.ahead
      obtain rfl := (tablePart_none rfl).mp htable
      have hnone : es = [] := by
        rw [hes, nilPart, hnil]
        show stackPart T path sorted i.stack = []
        rw [hstack]
        rfl
      rw [hnone]
      exact .done rfl hnil hstack
  · obtain ⟨p', i', hnext, hw', hexcl, hless⟩ := nextnode_spec h hw hnil rfl hstack
    refine .inl ⟨i', ?_, ⟨p', hw'⟩, hexcl, hless⟩
    unfold continueBody
    simp only [hfin, Option.bind_eq_bind, Option.bind_some]
    rw [if_pos ⟨trivial, hnil, hstack⟩, hnext]
    rfl

/-- **One round of `hattrie_iter_continue`.** -/
theorem Walking.continues (h : Ok T path) (hw : Walking T path sorted p i es)
    (hexcl : i.hasNilKey = true → i.i = none) : Continues T path sorted es i := by
  obtain ⟨tes, htable, hes⟩ := hw.ahead
  have hleave : tes = [] → Walking T path sorted p { i with i := none } es := by
    rintro rfl
    exact ⟨hw.order, hw.room, hw.here, hw.level, hw.stack, hw.visit, [],
      (tablePart_none rfl).mpr rfl, hes⟩
  cases hi : i.i with
  | none =>
    obtain rfl := (tablePart_none hi).mp htable
    have hfin : tableFinished T i = some true := tableFinished_none hi
    by_cases hnil : i.hasNilKey = true
    · refine .inr ⟨?_, true, hfin, p, hleave rfl, ?_⟩
      · unfold continueBody
        simp only [hfin, hnil, Bool.true_eq_false, false_and, and_false, if_false,
          Option.bind_eq_bind, Option.bind_some]
      · rw [hes, nilPart, if_pos hnil]
        exact .node rfl hnil
    · exact (hleave rfl).continue_empty h (Bool.eq_false_iff.mpr hnil) hfin
  | some at_ =>
    obtain ⟨node, it⟩ := at_
    have hnil : i.hasNilKey = false := by
      refine Bool.eq_false_iff.mpr fun hnil => ?_
      rw [hexcl hnil] at hi
      cases hi
    obtain ⟨b, hb, hahead⟩ := (tablePart_some hi).mp htable
    have hfin := tableFinished_some hi hb hahead
    cases tes with
    | nil => exact (hleave rfl).continue_empty h hnil hfin
    | cons e tes =>
      rw [decide_eq_false (List.cons_ne_nil e tes)] at hfin
      refine .inr ⟨?_, false, hfin, p, hw, ?_⟩
      · unfold continueBody
        simp only [hfin, Bool.false_eq_true, false_and, if_false, Option.bind_eq_bind,
          Option.bind_some]
      · rw [hes, nilPart, hnil]
        exact .table hi hnil hb hahead

/-- **`hattrie_iter_continue`** stops at the next entry. -/
theorem continue_spec (h : Ok T path) (hw : Walking T path sorted p i es)
    (hexcl : i.hasNilKey = true → i.i = none) :
    ∃ i', hattrieIterContinue T i = some i' ∧ Ready T path sorted i' es := by
  have hround : ∀ i : HatIter,
      (∃ p, Walking T path sorted p i es) ∧ (i.hasNilKey = true → i.i = none) →
      (∃ i', continueBody T i = some (.inl i') ∧
        ((∃ p, Walking T path sorted p i' es) ∧ (i'.hasNilKey = true → i'.i = none)) ∧
        (stackNodes T path i'.stack).length < (stackNodes T path i.stack).length) ∨
      ∃ i', continueBody T i = some (.inr i') ∧ ∃ fin, tableFinished T i' = some fin ∧
        Ready T path sorted (if fin then { i' with i := none } else i') es := by
    rintro i ⟨⟨p, hw⟩, hexcl⟩
    rcases hw.continues h hexcl with ⟨i', hbody, hw', hexcl', hless⟩ | ⟨hbody, hstop⟩
    · exact .inl ⟨i', hbody, ⟨hw', hexcl'⟩, hless⟩
    · exact .inr ⟨i, hbody, hstop⟩
  obtain ⟨i', hloop, fin, hfin, hready⟩ :=
    loop_ends _ _ (fun i : HatIter => (stackNodes T path i.stack).length) hround ⟨⟨p, hw⟩, hexcl⟩
      (Nat.lt_succ_of_le hw.visit)
  refine ⟨_, ?_, hready⟩
  unfold hattrieIterContinue
  simp only [hloop, hfin, Option.bind_eq_bind, Option.bind_some]
  cases fin <;> rfl

/-! ## The calls -/

/-- **`hattrie_iter_begin`**: all entries are ahead. -/
theorem iterBegin (h : Ok T path) (sorted : Bool) :
    ∃ i, hattrieIterBegin T sorted = some i ∧ Ready T path sorted i (entries T path sorted) := by
  refine continue_spec (p := []) h ⟨rfl, ?_, List.nil_prefix, rfl, ⟨?_, ?_, ?_⟩, ?_, [],
    (tablePart_none rfl).mpr rfl, ?_⟩ fun _ => rfl
  · exact Nat.le_of_eq (Block.length_alloc 16).symm
  · intro e he
    rw [List.mem_singleton.mp he]
    exact .root
  · intro e he
    rw [List.mem_singleton.mp he]
    exact Nat.zero_le _
  · exact List.pairwise_singleton _ _
  · show (nodes T path T.root ++ []).length ≤ T.next
    rw [List.append_nil]
    exact length_nodes_le h
  · show entries T path sorted = entriesBelow T path sorted T.root ++ []
    rw [List.append_nil]
    rfl

/-- **`hattrie_iter_finished`**. -/
theorem Ready.finished_iff (hr : Ready T path sorted i es) :
    hattrieIterFinished i = true ↔ es = [] := by
  obtain ⟨p, -, hstop⟩ := hr
  unfold hattrieIterFinished
  rw [decide_eq_true_iff]
  cases hstop with
  | done hi hnil hstack => exact iff_of_true ⟨hstack, hi, hnil⟩ rfl
  | node hi hnil =>
    refine iff_of_false (fun h => ?_) (List.cons_ne_nil _ _)
    rw [h.2.2] at hnil
    cases hnil
  | table hi hnil hb hahead =>
    refine iff_of_false (fun h => ?_) (List.cons_ne_nil _ _)
    rw [h.2.1] at hi
    cases hi

/-- The entry of the bucket that an iterator is in. -/
theorem tableEntry_eq {it : AhIter} (hi : i.i = some (node, it))
    (hb : T.cell node = some (.bucket b)) (hahead : Ahead b it (e :: es)) :
    tableEntry T i = some e := by
  unfold tableEntry
  rw [hi]
  simp only [bucketAt_eq_some.mpr hb, hahead.entry, Option.bind_eq_bind, Option.bind_some]

/-- **`hattrie_iter_val`**. -/
theorem Ready.val (hr : Ready T path sorted i (e :: es)) : hattrieIterVal T i = some e.2 := by
  obtain ⟨p, -, hstop⟩ := hr
  unfold hattrieIterVal
  cases hstop with
  | node hi hnil => rw [if_pos hnil]
  | table hi hnil hb hahead =>
    rw [hnil, if_neg Bool.false_ne_true, tableEntry_eq hi hb hahead]
    rfl

/-- **`hattrie_iter_next`**. -/
theorem Ready.next (h : Ok T path) (hr : Ready T path sorted i (e :: es)) :
    ∃ i', hattrieIterNext T i = some i' ∧ Ready T path sorted i' es := by
  have hmore : ¬ hattrieIterFinished i = true := fun hfin =>
    List.cons_ne_nil _ _ (hr.finished_iff.mp hfin)
  obtain ⟨p, hw, hstop⟩ := hr
  unfold hattrieIterNext
  rw [if_neg hmore]
  cases hstop with
  | node hi hnil =>
    -- the value of the trie node has been taken
    have hw' : Walking T path sorted p { i with hasNilKey := false, nilVal := 0 }
        (stackPart T path sorted i.stack) :=
      ⟨hw.order, hw.room, hw.here, hw.level, hw.stack, hw.visit, [], (tablePart_none hi).mpr rfl,
        rfl⟩
    have hnext : ∃ p' i',
        hattrieIterNextnode T { i with hasNilKey := false, nilVal := 0 } = some i' ∧
        Walking T path sorted p' i' (stackPart T path sorted i.stack) ∧
        (i'.hasNilKey = true → i'.i = none) := by
      by_cases hstack : i.stack = []
      · refine ⟨p, _, ?_, hw', fun _ => hi⟩
        unfold hattrieIterNextnode
        simp only [hstack]
      · obtain ⟨p', i', hnode, hw'', hexcl, -⟩ := nextnode_spec h hw' rfl hi hstack
        exact ⟨p', i', hnode, hw'', hexcl⟩
    obtain ⟨p', i', hnode, hw'', hexcl⟩ := hnext
    obtain ⟨i'', hcontinue, hr'⟩ := continue_spec h hw'' hexcl
    refine ⟨i'', ?_, hr'⟩
    simp only [tableFinished_none hi, Option.bind_eq_bind, Option.bind_some]
    rw [if_neg (by decide), if_pos hnil, hnode]
    exact hcontinue
  | @table node it b e tes hi hnil hb hahead =>
    obtain ⟨it', hnext, hahead'⟩ := hahead.next
    have hw' : Walking T path sorted p { i with i := some (node, it') }
        ((tes.map fun e => (p ++ e.1, e.2)) ++ stackPart T path sorted i.stack) := by
      refine ⟨hw.order, hw.room, hw.here, hw.level, hw.stack, hw.visit, tes,
        (tablePart_some rfl).mpr ⟨b, hb, hahead'⟩, ?_⟩
      rw [nilPart, hnil]
      rfl
    obtain ⟨i'', hcontinue, hr'⟩ := continue_spec h hw' fun h => by
      rw [hnil] at h
      cases h
    refine ⟨i'', ?_, hr'⟩
    have hfin := tableFinished_some hi hb hahead
    rw [decide_eq_false (List.cons_ne_nil _ _)] at hfin
    have htable : tableNext T i = some { i with i := some (node, it') } := by
      unfold tableNext
      rw [hi]
      simp only [bucketAt_eq_some.mpr hb, hnext, Option.bind_eq_bind, Option.bind_some]
    simp only [hfin, htable, hcontinue, if_true, Option.bind_eq_bind, Option.bind_some]

/-- Doubling reaches the size asked for. -/
theorem le_doubled (desired fuel : Nat) {n : Nat} (hn : 0 < n) (hfuel : desired ≤ n + fuel) :
    desired ≤ doubled desired fuel n ∧ n ≤ doubled desired fuel n := by
  induction fuel generalizing n with
  | zero => exact ⟨hfuel, Nat.le_refl _⟩
  | succ fuel ih =>
    rw [doubled]
    split
    · obtain ⟨hlo, hhi⟩ := ih (n := n * 2) (by omega) (by omega)
      exact ⟨hlo, by omega⟩
    · exact ⟨by omega, Nat.le_refl _⟩

/-- Changing the block of the key behind the current node. -/
theorem Ready.setKey (hr : Ready T path sorted i es) (hroom : 16 ≤ key'.length)
    (hkeep : ∀ p, p <+: i.key → p.length ≤ i.level → p <+: key') :
    Ready T path sorted { i with key := key' } es := by
  obtain ⟨p, hw, hstop⟩ := hr
  obtain ⟨tes, htable, hes⟩ := hw.ahead
  refine ⟨p, ⟨hw.order, hroom, hkeep p hw.here (Nat.le_of_eq hw.level.symm), hw.level,
    hw.stack.mono hkeep, hw.visit, tes, htable, hes⟩, ?_⟩
  cases hstop with
  | done hi hnil hstack => exact .done hi hnil hstack
  | node hi hnil => exact .node (i := { i with key := key' }) hi hnil
  | table hi hnil hb hahead => exact .table (i := { i with key := key' }) hi hnil hb hahead

/-- **`hattrie_iter_key`** returns the key and goes on to stand where it stood. -/
theorem Ready.exists_key (hr : Ready T path sorted i (e :: es)) :
    ∃ i', hattrieIterKey T i = some (i', e.1) ∧ Ready T path sorted i' (e :: es) := by
  -- the rest of the key that is not in the block yet
  have hsub : ∃ p sub, p <+: i.key ∧ p.length = i.level ∧ e.1 = p ++ sub ∧
      iterSubkey T i = some sub := by
    unfold iterSubkey
    obtain ⟨p, hw, hstop⟩ := hr
    cases hstop with
    | node hi hnil => exact ⟨p, [], hw.here, hw.level.symm, (List.append_nil p).symm, if_pos hnil⟩
    | @table node it b e tes hi hnil hb hahead =>
      refine ⟨p, e.1, hw.here, hw.level.symm, rfl, ?_⟩
      rw [hnil, if_neg Bool.false_ne_true, tableEntry_eq hi hb hahead]
      rfl
  obtain ⟨p, sub, hp, hlen, hkey, hsub⟩ := hsub
  have hroom : 16 ≤ i.key.length := hr.choose_spec.1.room
  have hgrown : ∃ block, (if i.key.length < i.level + sub.length + 1 then
      Block.realloc i.key (doubled (i.level + sub.length + 1) (i.level + sub.length + 1)
        i.key.length) else i.key) = block ∧ i.key <+: block ∧
      i.level + sub.length + 1 ≤ block.length ∧ 16 ≤ block.length := by
    by_cases hfull : i.key.length < i.level + sub.length + 1
    · obtain ⟨hlo, hhi⟩ := le_doubled (i.level + sub.length + 1)
        (i.level + sub.length + 1) (n := i.key.length) (by omega) (by omega)
      obtain ⟨hkeep, hsize⟩ := Block.prefix_realloc (s := i.key) hhi
      exact ⟨_, if_pos hfull, hkeep, by omega, by omega⟩
    · exact ⟨_, if_neg hfull, List.prefix_refl _, by omega, hroom⟩
  obtain ⟨block, hblock, hkeep, hfits, hsize⟩ := hgrown
  obtain ⟨key₁, hpoke₁, hlen₁, hbefore₁, hwrite₁⟩ :=
    Block.exists_poke (s := block) i.level sub (by omega)
  obtain ⟨key₂, hpoke₂, hlen₂, hbefore₂, -⟩ :=
    Block.exists_poke (s := key₁) (i.level + sub.length) [0]
      (by rw [List.length_singleton]; omega)
  have hout : p ++ sub <+: key₂ := by
    refine hbefore₂ _ (hwrite₁ p (hp.trans hkeep) hlen) ?_
    rw [List.length_append, hlen]
  have hpeek := Block.peek_prefix (n := i.level + sub.length) hout
    (by rw [List.length_append, hlen])
  refine ⟨{ i with key := key₂ }, ?_, hr.setKey (by omega) fun q hq hqlen => ?_⟩
  · unfold hattrieIterKey
    simp only [hsub, hblock, hpoke₁, hpoke₂, hpeek, hkey, Option.bind_eq_bind, Option.bind_some]
  · exact hbefore₂ q (hbefore₁ q (hq.trans hkeep) hqlen) (Nat.le_add_right_of_le hqlen)

end

end Ayubd.HatTrie
