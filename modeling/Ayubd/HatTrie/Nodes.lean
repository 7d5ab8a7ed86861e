import Ayubd.HatTrie.SplitHybrid
import Mathlib.Data.Finset.Card

/-!
# Ayubd — the nodes of a hat-trie

Iterating over a hat-trie and freeing it both go down from the root, and follow the pointers of a
trie node once for each node they lead to. `Covers` says this of a list of characters, whichever end
of a run of equal pointers the loop takes. Trie nodes are not deeper than there are nodes
(`Ok.length_path_lt`), so that what is said of a node may be shown from what is said of the nodes
below it (`Ok.below`), and `gather` may collect something from all of them.
-/

namespace Ayubd.HatTrie

section
variable {T : Trie} {path : Addr → Bytes} {a x : Addr} {t : TrieNode} {c d : UInt8}

/-! ## Depth -/

/-- Above a trie node there is one of every smaller depth. -/
theorem Ok.exists_above (h : Ok T path) (ht : T.cell a = some (.trie t)) {n : Nat}
    (hn : n ≤ (path a).length) : ∃ q s, T.cell q = some (.trie s) ∧ (path q).length = n := by
  obtain ⟨k, hk⟩ := Nat.exists_eq_add_of_le hn
  induction k generalizing a t with
  | zero => exact ⟨a, t, ht, hk⟩
  | succ k ih =>
    rcases h.owned a _ ht with rfl | ⟨q, s, c, hq, rfl⟩
    · rw [h.path_root, List.length_nil] at hk
      omega
    · cases h.child q s hq c with
      | trie t' _ hpath =>
        rw [hpath, List.length_append, List.length_singleton] at hk
        exact ih hq (by omega) (by omega)
      | pure b hcell =>
        rw [hcell] at ht
        cases ht
      | hybrid b hcell =>
        rw [hcell] at ht
        cases ht

/-- **A trie node is not deeper than there are nodes.** -/
theorem Ok.length_path_lt (h : Ok T path) (ht : T.cell a = some (.trie t)) :
    (path a).length < T.next := by
  have hex : ∀ n : Fin ((path a).length + 1), ∃ q, (∃ s, T.cell q = some (.trie s)) ∧
      (path q).length = n := by
    intro n
    obtain ⟨q, s, hq, hlen⟩ := h.exists_above ht (Nat.le_of_lt_succ n.isLt)
    exact ⟨q, ⟨s, hq⟩, hlen⟩
  choose at_ hat using hex
  have hlt : ∀ n, at_ n < T.next := by
    intro n
    obtain ⟨⟨s, hs⟩, -⟩ := hat n
    by_contra hge
    rw [h.fresh _ (Nat.le_of_not_lt hge)] at hs
    cases hs
  have hinj : Function.Injective fun n => (⟨at_ n, hlt n⟩ : Fin T.next) := by
    intro m n hmn
    have heq : at_ m = at_ n := congrArg Fin.val hmn
    apply Fin.ext
    rw [← (hat m).2, ← (hat n).2, heq]
  have hcard := Fintype.card_le_of_injective _ hinj
  rw [Fintype.card_fin, Fintype.card_fin] at hcard
  exact hcard

/-- **Induction over the nodes, from the buckets up.** -/
theorem Ok.below (h : Ok T path) {Q : Addr → Prop}
    (hbucket : ∀ a b, T.cell a = some (.bucket b) → Q a)
    (htrie : ∀ a t, T.cell a = some (.trie t) → (∀ c, Q (t.xs c)) → Q a) {n : Node}
    (hn : T.cell a = some n) : Q a := by
  cases n with
  | bucket b => exact hbucket a b hn
  | trie t =>
    obtain ⟨k, hk⟩ := Nat.exists_eq_add_of_lt (h.length_path_lt hn)
    induction k generalizing a t with
    | zero =>
      refine htrie a t hn fun c => ?_
      cases h.child a t hn c with
      | trie t' hcell hpath =>
        have hlt := h.length_path_lt hcell
        rw [hpath, List.length_append, List.length_singleton] at hlt
        omega
      | pure b hcell => exact hbucket _ b hcell
      | hybrid b hcell => exact hbucket _ b hcell
    | succ k ih =>
      refine htrie a t hn fun c => ?_
      cases h.child a t hn c with
      | trie t' hcell hpath =>
        refine ih t' hcell ?_
        rw [hpath, List.length_append, List.length_singleton]
        omega
      | pure b hcell => exact hbucket _ b hcell
      | hybrid b hcell => exact hbucket _ b hcell

/-! ## Pointers -/

/-- What a pointer leads to has one character more, or is a hybrid bucket. -/
theorem Ok.path_child (h : Ok T path) (ht : T.cell a = some (.trie t)) (c : UInt8) :
    path (t.xs c) = path a ++ [c] ∨
      path (t.xs c) = path a ∧ ∃ b, T.cell (t.xs c) = some (.bucket b) ∧ b.c0 ≤ c ∧ c ≤ b.c1 ∧
        b.flag = nodeTypeHybridBucket ∧ ∀ d, b.c0 ≤ d → d ≤ b.c1 → t.xs d = t.xs c := by
  cases h.child a t ht c with
  | trie t' _ hpath => exact .inl hpath
  | pure b _ _ _ _ _ hpath => exact .inl hpath
  | hybrid b hcell _ hflag hlo hhi _ _ hpath hrange =>
    exact .inr ⟨hpath, b, hcell, hlo, hhi, hflag, hrange⟩

/-- The pointers that are equal to one pointer are those of a range. -/
def Runs (xs : UInt8 → Addr) : Prop :=
  ∀ c, ∃ lo hi, lo ≤ c ∧ c ≤ hi ∧ ∀ d, xs d = xs c ↔ lo ≤ d ∧ d ≤ hi

/-- The children of a trie node are runs of one pointer. -/
theorem Ok.runs (h : Ok T path) (ht : T.cell a = some (.trie t)) : Runs t.xs := by
  intro c
  rcases h.path_child ht c with hc | ⟨hc, b, hb, hlo, hhi, hflag, hrange⟩
  · refine ⟨c, c, UInt8.le_refl _, UInt8.le_refl _, fun d => ⟨fun hxs => ?_, fun hd => ?_⟩⟩
    · rcases h.path_child ht d with hd | ⟨hd, -⟩
      · rw [hxs, hc] at hd
        obtain rfl := (List.cons.inj (List.append_cancel_left hd)).1
        exact ⟨UInt8.le_refl _, UInt8.le_refl _⟩
      · rw [hxs, hc] at hd
        have hlen := congrArg List.length hd
        rw [List.length_append, List.length_singleton] at hlen
        omega
    · rw [UInt8.le_antisymm hd.2 hd.1]
  · refine ⟨b.c0, b.c1, hlo, hhi, fun d => ⟨fun hxs => ?_, fun hd => hrange d hd.1 hd.2⟩⟩
    obtain ⟨-, hlo', hhi', -⟩ := h.parent_hybrid hb hflag ht hxs
    exact ⟨hlo', hhi'⟩

/-- A list of characters with one for every node that the pointers lead to, in order. -/
structure Covers (xs : UInt8 → Addr) (cs : List UInt8) : Prop where
  sorted : cs.Pairwise (· < ·)
  inj : ∀ c ∈ cs, ∀ d ∈ cs, xs c = xs d → c = d
  cover : ∀ c, ∃ d ∈ cs, xs d = xs c

def chars : List UInt8 := (List.range 256).map UInt8.ofNat

theorem mem_chars (c : UInt8) : c ∈ chars :=
  List.mem_map.mpr ⟨c.toNat, List.mem_range.mpr c.toNat_lt, UInt8.ofNat_toNat⟩

theorem sorted_chars : chars.Pairwise (· < ·) := by
  refine List.pairwise_map.mpr (List.Pairwise.imp_of_mem ?_ List.pairwise_lt_range)
  intro i j hi hj hij
  rw [List.mem_range] at hi hj
  rw [UInt8.lt_iff_toNat_lt, UInt8.toNat_ofNat', UInt8.toNat_ofNat', Nat.mod_eq_of_lt hi,
    Nat.mod_eq_of_lt hj]
  exact hij

/-- The last character of every run of equal pointers. -/
def lasts (xs : UInt8 → Addr) : List UInt8 := chars.filter fun j => j = 255 ∨ xs j ≠ xs (j + 1)

/-- The first character of every run of equal pointers. -/
def firsts (xs : UInt8 → Addr) : List UInt8 := chars.filter fun j => j = 0 ∨ xs j ≠ xs (j - 1)

/-- A list that has one end of every run. -/
theorem covers_of_ends {xs : UInt8 → Addr} {p : UInt8 → Bool}
    (hends : ∀ c, ∃ e, xs e = xs c ∧ ∀ d, xs d = xs c → (p d = true ↔ d = e)) :
    Covers xs (chars.filter p) := by
  refine ⟨sorted_chars.sublist List.filter_sublist, ?_, ?_⟩
  · intro c hc d hd hcd
    obtain ⟨e, -, he⟩ := hends d
    rw [(he c hcd).mp (List.mem_filter.mp hc).2, (he d rfl).mp (List.mem_filter.mp hd).2]
  · intro c
    obtain ⟨e, hec, he⟩ := hends c
    exact ⟨e, List.mem_filter.mpr ⟨mem_chars e, (he e hec).mpr rfl⟩, hec⟩

/-- Every child is met at the last byte of its run. -/
theorem Runs.covers_lasts {xs : UInt8 → Addr} (h : Runs xs) : Covers xs (lasts xs) := by
  refine covers_of_ends fun c => ?_
  obtain ⟨lo, hi, hlo, hhi, hrun⟩ := h c
  refine ⟨hi, (hrun hi).mpr ⟨UInt8.le_trans hlo hhi, UInt8.le_refl _⟩, fun d hd => ?_⟩
  obtain ⟨hlod, hdhi⟩ := (hrun d).mp hd
  rw [decide_eq_true_iff]
  constructor
  · intro hlast
    refine UInt8.le_antisymm hdhi (UInt8.not_lt.mp fun hlt => ?_)
    rcases hlast with rfl | hne
    · exact UInt8.not_lt.mpr (UInt8.le_iff_toNat_le.mpr (Nat.le_of_lt_succ hi.toNat_lt)) hlt
    · refine hne ?_
      rw [hd]
      exact ((hrun (d + 1)).mpr ⟨UInt8.le_trans hlod (UInt8.le_of_lt ((succ_le_iff hlt).mp
        (UInt8.le_refl _))), (succ_le_iff hlt).mpr hlt⟩).symm
  · rintro rfl
    refine Decidable.or_iff_not_imp_left.mpr fun hne heq => ?_
    have hlt : d < 255 :=
      UInt8.lt_of_le_of_ne (UInt8.le_iff_toNat_le.mpr (Nat.le_of_lt_succ d.toNat_lt)) hne
    -- the run would go on
    obtain ⟨-, hle⟩ := (hrun (d + 1)).mp (heq.symm.trans hd)
    exact UInt8.not_lt.mpr hle ((succ_le_iff hlt).mp (UInt8.le_refl _))

theorem pred_succ {d : UInt8} (h : d ≠ 0) : d - 1 < d ∧ d - 1 + 1 = d := by
  have hpos : 0 < d.toNat := Nat.pos_of_ne_zero fun heq => h (UInt8.toNat_inj.mp heq)
  refine ⟨?_, UInt8.sub_add_cancel d 1⟩
  rw [UInt8.lt_iff_toNat_lt, UInt8.toNat_sub_of_le d 1 (UInt8.le_iff_toNat_le.mpr hpos)]
  exact Nat.sub_lt hpos (by decide)

/-- Every child is met at the first byte of its run. -/
theorem Runs.covers_firsts {xs : UInt8 → Addr} (h : Runs xs) : Covers xs (firsts xs) := by
  refine covers_of_ends fun c => ?_
  obtain ⟨lo, hi, hlo, hhi, hrun⟩ := h c
  refine ⟨lo, (hrun lo).mpr ⟨UInt8.le_refl _, UInt8.le_trans hlo hhi⟩, fun d hd => ?_⟩
  obtain ⟨hlod, hdhi⟩ := (hrun d).mp hd
  rw [decide_eq_true_iff]
  constructor
  · intro hfirst
    refine UInt8.le_antisymm (UInt8.not_lt.mp fun hlt => ?_) hlod
    rcases hfirst with rfl | hne
    · exact UInt8.not_lt.mpr (UInt8.le_iff_toNat_le.mpr (Nat.zero_le _)) hlt
    · have hd0 : d ≠ 0 := by
        rintro rfl
        exact UInt8.not_lt.mpr (UInt8.le_iff_toNat_le.mpr (Nat.zero_le _)) hlt
      obtain ⟨hpred, hsucc⟩ := pred_succ hd0
      refine hne ?_
      rw [hd]
      refine ((hrun (d - 1)).mpr ⟨?_, UInt8.le_trans (UInt8.le_of_lt hpred) hdhi⟩).symm
      refine UInt8.not_lt.mp fun hlt' => UInt8.not_lt.mpr ?_ hlt
      rw [← hsucc]
      exact (succ_le_iff hlt').mpr hlt'
  · rintro rfl
    refine Decidable.or_iff_not_imp_left.mpr fun hne heq => ?_
    obtain ⟨hpred, -⟩ := pred_succ hne
    obtain ⟨hle, -⟩ := (hrun (d - 1)).mp (heq.symm.trans hd)
    exact UInt8.not_lt.mpr hle hpred

end

/-! ## The nodes below a node -/

section
variable {α : Type} {T : Trie} {path : Addr → Bytes} {a x y : Addr} {t : TrieNode} {b : AhTable}
  {c d : UInt8} {f : Addr → List α}

/-- Collect `f` from a node and the nodes below it, to some depth. -/
def gatherFrom (T : Trie) (f : Addr → List α) : Nat → Addr → List α
  | 0, a => f a
  | depth + 1, a =>
    match T.trieAt a with
    | some t => f a ++ (lasts t.xs).flatMap fun c => gatherFrom T f depth (t.xs c)
    | none => f a

/-- Collect `f` from a node and all nodes below it. -/
def gather (T : Trie) (path : Addr → Bytes) (f : Addr → List α) (a : Addr) : List α :=
  gatherFrom T f (T.next - (path a).length) a

theorem gatherFrom_bucket (hb : T.cell a = some (.bucket b)) (depth : Nat) :
    gatherFrom T f depth a = f a := by
  have hnone : T.trieAt a = none := by
    unfold Trie.trieAt
    rw [hb]
  cases depth with
  | zero => rfl
  | succ depth =>
    rw [gatherFrom, hnone]

theorem gather_bucket (hb : T.cell a = some (.bucket b)) : gather T path f a = f a :=
  gatherFrom_bucket hb _

/-- Below a trie node there is the node, then what is below its children. -/
theorem gather_trie (h : Ok T path) (ht : T.cell a = some (.trie t)) :
    gather T path f a = f a ++ (lasts t.xs).flatMap fun c => gather T path f (t.xs c) := by
  obtain ⟨k, hk⟩ := Nat.exists_eq_add_of_lt (h.length_path_lt ht)
  have hdepth : T.next - (path a).length = k + 1 := by
    rw [hk, Nat.add_assoc, Nat.add_sub_cancel_left]
  have hbelow : ∀ c, gatherFrom T f k (t.xs c) = gather T path f (t.xs c) := by
    intro c
    cases h.child a t ht c with
    | trie t' hcell hpath =>
      have hsame : T.next - (path (t.xs c)).length = k := by
        rw [hpath, List.length_append, List.length_singleton]
        exact Nat.sub_eq_of_eq_add (hk.trans (by omega))
      unfold gather
      rw [hsame]
    | pure b hcell => exact (gatherFrom_bucket hcell k).trans (gather_bucket hcell).symm
    | hybrid b hcell => exact (gatherFrom_bucket hcell k).trans (gather_bucket hcell).symm
  unfold gather
  rw [hdepth, gatherFrom, trieAt_eq_some.mpr ht]
  show f a ++ (lasts t.xs).flatMap (fun c => gatherFrom T f k (t.xs c)) = _
  rw [funext hbelow]
  rfl

/-- A node and the nodes below it, from left to right. -/
def nodes (T : Trie) (path : Addr → Bytes) (a : Addr) : List Addr := gather T path (fun a => [a]) a

theorem nodes_bucket (hb : T.cell a = some (.bucket b)) : nodes T path a = [a] := gather_bucket hb

/-- A node below a trie node is that node or below a child. -/
theorem mem_nodes_trie (h : Ok T path) (ht : T.cell a = some (.trie t)) :
    x ∈ nodes T path a ↔ x = a ∨ ∃ c, x ∈ nodes T path (t.xs c) := by
  unfold nodes
  rw [gather_trie h ht, List.mem_append, List.mem_singleton, List.mem_flatMap]
  refine or_congr_right ⟨fun ⟨c, _, hc⟩ => ⟨c, hc⟩, fun ⟨c, hc⟩ => ?_⟩
  obtain ⟨d, hd, hxs⟩ := (h.runs ht).covers_lasts.cover c
  exact ⟨d, hd, hxs ▸ hc⟩

theorem mem_nodes_self (h : Ok T path) {n : Node} (hn : T.cell a = some n) :
    a ∈ nodes T path a := by
  cases n with
  | trie t => exact (mem_nodes_trie h hn).mpr (.inl rfl)
  | bucket b =>
    rw [nodes_bucket hn]
    exact List.mem_singleton_self a

/-- What is collected comes from one of the nodes. -/
theorem mem_gather (h : Ok T path) {n : Node} (hn : T.cell a = some n) {v : α} :
    v ∈ gather T path f a ↔ ∃ x ∈ nodes T path a, v ∈ f x := by
  refine h.below (Q := fun a => v ∈ gather T path f a ↔ ∃ x ∈ nodes T path a, v ∈ f x) ?_ ?_ hn
  · intro a b hb
    rw [gather_bucket hb, nodes_bucket hb]
    simp
  · intro a t ht ih
    rw [gather_trie h ht, List.mem_append, List.mem_flatMap]
    simp only [mem_nodes_trie h ht, ih]
    constructor
    · rintro (ha | ⟨c, -, x, hx, hv⟩)
      · exact ⟨a, .inl rfl, ha⟩
      · exact ⟨x, .inr ⟨c, hx⟩, hv⟩
    · rintro ⟨x, rfl | ⟨c, hx⟩, hv⟩
      · exact .inl hv
      · obtain ⟨d, hd, hxs⟩ := (h.runs ht).covers_lasts.cover c
        exact .inr ⟨d, hd, x, hxs ▸ hx, hv⟩

/-- The nodes below a node have longer paths. -/
theorem path_of_mem_nodes (h : Ok T path) {n : Node} (hn : T.cell a = some n)
    (hx : x ∈ nodes T path a) : ∃ s, path x = path a ++ s := by
  revert hx
  refine h.below (Q := fun a => x ∈ nodes T path a → ∃ s, path x = path a ++ s) ?_ ?_ hn
  · intro a b hb hx
    rw [nodes_bucket hb, List.mem_singleton] at hx
    exact ⟨[], by rw [hx, List.append_nil]⟩
  · intro a t ht ih hx
    rcases (mem_nodes_trie h ht).mp hx with rfl | ⟨c, hc⟩
    · exact ⟨[], by rw [List.append_nil]⟩
    · obtain ⟨s, hs⟩ := ih c hc
      rcases h.path_child ht c with hpath | ⟨hpath, -⟩
      · exact ⟨c :: s, by rw [hs, hpath, List.append_assoc, List.singleton_append]⟩
      · exact ⟨s, by rw [hs, hpath]⟩

/-- Below a pointer are the nodes behind its character, or it is a bucket by itself. -/
theorem below_child (h : Ok T path) (ht : T.cell a = some (.trie t))
    (hx : x ∈ nodes T path (t.xs c)) :
    (∃ s, path x = path a ++ c :: s) ∨
      x = t.xs c ∧ path x = path a ∧ ∃ b, T.cell x = some (.bucket b) := by
  rcases h.path_child ht c with hpath | ⟨hpath, b, hb, -⟩
  · obtain ⟨n, hn⟩ := h.exists_child ht c
    obtain ⟨s, hs⟩ := path_of_mem_nodes h hn hx
    exact .inl ⟨s, by rw [hs, hpath, List.append_assoc, List.singleton_append]⟩
  · rw [nodes_bucket hb, List.mem_singleton] at hx
    subst hx
    exact .inr ⟨rfl, hpath, b, hb⟩

/-- A node is not below itself. -/
theorem not_mem_nodes_child (h : Ok T path) (ht : T.cell a = some (.trie t)) (c : UInt8) :
    a ∉ nodes T path (t.xs c) := by
  intro ha
  rcases below_child h ht ha with ⟨s, hs⟩ | ⟨-, -, b, hb⟩
  · have hlen := congrArg List.length hs
    rw [List.length_append, List.length_cons] at hlen
    omega
  · rw [ht] at hb
    cases hb

/-- **Nodes that are below two pointers of a trie node** are below the same one. -/
theorem nodes_disjoint (h : Ok T path) (ht : T.cell a = some (.trie t))
    (hc : x ∈ nodes T path (t.xs c)) (hd : x ∈ nodes T path (t.xs d)) : t.xs c = t.xs d := by
  have hne : ∀ {s}, path x = path a ++ c :: s → path x ≠ path a := by
    intro s hs heq
    have hlen := congrArg List.length (hs.symm.trans heq)
    rw [List.length_append, List.length_cons] at hlen
    omega
  have hne' : ∀ {s}, path x = path a ++ d :: s → path x ≠ path a := by
    intro s hs heq
    have hlen := congrArg List.length (hs.symm.trans heq)
    rw [List.length_append, List.length_cons] at hlen
    omega
  rcases below_child h ht hc with ⟨s, hs⟩ | ⟨hxc, hpath, -⟩
  · rcases below_child h ht hd with ⟨s', hs'⟩ | ⟨-, hpath', -⟩
    · rw [hs] at hs'
      rw [(List.cons.inj (List.append_cancel_left hs')).1]
    · exact absurd hpath' (hne hs)
  · rcases below_child h ht hd with ⟨s', hs'⟩ | ⟨hxd, -⟩
    · exact absurd hpath (hne' hs')
    · exact hxc.symm.trans hxd

/-- **No node is met twice.** -/
theorem nodup_nodes (h : Ok T path) {n : Node} (hn : T.cell a = some n) :
    (nodes T path a).Nodup := by
  refine h.below (Q := fun a => (nodes T path a).Nodup) ?_ ?_ hn
  · intro a b hb
    rw [nodes_bucket hb]
    exact List.nodup_singleton a
  · intro a t ht ih
    have hcovers := (h.runs ht).covers_lasts
    unfold nodes
    rw [gather_trie h ht, List.singleton_append, List.nodup_cons, List.nodup_flatMap]
    refine ⟨?_, fun c _ => ih c, ?_⟩
    · rw [List.mem_flatMap]
      rintro ⟨c, -, ha⟩
      exact not_mem_nodes_child h ht c ha
    · refine hcovers.sorted.imp_of_mem ?_
      intro c d hc hd hlt x hxc hxd
      have hsame := hcovers.inj c hc d hd (nodes_disjoint h ht hxc hxd)
      rw [hsame] at hlt
      exact UInt8.lt_irrefl _ hlt

theorem exists_of_mem_nodes (h : Ok T path) {n : Node} (hn : T.cell a = some n)
    (hx : x ∈ nodes T path a) : ∃ n, T.cell x = some n := by
  revert hx
  refine h.below (Q := fun a => x ∈ nodes T path a → ∃ n, T.cell x = some n) ?_ ?_ hn
  · intro a b hb hx
    rw [nodes_bucket hb, List.mem_singleton] at hx
    exact ⟨_, hx ▸ hb⟩
  · intro a t ht ih hx
    rcases (mem_nodes_trie h ht).mp hx with rfl | ⟨c, hc⟩
    · exact ⟨_, ht⟩
    · exact ih c hc

/-- The children of a node below are below. -/
theorem mem_nodes_child (h : Ok T path) {n : Node} (hn : T.cell a = some n)
    (hx : x ∈ nodes T path a) (ht : T.cell x = some (.trie t)) (c : UInt8) :
    t.xs c ∈ nodes T path a := by
  revert hx
  refine h.below (Q := fun a => x ∈ nodes T path a → t.xs c ∈ nodes T path a) ?_ ?_ hn
  · intro a b hb hx
    rw [nodes_bucket hb, List.mem_singleton] at hx
    rw [← hx, ht] at hb
    cases hb
  · intro a s hs ih hx
    refine (mem_nodes_trie h hs).mpr (.inr ?_)
    rcases (mem_nodes_trie h hs).mp hx with rfl | ⟨d, hd⟩
    · rw [ht] at hs
      cases hs
      obtain ⟨n', hn'⟩ := h.exists_child ht c
      exact ⟨c, mem_nodes_self h hn'⟩
    · exact ⟨d, ih d hd⟩

/-- **Every node is below the root.** -/
theorem mem_nodes_root (h : Ok T path) {n : Node} (hn : T.cell x = some n) :
    x ∈ nodes T path T.root := by
  obtain ⟨t₀, ht₀⟩ := h.root
  have htrie : ∀ k x t, T.cell x = some (.trie t) → (path x).length = k →
      x ∈ nodes T path T.root := by
    intro k
    induction k with
    | zero =>
      intro x t ht hk
      rcases h.owned x _ ht with rfl | ⟨q, s, c, hq, rfl⟩
      · exact mem_nodes_self h ht₀
      · rcases h.path_child hq c with hpath | ⟨-, b, hb, -⟩
        · rw [hpath, List.length_append, List.length_singleton] at hk
          omega
        · rw [ht] at hb
          cases hb
    | succ k ih =>
      intro x t ht hk
      rcases h.owned x _ ht with rfl | ⟨q, s, c, hq, rfl⟩
      · exact mem_nodes_self h ht₀
      · rcases h.path_child hq c with hpath | ⟨-, b, hb, -⟩
        · rw [hpath, List.length_append, List.length_singleton] at hk
          exact mem_nodes_child h ht₀ (ih q s hq (by omega)) hq c
        · rw [ht] at hb
          cases hb
  rcases h.owned x n hn with rfl | ⟨q, s, c, hq, rfl⟩
  · exact mem_nodes_self h ht₀
  · exact mem_nodes_child h ht₀ (htrie _ q s hq rfl) hq c

/-- There are no more nodes than were ever allocated. -/
theorem length_nodes_le (h : Ok T path) : (nodes T path T.root).length ≤ T.next := by
  obtain ⟨t₀, ht₀⟩ := h.root
  have hsub : nodes T path T.root ⊆ List.range T.next := by
    intro x hx
    obtain ⟨n, hn⟩ := exists_of_mem_nodes h ht₀ hx
    exact List.mem_range.mpr (h.lt_next hn)
  have hlen := ((nodup_nodes h ht₀).subperm hsub).length_le
  rwa [List.length_range] at hlen

end

end Ayubd.HatTrie
