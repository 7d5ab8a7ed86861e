import Ayubd.Base.Buffer

/-!
# Ayubd — allocated blocks

A block is the bytes between its first and its last one, and every access says where. An access
that leaves the block has no result, so a program that has a result has stayed inside. Words lie
in memory with their low byte first.
-/

namespace Ayubd

namespace Block

def peek (b : Bytes) (off n : Nat) : Option Bytes :=
  if off + n ≤ b.length then some ((b.drop off).take n) else none

/-- `memcpy(b + off, bs, |bs|)`. -/
def poke (b : Bytes) (off : Nat) (bs : Bytes) : Option Bytes :=
  if off + bs.length ≤ b.length then some (b.take off ++ bs ++ b.drop (off + bs.length)) else none

def alloc (n : Nat) : Bytes := List.replicate n 0

def realloc (b : Bytes) (n : Nat) : Bytes := b.take n ++ alloc (n - b.length)

section
variable {pre bs bs' post : Bytes} {off n : Nat}

theorem peek_append (hoff : off = pre.length) (hn : n = bs.length) :
    peek (pre ++ bs ++ post) off n = some bs := by
  subst hoff hn
  unfold peek
  rw [if_pos (by simp)]
  simp

/-- A write over a part of the same length replaces that part alone. -/
theorem poke_append (hoff : off = pre.length) (hlen : bs'.length = bs.length) :
    poke (pre ++ bs ++ post) off bs' = some (pre ++ bs' ++ post) := by
  subst hoff
  unfold poke
  rw [if_pos (by simp; omega), hlen]
  simp

/-- Writing over the beginning of what follows. -/
theorem poke_over (h : bs.length ≤ post.length) :
    poke (pre ++ post) pre.length bs = some (pre ++ bs ++ post.drop bs.length) := by
  unfold poke
  rw [if_pos (by rw [List.length_append]; omega), List.take_left, List.drop_length_add_append]

/-- Growing a block keeps what it begins with. -/
theorem realloc_append (pre post : Bytes) (k : Nat) :
    ∃ fill : Bytes, fill.length = k ∧ realloc (pre ++ post) (pre.length + k) = pre ++ fill := by
  refine ⟨post.take k ++ alloc (pre.length + k - (pre ++ post).length), ?_, ?_⟩
  · simp only [List.length_append, List.length_take, alloc, List.length_replicate]
    omega
  · unfold realloc
    rw [List.take_length_add_append, List.append_assoc]

/-- What is written, and what is kept of the beginning of a block. -/
theorem exists_poke {s : Bytes} (off : Nat) (bs : Bytes) (h : off + bs.length ≤ s.length) :
    ∃ s', poke s off bs = some s' ∧ s'.length = s.length ∧
      (∀ p, p <+: s → p.length ≤ off → p <+: s') ∧
      ∀ p, p <+: s → p.length = off → p ++ bs <+: s' := by
  refine ⟨s.take off ++ bs ++ s.drop (off + bs.length), ?_, ?_, ?_, ?_⟩
  · unfold poke
    rw [if_pos h]
  · simp only [List.length_append, List.length_take, List.length_drop]
    omega
  · intro p hp hlen
    rw [List.append_assoc]
    exact (List.prefix_take_iff.mpr ⟨hp, hlen⟩).trans (List.prefix_append _ _)
  · intro p hp hlen
    have htake : s.take off = p := by
      rw [← hlen]
      exact (List.prefix_iff_eq_take.mp hp).symm
    rw [htake]
    exact List.prefix_append _ _

/-- A block which grows keeps its bytes in front. -/
theorem prefix_realloc {s : Bytes} (h : s.length ≤ n) :
    s <+: realloc s n ∧ (realloc s n).length = n := by
  unfold realloc
  rw [List.take_of_length_le h]
  refine ⟨List.prefix_append _ _, ?_⟩
  rw [List.length_append, alloc, List.length_replicate]
  omega

theorem peek_prefix {s : Bytes} (h : bs <+: s) (hn : n = bs.length) : peek s 0 n = some bs := by
  obtain ⟨post, rfl⟩ := h
  exact (peek_append (List.length_nil).symm hn : peek ([] ++ bs ++ post) 0 n = some bs)

theorem length_alloc (n : Nat) : (alloc n).length = n := List.length_replicate

end

end Block

/-! ## Words -/

/-- The `n` bytes of a word, low byte first. -/
def leBytes : Nat → Nat → Bytes
  | 0, _ => []
  | n + 1, v => v.toUInt8 :: leBytes n (v / 256)

/-- The word that bytes with the low one first stand for. -/
def ofLeBytes : Bytes → Nat
  | [] => 0
  | b :: bs => b.toNat + 256 * ofLeBytes bs

@[simp] theorem length_leBytes (n v : Nat) : (leBytes n v).length = n := by
  induction n generalizing v with
  | zero => rfl
  | succ n ih => rw [leBytes, List.length_cons, ih]

/-- Reading back what `leBytes` wrote gives the number modulo the width. -/
theorem ofLeBytes_leBytes (n v : Nat) : ofLeBytes (leBytes n v) = v % 256 ^ n := by
  induction n generalizing v with
  | zero => rw [leBytes, ofLeBytes, Nat.pow_zero, Nat.mod_one]
  | succ n ih =>
    have hbyte : v.toUInt8.toNat = v % 256 := by simp [Nat.toUInt8]
    rw [leBytes, ofLeBytes, ih, hbyte, Nat.pow_succ', Nat.mod_mul]

theorem ofLeBytes_leBytes_of_lt {n v : Nat} (h : v < 256 ^ n) : ofLeBytes (leBytes n v) = v := by
  rw [ofLeBytes_leBytes, Nat.mod_eq_of_lt h]

end Ayubd
