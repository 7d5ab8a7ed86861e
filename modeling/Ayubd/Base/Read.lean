import Ayubd.Base.Block

/-!
# Ayubd — reading a file from its beginning

A reader takes bytes off the front of what is left of a file, or has no result when the file ends
too early. `Steady` says of a reader that bytes behind what it has read change nothing, which holds
of `fread` and is kept by `>>=`. A steady reader that reads a whole file reads no file that ends
before it (`Steady.truncated`).
-/

namespace Ayubd

/-- What is read from a file, and what is left of it. -/
abbrev Reader (α : Type) := StateT Bytes Option α

def fread (n : Nat) : Reader Bytes := fun file =>
  if n ≤ file.length then some (file.take n, file.drop n) else none

/-- The `n` bytes of a word, high byte first. -/
def beBytes (n v : Nat) : Bytes := (leBytes n v).reverse

/-- The word that bytes with the high one first stand for. -/
def ofBeBytes (bs : Bytes) : Nat := ofLeBytes bs.reverse

/-- A word of `n` bytes, high byte first. -/
def readBe (n : Nat) : Reader Nat := do
  let bs ← fread n
  pure (ofBeBytes bs)

/-- What is left of the file is not looked at. -/
def Steady {α : Type} (r : Reader α) : Prop :=
  ∀ file a rest, r file = some (a, rest) → ∀ more, r (file ++ more) = some (a, rest ++ more)

section
variable {α β : Type} {r : Reader α} {f : α → Reader β} {file rest : Bytes} {a : α} {n v : Nat}

/-- A sequence of readers succeeds exactly where each does on what the one before left. -/
theorem bind_eq_some {out : β × Bytes} :
    (r >>= f) file = some out ↔ ∃ a rest, r file = some (a, rest) ∧ f a rest = some out := by
  show ((r file).bind fun p => f p.1 p.2) = some out ↔ _
  rw [Option.bind_eq_some_iff]
  constructor
  · rintro ⟨⟨a, rest⟩, hr, hf⟩
    exact ⟨a, rest, hr, hf⟩
  · rintro ⟨a, rest, hr, hf⟩
    exact ⟨(a, rest), hr, hf⟩

theorem pure_eq_some {out : α × Bytes} : (pure a : Reader α) file = some out ↔ out = (a, file) := by
  show some (a, file) = some out ↔ _
  rw [Option.some.injEq, eq_comm]

/-! ## What is read back -/

theorem fread_append (bs : Bytes) (hn : n = bs.length) (rest : Bytes) :
    fread n (bs ++ rest) = some (bs, rest) := by
  subst hn
  unfold fread
  rw [if_pos (by rw [List.length_append]; omega), List.take_left, List.drop_left]

theorem length_beBytes (n v : Nat) : (beBytes n v).length = n := by
  rw [beBytes, List.length_reverse, length_leBytes]

/-- Reading back what `beBytes` wrote gives the number modulo the width. -/
theorem readBe_append (n v : Nat) (rest : Bytes) :
    readBe n (beBytes n v ++ rest) = some (v % 256 ^ n, rest) := by
  unfold readBe
  rw [bind_eq_some]
  refine ⟨beBytes n v, rest, fread_append _ (length_beBytes n v).symm rest, ?_⟩
  rw [pure_eq_some, ofBeBytes, beBytes, List.reverse_reverse, ofLeBytes_leBytes]

theorem steady_pure (a : α) : Steady (pure a : Reader α) := by
  intro file b rest h more
  obtain ⟨rfl, rfl⟩ := Prod.mk.inj (pure_eq_some.mp h)
  rfl

theorem Steady.bind (hr : Steady r) (hf : ∀ a, Steady (f a)) : Steady (r >>= f) := by
  intro file b rest h more
  obtain ⟨a, rest', hread, hnext⟩ := bind_eq_some.mp h
  exact bind_eq_some.mpr
    ⟨a, rest' ++ more, hr file a rest' hread more, hf a rest' b rest hnext more⟩

theorem steady_fread (n : Nat) : Steady (fread n) := by
  intro file bs rest h more
  unfold fread at h ⊢
  split at h
  · next hn =>
    obtain ⟨rfl, rfl⟩ := Prod.mk.inj (Option.some.inj h)
    rw [if_pos (by rw [List.length_append]; omega), List.take_append_of_le_length hn,
      List.drop_append_of_le_length hn]
  · cases h

/-- Reading a number is steady. -/
theorem steady_readBe (n : Nat) : Steady (readBe n) := (steady_fread n).bind fun _ => steady_pure _

/-- **A file that ends too early is not read.** -/
theorem Steady.truncated (hr : Steady r) {front back : Bytes}
    (h : r (front ++ back) = some (a, [])) (hback : back ≠ []) : r front = none := by
  cases hfront : r front with
  | none => rfl
  | some out =>
    obtain ⟨b, rest⟩ := out
    have hmore := hr front b rest hfront back
    rw [h] at hmore
    obtain ⟨-, hnil⟩ := Prod.mk.inj (Option.some.inj hmore)
    exact absurd (List.append_eq_nil_iff.mp hnil.symm).2 hback

end

end Ayubd
