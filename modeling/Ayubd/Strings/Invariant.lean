import Ayubd.Strings.Split

/-!
# Ayubd — the loop invariant of `str_tokens`

`Scan.Ok` ties the write pointer, the count, the size of the array and the position in the string
together; `Scan.Ordered` adds what the tokens recorded so far look like. Both hold before every
iteration of the loop, in all four split types and whatever the allocator does, as long as the
size of the first array does not wrap: `loop_invariant`.
-/

namespace Ayubd.Strings

open Ayubd

namespace Scan

/-- The tokens recorded so far are slices of the text that has been passed, each behind the one
before it. -/
structure Ordered (st : Scan) : Prop where
  apart : st.tlist.Pairwise fun t u => t.ptr + t.len ≤ u.ptr
  passed : ∀ t ∈ st.tlist, t.ptr + t.len ≤ st.pstr

theorem ordered_start {ρ : Type} (split : Split ρ) (s : Bytes) (n : Nat) :
    (start split s n).Ordered := by
  have hnil : (start split s n).tlist = [] := List.take_zero
  refine ⟨?_, ?_⟩
  · rw [hnil]
    exact List.Pairwise.nil
  · intro t ht
    rw [hnil] at ht
    cases ht

section
variable {A : Heap} {P : Pcre} {split : Split P.Re} {s : Bytes} {n : Nat} {st st' : Scan}

/-- A stride records at most a token that starts where the ones before it have ended. -/
theorem Ordered.strode (h : st.Ordered) {len step : Nat} (hle : len ≤ step)
    (hstrode : Strode A split s n len step st st') : st'.Ordered := by
  have hkept : ∀ u ∈ kept split ⟨st.pstr, len⟩, u = ⟨st.pstr, len⟩ := by
    intro u hu
    unfold kept at hu
    split at hu
    · cases hu
    · exact List.mem_singleton.mp hu
  refine ⟨?_, ?_⟩
  · rw [hstrode.tlist, List.pairwise_append]
    refine ⟨h.apart, ?_, ?_⟩
    · unfold kept
      split
      · exact List.Pairwise.nil
      · exact List.pairwise_singleton _ _
    · intro t ht u hu
      rw [hkept u hu]
      exact h.passed t ht
  · intro t ht
    rw [hstrode.tlist] at ht
    rw [hstrode.pstr]
    rcases List.mem_append.mp ht with ht | ht
    · exact Nat.le_add_right_of_le (h.passed t ht)
    · rw [hkept t ht]
      exact Nat.add_le_add_left hle st.pstr

/-- **One iteration keeps both**, as long as the loop goes on. -/
theorem Ordered.body (hok : st.Ok split s) (h : st.Ordered) (hgo : st.going = true)
    (hgo' : (st.body A P split s n).going = true) : (st.body A P split s n).Ordered := by
  obtain ⟨-, hleave | ⟨len, step, hstride, hstrode⟩⟩ := body_cases (A := A) (n := n) hok hgo
  · rw [hleave.stopped] at hgo'
    cases hgo'
  · exact h.strode (Split.stride_le (hok.left hgo) hstride).1 hstrode

/-- **Every iteration keeps both.** -/
theorem Ordered.iterate (hok : st.Ok split s) (h : st.Ordered) (k : Nat) :
    ((Scan.body A P split s n)^[k] st).going = true →
      ((Scan.body A P split s n)^[k] st).Ordered := by
  induction k with
  | zero => exact fun _ => h
  | succ k ih =>
    rw [Function.iterate_succ_apply']
    by_cases hgo : ((Scan.body A P split s n)^[k] st).going = true
    · exact fun hgo' => Ordered.body (hok.iterate k) (ih hgo) hgo hgo'
    · -- the loop has been left before
      rw [body_stopped (Bool.eq_false_iff.mpr hgo)]
      exact ih

end

end Scan

/-! ## Before each iteration -/

/-- `st` are the locals before an iteration of the loop of `str_tokens(d, s, n)`, when `k`
iterations have been made. -/
structure BeforeIteration (A : Heap) (P : Pcre) (d s : CStr) (n k : Nat) (split : Split P.Re)
    (st : Scan) : Prop where
  admits : A.Admits d n
  nonempty : s.bytes ≠ []
  parsed : splitOf P d.bytes = some split
  reached : st = (Scan.body A P split s.bytes n)^[k] (Scan.start split s.bytes n)
  going : st.going = true

/-- What holds before each iteration. -/
structure LoopInvariant (A : Heap) (P : Pcre) (d s : CStr) (n k : Nat) (split : Split P.Re)
    (st : Scan) : Prop where
  /-- `pstr` points into the string, its terminator included -/
  pstr : st.pstr ≤ s.bytes.length
  /-- where `slen` is read, it is the number of bytes left -/
  slen : split.measures = true → st.slen = (s.bytes.length - st.pstr : Nat)
  /-- so far nothing has been written behind the array -/
  inside : st.overrun = false
  /-- the token of this iteration is written behind the others, inside the array -/
  write : ∀ st₁, st.reserve A = some st₁ →
    st₁.tmp = st.cnt ∧ st₁.cnt = st.cnt ∧ st.cnt < st₁.ntok ∧ st₁.t.length = st₁.ntok
  count : st.tlist.length = st.cnt
  apart : st.tlist.Pairwise fun t u => t.ptr + t.len ≤ u.ptr
  slices : ∀ t ∈ st.tlist, t.ptr + t.len ≤ st.pstr
  /-- when `realloc` fails, the call returns what has been recorded -/
  failed : st.reserve A = none → ∀ fuel, k < fuel →
    strTokens A P (some d) (some s) n fuel = .returned (some st.tlist)

/-- **The invariant of the loop**, for every delimiter, every string, every `n` for which the size
of the array does not wrap, and every behaviour of the allocator. -/
theorem loop_invariant (A : Heap) (P : Pcre) (d s : CStr) (n k : Nat) (split : Split P.Re)
    (st : Scan) (hn : n * sizeofToken < 2 ^ 64) (h : BeforeIteration A P d s n k split st) :
    LoopInvariant A P d s n k split st := by
  obtain ⟨hadmits, hs, hsplit, hst, hgo⟩ := h
  have hstart := Scan.ok_start split hs hn
  have hok := hstart.iterate (A := A) (n := n) k
  have hordered := (Scan.ordered_start split s.bytes n).iterate (A := A) (n := n) hstart k
  rw [← hst] at hok hordered
  obtain ⟨hapart, hpassed⟩ := hordered hgo
  refine ⟨hok.pstr_le, ?_, hok.inside, ?_, hok.length_tlist, hapart, hpassed, ?_⟩
  · intro hm
    rw [hok.slen hm, List.length_drop]
  · intro st₁ hres
    obtain ⟨hok₁, hroom, htlist, -, -⟩ := hok.reserve hres
    have hcnt : st₁.cnt = st.cnt := by
      rw [← hok₁.length_tlist, ← hok.length_tlist, htlist]
    exact ⟨hok₁.tmp.trans hcnt, hcnt, hcnt ▸ hroom, hok₁.size⟩
  · intro hdeny fuel hfuel
    -- the iteration jumps out of the loop, and the rest of the fuel is not needed
    obtain ⟨j, rfl⟩ : ∃ j, fuel = j + (k + 1) := ⟨fuel - (k + 1), by omega⟩
    rw [strTokens_eq hadmits hs hsplit, Function.iterate_add_apply,
      Function.iterate_succ_apply', ← hst, Scan.body_denied hgo hdeny,
      Scan.iterate_stopped rfl]
    simp only [hok.inside, Bool.false_eq_true, if_false]
    rfl

/-- After the first of two tokens. -/
theorem loop_invariant_oneToken :
    ∃ st, BeforeIteration .unlimited (.star 120) (charClass ⟨ascii ",", by decide⟩)
        ⟨ascii "a,b", by decide⟩ 0 1 (.cls (ascii ",") false) st ∧
      LoopInvariant .unlimited (.star 120) (charClass ⟨ascii ",", by decide⟩)
        ⟨ascii "a,b", by decide⟩ 0 1 (.cls (ascii ",") false) st ∧ st.tlist = [⟨0, 1⟩] := by
  have hbefore : BeforeIteration .unlimited (.star 120) (charClass ⟨ascii ",", by decide⟩)
      ⟨ascii "a,b", by decide⟩ 0 1 (.cls (ascii ",") false) _ :=
    ⟨⟨rfl, rfl, rfl⟩, by decide, rfl, rfl, by decide⟩
  exact ⟨_, hbefore, loop_invariant _ _ _ _ _ _ _ _ (by decide) hbefore, by decide⟩

end Ayubd.Strings
