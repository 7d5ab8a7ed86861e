import Ayubd.Strings.Scan

/-!
# Ayubd — an array of tokens that is too small

For `n ≠ 0` the array is asked for once, with a size that may wrap, and the loop stops at `n`
tokens without ever looking at the array again. `Scan.cut` takes places away from an array.
`Scan.cut_iterate` says that the loop does with what is left exactly what it does with the whole
array, but for the tokens it writes behind it. So a call returns what is wanted if that lies in
the array, and is undefined if it does not: `strTokens_walk`.
-/

namespace Ayubd.Strings

open Ayubd

/-! ## The places of the array -/

/-- A `size_t` counts `2^60` tokens before their size wraps. -/
theorem tokenPlaces_eq (ntok : Nat) : tokenPlaces ntok = ntok % 2 ^ 60 := by
  rw [tokenPlaces, show 2 ^ 64 = 2 ^ 60 * sizeofToken from rfl, Nat.mul_mod_mul_right]
  exact Nat.mul_div_cancel _ (by decide)

/-- Of `k` tokens, the array for `n` holds those that are wanted. The array for `n = 0` grows with
them. -/
def ArrayHolds (n k : Nat) : Prop := n = 0 ∨ min n k ≤ n % 2 ^ 60

instance (n k : Nat) : Decidable (ArrayHolds n k) := inferInstanceAs (Decidable (_ ∨ _))

/-- An array whose size does not wrap holds any number of tokens. -/
theorem arrayHolds_of_lt {n : Nat} (h : n < 2 ^ 60) (k : Nat) : ArrayHolds n k := by
  rw [ArrayHolds, Nat.mod_eq_of_lt h]
  exact .inr (Nat.min_le_left n k)

namespace Scan

/-! ## Fewer places -/

/-- The locals when only the first `m` places of the array are there. -/
def cut (m : Nat) (st : Scan) : Scan :=
  { st with t := st.t.take m, overrun := decide (m < st.cnt) }

/-- In a call with `n ≠ 0`: the loop takes the array for one of `n` places, and goes on only
below `n` tokens. -/
structure Below (n : Nat) (st : Scan) : Prop where
  ntok : st.ntok = n
  cnt : st.going = true → st.cnt < n

section
variable {ρ : Type} {split : Split ρ} {s : Bytes} {n m : Nat} {st : Scan}

theorem below_whole (split : Split ρ) (s : Bytes) (hn : n ≠ 0) : (whole split s n).Below n :=
  ⟨if_neg hn, fun _ => Nat.pos_of_ne_zero hn⟩

/-- The array of a call is the first places of the one it asks for. -/
theorem start_eq_cut (split : Split ρ) (s : Bytes) (hn : n ≠ 0) :
    start split s n = (whole split s n).cut (n % 2 ^ 60) := by
  have hle : min (n % 2 ^ 60) n = n % 2 ^ 60 := Nat.min_eq_left (Nat.mod_le n _)
  simp only [start, whole, cut, if_neg hn, List.take_replicate, hle, tokenPlaces_eq,
    Nat.not_lt_zero, decide_false]

/-- A token is lost behind the places that are left. -/
theorem Ok.cut_push (h : st.Ok split s) (hroom : st.cnt < st.ntok) (m len : Nat) :
    (st.push len).cut m = (st.cut m).push len := by
  have hover : decide (m < st.cnt + 1) =
      (decide (m < st.cnt) || decide ((st.t.take m).length ≤ st.tmp)) := by
    rw [List.length_take, h.size, h.tmp, ← Bool.decide_or]
    exact decide_eq_decide.mpr (by omega)
  simp only [Scan.push, cut, List.take_set, Scan.mk.injEq, true_and]
  exact hover

end

/-! ## The loop in fewer places -/

section
variable {A : Heap} {P : Pcre} {split : Split P.Re} {s : Bytes} {n : Nat} {st : Scan}

/-- A scan with room allocates no more. -/
theorem Below.reserve (hb : st.Below n) (hgo : st.going = true) : st.reserve A = some st :=
  if_neg (by rw [hb.ntok]; exact Nat.not_le_of_lt (hb.cnt hgo))

/-- A scan with room has room after a round, or ends. -/
theorem Below.body (hn : n ≠ 0) (hb : st.Below n) : (st.body A P split s n).Below n := by
  by_cases hgo : st.going = true
  case neg =>
    rw [body_stopped (Bool.eq_false_iff.mpr hgo)]
    exact hb
  case pos =>
    cases hnext : split.next P (s.drop st.pstr) st.slen with
    | none =>
      rw [body_none hgo (hb.reserve hgo) hnext]
      exact ⟨hb.ntok, nofun⟩
    | some t =>
      rw [body_some hgo (hb.reserve hgo) hnext]
      refine ⟨?_, ?_⟩
      · show (ite _ st (st.push t.1)).ntok = n
        split <;> exact hb.ntok
      · -- `n && cnt >= n` stops the loop
        intro hgo'
        simp only [Scan.advance] at hgo' ⊢
        by_contra hge
        rw [if_pos ⟨hn, Nat.le_of_not_lt hge⟩] at hgo'
        cases hgo'

/-- One iteration does the same in fewer places. -/
theorem Ok.cut_body (h : st.Ok split s) (hb : st.Below n) (m : Nat) :
    (st.body A P split s n).cut m = (st.cut m).body A P split s n := by
  by_cases hgo : st.going = true
  case neg =>
    have hstop : st.going = false := Bool.eq_false_iff.mpr hgo
    have hstop' : (st.cut m).going = false := hstop
    rw [body_stopped hstop, body_stopped hstop']
  case pos =>
    have hroom : st.cnt < st.ntok := by
      rw [hb.ntok]
      exact hb.cnt hgo
    have hgo' : (st.cut m).going = true := hgo
    have hb' : (st.cut m).Below n := ⟨hb.ntok, hb.cnt⟩
    cases hnext : split.next P (s.drop st.pstr) st.slen with
    | none =>
      rw [body_none hgo (hb.reserve hgo) hnext, body_none hgo' (hb'.reserve hgo') hnext]
      rfl
    | some t =>
      rw [body_some hgo (hb.reserve hgo) hnext, body_some hgo' (hb'.reserve hgo') hnext]
      by_cases heat : t.1 = 0 ∧ split.eatNextEmpty
      · simp only [if_pos heat]
        rfl
      · simp only [if_neg heat, ← h.cut_push hroom]
        rfl

/-- **The loop in fewer places** is the loop in the whole array, cut. -/
theorem cut_iterate (hn : n ≠ 0) (h : st.Ok split s) (hb : st.Below n) (m k : Nat) :
    ((Scan.body A P split s n)^[k] st).cut m = (Scan.body A P split s n)^[k] (st.cut m) := by
  induction k generalizing st with
  | zero => rfl
  | succ k ih =>
    rw [Function.iterate_succ_apply, Function.iterate_succ_apply, ih h.body (hb.body hn),
      h.cut_body hb]

/-- What has been recorded is all there if none of it was written behind the array. -/
theorem tlist_cut {m : Nat} (h : st.cnt ≤ m) : (st.cut m).tlist = st.tlist := by
  show (st.t.take m).take st.cnt = st.t.take st.cnt
  rw [List.take_take, Nat.min_eq_left h]

end

end Scan

/-! ## The call -/

section
variable {A : Heap} {P : Pcre} {d s : CStr} {split : Split P.Re} {n fuel : Nat}

/-- **The call.** With all allocations succeeding and a walk that ends, `str_tokens` returns the
slices that are wanted, if there are places for them in the array, and writes behind it if there
are not. -/
theorem strTokens_walk (hA : A.Succeeds) (hs : s.bytes ≠ [])
    (hsplit : splitOf P d.bytes = some split) (hadv : Advances (split.stride P) s.bytes)
    (hfuel : s.bytes.length ≤ fuel) :
    let toks := Scan.wanted split n 0 (slices (split.stride P) 0 s.bytes)
    strTokens A P (some d) (some s) n fuel =
      if n = 0 ∨ toks.length ≤ n % 2 ^ 60 then .returned (some toks) else .undefined := by
  intro toks
  have hok := Scan.ok_whole split hs n
  have hn : n = 0 ∨ (Scan.whole split s.bytes n).cnt < n := by
    show n = 0 ∨ 0 < n
    omega
  obtain ⟨hstop, htlist⟩ := Scan.run_walk (hA .tokens) hok rfl hn hadv hfuel
  have hdone := hok.iterate (A := A) (n := n) fuel
  have htlist : ((Scan.body A P split s.bytes n)^[fuel] (Scan.whole split s.bytes n)).tlist =
      toks := htlist
  have hcnt := hdone.length_tlist
  rw [htlist] at hcnt
  have hcall := strTokens_eq (n := n) ⟨hA _ _, hA _ _, hA _ _⟩ hs hsplit fuel
  by_cases hzero : n = 0
  case pos =>
    -- the array for `n = 0` is the whole of 32 places
    rw [if_pos (.inl hzero), hcall,
      Scan.start_eq_whole split s.bytes (by rw [hzero]; decide)]
    simp only [hdone.inside, hstop, Bool.false_eq_true, if_false, htlist]
  case neg =>
    rw [Scan.start_eq_cut split s.bytes hzero,
      ← Scan.cut_iterate hzero hok (Scan.below_whole split s.bytes hzero)] at hcall
    generalize (Scan.body A P split s.bytes n)^[fuel] (Scan.whole split s.bytes n) = st at *
    have hstop : (st.cut (n % 2 ^ 60)).going = false := hstop
    have hover : (st.cut (n % 2 ^ 60)).overrun = decide (n % 2 ^ 60 < toks.length) := by
      rw [hcnt]
      rfl
    by_cases hfit : toks.length ≤ n % 2 ^ 60
    · rw [if_pos (.inr hfit), hcall]
      simp only [hover, hstop, Nat.not_lt.mpr hfit, decide_false, Bool.false_eq_true, if_false,
        Scan.tlist_cut (hcnt ▸ hfit), htlist]
    · rw [if_neg (by simp only [hzero, hfit, or_self, not_false_eq_true]), hcall]
      simp only [hover, Nat.lt_of_not_le hfit, decide_true, if_true]

end

end Ayubd.Strings
