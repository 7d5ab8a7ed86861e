import Ayubd.Strings.Tokens

/-!
# Ayubd — what the loop of `str_tokens` does

The locals of the loop represent a walk over the string: `Scan.Ok` says how, `Scan.body_cases`
is all that one iteration can do, and `Scan.run_walk` what the loop comes to as long as the walk
goes on. The four ways to split enter only as the stride of the walk.
-/

namespace Ayubd.Strings

open Ayubd

/-! ## The stride of each split type -/

/-- `tmp_len` and `tmp_step` when `slen` is what is left of the string. -/
def Split.stride (P : Pcre) (split : Split P.Re) (s : Bytes) : Option (Nat × Nat) :=
  split.next P s s.length

/-- Does the loop read `slen`? -/
def Split.measures {ρ : Type} : Split ρ → Bool
  | .regex _ | .array _ => true
  | _ => false

section
variable {P : Pcre} {s : Bytes}

/-- With the invariant the locals decide as the stride does, which looks at the text only. -/
theorem Split.next_eq_stride (split : Split P.Re) {slen : Int}
    (h : split.measures = true → slen = s.length) : split.next P s slen = split.stride P s := by
  cases split with
  | every => rfl
  | cls d eat => rfl
  | regex re => rw [h rfl]; rfl
  | array d => rw [h rfl]; rfl

/-- For a regular expression the stride is what `pcre_exec` reports. -/
theorem stride_regex (re : P.Re) : (Split.regex re : Split P.Re).stride P = P.exec re := by
  funext s
  simp only [Split.stride, Split.next, Int.toNat_natCast, List.take_length]

theorem strcspn_le (s d : Bytes) : strcspn s d ≤ s.length :=
  (List.takeWhile_prefix _).length_le

/-- A stride takes a token and steps over it, without leaving the text. -/
theorem Split.stride_le {split : Split P.Re} {len step : Nat} (hs : s ≠ [])
    (h : split.stride P s = some (len, step)) : len ≤ step ∧ step ≤ s.length := by
  have hpos := List.length_pos_iff.mpr hs
  cases split with
  | every =>
    cases h
    omega
  | cls d eat =>
    have hle := strcspn_le s d
    simp only [Split.stride, Split.next, Option.some.injEq, Prod.mk.injEq] at h
    obtain ⟨rfl, rfl⟩ := h
    split <;> omega
  | regex re =>
    have hle := P.exec_le h
    rw [Int.toNat_natCast, List.take_length] at hle
    exact hle
  | array d =>
    simp only [Split.stride, Split.next, strstr] at h
    split at h
    · next i hocc =>
      have hle : i ≤ s.length := by
        by_cases hd : d = []
        · -- the empty needle is found at once
          obtain ⟨c, s, rfl⟩ := List.exists_cons_of_ne_nil hs
          rw [firstOcc, if_pos (hd ▸ List.nil_prefix)] at hocc
          cases hocc
          exact Nat.zero_le _
        · have := length_of_firstOcc hocc hd
          omega
      simp only [Option.some.injEq, Prod.mk.injEq] at h
      obtain ⟨rfl, rfl⟩ := h
      split <;> omega
    · cases h
      exact ⟨Nat.le_refl _, Nat.le_refl _⟩

end

/-! ## The invariant of the loop -/

namespace Scan

/-- The write pointer, the count and the size of the array fit together, nothing has been written
behind the array, `pstr` stays within the string, and `slen` is what is left of it where it is
read. -/
structure Ok {ρ : Type} (split : Split ρ) (s : Bytes) (st : Scan) : Prop where
  pstr_le : st.pstr ≤ s.length
  left : st.going = true → s.drop st.pstr ≠ []
  slen : split.measures = true → st.slen = (s.drop st.pstr).length
  tmp : st.tmp = st.cnt
  size : st.t.length = st.ntok
  cnt_le : st.cnt ≤ st.ntok
  inside : st.overrun = false

section
variable {ρ : Type} {split : Split ρ} {s : Bytes} {st : Scan}

/-- The locals before the loop if the array had all the places that are asked for. -/
def whole (split : Split ρ) (s : Bytes) (n : Nat) : Scan :=
  { start split s n with t := List.replicate (start split s n).ntok ⟨0, 0⟩ }

/-- Before the loop, the invariant holds of an array with all its places. -/
theorem ok_whole (split : Split ρ) {s : Bytes} (hs : s ≠ []) (n : Nat) :
    (whole split s n).Ok split s := by
  refine ⟨Nat.zero_le _, fun _ => hs, ?_, rfl, List.length_replicate, Nat.zero_le _, rfl⟩
  intro hm
  cases split with
  | every | cls => cases hm
  | regex | array => rfl

/-- A size that does not wrap gives as many places as are asked for. -/
theorem tokenPlaces_of_lt {ntok : Nat} (h : ntok * sizeofToken < 2 ^ 64) :
    tokenPlaces ntok = ntok := by
  rw [tokenPlaces, Nat.mod_eq_of_lt h]
  exact Nat.mul_div_cancel ntok (by decide)

/-- So a call has all its places if the size does not wrap. -/
theorem start_eq_whole (split : Split ρ) (s : Bytes) {n : Nat} (h : n * sizeofToken < 2 ^ 64) :
    start split s n = whole split s n := by
  have hplaces : tokenPlaces (if n = 0 then 32 else n) = if n = 0 then 32 else n := by
    split
    · decide
    · exact tokenPlaces_of_lt h
  simp only [whole, start, hplaces]

/-- Before the loop, the invariant holds of an array whose size has not wrapped. -/
theorem ok_start (split : Split ρ) {s : Bytes} (hs : s ≠ []) {n : Nat}
    (h : n * sizeofToken < 2 ^ 64) : (start split s n).Ok split s := by
  rw [start_eq_whole split s h]
  exact ok_whole split hs n

/-- Leaving the loop changes nothing else. -/
theorem Ok.stop (h : st.Ok split s) : Ok split s { st with going := false } :=
  ⟨h.pstr_le, nofun, h.slen, h.tmp, h.size, h.cnt_le, h.inside⟩

/-- As many tokens have been recorded as have been counted. -/
theorem Ok.length_tlist (h : st.Ok split s) : st.tlist.length = st.cnt := by
  rw [tlist, List.length_take, h.size]
  exact Nat.min_eq_left h.cnt_le

/-- A reserve that succeeds leaves room for one more token and changes none. -/
theorem Ok.reserve {A : Heap} {st₁ : Scan} (h : st.Ok split s) (hres : st.reserve A = some st₁) :
    st₁.Ok split s ∧ st₁.cnt < st₁.ntok ∧ st₁.tlist = st.tlist ∧ st₁.pstr = st.pstr ∧
      (st₁.ntok = st.ntok ∨ (st₁.ntok = st.ntok + 8 ∧ A.ok .tokens (st.ntok + 8) = true)) := by
  have hcnt := h.cnt_le
  unfold Scan.reserve at hres
  split at hres
  · split at hres
    · next hgrant =>
      cases hres
      refine ⟨⟨h.pstr_le, h.left, h.slen, rfl, ?_, ?_, h.inside⟩, ?_, ?_, rfl, .inr ⟨rfl, hgrant⟩⟩
      · rw [List.length_append, List.length_replicate, h.size]
      · exact Nat.le_trans hcnt (Nat.le_add_right _ _)
      · show st.cnt < st.ntok + 8
        omega
      · show (st.t ++ List.replicate 8 _).take st.cnt = st.t.take st.cnt
        exact List.take_append_of_le_length (by rw [h.size]; exact hcnt)
    · cases hres
  · next hfull =>
    cases hres
    exact ⟨h, Nat.lt_of_not_le hfull, rfl, rfl, .inl rfl⟩

/-- Where there is room, the token is written inside the array, behind those before it. -/
theorem Ok.push (h : st.Ok split s) (hroom : st.cnt < st.ntok) (len : Nat) :
    (st.push len).Ok split s ∧ (st.push len).tlist = st.tlist ++ [⟨st.pstr, len⟩] := by
  refine ⟨⟨h.pstr_le, h.left, h.slen, ?_, ?_, hroom, ?_⟩, ?_⟩
  · show st.tmp + 1 = st.cnt + 1
    rw [h.tmp]
  · show (st.t.set _ _).length = st.ntok
    rw [List.length_set, h.size]
  · show (st.overrun || decide (st.t.length ≤ st.tmp)) = false
    rw [h.inside, h.size, h.tmp, Bool.false_or, decide_eq_false_iff_not]
    exact Nat.not_le_of_lt hroom
  · show (st.t.set st.tmp _).take (st.cnt + 1) = st.t.take st.cnt ++ _
    have hlt : st.cnt < st.t.length := by rw [h.size]; exact hroom
    rw [h.tmp, List.take_add_one, List.take_set_of_le (Nat.le_refl _), List.getElem?_set_self hlt]
    rfl

/-- A step within the text keeps the invariant. -/
theorem Ok.advance (h : st.Ok split s) {step : Nat} (hstep : step ≤ (s.drop st.pstr).length)
    (n : Nat) : (st.advance s n step).Ok split s := by
  rw [List.length_drop] at hstep
  have hle := h.pstr_le
  refine ⟨?_, ?_, ?_, h.tmp, h.size, h.cnt_le, h.inside⟩
  · show st.pstr + step ≤ s.length
    omega
  · intro hgo
    simp only [Scan.advance] at hgo
    split at hgo
    · cases hgo
    · exact of_decide_eq_true hgo
  · intro hm
    show st.slen - step = ((s.drop (st.pstr + step)).length : Int)
    rw [h.slen hm, List.length_drop, List.length_drop]
    omega

end

/-! ## One iteration -/

/-- What of a token is kept: an empty one only if it is not to be eaten. -/
def kept {ρ : Type} (split : Split ρ) (t : Token) : List Token :=
  if t.len = 0 ∧ split.eatNextEmpty then [] else [t]

/-- An iteration that leaves the loop before it has taken anything. -/
structure Left (A : Heap) (P : Pcre) (split : Split P.Re) (s : Bytes) (st st' : Scan) : Prop where
  stopped : st'.going = false
  tlist : st'.tlist = st.tlist
  /-- The array is full and cannot grow, or there is nothing more to split. -/
  cause : (st.ntok ≤ st.cnt ∧ A.ok .tokens (st.ntok + 8) = false) ∨
    split.stride P (s.drop st.pstr) = none

/-- An iteration that takes a stride. -/
structure Strode {ρ : Type} (A : Heap) (split : Split ρ) (s : Bytes) (n len step : Nat)
    (st st' : Scan) : Prop where
  pstr : st'.pstr = st.pstr + step
  tlist : st'.tlist = st.tlist ++ kept split ⟨st.pstr, len⟩
  going : st'.going = if n ≠ 0 ∧ st'.cnt ≥ n then false else decide (s.drop (st.pstr + step) ≠ [])
  ntok : st'.ntok = st.ntok ∨ (st'.ntok = st.ntok + 8 ∧ A.ok .tokens (st.ntok + 8) = true)

section
variable {A : Heap} {P : Pcre} {split : Split P.Re} {s : Bytes} {n : Nat} {st st₁ : Scan}

/-- After the loop has been left nothing happens any more. -/
theorem body_stopped (h : st.going = false) : st.body A P split s n = st := by
  simp only [body, h, Bool.false_eq_true, if_false]

/-- An iteration in which `realloc` fails. -/
theorem body_denied (hgo : st.going = true) (hres : st.reserve A = none) :
    st.body A P split s n = { st with going := false } := by
  simp only [body, hgo, if_true, hres]

/-- An iteration in which there is nothing more to split. -/
theorem body_none (hgo : st.going = true) (hres : st.reserve A = some st₁)
    (hnext : split.next P (s.drop st₁.pstr) st₁.slen = none) :
    st.body A P split s n = { st₁ with going := false } := by
  simp only [body, hgo, if_true, hres, hnext]

/-- An iteration that comes to its end. -/
theorem body_some (hgo : st.going = true) (hres : st.reserve A = some st₁) {len step : Nat}
    (hnext : split.next P (s.drop st₁.pstr) st₁.slen = some (len, step)) :
    st.body A P split s n =
      (if len = 0 ∧ split.eatNextEmpty then st₁ else st₁.push len).advance s n step := by
  simp only [body, hgo, if_true, hres, hnext]

/-- `realloc` is called for a full array only. -/
theorem reserve_eq_none (h : st.reserve A = none) :
    st.ntok ≤ st.cnt ∧ A.ok .tokens (st.ntok + 8) = false := by
  unfold reserve at h
  split at h
  · next hfull =>
    split at h
    · cases h
    · next hdeny => exact ⟨hfull, Bool.eq_false_iff.mpr hdeny⟩
  · cases h

/-- Recording a token, or eating an empty one, keeps the invariant. -/
theorem Ok.take (h : st.Ok split s) (hroom : st.cnt < st.ntok) (len : Nat) :
    let st' := if len = 0 ∧ split.eatNextEmpty then st else st.push len
    st'.Ok split s ∧ st'.tlist = st.tlist ++ kept split ⟨st.pstr, len⟩ ∧ st'.pstr = st.pstr ∧
      st'.ntok = st.ntok := by
  intro st'
  by_cases heat : len = 0 ∧ split.eatNextEmpty
  · simp only [st', kept, if_pos heat, List.append_nil]
    exact ⟨h, trivial, trivial, trivial⟩
  · obtain ⟨hok, htlist⟩ := h.push hroom len
    simp only [st', kept, if_neg heat]
    exact ⟨hok, htlist, rfl, rfl⟩

/-- **One iteration.** It keeps the invariant, and either leaves the loop with the tokens as they
are or takes one stride. -/
theorem body_cases (h : st.Ok split s) (hgo : st.going = true) :
    (st.body A P split s n).Ok split s ∧
      (Left A P split s st (st.body A P split s n) ∨
        ∃ len step, split.stride P (s.drop st.pstr) = some (len, step) ∧
          Strode A split s n len step st (st.body A P split s n)) := by
  cases hres : st.reserve A with
  | none =>
    -- `realloc` failed
    rw [body_denied hgo hres]
    exact ⟨h.stop, .inl ⟨rfl, rfl, .inl (reserve_eq_none hres)⟩⟩
  | some st₁ =>
    obtain ⟨hok, hroom, htlist, hpstr, hgrow⟩ := h.reserve hres
    have hnext := split.next_eq_stride hok.slen
    cases hstride : split.stride P (s.drop st.pstr) with
    | none =>
      -- `pcre_exec` reports no match
      rw [hpstr, hstride, ← hpstr] at hnext
      rw [body_none hgo hres hnext]
      exact ⟨hok.stop, .inl ⟨rfl, htlist, .inr hstride⟩⟩
    | some t =>
      obtain ⟨len, step⟩ := t
      rw [hpstr, hstride, ← hpstr] at hnext
      rw [body_some hgo hres hnext]
      have hstep := (Split.stride_le (h.left hgo) hstride).2
      obtain ⟨hok', htlist', hpstr', hntok'⟩ := hok.take hroom len
      refine ⟨hok'.advance (by rw [hpstr', hpstr]; exact hstep) n,
        .inr ⟨len, step, rfl, ?_, ?_, ?_, ?_⟩⟩
      · rw [← hpstr, ← hpstr']
        rfl
      · rw [← htlist, ← hpstr]
        exact htlist'
      · rw [← hpstr, ← hpstr']
        rfl
      · rw [← hntok'] at hgrow
        exact hgrow

end

/-! ## The loop -/

/-- What the loop records of the slices to come when it has `cnt` tokens and wants `n`. -/
def wanted {ρ : Type} (split : Split ρ) (n cnt : Nat) (ts : List (Nat × Nat)) : List Token :=
  let all := ts.flatMap fun t => kept split ⟨t.1, t.2⟩
  if n = 0 then all else all.take (n - cnt)

section
variable {ρ : Type} {split : Split ρ} {n cnt : Nat}

theorem wanted_nil : wanted split n cnt [] = [] := by
  simp only [wanted, List.flatMap_nil, List.take_nil, ite_self]

/-- Once there are `n` tokens nothing more is wanted. -/
theorem wanted_full (hn : n ≠ 0) (hcnt : n ≤ cnt) (ts : List (Nat × Nat)) :
    wanted split n cnt ts = [] := by
  rw [wanted, if_neg hn, Nat.sub_eq_zero_of_le hcnt, List.take_zero]

theorem length_kept_le (split : Split ρ) (t : Token) : (kept split t).length ≤ 1 := by
  unfold kept
  split <;> simp

/-- Of the slices to come, the first is kept or eaten, and the rest are wanted as before. -/
theorem wanted_cons (hn : n = 0 ∨ cnt < n) (off len : Nat) (ts : List (Nat × Nat)) :
    wanted split n cnt ((off, len) :: ts) =
      kept split ⟨off, len⟩ ++ wanted split n (cnt + (kept split ⟨off, len⟩).length) ts := by
  have hlen := length_kept_le split ⟨off, len⟩
  unfold wanted
  rw [List.flatMap_cons]
  by_cases hzero : n = 0
  · simp only [if_pos hzero]
  · simp only [if_neg hzero]
    rw [List.take_append, List.take_of_length_le (by omega), Nat.sub_sub]

end

section
variable {A : Heap} {P : Pcre} {split : Split P.Re} {s : Bytes} {n : Nat} {st : Scan}

/-- Nothing happens any more after the loop has been left. -/
theorem iterate_stopped (h : st.going = false) (k : Nat) : (body A P split s n)^[k] st = st :=
  Function.iterate_fixed (body_stopped h) k

/-- An iteration keeps the invariant, whether the loop goes on or not. -/
theorem Ok.body (h : st.Ok split s) : (st.body A P split s n).Ok split s := by
  by_cases hgo : st.going = true
  · exact (body_cases h hgo).1
  · rw [body_stopped (Bool.eq_false_iff.mpr hgo)]
    exact h

/-- Any number of iterations keeps the invariant. -/
theorem Ok.iterate (h : st.Ok split s) (k : Nat) :
    ((Scan.body A P split s n)^[k] st).Ok split s := by
  induction k with
  | zero => exact h
  | succ k ih =>
    rw [Function.iterate_succ_apply']
    exact ih.body

/-- **The loop.** A walk that ends is walked to its end, in at most as many iterations as bytes
are left, and the loop records what it wants of the slices. -/
theorem run_walk (hA : ∀ k, A.ok .tokens k = true) (h : st.Ok split s) (hgo : st.going = true)
    (hn : n = 0 ∨ st.cnt < n) (hadv : Advances (split.stride P) (s.drop st.pstr)) {k : Nat}
    (hk : (s.drop st.pstr).length ≤ k) :
    ((body A P split s n)^[k] st).going = false ∧
      ((body A P split s n)^[k] st).tlist =
        st.tlist ++ wanted split n st.cnt (slices (split.stride P) st.pstr (s.drop st.pstr)) := by
  have hleft := h.left hgo
  generalize hrest : s.drop st.pstr = rest at hadv hk hleft ⊢
  have hpos := List.length_pos_iff.mpr hleft
  -- the walk takes its first stride in the first iteration
  obtain ⟨k, rfl⟩ : ∃ j, k = j + 1 := ⟨k - 1, by omega⟩
  induction hadv generalizing st k with
  | nil => exact absurd rfl hleft
  | @stop rest hnone =>
    obtain ⟨-, hleave | ⟨len, step, hsome, -⟩⟩ := body_cases (A := A) (n := n) h hgo
    · rw [Function.iterate_succ_apply, iterate_stopped hleave.stopped, slices_of_none hnone,
        wanted_nil, List.append_nil]
      exact ⟨hleave.stopped, hleave.tlist⟩
    · rw [hrest, hnone] at hsome
      cases hsome
  | @step rest len step hsome hstep hadv ih =>
    obtain ⟨hok, hleave | ⟨len', step', hsome', hstrode⟩⟩ := body_cases (A := A) (n := n) h hgo
    · rcases hleave.cause with ⟨-, hdeny⟩ | hnone
      · rw [hA] at hdeny
        cases hdeny
      · rw [hrest, hsome] at hnone
        cases hnone
    · rw [hrest, hsome, Option.some.injEq, Prod.mk.injEq] at hsome'
      obtain ⟨rfl, rfl⟩ := hsome'
      have hcnt := hok.length_tlist
      rw [hstrode.tlist, List.length_append, h.length_tlist] at hcnt
      have hdrop : s.drop (st.body A P split s n).pstr = rest.drop step := by
        rw [hstrode.pstr, ← List.drop_drop, hrest]
      rw [Function.iterate_succ_apply, slices_of_some hleft hsome hstep, wanted_cons hn, hcnt,
        ← List.append_assoc, ← hstrode.tlist, ← hstrode.pstr]
      have hgoing := hstrode.going
      rw [← List.drop_drop, hrest] at hgoing
      by_cases hfull : n ≠ 0 ∧ (st.body A P split s n).cnt ≥ n
      · rw [if_pos hfull] at hgoing
        rw [iterate_stopped hgoing, wanted_full hfull.1 hfull.2, List.append_nil]
        exact ⟨hgoing, rfl⟩
      · rw [if_neg hfull] at hgoing
        by_cases hend : rest.drop step = []
        · rw [hend] at hgoing ⊢
          rw [iterate_stopped hgoing, slices_nil, wanted_nil, List.append_nil]
          exact ⟨hgoing, rfl⟩
        · have hmore := List.length_pos_iff.mpr hend
          rw [List.length_drop] at hmore
          obtain ⟨j, rfl⟩ : ∃ j, k = j + 1 := ⟨k - 1, by omega⟩
          refine ih hok (by rw [hgoing]; exact decide_eq_true hend) (by omega) hdrop hend ?_ ?_ ?_
          all_goals
            rw [List.length_drop]
            omega

end

end Scan

/-! ## The call -/

section
variable {A : Heap} {P : Pcre} {d s : CStr} {split : Split P.Re} {n fuel : Nat}

/-- The allocations before the loop. -/
structure Heap.Admits (A : Heap) (d : CStr) (n : Nat) : Prop where
  list : A.ok .list 1 = true
  tokens : A.ok .tokens (tokenPlaces (if n = 0 then 32 else n)) = true
  delim : A.ok .delim (d.bytes.length + 1) = true

/-- A call that gets to its loop. -/
theorem strTokens_eq (hA : A.Admits d n) (hs : s.bytes ≠ [])
    (hsplit : splitOf P d.bytes = some split) (fuel : Nat) :
    strTokens A P (some d) (some s) n fuel =
      let st := (Scan.body A P split s.bytes n)^[fuel] (Scan.start split s.bytes n)
      if st.overrun then .undefined
      else if st.going then .looping
      else .returned (some st.tlist) := by
  simp only [strTokens, hA.list, hA.tokens, hA.delim, not_true_eq_false, if_false, if_neg hs, hsplit]

/-- A call that fails before its loop, or does not get to it, returns. -/
theorem strTokens_returns (h : ¬ (A.Admits d n ∧ s.bytes ≠ [] ∧ (splitOf P d.bytes).isSome)) :
    strTokens A P (some d) (some s) n fuel ≠ .looping := by
  unfold strTokens
  by_cases hlist : A.ok .list 1 = true
  · simp only [hlist, not_true_eq_false, if_false]
    by_cases hs : s.bytes = []
    · rw [if_pos hs]
      exact nofun
    · -- the allocations in the order of the source, then the delimiter
      rw [if_neg hs]
      by_cases htokens : A.ok .tokens (tokenPlaces (if n = 0 then 32 else n)) = true
      · rw [if_neg (not_not_intro htokens)]
        by_cases hdelim : A.ok .delim (d.bytes.length + 1) = true
        · rw [if_neg (not_not_intro hdelim)]
          have hnone : splitOf P d.bytes = none := by
            by_contra hsome
            exact h ⟨⟨hlist, htokens, hdelim⟩, hs, Option.isSome_iff_ne_none.mpr hsome⟩
          rw [hnone]
          exact nofun
        · rw [if_pos hdelim]
          exact nofun
      · rw [if_pos htokens]
        exact nofun
  · rw [if_pos hlist]
    exact nofun

end

end Ayubd.Strings
