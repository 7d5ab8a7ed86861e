import Ayubd.Strings.Split

/-!
# Ayubd — when `str_tokens` returns

Each iteration goes on by `tmp_step`. For a class, a string and single characters that is at least
one byte; for a regular expression it is the end of the match, which may be where it starts. Then
the loop records one empty token after another at the same place, until no memory is left for the
next: `tokens_returns_iff`. (`pcredemo.c` treats this case on its own.)
-/

namespace Ayubd.Strings

open Ayubd

/-- The call with `n = 0` does not come to an end: no allocation fails, and the delimiter is a
regular expression whose matches, taken one after another from the start of the string, come to
one that ends where it is searched from. -/
structure Hangs (A : Heap) (P : Pcre) (d s : CStr) : Prop where
  admits : A.Admits d 0
  grows : ∀ i, A.ok .tokens (32 + 8 * i) = true
  stuck : ∃ re, splitOf P d.bytes = some (.regex re) ∧ ¬ Advances (P.exec re) s.bytes

section
variable {A : Heap} {P : Pcre} {split : Split P.Re} {s : Bytes} {st : Scan}

/-! ## Walks that end -/

/-- Whatever the allocations do, a walk that ends is left. -/
theorem stops_of_advances {n : Nat} (h : st.Ok split s)
    (hadv : Advances (split.stride P) (s.drop st.pstr)) :
    ∃ k, ((Scan.body A P split s n)^[k] st).going = false := by
  -- by induction on the walk; a refused `realloc` only ends the loop sooner
  generalize hrest : s.drop st.pstr = rest at hadv
  induction hadv generalizing st with
  | nil =>
    refine ⟨0, ?_⟩
    rw [Function.iterate_zero, id_eq, Bool.eq_false_iff]
    exact fun hgo => h.left hgo hrest
  | @stop rest hnone =>
    by_cases hgo : st.going = true
    · obtain ⟨-, hleave | ⟨len, step, hsome, -⟩⟩ := Scan.body_cases (A := A) (n := n) h hgo
      · exact ⟨1, hleave.stopped⟩
      · rw [hrest, hnone] at hsome
        cases hsome
    · exact ⟨0, Bool.eq_false_iff.mpr hgo⟩
  | @step rest len step hsome hstep hadv ih =>
    by_cases hgo : st.going = true
    · obtain ⟨hok, hleave | ⟨len', step', hsome', hstrode⟩⟩ := Scan.body_cases (A := A) (n := n) h hgo
      · exact ⟨1, hleave.stopped⟩
      · rw [hrest, hsome, Option.some.injEq, Prod.mk.injEq] at hsome'
        obtain ⟨rfl, rfl⟩ := hsome'
        obtain ⟨k, hk⟩ := ih hok (by rw [hstrode.pstr, ← List.drop_drop, hrest])
        exact ⟨k + 1, hk⟩
    · exact ⟨0, Bool.eq_false_iff.mpr hgo⟩

/-- Only a regular expression can fail to go on. -/
theorem advances_of_not_regex {d : Bytes} (hsplit : splitOf P d = some split)
    (hnot : ∀ re, split ≠ .regex re) (s : Bytes) : Advances (split.stride P) s := by
  cases split with
  | every => exact (walk_every s).1
  | cls cs eat => exact (walk_cls cs eat s).1
  | regex re => exact absurd rfl (hnot re)
  | array d' =>
    refine advances_array ?_ s
    cases d with
    | nil => cases hsplit
    | cons c d =>
      rw [splitOf] at hsplit
      split at hsplit
      · cases hsplit
      · split at hsplit
        · obtain ⟨re, -, hre⟩ := Option.map_eq_some_iff.mp hsplit
          cases hre
        · cases hsplit
          exact List.cons_ne_nil _ _

/-! ## Walks that do not -/

/-- Between two iterations of a loop that hangs. -/
structure Stuck (P : Pcre) (split : Split P.Re) (s : Bytes) (st : Scan) : Prop where
  ok : st.Ok split s
  going : st.going = true
  endless : ¬ Advances (split.stride P) (s.drop st.pstr)
  ntok : ∃ j, st.ntok = 32 + 8 * j

/-- A loop that hangs still hangs after one more round. -/
theorem Stuck.body (h : Stuck P split s st) (hgrows : ∀ i, A.ok .tokens (32 + 8 * i) = true) :
    Stuck P split s (st.body A P split s 0) := by
  obtain ⟨j, hj⟩ := h.ntok
  have hgrant : A.ok .tokens (st.ntok + 8) = true := by
    rw [hj, show 32 + 8 * j + 8 = 32 + 8 * (j + 1) by omega]
    exact hgrows (j + 1)
  obtain ⟨hok, hleave | ⟨len, step, hsome, hstrode⟩⟩ := Scan.body_cases (A := A) (n := 0) h.ok h.going
  · rcases hleave.cause with ⟨-, hdeny⟩ | hnone
    · rw [hgrant] at hdeny
      cases hdeny
    · exact absurd (.stop hnone) h.endless
  · -- a stride of length 0 stays, and behind a longer one the walk does not end either
    have hendless : ¬ Advances (split.stride P) (s.drop (st.pstr + step)) := by
      intro hadv
      rw [← List.drop_drop] at hadv
      rcases Nat.eq_zero_or_pos step with rfl | hpos
      · exact h.endless (by simpa using hadv)
      · exact h.endless (.step hsome hpos hadv)
    refine ⟨hok, ?_, by rw [hstrode.pstr]; exact hendless, ?_⟩
    · rw [hstrode.going, if_neg (by simp), decide_eq_true_eq]
      intro hnil
      exact hendless (hnil ▸ .nil)
    · rcases hstrode.ntok with heq | ⟨heq, -⟩
      · exact ⟨j, by rw [heq, hj]⟩
      · exact ⟨j + 1, by rw [heq, hj]; omega⟩

/-- A loop that hangs still hangs after any number of rounds. -/
theorem Stuck.iterate (h : Stuck P split s st) (hgrows : ∀ i, A.ok .tokens (32 + 8 * i) = true)
    (k : Nat) : Stuck P split s ((Scan.body A P split s 0)^[k] st) := by
  induction k with
  | zero => exact h
  | succ k ih =>
    rw [Function.iterate_succ_apply']
    exact ih.body hgrows

/-- No amount of fuel is enough. -/
theorem Hangs.looping {d s : CStr} (h : Hangs A P d s) (fuel : Nat) :
    strTokens A P (some d) (some s) 0 fuel = .looping := by
  obtain ⟨hadmits, hgrows, re, hsplit, hendless⟩ := h
  have hs : s.bytes ≠ [] := by
    intro hnil
    exact hendless (hnil ▸ .nil)
  have hstuck : Stuck P (.regex re) s.bytes (Scan.start (.regex re) s.bytes 0) :=
    ⟨Scan.ok_start _ hs (by decide), rfl, by rw [stride_regex]; exact hendless, 0, rfl⟩
  have hend := hstuck.iterate hgrows fuel
  rw [strTokens_eq hadmits hs hsplit]
  simp only [hend.ok.inside, hend.going, Bool.false_eq_true, if_false, if_true]

/-! ## Memory that ends -/

/-- As long as the loop goes on it takes one token in each iteration, and the array has been
allowed to grow to its size. -/
theorem grown (heat : split.eatNextEmpty = false) (hs : s ≠ [])
    (hstart : A.ok .tokens 32 = true)
    (hgo : ∀ k, ((Scan.body A P split s 0)^[k] (Scan.start split s 0)).going = true) (k : Nat) :
    let st := (Scan.body A P split s 0)^[k] (Scan.start split s 0)
    st.Ok split s ∧ st.cnt = k ∧
      ∃ j, st.ntok = 32 + 8 * j ∧ ∀ i ≤ j, A.ok .tokens (32 + 8 * i) = true := by
  induction k with
  | zero =>
    refine ⟨Scan.ok_start split hs (by decide), rfl, 0, rfl, ?_⟩
    intro i hi
    rw [Nat.le_zero.mp hi]
    exact hstart
  | succ k ih =>
    obtain ⟨hok, hcnt, j, hj, hgranted⟩ := ih
    have hnext := hgo (k + 1)
    rw [Function.iterate_succ_apply'] at hnext ⊢
    obtain ⟨hok', hleave | ⟨len, step, -, hstrode⟩⟩ :=
      Scan.body_cases (A := A) (n := 0) hok (hgo k)
    · rw [hleave.stopped] at hnext
      cases hnext
    · -- empty tokens are recorded as well, so each stride adds one
      have hlen := congrArg List.length hstrode.tlist
      rw [hok'.length_tlist, List.length_append, hok.length_tlist, hcnt, Scan.kept, heat,
        if_neg (by simp)] at hlen
      refine ⟨hok', hlen, ?_⟩
      rcases hstrode.ntok with heq | ⟨heq, hgrant⟩
      · exact ⟨j, by rw [heq, hj], hgranted⟩
      · refine ⟨j + 1, by rw [heq, hj]; omega, ?_⟩
        intro i hi
        rcases Nat.lt_or_ge j i with hlt | hge
        · rw [show 32 + 8 * i = 32 + 8 * j + 8 by omega, ← hj]
          exact hgrant
        · exact hgranted i hge

/-- If the array cannot grow for ever, the loop is left. -/
theorem stops_of_denied (heat : split.eatNextEmpty = false) (hs : s ≠ [])
    (hstart : A.ok .tokens 32 = true) {i : Nat} (hdeny : A.ok .tokens (32 + 8 * i) = false) :
    ∃ k, ((Scan.body A P split s 0)^[k] (Scan.start split s 0)).going = false := by
  by_contra hnever
  have hgo : ∀ k, ((Scan.body A P split s 0)^[k] (Scan.start split s 0)).going = true := by
    intro k
    by_contra hk
    exact hnever ⟨k, Bool.eq_false_iff.mpr hk⟩
  -- so many iterations need more places than were denied
  obtain ⟨hok, hcnt, j, hj, hgranted⟩ := grown heat hs hstart hgo (32 + 8 * i + 1)
  have hle := hok.cnt_le
  have hgrant := hgranted i (by omega)
  rw [hdeny] at hgrant
  cases hgrant

end

/-- **When `str_tokens` returns**: for every delimiter, every string and every behaviour of the
allocator, with `n = 0`, exactly if it does not hang. -/
theorem tokens_returns_iff (A : Heap) (P : Pcre) (d s : CStr) :
    (∃ fuel, strTokens A P (some d) (some s) 0 fuel ≠ .looping) ↔ ¬ Hangs A P d s := by
  constructor
  · rintro ⟨fuel, hret⟩ hhangs
    exact hret (hhangs.looping fuel)
  · intro hnot
    by_cases hentered : A.Admits d 0 ∧ s.bytes ≠ [] ∧ (splitOf P d.bytes).isSome
    · obtain ⟨hadmits, hs, hsome⟩ := hentered
      obtain ⟨split, hsplit⟩ := Option.isSome_iff_exists.mp hsome
      -- either the walk ends, or it is that of a regular expression and memory does
      have hstops : ∃ k, ((Scan.body A P split s.bytes 0)^[k]
          (Scan.start split s.bytes 0)).going = false := by
        by_cases hadv : Advances (split.stride P) s.bytes
        · exact stops_of_advances (Scan.ok_start split hs (by decide)) hadv
        · cases split with
          | regex re =>
            rw [stride_regex] at hadv
            have hdeny : ∃ i, A.ok .tokens (32 + 8 * i) = false := by
              by_contra hnever
              refine hnot ⟨hadmits, fun i => ?_, re, hsplit, hadv⟩
              by_contra hi
              exact hnever ⟨i, Bool.eq_false_iff.mpr hi⟩
            obtain ⟨i, hi⟩ := hdeny
            exact stops_of_denied rfl hs hadmits.tokens hi
          | _ => exact absurd (advances_of_not_regex hsplit nofun s.bytes) hadv
      obtain ⟨k, hk⟩ := hstops
      refine ⟨k, ?_⟩
      rw [strTokens_eq hadmits hs hsplit]
      simp only [hk, Bool.false_eq_true, if_false]
      split
      · exact nofun
      · exact nofun
    · exact ⟨0, strTokens_returns hentered⟩

def xStar : CStr := ⟨ascii "/x*/", by decide⟩

/-- It matches `a` at once and takes nothing of it: with memory enough, the loop never ends. -/
theorem xStar_never_returns :
    ¬ ∃ fuel, strTokens .unlimited (.star 120) (some xStar) (some ⟨ascii "a", by decide⟩) 0 fuel ≠
      .looping := by
  have hstuck : ¬ Advances ((Pcre.star 120).exec ()) (ascii "a") :=
    not_advances_of_zero (by decide) (by decide : (Pcre.star 120).exec () (ascii "a") = some (0, 0))
  rintro ⟨fuel, hret⟩
  exact hret (Hangs.looping ⟨⟨rfl, rfl, rfl⟩, fun _ => rfl, (), rfl, hstuck⟩ fuel)

end Ayubd.Strings
