import Mathlib.Data.List.Infix
import Mathlib.Data.List.TakeWhile
import Mathlib.Tactic.Common

/-!
# Ayubd — cutting a list into slices

A splitter walks over a list: at each place a *stride* says how long the next slice is and how
far on the walk continues, or that there is nothing more. `slices` are the places and lengths
such a walk meets, `cuts` the parts of the list at these places. What the parts should be is
said without a walk: `List.splitOnP` for separators that are single elements, `splitOnSub` for a
separator that is itself a list, and `locate` for where the parts lie. `slices_eq_locate` is the
rule that connects the two.
-/

namespace Ayubd

variable {α : Type}

/-! ## Walking -/

/-- The slices of a list, as offsets from `off` and lengths. A stride of length 0 ends the
walk. -/
def slices (stride : List α → Option (Nat × Nat)) : Nat → List α → List (Nat × Nat)
  | _, [] => []
  | off, c :: s =>
    match stride (c :: s) with
    | some (len, step + 1) => (off, len) :: slices stride (off + (step + 1)) (s.drop step)
    | _ => []
termination_by _ s => s.length
decreasing_by
  rw [List.length_drop, List.length_cons]
  omega

def slice (s : List α) (t : Nat × Nat) : List α := (s.drop t.1).take t.2

def cuts (stride : List α → Option (Nat × Nat)) (s : List α) : List (List α) :=
  (slices stride 0 s).map (slice s)

section
variable {stride : List α → Option (Nat × Nat)} {s : List α} {off len step : Nat}

@[simp] theorem slices_nil : slices stride off [] = [] := by rw [slices]

theorem slices_of_none (h : stride s = none) : slices stride off s = [] := by
  cases s with
  | nil => exact slices_nil
  | cons c s => simp only [slices, h]

/-- A positive step cuts off one slice and goes on behind it. -/
theorem slices_of_some (hs : s ≠ []) (h : stride s = some (len, step)) (hstep : 0 < step) :
    slices stride off s = (off, len) :: slices stride (off + step) (s.drop step) := by
  obtain ⟨c, s, rfl⟩ := List.exists_cons_of_ne_nil hs
  obtain ⟨step, rfl⟩ := Nat.exists_eq_succ_of_ne_zero (Nat.ne_of_gt hstep)
  simp only [slices, h, List.drop_succ_cons, Nat.succ_eq_add_one]

theorem slices_eq_cons {t : Nat × Nat} {ts : List (Nat × Nat)}
    (h : slices stride off s = t :: ts) : t.1 = off := by
  cases s with
  | nil =>
    rw [slices_nil] at h
    cases h
  | cons c s =>
    rw [slices] at h
    split at h
    · cases h
      rfl
    · cases h

/-- The slices of a text further right are the same slices, shifted. -/
theorem slices_shift (off k : Nat) (s : List α) :
    slices stride (off + k) s = (slices stride off s).map fun t => (t.1 + k, t.2) := by
  fun_induction slices stride off s with
  | case1 => simp
  | case2 off c s len step h ih =>
    simp only [slices, h, List.map_cons, ← ih]
    rw [show off + k + (step + 1) = off + (step + 1) + k by omega]
  | case3 off c s h =>
    rw [slices]
    split
    · next len step heq => exact absurd heq (h len step)
    · rfl

theorem cuts_of_some (hs : s ≠ []) (h : stride s = some (len, step)) (hstep : 0 < step) :
    cuts stride s = s.take len :: cuts stride (s.drop step) := by
  rw [cuts, slices_of_some hs h hstep, slices_shift 0 step, List.map_cons, List.map_map]
  congr 1
  apply List.map_congr_left
  intro t _
  simp only [Function.comp, slice, List.drop_drop]
  rw [Nat.add_comm step]

end

/-- The walk over `s` ends: every stride goes on, until there is none or nothing is left. -/
inductive Advances (stride : List α → Option (Nat × Nat)) : List α → Prop where
  | nil : Advances stride []
  | stop {s : List α} (h : stride s = none) : Advances stride s
  | step {s : List α} {len step : Nat} (h : stride s = some (len, step)) (hpos : 0 < step)
      (hrest : Advances stride (s.drop step)) : Advances stride s

/-- A walk that goes on at every place ends. -/
theorem advances_of_pos {stride : List α → Option (Nat × Nat)}
    (h : ∀ s len step, s ≠ [] → stride s = some (len, step) → 0 < step) (s : List α) :
    Advances stride s := by
  induction hn : s.length using Nat.strong_induction_on generalizing s with
  | _ n ih =>
    by_cases hs : s = []
    · exact hs ▸ .nil
    · cases hstride : stride s with
      | none => exact .stop hstride
      | some t =>
        have hpos := h s t.1 t.2 hs hstride
        have hlen := List.length_pos_iff.mpr hs
        refine .step hstride hpos (ih _ ?_ (s.drop t.2) rfl)
        rw [List.length_drop]
        omega

/-- A walk that does not leave its place does not end. -/
theorem not_advances_of_zero {stride : List α → Option (Nat × Nat)} {s : List α} {len : Nat}
    (hs : s ≠ []) (h : stride s = some (len, 0)) : ¬ Advances stride s := by
  intro hadv
  cases hadv with
  | nil => exact hs rfl
  | stop hnone =>
    rw [h] at hnone
    cases hnone
  | step hsome hpos =>
    rw [h] at hsome
    cases hsome
    exact absurd hpos (Nat.lt_irrefl 0)

/-! ## Parts and where they lie -/

/-- Where parts lie that are separated by `sep` elements each. -/
def locate (sep : Nat) : Nat → List (List α) → List (Nat × Nat)
  | _, [] => []
  | off, p :: ps => (off, p.length) :: locate sep (off + p.length + sep) ps

/-- The parts without an empty one at the end. -/
def dropEmptyLast : List (List α) → List (List α)
  | [] => []
  | [p] => if p.isEmpty then [] else [p]
  | p :: q :: ps => p :: dropEmptyLast (q :: ps)

theorem dropEmptyLast_cons {p : List α} {ps : List (List α)} (h : ps ≠ []) :
    dropEmptyLast (p :: ps) = p :: dropEmptyLast ps := by
  cases ps with
  | nil => exact absurd rfl h
  | cons q ps => rfl

theorem dropEmptyLast_single {p : List α} (h : p ≠ []) : dropEmptyLast [p] = [p] := by
  simp [dropEmptyLast, h]

/-- **The rule for a walk.** If at every place the stride takes the next part and, unless it
ends there, passes `sep` more elements, or there is no stride and no part any more, the walk
meets the parts where they lie. -/
theorem slices_eq_locate_or {stride : List α → Option (Nat × Nat)} {sep : Nat}
    (parts : List α → List (List α)) (hnil : parts [] = [])
    (hcons : ∀ s, s ≠ [] → (stride s = none ∧ parts s = []) ∨
      ∃ len step, stride s = some (len, step) ∧ 0 < step ∧ len ≤ s.length ∧
        parts s = s.take len :: parts (s.drop step) ∧ (step = len + sep ∨ s.drop step = []))
    (off : Nat) (s : List α) :
    slices stride off s = locate sep off (parts s) ∧ cuts stride s = parts s := by
  induction hn : s.length using Nat.strong_induction_on generalizing off s with
  | _ n ih =>
    by_cases hs : s = []
    · subst hs
      simp [hnil, cuts, locate]
    · rcases hcons s hs with ⟨hnone, hparts⟩ | ⟨len, step, h, hstep, hlen, hparts, hsep⟩
      · rw [cuts, slices_of_none hnone, slices_of_none hnone, hparts]
        exact ⟨rfl, rfl⟩
      · have hlt : (s.drop step).length < n := by
          have := List.length_pos_iff.mpr hs
          rw [List.length_drop]
          omega
        obtain ⟨hslices, hcuts⟩ := ih _ hlt (off + step) (s.drop step) rfl
        rw [slices_of_some hs h hstep, cuts_of_some hs h hstep, hparts, hslices, hcuts]
        refine ⟨?_, rfl⟩
        rw [locate, List.length_take, Nat.min_eq_left hlen]
        rcases hsep with rfl | hend
        · rw [Nat.add_assoc]
        · -- the walk has come to the end: no parts are left to be placed
          rw [hend, hnil]
          rfl

/-- The rule for a walk that has a stride at every place. -/
theorem slices_eq_locate {stride : List α → Option (Nat × Nat)} {sep : Nat}
    (parts : List α → List (List α)) (hnil : parts [] = [])
    (hcons : ∀ s, s ≠ [] → ∃ len step, stride s = some (len, step) ∧ 0 < step ∧ len ≤ s.length ∧
      parts s = s.take len :: parts (s.drop step) ∧ (step = len + sep ∨ s.drop step = []))
    (off : Nat) (s : List α) :
    slices stride off s = locate sep off (parts s) ∧ cuts stride s = parts s :=
  slices_eq_locate_or parts hnil (fun s hs => .inr (hcons s hs)) off s

/-! ## Separators that are single elements -/

/-- The stride of a walk to the next element with `p`. -/
def strideP (p : α → Bool) (s : List α) : Nat × Nat :=
  let k := (s.takeWhile (!p ·)).length
  (k, if k < s.length then k + 1 else k)

/-- One cut at a byte class takes the first piece, and either one more byte or nothing is left. -/
theorem strideP_spec (p : α → Bool) {s : List α} (hs : s ≠ []) :
    ∃ len step, some (strideP p s) = some (len, step) ∧ 0 < step ∧ len ≤ s.length ∧
      dropEmptyLast (s.splitOnP p) =
        s.take len :: dropEmptyLast ((s.drop step).splitOnP p) ∧
      (step = len + 1 ∨ s.drop step = []) := by
  have hsplit := List.takeWhile_append_dropWhile (p := (!p ·)) (l := s)
  refine ⟨_, _, rfl, ?_⟩
  generalize hxs : s.takeWhile (!p ·) = xs at hsplit
  have hclean : ∀ x ∈ xs, p x = false := by
    intro x hx
    rw [← hxs] at hx
    simpa using List.mem_takeWhile_imp hx
  cases hrest : s.dropWhile (!p ·) with
  | nil =>
    -- no separator: the whole list is the last part
    rw [hrest, List.append_nil] at hsplit
    subst hsplit
    have hpos := List.length_pos_iff.mpr hs
    simp only [Nat.lt_irrefl, if_false, List.take_length, List.drop_length]
    refine ⟨hpos, Nat.le_refl _, ?_, .inr trivial⟩
    rw [List.splitOnP_eq_singleton hclean, dropEmptyLast_single hs]
    rfl
  | cons c rest =>
    rw [hrest] at hsplit
    have hsep : p c = true := by
      have hhead := List.head_dropWhile_not (!p ·) (l := s)
        (by rw [hrest]; exact List.cons_ne_nil _ _)
      simpa [hrest] using hhead
    have hlt : xs.length < s.length := by
      rw [← hsplit, List.length_append, List.length_cons]
      omega
    simp only [if_pos hlt]
    refine ⟨Nat.succ_pos _, Nat.le_of_lt hlt, ?_, .inl trivial⟩
    rw [← hsplit, List.splitOnP_append_cons_of_forall_mem hclean c hsep,
      dropEmptyLast_cons (List.splitOnP_ne_nil _ _), List.take_left]
    simp

/-- The stride of a walk to the next element with `p`, which ends where there is none. -/
def strideFirst (p : α → Bool) (s : List α) : Option (Nat × Nat) :=
  (s.findIdx? p).map fun i => (i, i + 1)

/-- Such a walk meets the parts that a separator follows. -/
theorem strideFirst_spec (p : α → Bool) (s : List α) :
    (strideFirst p s = none ∧ (s.splitOnP p).dropLast = []) ∨
      ∃ len step, strideFirst p s = some (len, step) ∧ 0 < step ∧ len ≤ s.length ∧
        (s.splitOnP p).dropLast = s.take len :: ((s.drop step).splitOnP p).dropLast ∧
        (step = len + 1 ∨ s.drop step = []) := by
  unfold strideFirst
  cases hidx : s.findIdx? p with
  | none =>
    left
    rw [List.splitOnP_eq_singleton (List.findIdx?_eq_none_iff.mp hidx)]
    exact ⟨rfl, rfl⟩
  | some i =>
    right
    obtain ⟨hlt, hsep, hclean⟩ := List.findIdx?_eq_some_iff_getElem.mp hidx
    have hsplit : s = s.take i ++ s[i] :: s.drop (i + 1) := by
      rw [List.getElem_cons_drop hlt, List.take_append_drop]
    have hbefore : ∀ x ∈ s.take i, p x = false := by
      intro x hx
      obtain ⟨j, hj, rfl⟩ := List.mem_take_iff_getElem.mp hx
      exact Bool.eq_false_iff.mpr (hclean j (by omega))
    refine ⟨i, i + 1, rfl, Nat.succ_pos _, Nat.le_of_lt hlt, ?_, .inl rfl⟩
    conv_lhs => rw [hsplit]
    rw [List.splitOnP_append_cons_of_forall_mem hbefore _ hsep,
      List.dropLast_cons_of_ne_nil (List.splitOnP_ne_nil _ _)]

theorem dropEmptyLast_concat_nil (l : List (List α)) : dropEmptyLast (l ++ [[]]) = l := by
  induction l with
  | nil => rfl
  | cons p l ih => rw [List.cons_append, dropEmptyLast_cons (by simp), ih]

/-- Nothing is dropped where the last piece has text. -/
theorem dropEmptyLast_of_getLast {l : List (List α)} (h : l.getLast? ≠ some []) :
    dropEmptyLast l = l := by
  induction l with
  | nil => rfl
  | cons p l ih =>
    cases l with
    | nil =>
      apply dropEmptyLast_single
      rintro rfl
      exact h rfl
    | cons q l =>
      rw [dropEmptyLast_cons (List.cons_ne_nil _ _), ih (by simpa using h)]

/-- The last piece goes exactly where it is empty. -/
theorem dropEmptyLast_eq_dropLast_iff {l : List (List α)} (h : l ≠ []) :
    dropEmptyLast l = l.dropLast ↔ l.getLast? = some [] := by
  obtain ⟨ps, q, rfl⟩ := (List.eq_nil_or_concat' l).resolve_left h
  rw [List.dropLast_concat, List.getLast?_concat, Option.some.injEq]
  constructor
  · intro heq
    by_contra hq
    rw [dropEmptyLast_of_getLast (by simpa using hq)] at heq
    simpa using congrArg List.length heq
  · rintro rfl
    exact dropEmptyLast_concat_nil ps

section
variable {p : α → Bool}

/-- A text has one piece more than delimiters. -/
theorem length_splitOnP (s : List α) : (s.splitOnP p).length = s.countP p + 1 := by
  induction s with
  | nil => rfl
  | cons x s ih =>
    rw [List.splitOnP_cons_eq_if_modifyHead, List.countP_cons]
    split
    · rw [List.length_cons, ih]
    · rw [List.length_modifyHead, ih, Nat.add_zero]

/-- Every part with `r` behind it: the list with each separator replaced, and one `r` more. -/
theorem flatMap_splitOnP (r s : List α) :
    (s.splitOnP p).flatMap (· ++ r) = (s.flatMap fun c => if p c then r else [c]) ++ r := by
  induction s with
  | nil => simp
  | cons x s ih =>
    rw [List.splitOnP_cons_eq_if_modifyHead, List.flatMap_cons, List.append_assoc, ← ih]
    split
    · rw [List.flatMap_cons, List.nil_append]
    · obtain ⟨q, qs, hcons⟩ := List.exists_cons_of_ne_nil (List.splitOnP_ne_nil p s)
      simp [hcons]

/-- A delimiter at the end adds only the empty piece which is dropped. -/
theorem splitOnP_concat {c : α} (h : p c = true) (s : List α) :
    dropEmptyLast ((s ++ [c]).splitOnP p) = s.splitOnP p := by
  rw [List.splitOnP_append_cons s [] h, List.splitOnP_nil, dropEmptyLast_concat_nil]

/-- The last part is empty exactly if a separator ends the list. -/
theorem getLast?_splitOnP_concat (c : α) (s : List α) :
    ((s ++ [c]).splitOnP p).getLast? = some [] ↔ p c = true := by
  constructor
  · intro hlast
    by_contra h
    induction s with
    | nil => simp [List.splitOnP_cons_eq_if_modifyHead, h] at hlast
    | cons x s ih =>
      rw [List.cons_append, List.splitOnP_cons_eq_if_modifyHead] at hlast
      obtain ⟨q, qs, hcons⟩ := List.exists_cons_of_ne_nil (List.splitOnP_ne_nil p (s ++ [c]))
      rw [hcons] at ih hlast
      split at hlast
      · exact ih (by rwa [List.getLast?_cons_cons] at hlast)
      · -- the first part grows by `x`; it is also the last one if there is no other
        cases qs with
        | nil => simp at hlast
        | cons q' qs =>
          rw [List.modifyHead_cons, List.getLast?_cons_cons] at hlast
          exact ih (by rwa [List.getLast?_cons_cons])
  · intro h
    rw [List.splitOnP_append_cons s [] h, List.splitOnP_nil, List.getLast?_concat]

/-- A text which ends in no delimiter loses no piece. -/
theorem splitOnP_concat_of_not {c : α} (h : p c = false) (s : List α) :
    dropEmptyLast ((s ++ [c]).splitOnP p) = (s ++ [c]).splitOnP p := by
  apply dropEmptyLast_of_getLast
  rw [ne_eq, getLast?_splitOnP_concat, h]
  exact Bool.false_ne_true

end

/-! ## Separators that are lists -/

section
variable [DecidableEq α]

/-- The place of the first occurrence of `d`. -/
def firstOcc (d : List α) : List α → Option Nat
  | [] => if d = [] then some 0 else none
  | c :: s => if d <+: c :: s then some 0 else (firstOcc d s).map (· + 1)

theorem firstOcc_some {d s : List α} {i : Nat} (h : firstOcc d s = some i) : d <+: s.drop i := by
  induction s generalizing i with
  | nil =>
    rw [firstOcc] at h
    split at h
    · next hd => simp [hd]
    · cases h
  | cons c s ih =>
    rw [firstOcc] at h
    split at h
    · next hd =>
      cases h
      exact hd
    · obtain ⟨j, hj, rfl⟩ := Option.map_eq_some_iff.mp h
      exact ih hj

/-- Nothing is found exactly where the text does not contain the delimiter. -/
theorem firstOcc_eq_none_iff {d s : List α} : firstOcc d s = none ↔ ¬ d <:+: s := by
  induction s with
  | nil => simp [firstOcc]
  | cons c s ih =>
    rw [firstOcc, List.infix_cons_iff, not_or]
    split
    · next hd => simp [hd]
    · next hd => simp [hd, ih]

/-- An occurrence lies within the text. -/
theorem length_of_firstOcc {d s : List α} {i : Nat} (h : firstOcc d s = some i) (hd : d ≠ []) :
    i + d.length ≤ s.length := by
  have hle := (firstOcc_some h).length_le
  have hpos := List.length_pos_iff.mpr hd
  rw [List.length_drop] at hle
  omega

/-- The parts of a list between the successive occurrences of `d`, from the left, each one
behind the last. -/
def splitOnSub (d s : List α) : List (List α) :=
  match firstOcc d s with
  | none => [s]
  | some i =>
    if (s.drop (i + d.length)).length < s.length then
      s.take i :: splitOnSub d (s.drop (i + d.length))
    else [s]
termination_by s.length
decreasing_by assumption

/-- Splitting gives one piece at least. -/
theorem splitOnSub_ne_nil (d s : List α) : splitOnSub d s ≠ [] := by
  rw [splitOnSub]
  split
  · simp
  · split <;> simp

theorem splitOnSub_nil {d : List α} (hd : d ≠ []) : splitOnSub d [] = [[]] := by
  rw [splitOnSub, firstOcc, if_neg hd]

/-- The stride of a walk to the next occurrence of `d`, which passes `step` elements there. -/
def strideSub (d : List α) (step : Nat) (s : List α) : Nat × Nat :=
  match firstOcc d s with
  | none => (s.length, s.length)
  | some i => (i, i + step)

theorem strideSub_of_none {d s : List α} (h : firstOcc d s = none) (step : Nat) :
    strideSub d step s = (s.length, s.length) := by
  simp only [strideSub, h]

/-- With an occurrence the piece ends there and the step goes beyond it. -/
theorem strideSub_of_some {d s : List α} {i : Nat} (h : firstOcc d s = some i) (step : Nat) :
    strideSub d step s = (i, i + step) := by
  simp only [strideSub, h]

/-- A cut takes something from a text which is not empty. -/
theorem strideSub_pos (d : List α) {s : List α} (hs : s ≠ []) {step : Nat} (hstep : 0 < step) :
    0 < (strideSub d step s).2 := by
  cases h : firstOcc d s with
  | none =>
    rw [strideSub_of_none h]
    exact List.length_pos_iff.mpr hs
  | some i =>
    rw [strideSub_of_some h]
    exact Nat.add_pos_right i hstep

/-- One cut at a string takes the first piece, and either the delimiter as well or nothing is
left. -/
theorem strideSub_spec {d : List α} (hd : d ≠ []) {s : List α} (hs : s ≠ []) :
    ∃ len step, some (strideSub d d.length s) = some (len, step) ∧ 0 < step ∧ len ≤ s.length ∧
      dropEmptyLast (splitOnSub d s) =
        s.take len :: dropEmptyLast (splitOnSub d (s.drop step)) ∧
      (step = len + d.length ∨ s.drop step = []) := by
  have hpos := List.length_pos_iff.mpr hd
  refine ⟨_, _, rfl, ?_⟩
  rw [splitOnSub]
  cases h : firstOcc d s with
  | none =>
    simp only [List.take_length, List.drop_length, splitOnSub_nil hd]
    exact ⟨List.length_pos_iff.mpr hs, Nat.le_refl _, dropEmptyLast_single hs, .inr trivial⟩
  | some i =>
    have hle := length_of_firstOcc h hd
    have hlt : (s.drop (i + d.length)).length < s.length := by
      rw [List.length_drop]
      omega
    simp only [if_pos hlt]
    refine ⟨by omega, by omega, ?_, .inl trivial⟩
    rw [dropEmptyLast_cons (splitOnSub_ne_nil _ _)]

end

end Ayubd
