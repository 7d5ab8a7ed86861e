import Ayubd.Strings.Split

/-!
# Ayubd — replacing in a string

`str_replace` splits the haystack and writes each token followed by the replacement. The token
list no longer tells whether the haystack ended with a delimiter, and the count it reports is the
number of tokens: both are right exactly if it did, `replace_iff`. The loops that write count in
an `int`, and the size of the text is a `size_t`.
-/

namespace Ayubd.Strings

open Ayubd

def CStr.of (b : Bytes) : CStr where
  bytes := cstr b
  nulFree := by
    intro hmem
    have hne := List.mem_takeWhile_imp hmem
    simp at hne

/-- `string_new(ptr, len)`: `none` when there is no memory for it. The string it holds is `none`
for a null pointer. -/
def stringNew (A : Heap) (ptr : Option Bytes) (len : Nat) : Option (Option CStr) :=
  if A.ok .string 1 then
    match ptr with
    | none => some none
    | some b => if len ≠ 0 then some (some (CStr.of b)) else some none
  else none

def intMax : Nat := 2 ^ 31 - 1

/-- `str_replace(search, replace, haystack, nreplaced)`: the string it returns and the count it
leaves in `nreplaced`. More than `INT_MAX` tokens overflow the counter `i` of its loops, and a text
whose size wraps is written behind its block. -/
def strReplace (A : Heap) (P : Pcre) (search replace haystack : CStr) (fuel : Nat) :
    Ran (Option (Option CStr) × Nat) :=
  match strTokens A P (some search) (some haystack) 0 fuel with
  | .looping => .looping
  | .undefined => .undefined
  | .returned none =>
    .returned (stringNew A (some haystack.bytes) haystack.bytes.length, 0)
  | .returned (some toks) =>
    if toks.length > intMax then .undefined
    else
      let size := (toks.map fun t => t.len + replace.bytes.length).sum + 1
      let flen := size % 2 ^ 64
      if A.ok .text flen then
        if flen < size then .undefined
        else
          let final := toks.flatMap fun t => t.text haystack.bytes ++ replace.bytes
          .returned (stringNew A (some final) flen, toks.length)
      else .returned (stringNew A none flen, 0)

/-! ## What a replacement is -/

/-- The haystack with each character of `cs` replaced by `r`. -/
def replaceAll (cs r h : CStr) : CStr where
  bytes := h.bytes.flatMap fun c => if c ∈ cs.bytes then r.bytes else [c]
  nulFree := by
    intro hmem
    obtain ⟨c, hc, hmem⟩ := List.mem_flatMap.mp hmem
    split at hmem
    · exact r.nulFree hmem
    · rw [List.mem_singleton] at hmem
      exact h.nulFree (hmem ▸ hc)

/-- The call returns the haystack with the characters replaced, and their number. -/
def Replaces (A : Heap) (P : Pcre) (cs r h : CStr) : Prop :=
  ∀ fuel, h.bytes.length ≤ fuel →
    strReplace A P (charClass cs) r h fuel =
      .returned (some (some (replaceAll cs r h)), h.bytes.countP (· ∈ cs.bytes))

/-! ## What `str_replace` returns -/

section
variable {A : Heap} {P : Pcre} {cs r h : CStr}

theorem of_cstr {b : Bytes} {t : CStr} (hb : t.bytes = b) : CStr.of b = t := by
  subst hb
  obtain ⟨b, hfree⟩ := t
  simp only [CStr.of, cstr_of_not_mem hfree]

/-- What is written for the parts of the haystack is as long as the sum of their lengths. -/
theorem sum_length_parts (ts : List Token) (parts : List Bytes)
    (hlens : ts.map (·.len) = parts.map List.length) :
    (ts.map fun t => t.len + r.bytes.length).sum = (parts.flatMap (· ++ r.bytes)).length := by
  have hadd := congrArg (List.map (· + r.bytes.length)) hlens
  rw [List.map_map, List.map_map] at hadd
  rw [List.length_flatMap]
  simp only [List.length_append]
  exact congrArg List.sum hadd

/-- Every part of the haystack with the replacement behind it, where the counter and the size do
not overflow. -/
theorem strReplace_parts (hA : A.Succeeds) (hh : h.bytes ≠ []) {fuel : Nat}
    (hfuel : h.bytes.length ≤ fuel) :
    let parts := dropEmptyLast (h.bytes.splitOnP (· ∈ cs.bytes))
    let final := parts.flatMap (· ++ r.bytes)
    strReplace A P (charClass cs) r h fuel =
      if parts.length ≤ intMax ∧ final.length + 1 < 2 ^ 64 then
        .returned (some (some (CStr.of final)), parts.length)
      else .undefined := by
  intro parts final
  obtain ⟨hadv, hslices, hcuts⟩ := walk_cls (P := P) cs.bytes false h.bytes
  obtain ⟨ts, hcall, hplaces, htexts⟩ :=
    (yields_parts_iff hA hh (splitOf_charClass P cs) hadv rfl hslices hcuts).mpr (.inl rfl)
  have htexts : ts.map (Token.text h.bytes) = parts := htexts
  have hplaces : ts.map (fun t => (t.ptr, t.len)) = locate 1 0 parts := hplaces
  have hlen : ts.length = parts.length := by rw [← htexts, List.length_map]
  -- the sum of the loop is the length of the text it builds
  have hsum : (ts.map fun t => t.len + r.bytes.length).sum = final.length := by
    apply sum_length_parts
    rw [← lengths_locate 1 0 parts, ← hplaces, List.map_map]
    rfl
  have hfinal : ts.flatMap (fun t => t.text h.bytes ++ r.bytes) = final := by
    simp only [final, ← htexts, List.flatMap_map]
  simp only [strReplace, hcall fuel hfuel, hlen, hfinal, hsum, hA .text _, if_true]
  -- the counter overflows, else the size wraps, else the text is returned
  by_cases hmany : parts.length > intMax
  · rw [if_pos hmany, if_neg (by omega)]
  · rw [if_neg hmany]
    by_cases hwrap : final.length + 1 < 2 ^ 64
    · rw [if_neg (by omega), if_pos ⟨by omega, hwrap⟩]
      simp only [stringNew, hA .string 1, if_true]
      rw [if_pos (by omega)]
    · rw [if_pos (by omega), if_neg (by omega)]

/-- A haystack that ends with a character of the class: each part is followed by one. -/
theorem parts_of_last (hlast : ∃ c, h.bytes.getLast? = some c ∧ c ∈ cs.bytes) :
    let parts := dropEmptyLast (h.bytes.splitOnP (· ∈ cs.bytes))
    parts.flatMap (· ++ r.bytes) = (replaceAll cs r h).bytes ∧
      parts.length = h.bytes.countP (· ∈ cs.bytes) := by
  intro parts
  obtain ⟨c, hget, hc⟩ := hlast
  obtain ⟨s, hs⟩ := List.getLast?_eq_some_iff.mp hget
  have hparts : parts = s.splitOnP (· ∈ cs.bytes) := by
    simp only [parts, hs]
    exact splitOnP_concat (p := (· ∈ cs.bytes)) (by simpa using hc) s
  rw [hparts, flatMap_splitOnP, length_splitOnP]
  simp only [replaceAll, hs, List.flatMap_append, List.flatMap_singleton, List.countP_append,
    List.countP_singleton, decide_eq_true_eq, if_pos hc, and_self]

/-- Any other haystack has one part more. -/
theorem length_parts_of_last (hh : h.bytes ≠ [])
    (hlast : ¬ ∃ c, h.bytes.getLast? = some c ∧ c ∈ cs.bytes) :
    (dropEmptyLast (h.bytes.splitOnP (· ∈ cs.bytes))).length =
      h.bytes.countP (· ∈ cs.bytes) + 1 := by
  obtain ⟨s, c, hs⟩ := (List.eq_nil_or_concat' h.bytes).resolve_left hh
  have hc : c ∉ cs.bytes := by
    intro hmem
    exact hlast ⟨c, by rw [hs, List.getLast?_concat], hmem⟩
  rw [hs, splitOnP_concat_of_not (by simpa using hc), length_splitOnP]

end

/-- **When `str_replace` replaces**: exactly if the haystack ends with a character to be replaced
and has at most `INT_MAX` of them, and the text to be made has, with its NUL, a size. -/
theorem replace_iff (A : Heap) (hA : A.Succeeds) (P : Pcre) (cs r h : CStr) (hh : h.bytes ≠ []) :
    Replaces A P cs r h ↔
      (∃ c, h.bytes.getLast? = some c ∧ c ∈ cs.bytes) ∧
        h.bytes.countP (· ∈ cs.bytes) ≤ intMax ∧ (replaceAll cs r h).bytes.length + 1 < 2 ^ 64 := by
  constructor
  · intro hreplaces
    have hcall := hreplaces h.bytes.length (Nat.le_refl _)
    rw [strReplace_parts hA hh (Nat.le_refl _)] at hcall
    split at hcall
    · next hfew =>
      simp only [Ran.returned.injEq, Prod.mk.injEq] at hcall
      -- without a delimiter at the end the count is off by one
      have hlast : ∃ c, h.bytes.getLast? = some c ∧ c ∈ cs.bytes := by
        by_contra hnot
        have := length_parts_of_last hh hnot
        omega
      obtain ⟨htext, hlen⟩ := parts_of_last (r := r) hlast
      rw [htext, hlen] at hfew
      exact ⟨hlast, hfew⟩
    · cases hcall
  · rintro ⟨hlast, hfew⟩ fuel hfuel
    obtain ⟨htext, hlen⟩ := parts_of_last (r := r) hlast
    rw [strReplace_parts hA hh hfuel, htext, hlen, if_pos hfew, of_cstr rfl]

/-- `,` is replaced by `--` in `a,b,`. -/
theorem replace_ending :
    Replaces .unlimited (.star 120) ⟨ascii ",", by decide⟩ ⟨ascii "--", by decide⟩
      ⟨ascii "a,b,", by decide⟩ := by
  refine (replace_iff .unlimited (fun _ _ => rfl) (.star 120) _ _ _ (by decide)).mpr
    ⟨?_, by decide, by decide⟩
  exact ⟨44, by decide, by decide⟩

/-- From `a,b` it makes `a--b--`, with two replacements. -/
theorem replace_not_ending :
    strReplace .unlimited (.star 120) (charClass ⟨ascii ",", by decide⟩) ⟨ascii "--", by decide⟩
        ⟨ascii "a,b", by decide⟩ 3 = .returned (some (some ⟨ascii "a--b--", by decide⟩), 2) ∧
      ¬ Replaces .unlimited (.star 120) ⟨ascii ",", by decide⟩ ⟨ascii "--", by decide⟩
        ⟨ascii "a,b", by decide⟩ := by
  have hrun : strReplace .unlimited (.star 120) (charClass ⟨ascii ",", by decide⟩)
      ⟨ascii "--", by decide⟩ ⟨ascii "a,b", by decide⟩ 3 =
      .returned (some (some ⟨ascii "a--b--", by decide⟩), 2) := by decide
  refine ⟨hrun, ?_⟩
  intro hreplaces
  rw [hreplaces 3 (by decide)] at hrun
  revert hrun
  decide

end Ayubd.Strings
