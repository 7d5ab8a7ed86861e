import Ayubd.Strings.Split

/-!
# Ayubd — a class written as a regular expression

`main` of `str_tokens.c` lists `"[…]"` and `"/[…]/"` as alternatives for the same split. Both
take the text up to the next character of the class as a token. They differ where there is no
such character any more: the class takes the rest as the last token, the regular expression
jumps out of the loop before it has taken anything. So the two agree exactly on strings that
end with a character of the class: `regex_class_iff`.
-/

namespace Ayubd.Strings

open Ayubd

/-! ## The library on a class -/

/-- What is documented of the pattern `[cs]` when no character of `cs` has a special meaning: it
compiles, and a match is the leftmost occurrence of one of the characters. -/
def Pcre.FindsClass (P : Pcre) (cs : Bytes) : Prop :=
  ∃ re, P.compile (91 :: (cs ++ [93])) = some re ∧
    ∀ subject, P.exec re subject = strideFirst (· ∈ cs) subject

/-- A library that knows the pattern `[c]`. -/
def Pcre.oneOf (c : UInt8) : Pcre where
  Re := Unit
  compile d := if d = [91, c, 93] then some () else none
  exec _ s := strideFirst (· ∈ [c]) s
  exec_le := by
    intro re s i j h
    obtain ⟨k, hk, heq⟩ := Option.map_eq_some_iff.mp h
    cases heq
    obtain ⟨hlt, -⟩ := List.findIdx?_eq_some_iff_getElem.mp hk
    exact ⟨Nat.le_succ _, hlt⟩

theorem Pcre.findsClass_oneOf (c : UInt8) : (Pcre.oneOf c).FindsClass [c] :=
  ⟨(), if_pos rfl, fun _ => rfl⟩

/-! ## The two delimiters -/

def regexClass (cs : CStr) : CStr where
  bytes := 47 :: 91 :: (cs.bytes ++ [93, 47])
  nulFree := by
    have := cs.nulFree
    simp [this]

/-- Both calls return, and return the same tokens. -/
def SameTokens (A : Heap) (P : Pcre) (d d' s : CStr) : Prop :=
  ∃ ts, ∀ fuel, s.bytes.length ≤ fuel →
    strTokens A P (some d) (some s) 0 fuel = .returned (some ts) ∧
      strTokens A P (some d') (some s) 0 fuel = .returned (some ts)

section
variable {A : Heap} {P : Pcre} {cs s : CStr} {re : P.Re}

/-- A class between slashes is a pattern. -/
theorem splitOf_regexClass (hre : P.compile (91 :: (cs.bytes ++ [93])) = some re) :
    splitOf P (regexClass cs).bytes = some (.regex re) := by
  have hslash : (47 : UInt8) :: 91 :: (cs.bytes ++ [93, 47]) =
      47 :: 91 :: (cs.bytes ++ [93]) ++ [47] := by simp
  show (P.compile ((eatLast 47 (47 :: 91 :: (cs.bytes ++ [93, 47]))).drop 1)).map Split.regex = _
  rw [hslash, eatLast_concat, List.drop_succ_cons, List.drop_zero, hre]
  rfl

/-- As a regular expression, the class yields the parts that one of its characters follows. -/
theorem yields_regexClass (hA : A.Succeeds) (hs : s.bytes ≠ [])
    (hre : P.compile (91 :: (cs.bytes ++ [93])) = some re)
    (hexec : ∀ subject, P.exec re subject = strideFirst (· ∈ cs.bytes) subject) :
    let parts := (s.bytes.splitOnP (· ∈ cs.bytes)).dropLast
    Yields A P (regexClass cs) s 0 (locate 1 0 parts) parts := by
  intro parts
  have hstride : (Split.regex re : Split P.Re).stride P = strideFirst (· ∈ cs.bytes) := by
    rw [stride_regex]
    exact funext hexec
  have hadv : Advances ((Split.regex re : Split P.Re).stride P) s.bytes := by
    rw [hstride]
    refine advances_of_pos ?_ s.bytes
    intro s len step _ h
    rcases strideFirst_spec (· ∈ cs.bytes) s with ⟨hnone, -⟩ | ⟨len', step', heq, hpos, -⟩
    · rw [hnone] at h
      cases h
    · rw [h] at heq
      cases heq
      exact hpos
  have hwalk : slices (strideFirst (· ∈ cs.bytes)) 0 s.bytes =
        locate 1 0 (s.bytes.splitOnP (· ∈ cs.bytes)).dropLast ∧
      cuts (strideFirst (· ∈ cs.bytes)) s.bytes = (s.bytes.splitOnP (· ∈ cs.bytes)).dropLast :=
    slices_eq_locate_or (fun s => (s.splitOnP (· ∈ cs.bytes)).dropLast) rfl
      (fun s _ => strideFirst_spec (· ∈ cs.bytes) s) 0 s.bytes
  rw [← hstride] at hwalk
  obtain ⟨hslices, hcuts⟩ := hwalk
  exact (yields_parts_iff hA hs (splitOf_regexClass hre) hadv rfl hslices hcuts).mpr (.inl rfl)

/-- Where parts lie tells how many there are. -/
theorem length_eq_of_locate {sep off : Nat} {parts parts' : List Bytes}
    (h : locate sep off parts = locate sep off parts') : parts.length = parts'.length := by
  have hlens := congrArg List.length h
  rw [length_locate, length_locate] at hlens
  exact hlens

theorem token_list_inj {ts ts' : List Token}
    (h : ts.map (fun t => (t.ptr, t.len)) = ts'.map fun t => (t.ptr, t.len)) : ts = ts' := by
  refine List.map_injective_iff.mpr ?_ h
  rintro ⟨p, k⟩ ⟨p', k'⟩ heq
  cases heq
  rfl

end

/-- **When the regular expression agrees with the class**: exactly if the string ends with a
character of the class. -/
theorem regex_class_iff (A : Heap) (hA : A.Succeeds) (P : Pcre) (cs s : CStr)
    (hP : P.FindsClass cs.bytes) (hs : s.bytes ≠ []) :
    SameTokens A P (regexClass cs) (charClass cs) s ↔
      ∃ c, s.bytes.getLast? = some c ∧ c ∈ cs.bytes := by
  obtain ⟨re, hre, hexec⟩ := hP
  obtain ⟨ts, hregex, hplaces, -⟩ := yields_regexClass hA hs hre hexec
  obtain ⟨hadv, hslices, hcuts⟩ := walk_cls (P := P) cs.bytes false s.bytes
  obtain ⟨ts', hclass, hplaces', -⟩ :=
    (yields_parts_iff hA hs (splitOf_charClass P cs) hadv rfl hslices hcuts).mpr (.inl rfl)
  -- both token lists say where parts of the same splitting lie
  have hsame : SameTokens A P (regexClass cs) (charClass cs) s ↔ ts = ts' := by
    constructor
    · rintro ⟨us, hus⟩
      obtain ⟨hregex', hclass'⟩ := hus _ (Nat.le_refl _)
      rw [hregex _ (Nat.le_refl _)] at hregex'
      rw [hclass _ (Nat.le_refl _)] at hclass'
      cases hregex'
      cases hclass'
      rfl
    · rintro rfl
      exact ⟨ts, fun fuel hfuel => ⟨hregex fuel hfuel, hclass fuel hfuel⟩⟩
  obtain ⟨s', c, hconcat⟩ := (List.eq_nil_or_concat' s.bytes).resolve_left hs
  have hlast := getLast?_splitOnP_concat (p := (· ∈ cs.bytes)) c s'
  have hne := List.splitOnP_ne_nil (· ∈ cs.bytes) s.bytes
  rw [hsame]
  rw [← hconcat, decide_eq_true_eq] at hlast
  constructor
  · intro hts
    refine ⟨c, by rw [hconcat, List.getLast?_concat], hlast.mp ?_⟩
    rw [← hts, hplaces] at hplaces'
    have hlen := length_eq_of_locate hplaces'
    by_contra hnot
    -- a last part that is not empty is a token of the class only
    rw [dropEmptyLast_of_getLast hnot, List.length_dropLast] at hlen
    have := List.length_pos_iff.mpr hne
    omega
  · rintro ⟨c', hget, hmem⟩
    rw [hconcat, List.getLast?_concat, Option.some.injEq] at hget
    subst hget
    apply token_list_inj
    rw [hplaces, hplaces', (dropEmptyLast_eq_dropLast_iff hne).mpr (hlast.mpr hmem)]

/-- `a,b,` ends with its delimiter. -/
theorem regex_class_ending :
    SameTokens .unlimited (.oneOf 44) (regexClass ⟨ascii ",", by decide⟩)
      (charClass ⟨ascii ",", by decide⟩) ⟨ascii "a,b,", by decide⟩ :=
  (regex_class_iff .unlimited (fun _ _ => rfl) (.oneOf 44) ⟨ascii ",", by decide⟩
    ⟨ascii "a,b,", by decide⟩ (Pcre.findsClass_oneOf 44) (by decide)).mpr
      ⟨44, by decide, by decide⟩

/-- Of `a,b` the class yields two tokens and the regular expression one. -/
theorem regex_class_rest_lost :
    strTokens .unlimited (.oneOf 44) (some (regexClass ⟨ascii ",", by decide⟩))
        (some ⟨ascii "a,b", by decide⟩) 0 3 = .returned (some [⟨0, 1⟩]) ∧
      strTokens .unlimited (.oneOf 44) (some (charClass ⟨ascii ",", by decide⟩))
        (some ⟨ascii "a,b", by decide⟩) 0 3 = .returned (some [⟨0, 1⟩, ⟨2, 1⟩]) ∧
      (Pcre.oneOf 44).FindsClass (ascii ",") ∧
      ¬ SameTokens .unlimited (.oneOf 44) (regexClass ⟨ascii ",", by decide⟩)
        (charClass ⟨ascii ",", by decide⟩) ⟨ascii "a,b", by decide⟩ := by
  have hregex : strTokens .unlimited (.oneOf 44) (some (regexClass ⟨ascii ",", by decide⟩))
      (some ⟨ascii "a,b", by decide⟩) 0 3 = .returned (some [⟨0, 1⟩]) := by decide
  have hclass : strTokens .unlimited (.oneOf 44) (some (charClass ⟨ascii ",", by decide⟩))
      (some ⟨ascii "a,b", by decide⟩) 0 3 = .returned (some [⟨0, 1⟩, ⟨2, 1⟩]) := by decide
  refine ⟨hregex, hclass, Pcre.findsClass_oneOf 44, ?_⟩
  rintro ⟨ts, hts⟩
  obtain ⟨hregex', hclass'⟩ := hts 3 (by decide)
  rw [hregex'] at hregex
  rw [hclass'] at hclass
  cases hregex
  cases hclass

end Ayubd.Strings
