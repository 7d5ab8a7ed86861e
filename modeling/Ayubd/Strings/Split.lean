import Ayubd.Strings.Overrun

/-!
# Ayubd — what `str_tokens` splits a string into

For a class of characters and for the empty delimiter the tokens are the parts of the string
that the delimiter's text suggests, as long as the array holds them: `class_split_iff`. For a
string delimiter they are so only if it is one character long or does not occur: the loop steps
over a match by one character, whatever its length, and takes the rest of the delimiter into the
next token: `string_split_iff`.
-/

namespace Ayubd.Strings

open Ayubd

/-! ## Delimiters and results -/

/-- The empty delimiter. -/
def everyChar : CStr := ⟨[], List.not_mem_nil⟩

def charClass (cs : CStr) : CStr where
  bytes := 91 :: (cs.bytes ++ [93])
  nulFree := by
    have := cs.nulFree
    simp [this]

def charClassPlus (cs : CStr) : CStr where
  bytes := 91 :: (cs.bytes ++ [93, 43])
  nulFree := by
    have := cs.nulFree
    simp [this]

/-- All of a list if `n = 0`, else the first `n`. -/
def firstN {β : Type} (n : Nat) (l : List β) : List β := if n = 0 then l else l.take n

/-- The call returns tokens that lie at the first `n` of these places, with the first `n` of
these parts of the string as their texts. -/
def Yields (A : Heap) (P : Pcre) (d s : CStr) (n : Nat) (places : List (Nat × Nat))
    (parts : List Bytes) : Prop :=
  ∃ ts, (∀ fuel, s.bytes.length ≤ fuel →
      strTokens A P (some d) (some s) n fuel = .returned (some ts)) ∧
    ts.map (fun t => (t.ptr, t.len)) = firstN n places ∧
    ts.map (Token.text s.bytes) = firstN n parts

theorem map_firstN {β γ : Type} (f : β → γ) (n : Nat) (l : List β) :
    (firstN n l).map f = firstN n (l.map f) := by
  unfold firstN
  split
  · rfl
  · rw [List.map_take]

/-- The array holds the first `n` elements of a list if it holds what is wanted of so many. -/
theorem arrayHolds_iff {β : Type} (n : Nat) (l : List β) :
    n = 0 ∨ (firstN n l).length ≤ n % 2 ^ 60 ↔ ArrayHolds n l.length := by
  unfold firstN ArrayHolds
  by_cases hn : n = 0
  · simp only [hn, true_or]
  · rw [if_neg hn, List.length_take]

/-! ## From the loop to the parts -/

section
variable {A : Heap} {P : Pcre} {d s : CStr} {split : Split P.Re} {n : Nat}

/-- Without `+` every slice is wanted. -/
theorem wanted_plain (h : split.eatNextEmpty = false) (n : Nat) (ts : List (Nat × Nat)) :
    Scan.wanted split n 0 ts = firstN n (ts.map fun t => ⟨t.1, t.2⟩) := by
  have hkept : ∀ t : Nat × Nat, Scan.kept split ⟨t.1, t.2⟩ = [⟨t.1, t.2⟩] := by
    intro t
    simp only [Scan.kept, h, Bool.false_eq_true, and_false, if_false]
  simp only [Scan.wanted, hkept, Nat.sub_zero, firstN]
  rw [← List.map_eq_flatMap]

/-- With `+` the slices with text are wanted. -/
theorem wanted_eat (h : split.eatNextEmpty = true) (n : Nat) (ts : List (Nat × Nat)) :
    Scan.wanted split n 0 ts =
      firstN n ((ts.filter (·.2 ≠ 0)).map fun t => ⟨t.1, t.2⟩) := by
  have hall : ts.flatMap (fun t => Scan.kept split ⟨t.1, t.2⟩) =
      (ts.filter (·.2 ≠ 0)).map fun t => ⟨t.1, t.2⟩ := by
    induction ts with
    | nil => rfl
    | cons t ts ih =>
      rw [List.flatMap_cons, ih]
      by_cases hlen : t.2 = 0
      · simp [Scan.kept, h, hlen]
      · simp [Scan.kept, hlen]
  simp only [Scan.wanted, hall, Nat.sub_zero, firstN]

theorem lengths_locate (sep off : Nat) (parts : List Bytes) :
    (locate sep off parts).map (·.2) = parts.map List.length := by
  induction parts generalizing off with
  | nil => rfl
  | cons p parts ih => rw [locate, List.map_cons, List.map_cons, ih]

theorem length_locate (sep off : Nat) (parts : List Bytes) :
    (locate sep off parts).length = parts.length := by
  simpa using congrArg List.length (lengths_locate sep off parts)

/-- A call that returns these tokens where the array holds them, and else is undefined. -/
theorem yields_iff_of_places (places : List (Nat × Nat))
    (hcall : ∀ fuel, s.bytes.length ≤ fuel →
      let toks := firstN n (places.map fun t => (⟨t.1, t.2⟩ : Token))
      strTokens A P (some d) (some s) n fuel =
        if n = 0 ∨ toks.length ≤ n % 2 ^ 60 then .returned (some toks) else .undefined) :
    Yields A P d s n places (places.map (slice s.bytes)) ↔ ArrayHolds n places.length := by
  have hholds := arrayHolds_iff n (places.map fun t => (⟨t.1, t.2⟩ : Token))
  rw [List.length_map] at hholds
  rw [← hholds]
  constructor
  · rintro ⟨ts, hret, -⟩
    by_contra hover
    have hsame := (hret _ (Nat.le_refl _)).symm.trans (hcall _ (Nat.le_refl _))
    rw [if_neg hover] at hsame
    cases hsame
  · intro hfit
    refine ⟨_, fun fuel hfuel => (hcall fuel hfuel).trans (if_pos hfit), ?_, ?_⟩
    · rw [map_firstN, List.map_map]
      congr 1
      exact List.map_id _
    · rw [map_firstN, List.map_map]
      rfl

/-- Where empty parts are kept, a call yields the slices of the walk exactly if the array holds
them. -/
theorem yields_plain_iff (hA : A.Succeeds) (hs : s.bytes ≠ [])
    (hsplit : splitOf P d.bytes = some split) (hadv : Advances (split.stride P) s.bytes)
    (heat : split.eatNextEmpty = false) :
    Yields A P d s n (slices (split.stride P) 0 s.bytes) (cuts (split.stride P) s.bytes) ↔
      ArrayHolds n (slices (split.stride P) 0 s.bytes).length := by
  refine yields_iff_of_places _ fun fuel hfuel => ?_
  rw [← wanted_plain heat]
  exact strTokens_walk hA hs hsplit hadv hfuel

/-- With `n = 0` there is no such condition: the array grows. -/
theorem yields_plain (hA : A.Succeeds) (hs : s.bytes ≠ [])
    (hsplit : splitOf P d.bytes = some split) (hadv : Advances (split.stride P) s.bytes)
    (heat : split.eatNextEmpty = false) :
    Yields A P d s 0 (slices (split.stride P) 0 s.bytes) (cuts (split.stride P) s.bytes) :=
  (yields_plain_iff hA hs hsplit hadv heat).mpr (.inl rfl)

/-- The same of a walk whose slices are known, as parts of the string with a distance `sep`. -/
theorem yields_parts_iff (hA : A.Succeeds) (hs : s.bytes ≠ [])
    (hsplit : splitOf P d.bytes = some split) (hadv : Advances (split.stride P) s.bytes)
    (heat : split.eatNextEmpty = false) {sep : Nat} {parts : List Bytes}
    (hslices : slices (split.stride P) 0 s.bytes = locate sep 0 parts)
    (hcuts : cuts (split.stride P) s.bytes = parts) :
    Yields A P d s n (locate sep 0 parts) parts ↔ ArrayHolds n parts.length := by
  have hyields := yields_plain_iff (n := n) hA hs hsplit hadv heat
  rw [hslices, hcuts, length_locate] at hyields
  exact hyields

/-- Where empty parts are eaten, the same of the parts that are not. -/
theorem yields_eat_iff (hA : A.Succeeds) (hs : s.bytes ≠ [])
    (hsplit : splitOf P d.bytes = some split) (hadv : Advances (split.stride P) s.bytes)
    (heat : split.eatNextEmpty = true) {sep : Nat} {parts : List Bytes}
    (hslices : slices (split.stride P) 0 s.bytes = locate sep 0 parts)
    (hcuts : cuts (split.stride P) s.bytes = parts) :
    Yields A P d s n ((locate sep 0 parts).filter (·.2 ≠ 0)) (parts.filter (· ≠ [])) ↔
      ArrayHolds n (parts.filter (· ≠ [])).length := by
  have hcall := yields_iff_of_places (A := A) (P := P) (d := d) (n := n)
    ((slices (split.stride P) 0 s.bytes).filter (·.2 ≠ 0)) fun fuel hfuel => by
      rw [← wanted_eat heat]
      exact strTokens_walk hA hs hsplit hadv hfuel
  -- the text of a slice is as long as the slice says
  have hlen : ∀ t ∈ slices (split.stride P) 0 s.bytes, (slice s.bytes t).length = t.2 := by
    have hmap := lengths_locate sep 0 parts
    rw [← hslices, ← hcuts, cuts, List.map_map] at hmap
    exact fun t ht => (List.map_inj_left.mp hmap t ht).symm
  have hparts : parts.filter (· ≠ []) =
      ((slices (split.stride P) 0 s.bytes).filter (·.2 ≠ 0)).map (slice s.bytes) := by
    rw [← hcuts, cuts, List.filter_map]
    congr 1
    apply List.filter_congr
    intro t ht
    simp only [Function.comp, ne_eq, decide_not, ← hlen t ht, List.length_eq_zero_iff]
  rw [hparts, ← hslices, List.length_map]
  exact hcall

end

/-! ## A class, or every character -/

section
variable {P : Pcre} {cs s : Bytes}

theorem eatLast_concat (c : UInt8) (d : Bytes) : eatLast c (d ++ [c]) = d := by
  rw [eatLast, List.getLast?_concat, if_pos rfl, List.dropLast_concat]

theorem eatLast_of_ne {c b : UInt8} (h : b ≠ c) (d : Bytes) : eatLast c (d ++ [b]) = d ++ [b] := by
  rw [eatLast, List.getLast?_concat, if_neg (by simpa using h)]

/-- A delimiter in brackets is a byte class. -/
theorem splitOf_bracket (P : Pcre) (d : Bytes) :
    splitOf P (91 :: d) = some (.cls ((eatLast 93 (eatLast 43 (91 :: d))).drop 1)
      (decide ((91 :: d).getLast? = some 43))) := rfl

theorem splitOf_charClass (P : Pcre) (cs : CStr) :
    splitOf P (charClass cs).bytes = some (.cls cs.bytes false) := by
  rw [charClass, splitOf_bracket, ← List.cons_append, eatLast_of_ne (by decide), eatLast_concat,
    List.getLast?_concat]
  rfl

theorem splitOf_charClassPlus (P : Pcre) (cs : CStr) :
    splitOf P (charClassPlus cs).bytes = some (.cls cs.bytes true) := by
  have hplus : (91 : UInt8) :: (cs.bytes ++ [93, 43]) = 91 :: cs.bytes ++ [93] ++ [43] := by simp
  rw [charClassPlus, splitOf_bracket, hplus, eatLast_concat, eatLast_concat, List.getLast?_concat]
  rfl

theorem stride_cls (eat : Bool) :
    (Split.cls cs eat : Split P.Re).stride P = fun s => some (strideP (· ∈ cs) s) := by
  funext s
  simp only [Split.stride, Split.next, strcspn, strideP, decide_not]

theorem stride_every : (Split.every : Split P.Re).stride P = fun _ => some (1, 1) := rfl

/-- The walk over a class ends, at the parts between its characters. -/
theorem walk_cls (cs : Bytes) (eat : Bool) (s : Bytes) :
    Advances ((Split.cls cs eat : Split P.Re).stride P) s ∧
      slices ((Split.cls cs eat : Split P.Re).stride P) 0 s =
        locate 1 0 (dropEmptyLast (s.splitOnP (· ∈ cs))) ∧
      cuts ((Split.cls cs eat : Split P.Re).stride P) s =
        dropEmptyLast (s.splitOnP (· ∈ cs)) := by
  rw [stride_cls]
  refine ⟨advances_of_pos ?_ s, slices_eq_locate (fun s => dropEmptyLast (s.splitOnP (· ∈ cs)))
    rfl (fun s hs => strideP_spec (· ∈ cs) hs) 0 s⟩
  intro s len step hs h
  obtain ⟨len', step', heq, hpos, -⟩ := strideP_spec (· ∈ cs) hs
  rw [h] at heq
  cases heq
  exact hpos

/-- The empty delimiter cuts at every byte. -/
theorem walk_every (s : Bytes) :
    Advances ((Split.every : Split P.Re).stride P) s ∧
      slices ((Split.every : Split P.Re).stride P) 0 s = locate 0 0 (s.map ([·])) ∧
      cuts ((Split.every : Split P.Re).stride P) s = s.map ([·]) := by
  rw [stride_every]
  refine ⟨advances_of_pos ?_ s, slices_eq_locate (fun s => s.map ([·])) rfl ?_ 0 s⟩
  · intro s len step hs h
    cases h
    exact Nat.one_pos
  · intro s hs
    obtain ⟨c, s, rfl⟩ := List.exists_cons_of_ne_nil hs
    exact ⟨1, 1, rfl, Nat.one_pos, Nat.succ_pos _, rfl, .inl rfl⟩

end

/-- **When a class splits, and the empty delimiter.** With `[cs]` the tokens are the parts between
the characters of `cs`, without an empty one at the end; with `[cs]+` those of them that are not
empty; with the empty delimiter the single characters. In all three cases this is so exactly if
the array holds what is wanted of them. -/
theorem class_split_iff (A : Heap) (hA : A.Succeeds) (P : Pcre) (cs s : CStr) (hs : s.bytes ≠ [])
    (n : Nat) :
    let parts := dropEmptyLast (s.bytes.splitOnP (· ∈ cs.bytes))
    let texts := parts.filter (· ≠ [])
    (Yields A P (charClass cs) s n (locate 1 0 parts) parts ↔ ArrayHolds n parts.length) ∧
      (Yields A P (charClassPlus cs) s n ((locate 1 0 parts).filter (·.2 ≠ 0)) texts ↔
        ArrayHolds n texts.length) ∧
      (Yields A P everyChar s n (locate 0 0 (s.bytes.map ([·]))) (s.bytes.map ([·])) ↔
        ArrayHolds n s.bytes.length) := by
  intro parts texts
  refine ⟨?_, ?_, ?_⟩
  · obtain ⟨hadv, hslices, hcuts⟩ := walk_cls (P := P) cs.bytes false s.bytes
    exact yields_parts_iff hA hs (splitOf_charClass P cs) hadv rfl hslices hcuts
  · obtain ⟨hadv, hslices, hcuts⟩ := walk_cls (P := P) cs.bytes true s.bytes
    exact yields_eat_iff hA hs (splitOf_charClassPlus P cs) hadv rfl hslices hcuts
  · obtain ⟨hadv, hslices, hcuts⟩ := walk_every (P := P) s.bytes
    have hyields := yields_parts_iff (d := everyChar) (n := n) hA hs rfl hadv rfl hslices hcuts
    rw [List.length_map] at hyields
    exact hyields

def sample : CStr := ⟨ascii "a,,b;", by decide⟩

/-- Its parts between `,` and `;`: the second is empty, and the empty one at the end is left
out. Of the two that are not empty, `n = 1` takes the first. -/
theorem class_split_sample :
    Yields .unlimited (.star 120) (charClass ⟨ascii ",;", by decide⟩) sample 0
        [(0, 1), (2, 0), (3, 1)] [ascii "a", [], ascii "b"] ∧
      Yields .unlimited (.star 120) (charClassPlus ⟨ascii ",;", by decide⟩) sample 1
        [(0, 1), (3, 1)] [ascii "a", ascii "b"] := by
  have hsplit := class_split_iff .unlimited (fun _ _ => rfl) (.star 120) ⟨ascii ",;", by decide⟩
    sample (by decide)
  have hparts : dropEmptyLast (sample.bytes.splitOnP (· ∈ ascii ",;")) =
      [ascii "a", [], ascii "b"] := by decide
  simp only [hparts] at hsplit
  exact ⟨(hsplit 0).1.mpr (by decide), (hsplit 1).2.1.mpr (by decide)⟩

/-- For `n = 2^60 + 1` tokens, `malloc` is asked for the 16 bytes of one: the second token of
`a,b` is written behind them. -/
theorem class_split_wrapped :
    strTokens .unlimited (.star 120) (some (charClass ⟨ascii ",", by decide⟩))
        (some ⟨ascii "a,b", by decide⟩) (2 ^ 60 + 1) 3 = .undefined ∧
      ¬ Yields .unlimited (.star 120) (charClass ⟨ascii ",", by decide⟩) ⟨ascii "a,b", by decide⟩
        (2 ^ 60 + 1)
        (locate 1 0 (dropEmptyLast ((ascii "a,b").splitOnP (· ∈ ascii ","))))
        (dropEmptyLast ((ascii "a,b").splitOnP (· ∈ ascii ","))) := by
  have hrun : strTokens .unlimited (.star 120) (some (charClass ⟨ascii ",", by decide⟩))
      (some ⟨ascii "a,b", by decide⟩) (2 ^ 60 + 1) 3 = .undefined := by decide
  refine ⟨hrun, ?_⟩
  rintro ⟨ts, hcall, -⟩
  rw [hcall 3 (by decide)] at hrun
  cases hrun

/-! ## A string -/

section
variable {P : Pcre} {d s : Bytes}

/-- Any other delimiter is a string. -/
theorem splitOf_array {c : UInt8} (P : Pcre) (h91 : c ≠ 91) (h47 : c ≠ 47) (d : Bytes) :
    splitOf P (c :: d) = some (.array (c :: d)) := by
  rw [splitOf, if_neg h91, if_neg h47]

/-- Whatever the length of the delimiter, a match is passed by one character. -/
theorem stride_array (hd : d ≠ []) :
    (Split.array d : Split P.Re).stride P = fun s => some (strideSub d 1 s) := by
  funext s
  simp only [Split.stride, Split.next, strstr, strideSub]
  cases hocc : firstOcc d s with
  | none => rfl
  | some i =>
    have hle := length_of_firstOcc hocc hd
    have hpos := List.length_pos_iff.mpr hd
    simp only [if_pos (show i < s.length by omega)]

theorem advances_array (hd : d ≠ []) (s : Bytes) :
    Advances ((Split.array d : Split P.Re).stride P) s := by
  rw [stride_array hd]
  refine advances_of_pos ?_ s
  intro s len step hs h
  have hpos := strideSub_pos d hs Nat.one_pos
  rw [Option.some.injEq] at h
  rw [h] at hpos
  exact hpos

/-- For one character, and where nothing matches, the loop walks as it should. -/
theorem slices_array (hd : d ≠ []) (hs : s ≠ []) (h : d.length = 1 ∨ ¬ d <:+: s) :
    slices ((Split.array d : Split P.Re).stride P) 0 s =
        locate d.length 0 (dropEmptyLast (splitOnSub d s)) ∧
      cuts ((Split.array d : Split P.Re).stride P) s = dropEmptyLast (splitOnSub d s) := by
  have hnil : dropEmptyLast (splitOnSub d []) = [] := by
    rw [splitOnSub_nil hd]
    rfl
  have hwalk := slices_eq_locate (fun s => dropEmptyLast (splitOnSub d s)) hnil
    (fun s hs => strideSub_spec hd hs) 0 s
  have hsame : slices (fun s => some (strideSub d 1 s)) 0 s =
      slices (fun s => some (strideSub d d.length s)) 0 s := by
    rcases h with hone | hnone
    · rw [hone]
    · -- without a match there is one stride, to the end
      have hocc := firstOcc_eq_none_iff.mpr hnone
      have hpos := List.length_pos_iff.mpr hs
      rw [slices_of_some hs (congrArg some (strideSub_of_none hocc 1)) hpos,
        slices_of_some hs (congrArg some (strideSub_of_none hocc d.length)) hpos, List.drop_length,
        slices_nil, slices_nil]
  rw [stride_array hd]
  simp only [cuts] at hwalk ⊢
  rw [hsame]
  exact hwalk

/-- Where a longer delimiter matches, the second token starts inside the match. -/
theorem slices_array_ne (hd : 1 < d.length) (hocc : d <:+: s) :
    slices ((Split.array d : Split P.Re).stride P) 0 s ≠
      locate d.length 0 (dropEmptyLast (splitOnSub d s)) := by
  have hne : d ≠ [] := List.length_pos_iff.mp (by omega)
  cases hi : firstOcc d s with
  | none => exact absurd hocc (firstOcc_eq_none_iff.mp hi)
  | some i =>
    have hle := length_of_firstOcc hi hne
    have hs : s ≠ [] := List.length_pos_iff.mp (by omega)
    have hrest : s.drop (i + 1) ≠ [] := List.length_pos_iff.mp (by
      rw [List.length_drop]
      omega)
    have hnil : dropEmptyLast (splitOnSub d []) = [] := by
      rw [splitOnSub_nil hne]
      rfl
    have hwalk := (slices_eq_locate (fun s => dropEmptyLast (splitOnSub d s)) hnil
      (fun s hs => strideSub_spec hne hs) 0 s).1
    rw [← hwalk, stride_array hne, slices_of_some hs (congrArg some (strideSub_of_some hi 1))
      (Nat.succ_pos i), slices_of_some hs (congrArg some (strideSub_of_some hi d.length)) (by omega),
      slices_of_some hrest rfl (strideSub_pos d hrest Nat.one_pos)]
    intro heq
    -- the loop goes on behind the first character of the match, not behind the match
    have hstart := slices_eq_cons (List.cons.inj heq).2.symm
    simp only [Nat.zero_add] at hstart
    omega

end

/-- **When a string delimiter splits as it should**: exactly if it is one character long or does
not occur in the string. -/
theorem string_split_iff (A : Heap) (hA : A.Succeeds) (P : Pcre) (d s : CStr) (hd : d.bytes ≠ [])
    (h91 : d.bytes.head? ≠ some 91) (h47 : d.bytes.head? ≠ some 47) (hs : s.bytes ≠ []) :
    let parts := dropEmptyLast (splitOnSub d.bytes s.bytes)
    Yields A P d s 0 (locate d.bytes.length 0 parts) parts ↔
      d.bytes.length = 1 ∨ ¬ d.bytes <:+: s.bytes := by
  intro parts
  have hsplit : splitOf P d.bytes = some (.array d.bytes) := by
    obtain ⟨c, d', hcons⟩ := List.exists_cons_of_ne_nil hd
    rw [hcons, List.head?_cons, ne_eq, Option.some.injEq] at h91 h47
    rw [hcons]
    exact splitOf_array P h91 h47 d'
  have hadv := advances_array (P := P) hd s.bytes
  constructor
  · intro hparts
    have hyields := yields_plain hA hs hsplit hadv rfl
    by_contra hnot
    rw [not_or, not_not] at hnot
    have hlen : 1 < d.bytes.length := by
      have := List.length_pos_iff.mpr hd
      omega
    -- the call returns one list of tokens, so its places are those of the walk
    obtain ⟨ts, hcall, hplaces, -⟩ := hparts
    obtain ⟨ts', hcall', hplaces', -⟩ := hyields
    have hsame := (hcall _ (Nat.le_refl _)).symm.trans (hcall' _ (Nat.le_refl _))
    rw [Ran.returned.injEq, Option.some.injEq] at hsame
    rw [hsame, hplaces'] at hplaces
    exact slices_array_ne hlen hnot.2 hplaces
  · intro h
    obtain ⟨hslices, hcuts⟩ := slices_array (P := P) hd hs h
    exact (yields_parts_iff hA hs hsplit hadv rfl hslices hcuts).mpr (.inl rfl)

/-- A string of one line and the start of the next, as on the wire. -/
def lines : CStr := ⟨ascii "a\r\nb", by decide⟩

def crlf : CStr := ⟨ascii "\r\n", by decide⟩

/-- A delimiter of one character, which occurs twice. -/
theorem string_split_comma :
    Yields .unlimited (.star 120) ⟨ascii ",", by decide⟩ sample 0 [(0, 1), (2, 0), (3, 2)]
      [ascii "a", [], ascii "b;"] := by
  have hiff := string_split_iff .unlimited (fun _ _ => rfl) (.star 120) ⟨ascii ",", by decide⟩ sample
    (by decide) (by decide) (by decide) (by decide)
  have hyields := hiff.mpr (.inl (by decide))
  have hparts : dropEmptyLast (splitOnSub (ascii ",") sample.bytes) =
      [ascii "a", [], ascii "b;"] := by
    simp [splitOnSub, firstOcc, sample, ascii, dropEmptyLast]
  simp only [hparts] at hyields
  exact hyields

/-- `"a\r\nb"` is split into `a` and `\nb`. -/
theorem crlf_split_wrong :
    strTokens .unlimited (.star 120) (some crlf) (some lines) 0 4 =
        .returned (some [⟨0, 1⟩, ⟨2, 2⟩]) ∧
      ¬ Yields .unlimited (.star 120) crlf lines 0
        (locate crlf.bytes.length 0 (dropEmptyLast (splitOnSub crlf.bytes lines.bytes)))
        (dropEmptyLast (splitOnSub crlf.bytes lines.bytes)) := by
  have hrun : strTokens .unlimited (.star 120) (some crlf) (some lines) 0 4 =
      .returned (some [⟨0, 1⟩, ⟨2, 2⟩]) := by decide
  refine ⟨hrun, ?_⟩
  rintro ⟨ts, hcall, hplaces, -⟩
  have hparts : dropEmptyLast (splitOnSub crlf.bytes lines.bytes) = [ascii "a", ascii "b"] := by
    simp [splitOnSub, firstOcc, crlf, lines, ascii, dropEmptyLast]
  rw [hcall 4 (by decide), Ran.returned.injEq, Option.some.injEq] at hrun
  rw [hrun, hparts] at hplaces
  revert hplaces
  decide

end Ayubd.Strings
