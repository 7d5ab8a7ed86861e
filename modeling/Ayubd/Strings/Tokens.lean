import Mathlib.Logic.Function.Iterate
import Ayubd.Base.Buffer
import Ayubd.Base.Cut

/-!
# Ayubd — the string tokenizer

`str_tokens` of `str_tokens.c`. The delimiter is taken apart once: empty for every character,
`[…]` or `[…]+` for a class, `/…/` for a regular expression, any other text for itself. The
`while` loop is one `body`, iterated; how often is an argument, since with a regular expression
it need not end.

A token points into the string it was found in, so it is an offset and a length. What the C
library decides is a parameter: `Heap` says which allocations succeed, and `Pcre` is the library
of that name.

The size of the first array is `ntok * sizeof(token_t)` in a `size_t`, so an `n` of `2^60` or more
gets fewer places than it asks for, and a token written behind the last of them makes the call
undefined. The size that `realloc` is asked for is left a natural number: `realloc` is only
reached with `n = 0`, from an array that is full, and the array before the first size that wraps
would fill the address space but for 128 bytes.
-/

namespace Ayubd.Strings

open Ayubd

/-! ## What the C library provides -/

/-- A C string: bytes up to, and without, the terminating NUL. -/
structure CStr where
  bytes : Bytes
  nulFree : (0 : UInt8) ∉ bytes
  deriving DecidableEq

/-- The places where `str_tokens` and `str_replace` allocate memory. -/
inductive Site where
  /-- `flist_new` -/
  | list
  /-- the array of tokens -/
  | tokens
  /-- `strdup(delim)` -/
  | delim
  /-- the text of `str_replace` -/
  | text
  /-- `string_new` -/
  | string
  deriving DecidableEq, Repr

/-- Does an allocation of so many elements succeed? -/
structure Heap where
  ok : Site → Nat → Bool

def Heap.unlimited : Heap := ⟨fun _ _ => true⟩

/-- Every allocation succeeds. -/
def Heap.Succeeds (A : Heap) : Prop := ∀ site k, A.ok site k = true

/-- The part of `pcre.h` that `str_tokens` calls. `pcre_exec` takes the length of the subject as an
`int`, which the model does not: its subjects are the strings of fewer than `2^31` bytes. -/
structure Pcre where
  Re : Type
  /-- `pcre_compile` -/
  compile : Bytes → Option Re
  /-- `pcre_exec`: the first two offsets; `none` when it returns 0 or less -/
  exec : Re → Bytes → Option (Nat × Nat)
  exec_le : ∀ {re subject i j}, exec re subject = some (i, j) → i ≤ j ∧ j ≤ subject.length

/-- A library that knows the patterns `c*` of one character `c`, which match everywhere, at once
and greedily. -/
def Pcre.star (c : UInt8) : Pcre where
  Re := Unit
  compile d := if d = [c, 42] then some () else none
  exec _ s := some (0, (s.takeWhile (· = c)).length)
  exec_le := by
    intro re s i j h
    cases h
    exact ⟨Nat.zero_le _, (List.takeWhile_prefix _).length_le⟩

def strcspn (s d : Bytes) : Nat := (s.takeWhile (· ∉ d)).length

def strstr (s d : Bytes) : Option Nat := firstOcc d s

/-! ## The delimiter -/

/-- `split_type` with what the loop uses of the delimiter; `eat` is `eat_next_empty`. -/
inductive Split (ρ : Type) where
  | every
  | cls (d : Bytes) (eat : Bool)
  | regex (re : ρ)
  | array (d : Bytes)

def Split.eatNextEmpty {ρ : Type} : Split ρ → Bool
  | .cls _ eat => eat
  | _ => false

/-- Eat the last character of the copy of the delimiter if it is `c`. -/
def eatLast (c : UInt8) (d : Bytes) : Bytes := if d.getLast? = some c then d.dropLast else d

/-- The parsing of the delimiter; `none` is a failed `pcre_compile`. `*(d+tlen-1)` is the last
character of the copy even when nothing but the first is left of it. -/
def splitOf (P : Pcre) : Bytes → Option (Split P.Re)
  | [] => some .every
  | c :: d =>
    if c = 91 then -- '['
      some (.cls ((eatLast 93 (eatLast 43 (c :: d))).drop 1)
        (decide ((c :: d).getLast? = some 43)))
    else if c = 47 then -- '/'
      (P.compile ((eatLast 47 (c :: d)).drop 1)).map .regex
    else some (.array (c :: d))

/-! ## The loop -/

/-- `token_t`, with its pointer as an offset into the string. -/
structure Token where
  ptr : Nat
  len : Nat
  deriving DecidableEq, Repr

/-- `sizeof(token_t)`, a pointer and a `size_t`. -/
def sizeofToken : Nat := 16

/-- The places there are in the block of `malloc(ntok * sizeof(token_t))`: the product is a
`size_t`. -/
def tokenPlaces (ntok : Nat) : Nat := ntok * sizeofToken % 2 ^ 64 / sizeofToken

/-- What a token points to. -/
def Token.text (s : Bytes) (t : Token) : Bytes := slice s (t.ptr, t.len)

/-- The locals of the loop. `pstr` and `tmp` are offsets into the string and into the array `t`,
whose length is the number of places it really has; a negative `slen` is one that has wrapped.
`going` is false once the loop is left, by `keep_going` or by a jump, and `overrun` is true once a
token has been written behind the array. -/
structure Scan where
  pstr : Nat
  slen : Int
  ntok : Nat
  t : List Token
  tmp : Nat
  cnt : Nat
  going : Bool
  overrun : Bool

def Scan.start {ρ : Type} (split : Split ρ) (s : Bytes) (n : Nat) : Scan :=
  let ntok := if n = 0 then 32 else n
  { pstr := 0
    slen := match split with
      | .regex _ | .array _ => s.length
      | _ => 0
    ntok
    t := List.replicate (tokenPlaces ntok) ⟨0, 0⟩
    tmp := 0
    cnt := 0
    going := true
    overrun := false }

/-- The `realloc` of a full array; `none` when it fails. -/
def Scan.reserve (A : Heap) (st : Scan) : Option Scan :=
  if st.cnt ≥ st.ntok then
    if A.ok .tokens (st.ntok + 8) then
      some { st with
        ntok := st.ntok + 8
        t := st.t ++ List.replicate 8 ⟨0, 0⟩
        tmp := st.cnt }
    else none
  else some st

/-- `tmp_len` and `tmp_step` at the text `s` that is left; `none` is the jump to the end. -/
def Split.next (P : Pcre) (s : Bytes) (slen : Int) : Split P.Re → Option (Nat × Nat)
  | .every => some (1, 1)
  | .cls d _ =>
    let len := strcspn s d
    some (len, if len < s.length then len + 1 else len)
  | .regex re => P.exec re (s.take slen.toNat)
  | .array d =>
    match strstr s d with
    | some i => some (i, if i < s.length then i + 1 else i)
    | none => some (slen.toNat, slen.toNat)

def Scan.push (st : Scan) (len : Nat) : Scan :=
  { st with
    t := st.t.set st.tmp ⟨st.pstr, len⟩
    tmp := st.tmp + 1
    cnt := st.cnt + 1
    overrun := st.overrun || decide (st.t.length ≤ st.tmp) }

/-- The end of the body: go on by `tmp_step` and see whether to stop. -/
def Scan.advance (s : Bytes) (n step : Nat) (st : Scan) : Scan :=
  { st with
    pstr := st.pstr + step
    slen := st.slen - step
    going := if n ≠ 0 ∧ st.cnt ≥ n then false else decide (s.drop (st.pstr + step) ≠ []) }

def Scan.body (A : Heap) (P : Pcre) (split : Split P.Re) (s : Bytes) (n : Nat) (st : Scan) : Scan :=
  if st.going then
    match st.reserve A with
    | none => { st with going := false }
    | some st =>
      match split.next P (s.drop st.pstr) st.slen with
      | none => { st with going := false }
      | some (len, step) =>
        let st := if len = 0 ∧ split.eatNextEmpty then st else st.push len
        st.advance s n step
  else st

/-- What a call comes to: it may loop on, it may do something the language does not define, or
it returns. -/
inductive Ran (β : Type) where
  | looping
  | undefined
  | returned (b : β)
  deriving DecidableEq, Repr

/-- The token list: `tlist->ptr` as far as `tlist->len` says. -/
def Scan.tlist (st : Scan) : List Token := st.t.take st.cnt

/-- `str_tokens(delim, str, n)`, of whose loop at most `fuel` iterations are run. It returns
`none` for `NULL`. -/
def strTokens (A : Heap) (P : Pcre) (delim str : Option CStr) (n fuel : Nat) :
    Ran (Option (List Token)) :=
  if ¬ A.ok .list 1 then .returned none
  else
    match str, delim with
    | some s, some d =>
      if s.bytes = [] then .returned (some [])
      else if ¬ A.ok .tokens (tokenPlaces (if n = 0 then 32 else n)) then .returned (some [])
      else if ¬ A.ok .delim (d.bytes.length + 1) then .returned (some [])
      else
        match splitOf P d.bytes with
        | none => .returned (some [])
        | some split =>
          let st := (Scan.body A P split s.bytes n)^[fuel] (Scan.start split s.bytes n)
          if st.overrun then .undefined
          else if st.going then .looping
          else .returned (some st.tlist)
    | _, _ => .returned (some [])

end Ayubd.Strings
