import Ayubd.Base.Read
import Ayubd.HatTrie.TableMap

/-!
# Ayubd — tables in files

`ahtable_save` writes a table to a file and `ahtable_load` reads one back. Numbers are written high
byte first; the size of a slot, which is a `size_t` in memory, is cut to 32 bits. The daemon keeps
its tables in memory and calls neither of the two. They are modelled because they are the only file
format that the sources define, and what a file holds is the records of `Ayubd.HatTrie.Slot`.

* **`ahtable_load_iff`** — what was saved is loaded as a table for the same map if and only if no
  slot is larger than that.
* **`ahtable_load_truncated`** — a file that was cut off is not loaded.
-/

namespace Ayubd.HatTrie

/-! ## The source -/

def saveSlot (t : AhTable) (i : Nat) : Option Bytes := do
  let size ← t.slotSizes[i]?
  if 0 < size then do
    let s ← t.slots[i]?
    let bs ← Block.peek s 0 size
    some (beBytes 4 size ++ bs)
  else some (beBytes 4 size)

/-- What is written for the slots below `i`. -/
def saveSlots (t : AhTable) : Nat → Option Bytes
  | 0 => some []
  | i + 1 => do
    let front ← saveSlots t i
    let slot ← saveSlot t i
    some (front ++ slot)

def ahtableSave (t : AhTable) : Option Bytes := do
  let slots ← saveSlots t t.n
  some (beBytes 8 t.n ++ (beBytes 8 t.m ++ (beBytes 8 t.maxM ++ ([t.flag] ++ ([t.c0] ++ ([t.c1] ++
    slots))))))

def readU64bitToSizeT : Reader Nat := readBe 8

def readByte : Reader UInt8 := do
  let bs ← fread 1
  pure (bs.headD 0)

/-- The body of the loop over the slots. -/
def loadSlot (t : AhTable) (i : Nat) : Reader AhTable := do
  let size ← readBe 4
  if 0 < size then do
    let bs ← fread size
    pure { t with slotSizes := t.slotSizes.set i size, slots := t.slots.set i bs }
  else pure { t with slotSizes := t.slotSizes.set i size }

/-- The loop over the slots below `i`. -/
def loadSlots (t : AhTable) : Nat → Reader AhTable
  | 0 => pure t
  | i + 1 => do
    let t ← loadSlots t i
    loadSlot t i

/-- `ahtable_load`, which returns NULL when there is no result. -/
def ahtableLoad : Reader AhTable := do
  let n ← readU64bitToSizeT
  let m ← readU64bitToSizeT
  let maxM ← readU64bitToSizeT
  let flag ← readByte
  let c0 ← readByte
  let c1 ← readByte
  loadSlots { ahtableCreateN n with m := m, maxM := maxM, flag := flag, c0 := c0, c1 := c1 } n

/-! ## What is written -/

def savedRow (row : List Entry) : Bytes := beBytes 4 (coded row).length ++ coded row

section
variable {t t' : AhTable} {f : Bytes → Option Value} {rows rows' : List (List Entry)}
  {row row' : List Entry} {i k : Nat} {file rest : Bytes}

/-- A slot is saved as its row. -/
theorem saveSlot_eq (h : Holds t rows) (hrow : rows[i]? = some row) :
    saveSlot t i = some (savedRow row) := by
  obtain ⟨rest, hslot⟩ := h.slots i row hrow
  unfold saveSlot savedRow
  simp only [h.size hrow, hslot, Option.bind_eq_bind, Option.bind_some]
  by_cases hsize : 0 < (coded row).length
  · have hpeek : Block.peek (coded row ++ rest) 0 (coded row).length = some (coded row) :=
      Block.peek_prefix (List.prefix_append _ _) rfl
    rw [if_pos hsize, hpeek]
    rfl
  · have hnil : coded row = [] := List.eq_nil_of_length_eq_zero (Nat.eq_zero_of_not_pos hsize)
    rw [if_neg hsize, hnil, List.append_nil]

theorem saveSlots_eq (h : Holds t rows) (hk : k ≤ t.n) :
    saveSlots t k = some ((rows.take k).flatMap savedRow) := by
  induction k with
  | zero => rfl
  | succ k ih =>
    have hlt : k < rows.length := h.length ▸ hk
    have hrow : rows[k]? = some rows[k] := List.getElem?_eq_getElem hlt
    rw [saveSlots, ih (Nat.le_of_succ_le hk), saveSlot_eq h hrow, List.take_add_one, hrow,
      Option.toList_some, List.flatMap_append, List.flatMap_singleton]
    rfl

/-- **What `ahtable_save` writes.** -/
theorem ahtableSave_eq (h : Holds t rows) :
    ahtableSave t = some (beBytes 8 t.n ++ (beBytes 8 t.m ++ (beBytes 8 t.maxM ++ ([t.flag] ++
      ([t.c0] ++ ([t.c1] ++ rows.flatMap savedRow)))))) := by
  unfold ahtableSave
  rw [saveSlots_eq h (Nat.le_refl _), ← h.length, List.take_length]
  rfl

/-! ## What is read -/

theorem readByte_cons (c : UInt8) (rest : Bytes) : readByte ([c] ++ rest) = some (c, rest) := by
  unfold readByte
  rw [bind_eq_some]
  exact ⟨[c], rest, fread_append [c] rfl rest, rfl⟩

theorem readU64_append {v : Nat} (hv : v < 2 ^ 64) (rest : Bytes) :
    readU64bitToSizeT (beBytes 8 v ++ rest) = some (v, rest) := by
  have hlt : v < 256 ^ 8 := hv
  unfold readU64bitToSizeT
  rw [readBe_append, Nat.mod_eq_of_lt hlt]

/-- Reading what was written for one slot. -/
theorem loadSlot_saved (t : AhTable) (i : Nat) (hsize : (coded row).length < 2 ^ 32)
    (hblank : coded row = [] → t.slots[i]? = some []) (rest : Bytes) :
    loadSlot t i (savedRow row ++ rest) = some ({ t with
      slotSizes := t.slotSizes.set i (coded row).length
      slots := t.slots.set i (coded row) }, rest) := by
  unfold loadSlot savedRow
  rw [bind_eq_some]
  refine ⟨(coded row).length, coded row ++ rest, ?_, ?_⟩
  · have hlt : (coded row).length < 256 ^ 4 := hsize
    rw [List.append_assoc, readBe_append, Nat.mod_eq_of_lt hlt]
  · by_cases hpos : 0 < (coded row).length
    · rw [if_pos hpos, bind_eq_some]
      exact ⟨coded row, rest, fread_append _ rfl rest, rfl⟩
    · have hnil : coded row = [] := List.eq_nil_of_length_eq_zero (Nat.eq_zero_of_not_pos hpos)
      have hsame : t.slots.set i [] = t.slots := by
        obtain ⟨hi, hslot⟩ := List.getElem?_eq_some_iff.mp (hblank hnil)
        rw [← hslot]
        exact List.set_getElem_self hi
      rw [if_neg hpos, hnil, hsame]
      rfl

/-- Replacing one element after another. -/
theorem set_take_append_drop {α : Type} (l l' : List α) (hlen : l.length = l'.length)
    (hi : i < l.length) :
    (l.take i ++ l'.drop i).set i l[i] = l.take (i + 1) ++ l'.drop (i + 1) := by
  have htake : (l.take i).length = i := List.length_take_of_le (Nat.le_of_lt hi)
  rw [List.set_append_right i _ (Nat.le_of_eq htake), htake, Nat.sub_self,
    List.drop_eq_getElem_cons (hlen ▸ hi), List.set_cons_zero, List.take_succ_eq_append_getElem hi,
    List.append_assoc, List.singleton_append]

/-- The table that a file is read into, with the slots below `i` filled. -/
def filled (t : AhTable) (rows : List (List Entry)) (i : Nat) : AhTable :=
  { t with
    slotSizes := (rows.map fun row => (coded row).length).take i ++ (List.replicate t.n 0).drop i
    slots := (rows.map coded).take i ++ (List.replicate t.n []).drop i }

/-- The saved slots are loaded into an empty table. -/
theorem loadSlots_saved (hlen : rows.length = t.n) (hsizes : t.slotSizes = List.replicate t.n 0)
    (hslots : t.slots = List.replicate t.n [])
    (hsmall : ∀ row ∈ rows, (coded row).length < 2 ^ 32) (hk : k ≤ t.n) (rest : Bytes) :
    loadSlots t k ((rows.take k).flatMap savedRow ++ rest) = some (filled t rows k, rest) := by
  induction k generalizing rest with
  | zero =>
    have hsame : filled t rows 0 = t := by
      unfold filled
      rw [List.take_zero, List.take_zero, List.drop_zero, List.drop_zero, List.nil_append,
        List.nil_append, ← hsizes, ← hslots]
    rw [hsame]
    rfl
  | succ k ih =>
    have hlt : k < rows.length := hlen ▸ hk
    have hrow : rows[k]? = some rows[k] := List.getElem?_eq_getElem hlt
    rw [loadSlots, bind_eq_some]
    refine ⟨filled t rows k, savedRow rows[k] ++ rest, ?_, ?_⟩
    · rw [List.take_add_one, hrow, Option.toList_some, List.flatMap_append, List.flatMap_singleton,
        List.append_assoc]
      exact ih (Nat.le_of_succ_le hk) _
    · have hblank : coded rows[k] = [] → (filled t rows k).slots[k]? = some [] := by
        intro _
        have htake : ((rows.map coded).take k).length = k :=
          List.length_take_of_le (by rw [List.length_map]; omega)
        show ((rows.map coded).take k ++ (List.replicate t.n []).drop k)[k]? = some []
        rw [List.getElem?_append_right (Nat.le_of_eq htake), htake, Nat.sub_self,
          List.drop_replicate, List.getElem?_replicate, if_pos (Nat.sub_pos_of_lt hk)]
      rw [loadSlot_saved _ _ (hsmall _ (List.getElem_mem hlt)) hblank]
      unfold filled
      have hsize' := set_take_append_drop (i := k)
        (rows.map fun row => (coded row).length) (List.replicate t.n 0)
        (by rw [List.length_map, List.length_replicate, hlen]) (by rw [List.length_map]; exact hlt)
      have hslot' := set_take_append_drop (i := k) (rows.map coded) (List.replicate t.n [])
        (by rw [List.length_map, List.length_replicate, hlen])
        (by rw [List.length_map]; exact hlt)
      rw [List.getElem_map] at hsize' hslot'
      simp only [hsize', hslot']

/-- **Loading what was saved**, if no slot is too large: blocks are as long as their slots. -/
theorem ahtableLoad_saved (h : Holds t rows) (hn : t.n < 2 ^ 64) (hm : t.m < 2 ^ 64)
    (hmax : t.maxM < 2 ^ 64) (hsmall : ∀ size ∈ t.slotSizes, size < 2 ^ 32)
    (hsave : ahtableSave t = some file) (rest : Bytes) :
    ahtableLoad (file ++ rest) = some ({ t with slots := rows.map coded }, rest) := by
  rw [ahtableSave_eq h] at hsave
  obtain rfl := Option.some.inj hsave
  have hrows : ∀ row ∈ rows, (coded row).length < 2 ^ 32 := by
    intro row hrow
    refine hsmall _ ?_
    rw [h.sizes]
    exact List.mem_map_of_mem hrow
  let t₀ : AhTable := { ahtableCreateN t.n with
    m := t.m, maxM := t.maxM, flag := t.flag, c0 := t.c0, c1 := t.c1 }
  have hslots := loadSlots_saved (t := t₀) h.length rfl rfl hrows (Nat.le_refl _) rest
  have hall : rows.take t₀.n = rows := List.take_of_length_le (Nat.le_of_eq h.length)
  have hdone : filled t₀ rows t₀.n = { t with slots := rows.map coded } := by
    have hn₀ : t₀.n = t.n := rfl
    have hsizes : ∀ {α : Type} (g : List Entry → α) (x : α),
        (rows.map g).take t.n ++ (List.replicate t.n x).drop t.n = rows.map g := by
      intro α g x
      rw [List.take_of_length_le (by rw [List.length_map, h.length]),
        List.drop_of_length_le (by rw [List.length_replicate]), List.append_nil]
    unfold filled
    rw [hn₀, hsizes, hsizes, ← h.sizes]
  rw [hall, hdone] at hslots
  unfold ahtableLoad
  simp only [List.append_assoc]
  rw [bind_eq_some]
  refine ⟨_, _, readU64_append hn _, bind_eq_some.mpr ⟨_, _, readU64_append hm _,
    bind_eq_some.mpr ⟨_, _, readU64_append hmax _, bind_eq_some.mpr ⟨_, _, readByte_cons _ _,
      bind_eq_some.mpr ⟨_, _, readByte_cons _ _, bind_eq_some.mpr ⟨_, _, readByte_cons _ _, ?_⟩⟩⟩⟩⟩⟩
  exact hslots

/-! ## Slots that are too large -/

theorem steady_readByte : Steady readByte := (steady_fread 1).bind fun _ => steady_pure _

theorem steady_loadSlot (t : AhTable) (i : Nat) : Steady (loadSlot t i) := by
  refine (steady_readBe 4).bind fun size => ?_
  split
  · exact (steady_fread size).bind fun _ => steady_pure _
  · exact steady_pure _

theorem steady_loadSlots (t : AhTable) (k : Nat) : Steady (loadSlots t k) := by
  induction k with
  | zero => exact steady_pure t
  | succ k ih => exact ih.bind fun t' => steady_loadSlot t' k

theorem steady_ahtableLoad : Steady ahtableLoad :=
  (steady_readBe 8).bind fun n => (steady_readBe 8).bind fun _ => (steady_readBe 8).bind fun _ =>
    steady_readByte.bind fun _ => steady_readByte.bind fun _ => steady_readByte.bind fun _ =>
      steady_loadSlots _ n

/-- **A file that was cut off is not loaded**, wherever it was cut. -/
theorem ahtable_load_truncated (h : Represents t f) (hn : t.n < 2 ^ 64) (hm : t.m < 2 ^ 64)
    (hmax : t.maxM < 2 ^ 64) (hsmall : ∀ size ∈ t.slotSizes, size < 2 ^ 32) {front back : Bytes}
    (hsave : ahtableSave t = some (front ++ back)) (hback : back ≠ []) :
    ahtableLoad front = none := by
  obtain ⟨rows, hrows, -⟩ := h
  have hload := ahtableLoad_saved hrows hn hm hmax hsmall hsave []
  rw [List.append_nil] at hload
  exact steady_ahtableLoad.truncated hload hback

/-- The empty table with one slot, cut off behind its first word. -/
theorem ahtable_load_cut : ahtableLoad [0, 0, 0, 0, 0, 0, 0, 1] = none :=
  ahtable_load_truncated (t := ahtableCreateN 1) (represents_create (by decide)) (by decide)
    (by decide) (by decide) (by decide)
    (show ahtableSave (ahtableCreateN 1) = some ([0, 0, 0, 0, 0, 0, 0, 1] ++
      [0, 0, 0, 0, 0, 0, 0, 0, 0, 0, 0, 0, 0, 1, 134, 160, 0, 0, 0, 0, 0, 0, 0]) by decide)
    (List.cons_ne_nil _ _)

end

end Ayubd.HatTrie
