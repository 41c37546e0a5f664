import KvStorage.Lib.CMonad

/-!
# Blocks and entries (`block.c`, `entry.c`)

A data block is a length and a pointer to that many bytes; an entry is a key
with a block. Both modules hand out owned copies (`blockDuplicate`,
`entryDuplicate`), so values suffice to model them: no two live structures
share memory that is later written.

`block_replace`, `entry_replace` and the `destroy` functions only manage memory
and have no counterpart here.
-/

namespace KvStorage

open CLib

/-- `struct block_t`. -/
structure Block where
  datasize : Int
  data : Option (List Byte)
  deriving DecidableEq

/-- `struct entry_t`; `entryCreate` refuses NULL for either field. -/
structure Entry where
  key : CStr
  value : Block

/-- `block_create`: wraps the given data without copying it. -/
def blockCreate (size : Int) (data : Option (List Byte)) : CM (Option Block) :=
  if size ≤ 0 ∨ data = none then pure none
  else do
    if ← malloc then pure (some ⟨size, data⟩) else pure none

/-- `block_duplicate`: two allocations, the structure and its data. -/
def blockDuplicate (b : Option Block) : CM (Option Block) :=
  match b with
  | none => pure none
  | some b =>
    match b.data with
    | none => pure none
    | some bytes =>
      if b.datasize ≤ 0 then pure none
      else do
        if ← malloc then
          if ← malloc then
            let copy ← memcpy bytes b.datasize
            pure (some ⟨b.datasize, some copy⟩)
          else pure none
        else pure none

/-- `entry_create`: takes ownership of key and block. -/
def entryCreate (key : Option CStr) (value : Option Block) : CM (Option Entry) :=
  match key, value with
  | some key, some value => do
    if ← malloc then pure (some ⟨key, value⟩) else pure none
  | _, _ => pure none

/-- `entry_compare` of two entries, neither of them NULL. -/
def entryCompare (e1 e2 : Entry) : Int := strcmp e1.key e2.key

/-- `entry_duplicate`: copies key and block. -/
def entryDuplicate (e : Option Entry) : CM (Option Entry) :=
  match e with
  | none => pure none
  | some e => do
    if ← malloc then
      if ← malloc then
        match ← blockDuplicate (some e.value) with
        | some value => pure (some ⟨e.key, value⟩)
        | none => pure none
      else pure none
    else pure none

/-! ## Contents -/

namespace Block

/-- The bytes a block stands for. -/
def content (b : Block) : List Byte := (b.data.getD []).take b.datasize.toNat

/-- A block over exactly these bytes. -/
def ofBytes (v : List Byte) : Block := ⟨v.length, some v⟩

/-- `datasize > 0` and a buffer that holds at least `datasize` bytes. -/
def Valid (b : Block) : Prop := 0 < b.datasize ∧ ∃ d, b.data = some d ∧ b.datasize ≤ d.length

@[simp] theorem content_ofBytes (v : List Byte) : (ofBytes v).content = v := by
  simp [content, ofBytes]

theorem ofBytes_valid {v : List Byte} (h : v ≠ []) : (ofBytes v).Valid :=
  ⟨Int.natCast_pos.mpr (List.length_pos_of_ne_nil h), v, rfl, Int.le_refl _⟩

theorem Valid.content_length {b : Block} (h : b.Valid) : (b.content.length : Int) = b.datasize := by
  obtain ⟨hpos, d, hd, hle⟩ := h
  unfold content
  rw [hd, Option.getD_some, List.length_take]
  omega

theorem Valid.content_ne_nil {b : Block} (h : b.Valid) : b.content ≠ [] := by
  intro hnil
  have hlen := h.content_length
  rw [hnil, List.length_nil] at hlen
  have hpos := h.1
  omega

end Block

/-- A copy of a valid block holds its bytes and nothing more. -/
theorem blockDuplicate_run {b : Block} (h : b.Valid) (al : Allocs) :
    blockDuplicate (some b) al
      = if al 0 then
          if al 1 then .ok (some (Block.ofBytes b.content), fun i => al (i + 2))
          else .ok (none, fun i => al (i + 2))
        else .ok (none, fun i => al (i + 1)) := by
  have hlen := h.content_length
  obtain ⟨hpos, d, hd, hle⟩ := h
  obtain ⟨n, hn⟩ := Int.eq_ofNat_of_zero_le (Int.le_of_lt hpos)
  have hcopy : memcpy d b.datasize = pure b.content := by
    rw [hn, memcpy_of_le (by omega)]
    simp [Block.content, hd, hn]
  unfold blockDuplicate
  simp only [hd, if_neg (not_le.mpr hpos), run_bind, malloc_run, ok_bind]
  by_cases h0 : al 0
  · by_cases h1 : al 1
    · simp [h0, h1, hcopy, Block.ofBytes, hlen]
    · simp [h0, h1]
  · simp [h0]

@[simp] theorem blockDuplicate_allocated {b : Block} (h : b.Valid) :
    blockDuplicate (some b) allocated = .ok (some (Block.ofBytes b.content), allocated) := by
  rw [blockDuplicate_run h]
  rfl

theorem blockCreate_run {v : List Byte} (h : v ≠ []) (al : Allocs) :
    blockCreate v.length (some v) al
      = .ok (if al 0 then some (Block.ofBytes v) else none, fun i => al (i + 1)) := by
  have hpos := List.length_pos_of_ne_nil h
  unfold blockCreate
  rw [if_neg (by simp; omega)]
  by_cases h0 : al 0 <;> simp [h0, Block.ofBytes]

@[simp] theorem blockCreate_nil (data : Option (List Byte)) (al : Allocs) :
    blockCreate 0 data al = .ok (none, al) := by
  simp [blockCreate]

theorem entryCreate_run (key : CStr) (value : Block) (al : Allocs) :
    entryCreate (some key) (some value) al
      = .ok (if al 0 then some ⟨key, value⟩ else none, fun i => al (i + 1)) := by
  unfold entryCreate
  by_cases h0 : al 0 <;> simp [h0]

end KvStorage
