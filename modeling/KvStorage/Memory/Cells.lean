import KvStorage.Lib.Linked
import KvStorage.Data.Entry

/-!
# Blocks and entries in memory (`block.c`, `entry.c`)

The functions of both modules line by line on a heap of the program's structures, with the
pointers they follow, allocate and free. What a pointer to a block or an entry owns is stated with
the value it stands for, and each function is compared with the one on values of
`KvStorage.Data.Entry`: for every outcome of `malloc`, the same result, and nothing freed twice,
read after it was freed, or kept without an owner.

`entry_duplicate` gives up without freeing what it has allocated so far; what it leaves behind is
counted in `duplicateLeaves`.
-/

namespace KvStorage.Memory

open CLib CLib.Heap CLib.Linked Assert

/-- What `malloc` is asked for. Strings and byte buffers are objects as a whole. -/
inductive Cell
  /-- Not written yet. -/
  | raw
  | str (s : CStr)
  | bytes (bs : List Byte)
  | block (datasize : Int) (data : Ptr)
  | entry (key value : Ptr)
  | node (entry next : Ptr)
  | list (head : Ptr) (size : Int)
  /-- Room for `cap` pointers, of which the first ones are written. -/
  | array (cap : Int) (filled : List Ptr)
  | table (arrayLista : Ptr) (size : Int)

namespace Cell

def asStr : Cell → Option CStr
  | str s => some s
  | _ => none

def asBytes : Cell → Option (List Byte)
  | bytes bs => some bs
  | _ => none

def asBlock : Cell → Option (Int × Ptr)
  | block datasize data => some (datasize, data)
  | _ => none

def asEntry : Cell → Option (Ptr × Ptr)
  | entry key value => some (key, value)
  | _ => none

def asNode : Cell → Option (Ptr × Ptr)
  | node e next => some (e, next)
  | _ => none

def asList : Cell → Option (Ptr × Int)
  | list head size => some (head, size)
  | _ => none

def asArray : Cell → Option (Int × List Ptr)
  | array cap filled => some (cap, filled)
  | _ => none

def asTable : Cell → Option (Ptr × Int)
  | table arrayLista size => some (arrayLista, size)
  | _ => none

def setEntry (e : Ptr) : Cell → Option Cell
  | node _ next => some (node e next)
  | _ => none

def setNext (next : Ptr) : Cell → Option Cell
  | node e _ => some (node e next)
  | _ => none

def setHead (head : Ptr) : Cell → Option Cell
  | list _ size => some (list head size)
  | _ => none

def setSize (size : Int) : Cell → Option Cell
  | list head _ => some (list head size)
  | _ => none

end Cell

/-- Code on the program's heap. -/
abbrev HeapM := HM Cell

/-! ## The functions -/

/-- `memcpy` into a buffer of `n` bytes. -/
def memcpy (dest src : Ptr) (n : Int) : HeapM Unit := do
  let bs ← read Cell.asBytes src
  if 0 ≤ n ∧ n ≤ bs.length then store dest (.bytes (bs.take n.toNat))
  else fault .outOfBounds

/-- `strcmp`. -/
def strcmp (s1 s2 : Ptr) : HeapM Int := do
  let s1 ← read Cell.asStr s1
  let s2 ← read Cell.asStr s2
  pure (CLib.strcmp s1 s2)

/-- `block_create`. -/
def blockCreate (size : Int) (data : Ptr) : HeapM Ptr :=
  if size ≤ 0 ∨ data = none then pure none
  else do
    let bloco ← malloc (.block size data)
    if bloco = none then pure none
    else pure bloco

/-- `block_duplicate`. -/
def blockDuplicate (b : Ptr) : HeapM Ptr :=
  if b = none then pure none
  else do
    let (datasize, data) ← read Cell.asBlock b
    if datasize ≤ 0 ∨ data = none then pure none
    else do
      let novoBloco ← malloc .raw
      if novoBloco = none then pure none
      else do
        let novoData ← malloc .raw
        store novoBloco (.block datasize novoData)
        if novoData = none then do
          free novoBloco
          pure none
        else do
          memcpy novoData data datasize
          pure novoBloco

/-- `block_replace`. -/
def blockReplace (b : Ptr) (newSize : Int) (newData : Ptr) : HeapM Int :=
  if b = none ∨ newSize ≤ 0 ∨ newData = none then pure (-1)
  else do
    let (_, data) ← read Cell.asBlock b
    free data
    store b (.block newSize newData)
    pure 0

/-- `block_destroy`. -/
def blockDestroy (b : Ptr) : HeapM Int :=
  if b = none then pure (-1)
  else do
    let (_, data) ← read Cell.asBlock b
    free data
    free b
    pure 0

/-- `entry_create`. -/
def entryCreate (key value : Ptr) : HeapM Ptr :=
  if key = none ∨ value = none then pure none
  else do
    let entrada ← malloc (.entry key value)
    if entrada = none then pure none
    else pure entrada

/-- `entry_compare`. -/
def entryCompare (e1 e2 : Ptr) : HeapM Int :=
  if e1 = none ∨ e2 = none then pure (-2)
  else do
    let (key1, _) ← read Cell.asEntry e1
    let (key2, _) ← read Cell.asEntry e2
    strcmp key1 key2

/-- `entry_duplicate`. -/
def entryDuplicate (e : Ptr) : HeapM Ptr :=
  if e = none then pure none
  else do
    let (key, value) ← read Cell.asEntry e
    if key = none ∨ value = none then pure none
    else do
      let novaEntrada ← malloc .raw
      if novaEntrada = none then pure none
      else do
        let s ← read Cell.asStr key
        let novaKey ← malloc (.str s)
        if novaKey = none then pure none
        else do
          let novoValue ← blockDuplicate value
          -- both fields at once: a copy that is given up on is not read again
          store novaEntrada (.entry novaKey novoValue)
          if novoValue = none then pure none
          else pure novaEntrada

/-- `entry_replace`. -/
def entryReplace (e newKey newValue : Ptr) : HeapM Int :=
  if e = none ∨ newKey = none ∨ newValue = none then pure (-1)
  else do
    let (key, value) ← read Cell.asEntry e
    free key
    let _ ← blockDestroy value
    store e (.entry newKey newValue)
    pure 0

/-- `entry_destroy`. -/
def entryDestroy (e : Ptr) : HeapM Int :=
  if e = none then pure (-1)
  else do
    let (key, value) ← read Cell.asEntry e
    if key = none ∨ value = none then pure (-1)
    else do
      free key
      let _ ← blockDestroy value
      free e
      pure 0

/-! ## What is owned -/

/-- A string. -/
def strAt (p : Ptr) (s : CStr) : Assert Cell := cell p (.str s)

/-- A byte buffer. -/
def bytesAt (p : Ptr) (bs : List Byte) : Assert Cell := cell p (.bytes bs)

/-- A block with its data at `d`. -/
def blockAt (d p : Ptr) (b : Block) : Assert Cell :=
  cell p (.block b.datasize d) * orNull bytesAt d b.data

/-- A block. -/
def ownBlock (p : Ptr) (b : Block) : Assert Cell := ⨆ d, blockAt d p b

/-- An entry with its key at `k`, its value at `v` and the value's data at `d`. -/
def entryAt (d k v p : Ptr) (e : Entry) : Assert Cell :=
  cell p (.entry k v) * (strAt k e.key * blockAt d v e.value)

/-- An entry. -/
def ownEntry (p : Ptr) (e : Entry) : Assert Cell :=
  ⨆ (d : Ptr) (k : Ptr) (v : Ptr), entryAt d k v p e

/-- The part of an entry that comparisons read. -/
def keyAt (p : Ptr) (key : CStr) : Assert Cell :=
  ⨆ kv : Ptr × Ptr, cell p (.entry kv.1 kv.2) * strAt kv.1 key

/-! ## Blocks -/

theorem blockAt_shows (d p : Ptr) (b : Block) : (blockAt d p b).Shows (p ≠ none) :=
  (cell_shows p _).mul_left

/-- The value of a copy is the first bytes of the original. -/
theorem memcpy_refines {γ δ : Type} {al : Allocs} {P : Assert Cell} {dest src : Ptr} {n : Int}
    {bs : List Byte} {v : Cell} {k : Unit → HeapM γ} {k' : List Byte → CM δ}
    {S : γ → δ → Assert Cell} (hsrc : P.Owns (cell src (.bytes bs))) (F : Assert Cell)
    (hP : P ≤ cell dest v * F)
    (hk : ∀ copy, Refines al (bytesAt dest copy * F) (k ()) (k' copy) S) :
    Refines al P (memcpy dest src n >>= k) (CLib.memcpy bs n >>= k') S := by
  unfold memcpy CLib.memcpy
  rw [bind_assoc]
  refine Refines.read hsrc rfl ?_
  split
  next => exact Refines.store F hP (hk _)
  next => exact Refines.throw_bind

theorem blockDuplicate_refines (al : Allocs) (d p : Ptr) (b : Block) :
    Refines al (blockAt d p b) (blockDuplicate p) (KvStorage.blockDuplicate (some b))
      fun q r => orNull ownBlock q r * blockAt d p b := by
  refine Refines.shows (blockAt_shows d p b) fun hp => ?_
  unfold blockDuplicate KvStorage.blockDuplicate
  rw [if_neg hp]
  refine Refines.read (owns_refl _).mul_left rfl ?_
  obtain ⟨datasize, data⟩ := b
  dsimp only
  cases data with
  | none =>
    refine Refines.shows (orNull_none_shows bytesAt d).mul_right fun hd => ?_
    rw [if_pos (Or.inr hd)]
    exact Refines.pure (by rw [orNull_none, one_mul])
  | some bytes =>
    refine Refines.shows (cell_shows d _).mul_right fun hd => ?_
    refine Refines.ite (or_iff_left hd) (fun _ => ?_) fun hsize => ?_
    · exact Refines.pure (by rw [orNull_none, one_mul])
    · refine Refines.malloc_test (fun _ q => ?_) fun _ => ?_
      · refine Refines.malloc (fun _ d' => ?_) fun _ => ?_
        · rw [if_neg (Option.some_ne_none d'), if_pos rfl]
          refine Refines.store _ (mul_left_comm _ _ _).le ?_
          refine memcpy_refines (owns_refl _).mul_right.mul_right.mul_right _
            (mul_left_comm _ _ _).le fun copy => ?_
          refine Refines.pure ?_
          rw [← mul_assoc]
          refine mul_le_mul_left ?_ _
          rw [mul_comm]
          exact le_iSup (fun d => blockAt d (some q) ⟨datasize, some copy⟩) (some d')
        · rw [if_pos rfl, if_neg Bool.false_ne_true]
          refine Refines.store _ le_rfl (Refines.free _ le_rfl ?_)
          exact Refines.pure (by rw [orNull_none, one_mul])
      · exact Refines.pure (by rw [orNull_none, one_mul])

theorem blockAt_le_own (d p : Ptr) (b : Block) : blockAt d p b ≤ ownBlock p b :=
  le_iSup (fun d => blockAt d p b) d

theorem orNull_bytes_shows (d : Ptr) (data : Option (List Byte)) :
    (orNull bytesAt d data).Shows (d = none ↔ data = none) :=
  orNull_shows bytesAt (fun p _ => cell_shows p _) d data

/-- The block takes over the data. -/
theorem blockCreate_refines (al : Allocs) (size : Int) (d : Ptr) (data : Option (List Byte)) :
    Refines al (orNull bytesAt d data) (blockCreate size d) (KvStorage.blockCreate size data)
      fun p r => match r with
        | none => ⨆ _ : p = none, orNull bytesAt d data
        | some b => ⨆ _ : b = ⟨size, data⟩, blockAt d p b := by
  refine Refines.shows (orNull_bytes_shows d data) fun hd => ?_
  unfold blockCreate KvStorage.blockCreate
  refine Refines.ite (or_congr_right hd) (fun _ => ?_) fun _ => ?_
  · exact Refines.pure (fact rfl le_rfl)
  · exact Refines.malloc_test (fun _ q => Refines.pure (fact rfl le_rfl))
      fun _ => Refines.pure (fact rfl le_rfl)

theorem blockReplace_runs (p : Ptr) (b : Block) (size : Int) (d : Ptr) (bs : List Byte) :
    Runs (ownBlock p b * bytesAt d bs) (blockReplace p size d) fun r =>
      if size ≤ 0 then ⨆ _ : r = -1, ownBlock p b * bytesAt d bs
      else ⨆ _ : r = 0, ownBlock p ⟨size, some bs⟩ := by
  refine Runs.intro fun al => Refines.iSup_mul fun d' => ?_
  refine Refines.shows (blockAt_shows d' p b).mul_left fun hp => ?_
  refine Refines.shows (cell_shows d (Cell.bytes bs)).mul_right fun hd => ?_
  unfold blockReplace
  by_cases hsize : size ≤ 0
  · rw [if_pos (Or.inr (Or.inl hsize))]
    refine Refines.pure ?_
    rw [if_pos hsize]
    exact fact rfl (mul_le_mul_left (blockAt_le_own d' p b) _)
  · rw [if_neg (by simp [hp, hd, hsize])]
    refine Refines.read (owns_refl _).mul_left.mul_left rfl ?_
    have hsplit : blockAt d' p b * bytesAt d bs
        = orNull bytesAt d' b.data * (cell p (.block b.datasize d') * bytesAt d bs) := by
      unfold blockAt
      ac_rfl
    refine free_orNull _ hsplit.le (Refines.store _ le_rfl (Refines.pure ?_))
    rw [if_neg hsize]
    exact fact rfl (blockAt_le_own d p ⟨size, some bs⟩)

theorem blockDestroy_runs (p : Ptr) (b : Block) :
    Runs (ownBlock p b) (blockDestroy p) fun r => ⨆ _ : r = 0, 1 := by
  refine Runs.intro fun al => Refines.iSup fun d => ?_
  refine Refines.shows (blockAt_shows d p b) fun hp => ?_
  unfold blockDestroy
  rw [if_neg hp]
  refine Refines.read (owns_refl _).mul_left rfl ?_
  refine free_orNull (cell p (Cell.block b.datasize d)) (mul_comm _ _).le ?_
  exact Refines.free 1 (mul_one _).ge (Refines.pure (fact rfl le_rfl))

/-! ## Entries -/

theorem entryAt_le_own (d k v p : Ptr) (e : Entry) : entryAt d k v p e ≤ ownEntry p e :=
  le_iSup_of_le d (le_iSup_of_le k (le_iSup (fun v => entryAt d k v p e) v))

/-- Entries have a key and a value. -/
theorem entryAt_shows (d k v p : Ptr) (e : Entry) :
    (entryAt d k v p e).Shows (p ≠ none ∧ k ≠ none ∧ v ≠ none) := fun h hmem =>
  ⟨(cell_shows p _).mul_left h hmem, (cell_shows k _).mul_left.mul_right h hmem,
    (blockAt_shows d v e.value).mul_right.mul_right h hmem⟩

theorem entryCreate_refines (al : Allocs) (d k v : Ptr) (key : CStr) (value : Block) :
    Refines al (strAt k key * blockAt d v value) (entryCreate k v)
      (KvStorage.entryCreate (some key) (some value))
      fun p r => match r with
        | none => ⨆ _ : p = none, strAt k key * blockAt d v value
        | some e => ⨆ _ : e = ⟨key, value⟩, entryAt d k v p e := by
  refine Refines.shows (cell_shows k _).mul_left fun hk => ?_
  refine Refines.shows (blockAt_shows d v value).mul_right fun hv => ?_
  unfold entryCreate KvStorage.entryCreate
  rw [if_neg (not_or.mpr ⟨hk, hv⟩)]
  exact Refines.malloc_test (fun _ q => Refines.pure (fact rfl le_rfl))
    fun _ => Refines.pure (fact rfl le_rfl)

theorem strcmp_refines {γ δ : Type} {al : Allocs} {P : Assert Cell} {p₁ p₂ : Ptr} {s₁ s₂ : CStr}
    {k : Int → HeapM γ} {m : CM δ} {S : γ → δ → Assert Cell} (h₁ : P.Owns (cell p₁ (.str s₁)))
    (h₂ : P.Owns (cell p₂ (.str s₂))) (hk : Refines al P (k (CLib.strcmp s₁ s₂)) m S) :
    Refines al P (strcmp p₁ p₂ >>= k) m S := by
  unfold strcmp
  rw [bind_assoc]
  refine Refines.read h₁ rfl ?_
  rw [bind_assoc]
  refine Refines.read h₂ rfl ?_
  rw [pure_bind]
  exact hk

theorem keyAt_shows (p : Ptr) (key : CStr) : (keyAt p key).Shows (p ≠ none) :=
  shows_iSup fun _ => (cell_shows p _).mul_left

theorem ownEntry_owns_key (p : Ptr) (e : Entry) : (ownEntry p e).Owns (keyAt p e.key) := by
  refine iSup_le fun d => iSup_le fun k => iSup_le fun v => ?_
  unfold entryAt
  rw [← mul_assoc]
  have howns := owns_iSup (fun kv : Ptr × Ptr => cell p (.entry kv.1 kv.2) * strAt kv.1 e.key)
    (k, v)
  exact Owns.mul_left howns

theorem entryCompare_refines {γ δ : Type} {al : Allocs} {P : Assert Cell} {p₁ p₂ : Ptr}
    {e₁ e₂ : Entry} {k : Int → HeapM γ} {m : CM δ} {S : γ → δ → Assert Cell}
    (h₁ : P.Owns (keyAt p₁ e₁.key)) (h₂ : P.Owns (keyAt p₂ e₂.key))
    (hk : Refines al P (k (KvStorage.entryCompare e₁ e₂)) m S) :
    Refines al P (entryCompare p₁ p₂ >>= k) m S := by
  refine Refines.shows (h₁.shows (keyAt_shows p₁ _)) fun hp₁ => ?_
  refine Refines.shows (h₂.shows (keyAt_shows p₂ _)) fun hp₂ => ?_
  unfold entryCompare
  rw [if_neg (not_or.mpr ⟨hp₁, hp₂⟩)]
  refine Refines.owns h₁ fun kv₁ => Refines.owns (h₂.mono inf_le_left) fun kv₂ => ?_
  have hfirst := owns_inf.mono
    (inf_le_left (a := P ⊓ (cell p₁ (.entry kv₁.1 kv₁.2) * strAt kv₁.1 e₁.key) * ⊤)
      (b := (cell p₂ (.entry kv₂.1 kv₂.2) * strAt kv₂.1 e₂.key) * ⊤))
  rw [bind_assoc]
  refine Refines.read (hfirst.trans (owns_refl _).mul_left) rfl ?_
  dsimp only
  rw [bind_assoc]
  refine Refines.read (owns_inf.trans (owns_refl _).mul_left) rfl ?_
  refine strcmp_refines (hfirst.trans (owns_refl _).mul_right)
    (owns_inf.trans (owns_refl _).mul_right) ?_
  exact hk.mono (inf_le_left.trans inf_le_left) fun _ _ => le_rfl

theorem entryDestroy_runs (p : Ptr) (e : Entry) :
    Runs (ownEntry p e) (entryDestroy p) fun r => ⨆ _ : r = 0, 1 := by
  refine Runs.intro fun al => Refines.iSup fun d => Refines.iSup fun k => Refines.iSup fun v => ?_
  refine Refines.shows (entryAt_shows d k v p e) fun ⟨hp, hk, hv⟩ => ?_
  unfold entryDestroy
  rw [if_neg hp]
  refine Refines.read (owns_refl _).mul_left rfl ?_
  dsimp only
  rw [if_neg (not_or.mpr ⟨hk, hv⟩)]
  refine Refines.free _ (mul_left_comm _ _ _).le ?_
  refine Refines.run (blockDestroy_runs v e.value) (cell p (Cell.entry k v)) ?_ fun r => ?_
  · rw [mul_comm]
    exact mul_le_mul_left (blockAt_le_own d v e.value) _
  · refine Refines.iSup_mul fun _ => ?_
    exact Refines.free 1 (mul_comm _ _).le (Refines.pure (fact rfl le_rfl))

/-- The entry takes over the new key and value. -/
theorem entryReplace_runs (p : Ptr) (e : Entry) (d k v : Ptr) (key : CStr) (value : Block) :
    Runs (ownEntry p e * (strAt k key * blockAt d v value)) (entryReplace p k v) fun r =>
      ⨆ _ : r = 0, entryAt d k v p ⟨key, value⟩ := by
  refine Runs.intro fun al => Refines.iSup_mul fun d' => Refines.iSup_mul fun k' =>
    Refines.iSup_mul fun v' => ?_
  refine Refines.shows (entryAt_shows d' k' v' p e).mul_left fun ⟨hp, _, _⟩ => ?_
  refine Refines.shows (cell_shows k _).mul_left.mul_right fun hk => ?_
  refine Refines.shows (blockAt_shows d v value).mul_right.mul_right fun hv => ?_
  unfold entryReplace
  rw [if_neg (by simp [hp, hk, hv])]
  refine Refines.read (owns_refl _).mul_left.mul_left rfl ?_
  have hsplit : entryAt d' k' v' p e * (strAt k key * blockAt d v value)
      = cell k' (.str e.key) * (blockAt d' v' e.value * (cell p (.entry k' v') *
        (strAt k key * blockAt d v value))) := by
    unfold entryAt strAt
    ac_rfl
  refine Refines.free _ hsplit.le ?_
  refine Refines.run (blockDestroy_runs v' e.value) _
    (mul_le_mul_left (blockAt_le_own d' v' e.value) _) fun r => ?_
  refine Refines.iSup_mul fun _ => ?_
  rw [one_mul]
  exact Refines.store _ le_rfl (Refines.pure (fact rfl le_rfl))

/-- What is left behind when the copy is given up: the structure, and the key if there was memory
for it. -/
def duplicateLeaves (al : Allocs) : Option Entry → Nat
  | some _ => 0
  | none => if al 0 then if al 1 then 2 else 1 else 0

theorem entryDuplicate_refines (al : Allocs) (d k v p : Ptr) (e : Entry) :
    Refines al (entryAt d k v p e) (entryDuplicate p) (KvStorage.entryDuplicate (some e))
      fun q r => orNull ownEntry q r * entryAt d k v p e * garbage (duplicateLeaves al r) := by
  refine Refines.shows (entryAt_shows d k v p e) fun ⟨hp, hk, hv⟩ => ?_
  unfold entryDuplicate KvStorage.entryDuplicate
  rw [if_neg hp]
  refine Refines.read (owns_refl _).mul_left rfl ?_
  dsimp only
  rw [if_neg (not_or.mpr ⟨hk, hv⟩)]
  refine Refines.malloc_test (fun h0 q => ?_) fun h0 => ?_
  · refine Refines.read (owns_refl _).mul_left.mul_right.mul_right rfl ?_
    refine Refines.malloc_test (fun (h1 : al 1 = true) k' => ?_) fun (h1 : al 1 = false) => ?_
    · have hsplit : cell (some k') (.str e.key) * (cell (some q) Cell.raw * entryAt d k v p e)
          = blockAt d v e.value * (cell (some q) Cell.raw * (cell (some k') (.str e.key) *
            (cell p (.entry k v) * strAt k e.key))) := by
        unfold entryAt
        ac_rfl
      refine Refines.call (blockDuplicate_refines _ d v e.value) _ hsplit.le fun v' r al' _ => ?_
      cases r with
      | none =>
        refine Refines.shows (orNull_none_shows ownBlock v').mul_left.mul_left fun hv' => ?_
        rw [hv', orNull_none, one_mul, ← hsplit, if_pos rfl]
        refine Refines.store _ (mul_left_comm _ _ _).le (Refines.pure ?_)
        rw [orNull_none, one_mul, duplicateLeaves, h0, if_pos rfl, if_pos h1, ← mul_assoc, mul_comm]
        exact mul_le_mul_right
          (mul_le_garbage (m := 1) (n := 1) (cell_le_garbage _ _) (cell_le_garbage _ _)) _
      | some value =>
        rw [orNull_some, ownBlock, mul_assoc]
        refine Refines.iSup_mul fun d' => ?_
        refine Refines.shows (blockAt_shows d' v' value).mul_left fun hv' => ?_
        have hsplit' : blockAt d' v' value * (blockAt d v e.value * (cell (some q) Cell.raw *
              (cell (some k') (.str e.key) * (cell p (.entry k v) * strAt k e.key))))
            = cell (some q) Cell.raw * (cell (some k') (.str e.key) * blockAt d' v' value *
              entryAt d k v p e) := by
          unfold entryAt
          ac_rfl
        refine Refines.store _ hsplit'.le ?_
        rw [if_neg hv']
        refine Refines.pure ?_
        rw [duplicateLeaves, garbage_zero, mul_one, ← mul_assoc]
        exact mul_le_mul_left (entryAt_le_own d' (some k') v' (some q) ⟨e.key, value⟩) _
    · refine Refines.pure ?_
      rw [orNull_none, one_mul, duplicateLeaves, h0, if_pos rfl, h1,
        if_neg Bool.false_ne_true, mul_comm]
      exact mul_le_mul_right (cell_le_garbage _ _) _
  · refine Refines.pure ?_
    rw [orNull_none, one_mul, duplicateLeaves, h0, if_neg Bool.false_ne_true, garbage_zero, mul_one]

end KvStorage.Memory
