import KvStorage.Data.EntryList

/-!
# The hash table (`table.c`)

An array of list pointers, NULL until the first insertion into that position
and never deallocated again, and the number of positions. (`table.c` calls the
array `arrayLista`, the private header and the skeleton call it `lists`; it is
one field.)

The functions allocate and index through `CM`, in source order: an index outside
the array or a NULL dereference is a fault, and each `malloc` may fail. The
answer of `list_add` is dropped by `tablePut`, as in the source.
-/

namespace KvStorage

open CLib

/-- `struct table_t`. -/
structure Table where
  lists : List (Option EntryList)
  size : Int

/-- `table_create`. -/
def tableCreate (n : Int) : CM (Option Table) :=
  if n ≤ 0 then pure none
  else do
    if ← malloc then
      if ← malloc then pure (some ⟨List.replicate n.toNat none, n⟩) else pure none
    else pure none

/-- The sum `hashValue` accumulates in an `int`, byte by byte, each byte read
as a signed `char`. -/
def soma (key : List Byte) : Int := key.foldl (fun soma b => cint (soma + schar b)) 0

/-- `hashValue`; the remainder has the sign of the sum. -/
def hashValue (key : CStr) (size : Int) : Int := (soma key.bytes).tmod size

/-- `table_put`, with the table it leaves. -/
def tablePut (t : Table) (key : CStr) (value : Option Block) : CM (Int × Table) :=
  match value with
  | none => pure (-1, t)
  | some value => do
    if ← malloc then
      match ← blockDuplicate (some value) with
      | none => pure (-1, t)
      | some copiaValue =>
        match ← entryCreate (some key) (some copiaValue) with
        | none => pure (-1, t)
        | some entrada =>
          let hash := hashValue key t.size
          match ← arrayGet t.lists hash with
          | none =>
            match ← listCreate with
            | none => pure (-1, t)
            | some lista =>
              let (_, lista) ← listAdd lista entrada
              pure (0, { t with lists := t.lists.set hash.toNat (some lista) })
          | some lista =>
            let (_, lista) ← listAdd lista entrada
            pure (0, { t with lists := t.lists.set hash.toNat (some lista) })
    else pure (-1, t)

/-- `table_get`: a copy of the value. -/
def tableGet (t : Table) (key : CStr) : CM (Option Block) := do
  match ← arrayGet t.lists (hashValue key t.size) with
  | none => pure none
  | some lista =>
    match listGet lista key with
    | none => pure none
    | some entrada => blockDuplicate (some entrada.value)

/-- `table_size`. -/
def tableSize (t : Table) : Int :=
  t.lists.foldl (fun totalEntradas l =>
    match l with
    | none => totalEntradas
    | some lista => cint (totalEntradas + listSize lista)) 0

/-- The inner loop of `table_get_keys`: `n` keys of an array from index `j` on,
each duplicated into the result array. The loop of `rtable_get_keys` is the
same. -/
def copyListKeys (cap : Int) (keysToBeCopied : Option (List (Option CStr))) :
    (n j : Nat) → List (Option CStr) → CM (List (Option CStr))
  | 0, _, keys => pure keys
  | n + 1, j, keys => do
    let arr ← deref keysToBeCopied
    let k ← arrayGet arr j
    let k ← strdup k
    let keys ← arrayPut cap keys k
    copyListKeys cap keysToBeCopied n (j + 1) keys

/-- The outer loop of `table_get_keys`. -/
def copyTableKeys (cap : Int) : List (Option EntryList) → List (Option CStr) →
    CM (List (Option CStr))
  | [], keys => pure keys
  | none :: lists, keys => copyTableKeys cap lists keys
  | some listaAtual :: lists, keys => do
    let keysToBeCopied ← listGetKeys listaAtual
    let keys ← copyListKeys cap keysToBeCopied (listSize listaAtual).toNat 0 keys
    copyTableKeys cap lists keys

/-- `table_get_keys`: the keys and a final NULL. -/
def tableGetKeys (t : Table) : CM (Option (List (Option CStr))) := do
  if ← malloc then
    let cap := ptrArrayCap (cint (tableSize t + 1))
    let keys ← copyTableKeys cap t.lists []
    let keys ← arrayPut cap keys none
    pure (some keys)
  else pure none

/-- `table_remove`: -1 for a position that never held an entry, else the answer
of `list_remove`. -/
def tableRemove (t : Table) (key : CStr) : CM (Int × Table) := do
  let hash := hashValue key t.size
  match ← arrayGet t.lists hash with
  | none => pure (-1, t)
  | some lista =>
    let (r, lista) := listRemove lista key
    pure (r, { t with lists := t.lists.set hash.toNat (some lista) })

/-! ## The hash of a 7-bit key -/

/-- A 7-bit key whose byte sum an `int` holds. -/
def Hashable (key : CStr) : Prop := key.SevenBit ∧ (key.bytes.map Fin.val).sum < 2 ^ 31

instance (key : CStr) : Decidable (Hashable key) := inferInstanceAs (Decidable (_ ∧ _))

theorem sum_le_of_sevenBit : ∀ {bs : List Byte}, (∀ b ∈ bs, b.val < 128) →
    (bs.map Fin.val).sum ≤ 127 * bs.length
  | [], _ => by simp
  | b :: bs, h => by
    have hb := h b (List.mem_cons_self ..)
    have hrest := sum_le_of_sevenBit fun b' hb' => h b' (List.mem_cons_of_mem _ hb')
    rw [List.map_cons, List.sum_cons, List.length_cons]
    omega

/-- Every 7-bit key that fits a frame has a byte sum that fits an `int`. -/
theorem Hashable.of_length {key : CStr} (h : key.SevenBit) (hlen : key.bytes.length ≤ 65535) :
    Hashable key := by
  refine ⟨h, ?_⟩
  have hsum := sum_le_of_sevenBit h
  omega

/-- The running sum over 7-bit bytes never wraps and is the exact sum. -/
theorem soma_foldl : ∀ (bs : List Byte) (acc : Nat), (∀ b ∈ bs, b.val < 128) →
    acc + (bs.map Fin.val).sum < 2 ^ 31 →
    bs.foldl (fun soma b => cint (soma + schar b)) (acc : Int)
      = ((acc + (bs.map Fin.val).sum : Nat) : Int)
  | [], acc, _, _ => by simp
  | b :: bs, acc, h7, hsum => by
    rw [List.map_cons, List.sum_cons] at hsum
    have hb : schar b = b.val := if_pos (h7 b (List.mem_cons_self ..))
    have hstep : cint ((acc : Int) + schar b) = ((acc + b.val : Nat) : Int) := by
      rw [hb, cint_of_lt (by omega) (by omega)]
      push_cast
      rfl
    rw [List.foldl_cons, hstep, soma_foldl bs (acc + b.val)
      (fun b' hb' => h7 b' (List.mem_cons_of_mem _ hb')) (by omega), List.map_cons, List.sum_cons]
    congr 1
    omega

theorem soma_eq_sum {key : CStr} (h : Hashable key) :
    soma key.bytes = ((key.bytes.map Fin.val).sum : Nat) := by
  have hfold := soma_foldl key.bytes 0 h.1 (by simpa using h.2)
  simpa [soma] using hfold

/-- The hash of such a key is an index of the table. -/
theorem hashValue_range {key : CStr} {n : Int} (h : Hashable key) (hn : 0 < n) :
    0 ≤ hashValue key n ∧ hashValue key n < n := by
  unfold hashValue
  rw [soma_eq_sum h]
  exact ⟨Int.tmod_nonneg _ (Int.natCast_nonneg _), Int.tmod_lt_of_pos _ hn⟩

end KvStorage
