import KvStorage.Memory.EntryList
import KvStorage.Data.TableMap

/-!
# The hash table in memory (`table.c`)

The functions of `table.c` on the heap, compared with those of `KvStorage.Data.Table`. The table
owns its array, the array its lists. What a caller hands in stays the caller's, and what it gets
back belongs to it.

`table_create` and `table_put` give up without freeing what they have allocated so far, and
`table_put` ignores that `list_add` may not have taken the entry; `createLeaves` and `putLeaves`
count what nobody owns then.
-/

namespace KvStorage.Memory

open CLib CLib.Heap CLib.Linked Assert

/-! ## The functions -/

/-- `table_create`. -/
def tableCreate (n : Int) : HeapM Ptr :=
  if n ≤ 0 then pure none
  else do
    let table ← malloc .raw
    if table = none then pure none
    else do
      -- `n` is an `int`, so the size in bytes does not wrap
      let arrayLista ← malloc (.array n [])
      if arrayLista = none then pure none
      else do
        count (fun i _ => arraySet arrayLista i none) n.toNat 0 ()
        store table (.table arrayLista n)
        pure table

/-- `hashValue`. -/
def hashValue (key : Ptr) (size : Int) : HeapM Int := do
  let key ← read Cell.asStr key
  pure (KvStorage.hashValue key size)

/-- What `table_put` does with the new entry. -/
def putEntry (t key entrada : Ptr) : HeapM Int := do
  let (arrayLista, size) ← read Cell.asTable t
  let hash ← hashValue key size
  let pos ← arrayGet arrayLista hash
  if pos = none then do
    let lista ← listCreate
    if lista = none then pure (-1)
    else do
      let _ ← listAdd lista entrada
      arraySet arrayLista hash.toNat lista
      pure 0
  else do
    let _ ← listAdd pos entrada
    pure 0

/-- `table_put`. -/
def tablePut (t key value : Ptr) : HeapM Int :=
  if t = none ∨ key = none ∨ value = none then pure (-1)
  else do
    let s ← read Cell.asStr key
    let copiaKey ← malloc (.str s)
    if copiaKey = none then pure (-1)
    else do
      let copiaValue ← blockDuplicate value
      if copiaValue = none then pure (-1)
      else do
        let entrada ← entryCreate copiaKey copiaValue
        if entrada = none then pure (-1)
        else putEntry t key entrada

/-- `table_get`. -/
def tableGet (t key : Ptr) : HeapM Ptr :=
  if t = none ∨ key = none then pure none
  else do
    let (arrayLista, size) ← read Cell.asTable t
    let hash ← hashValue key size
    let pos ← arrayGet arrayLista hash
    if pos = none then pure none
    else do
      let entrada ← listGet pos key
      if entrada = none then pure none
      else do
        let (_, value) ← read Cell.asEntry entrada
        blockDuplicate value

/-- The loop of `table_size`. -/
def sizeStep (arrayLista : Ptr) (i : Nat) (totalEntradas : Int) : HeapM Int := do
  let pos ← arrayGet arrayLista i
  if pos = none then pure totalEntradas
  else do
    let n ← listSize pos
    pure (cint (totalEntradas + n))

/-- `table_size`. -/
def tableSize (t : Ptr) : HeapM Int :=
  if t = none then pure (-1)
  else do
    let (arrayLista, size) ← read Cell.asTable t
    count (sizeStep arrayLista) size.toNat 0 0

/-- The inner loop of `table_get_keys`, with the next index of the result. -/
def copyStep (keys keysToBeCopied : Ptr) (j index : Nat) : HeapM Nat := do
  let k ← arrayGet keysToBeCopied j
  let copy ← strdup k
  arraySet keys index copy
  pure (index + 1)

/-- The outer loop of `table_get_keys`. -/
def listKeysStep (arrayLista keys : Ptr) (i index : Nat) : HeapM Nat := do
  let listaAtual ← arrayGet arrayLista i
  if listaAtual = none then pure index
  else do
    let keysToBeCopied ← listGetKeys listaAtual
    let n ← listSize listaAtual
    let index ← count (copyStep keys keysToBeCopied) n.toNat 0 index
    let _ ← listFreeKeys keysToBeCopied
    pure index

/-- `table_get_keys`. -/
def tableGetKeys (t : Ptr) : HeapM Ptr :=
  if t = none then pure none
  else do
    let total ← tableSize t
    let keys ← malloc (.array (ptrArrayCap (cint (total + 1))) [])
    if keys = none then pure none
    else do
      let (arrayLista, size) ← read Cell.asTable t
      let index ← count (listKeysStep arrayLista keys) size.toNat 0 0
      arraySet keys index none
      pure keys

/-- `table_free_keys`. -/
def tableFreeKeys (keys : Ptr) : HeapM Int := listFreeKeys keys

/-- `table_remove`. -/
def tableRemove (t key : Ptr) : HeapM Int :=
  if t = none ∨ key = none then pure (-1)
  else do
    let (arrayLista, size) ← read Cell.asTable t
    let hash ← hashValue key size
    let pos ← arrayGet arrayLista hash
    if pos = none then pure (-1)
    else listRemove pos key

/-- The loop of `table_destroy`. -/
def destroyListStep (arrayLista : Ptr) (i : Nat) (_ : Unit) : HeapM Unit := do
  let pos ← arrayGet arrayLista i
  if pos = none then pure ()
  else do
    let _ ← listDestroy pos
    pure ()

/-- `table_destroy`. -/
def tableDestroy (t : Ptr) : HeapM Int :=
  if t = none then pure (-1)
  else do
    let (arrayLista, size) ← read Cell.asTable t
    count (destroyListStep arrayLista) size.toNat 0 ()
    free arrayLista
    free t
    pure 0

/-! ## What is owned -/

/-- The array of a table with its lists. -/
abbrev listsAt (n : Int) (a : Ptr) (lists : List (Option EntryList)) : Assert Cell :=
  arrayAt (orNull ownList) n a lists

/-- A table with its array at `a`. -/
def tableAt (a t : Ptr) (T : Table) : Assert Cell :=
  cell t (.table a T.size) * listsAt T.size a T.lists

/-- A table. -/
def ownTable (t : Ptr) (T : Table) : Assert Cell := ⨆ a, tableAt a t T

section

variable {γ δ : Type} {al : Allocs} {m : CM δ} {S : γ → δ → Assert Cell}

theorem tableAt_le_own (a t : Ptr) (T : Table) : tableAt a t T ≤ ownTable t T :=
  le_iSup (fun a => tableAt a t T) a

theorem tableAt_shows (a t : Ptr) (T : Table) : (tableAt a t T).Shows (t ≠ none) :=
  (cell_shows t _).mul_left

theorem ownTable_shows (t : Ptr) (T : Table) : (ownTable t T).Shows (t ≠ none) :=
  shows_iSup fun a => tableAt_shows a t T

/-! ## `table_create` -/

/-- The positions are set to NULL one by one. -/
theorem createLoop {k : Unit → HeapM γ} (F : Assert Cell) (a : Ptr) (N : Nat) (n : Nat) :
    ∀ i, i + n = N →
    Refines al (cell a (.array N (List.replicate N none)) * F) (k ()) m S →
    Refines al (cell a (.array N (List.replicate i none)) * F)
      (count (fun i _ => arraySet a i none) n i () >>= k) m S := by
  induction n with
  | zero =>
    rintro i rfl hk
    exact hk
  | succ n ih =>
    intro i hi hk
    refine Refines.count_succ ?_
    unfold arraySet
    rw [bind_assoc]
    refine Refines.read (owns_refl _).mul_left rfl ?_
    dsimp only
    rw [List.length_replicate, if_neg (Nat.lt_irrefl i), if_pos ⟨rfl, by omega⟩,
      ← List.replicate_succ']
    exact Refines.store _ le_rfl (ih (i + 1) (by omega) hk)

/-- The structure is left behind where there is no memory for the array. -/
def createLeaves (n : Int) (al : Allocs) : Nat :=
  if 0 < n ∧ al 0 = true ∧ al 1 = false then 1 else 0

theorem each_none {ε : Type} (item : Ptr → ε → Assert Cell) (n : Nat) :
    each (orNull item) (List.replicate n none) (List.replicate n none) = 1 := by
  induction n with
  | zero => rfl
  | succ n ih => rw [List.replicate_succ, List.replicate_succ, each, ih, orNull_none, one_mul]

theorem tableCreate_refines (n : Int) (al : Allocs) :
    Refines al 1 (tableCreate n) (KvStorage.tableCreate n)
      fun t r => orNull ownTable t r * garbage (createLeaves n al) := by
  unfold tableCreate KvStorage.tableCreate
  refine Refines.ite Iff.rfl (fun hn => ?_) fun hn => ?_
  · refine Refines.pure ?_
    rw [orNull_none, one_mul, createLeaves, if_neg fun h => hn.not_gt h.1, garbage_zero]
  · have hpos : 0 < n := not_le.mp hn
    refine Refines.malloc_test (fun h0 t => ?_) fun h0 => ?_
    · refine Refines.malloc_test (fun (h1 : al 1 = true) a => ?_) fun (h1 : al 1 = false) => ?_
      · have hn' : (n.toNat : Int) = n := Int.toNat_of_nonneg hpos.le
        have hloop : _ → Refines (Allocs.drop (Allocs.drop al 1) 1) _ _ _ _ := createLoop
          (F := cell (some t) .raw) (m := pure (some ⟨List.replicate n.toNat none, n⟩))
          (S := fun t r => orNull ownTable t r * garbage (createLeaves n al))
          (k := fun _ => do
            store (some t) (.table (some a) n)
            pure (some t)) (some a) n.toNat n.toNat 0 (Nat.zero_add _)
        rw [hn', List.replicate_zero] at hloop
        rw [mul_one]
        refine hloop (Refines.store _ (mul_comm _ _).le (Refines.pure ?_))
        rw [createLeaves, h1, if_neg (by simp), garbage_zero, mul_one]
        refine le_trans (mul_le_mul_right ?_ _) (tableAt_le_own (some a) (some t)
          ⟨List.replicate n.toNat none, n⟩)
        refine le_iSup_of_le (List.replicate n.toNat none) ?_
        rw [each_none, mul_one]
      · refine Refines.pure ?_
        rw [orNull_none, one_mul, mul_one, createLeaves, if_pos ⟨hpos, h0, h1⟩]
        exact cell_le_garbage _ _
    · refine Refines.pure ?_
      rw [orNull_none, one_mul, createLeaves, h0, if_neg (by simp), garbage_zero]

/-! ## `table_put` -/

/-- What `table_put` does with the new entry, on values. -/
def putValue (T : Table) (e : Entry) : CM (Int × Table) := do
  match ← CLib.arrayGet T.lists (KvStorage.hashValue e.key T.size) with
  | none =>
    match ← KvStorage.listCreate with
    | none => pure (-1, T)
    | some lista =>
      let (_, lista) ← KvStorage.listAdd lista e
      pure (0, { T with
        lists := T.lists.set (KvStorage.hashValue e.key T.size).toNat (some lista) })
  | some lista =>
    let (_, lista) ← KvStorage.listAdd lista e
    pure (0, { T with
      lists := T.lists.set (KvStorage.hashValue e.key T.size).toNat (some lista) })

/-- The objects of an entry that the list at its position did not take. -/
def entryLeaves (pos : Option EntryList) (key : CStr) (al : Allocs) : Nat :=
  match pos with
  | none => if al 0 = true ∧ al 1 = true then 0 else 4
  | some l => if (∃ e ∈ l.nodes, e.key = key) ∨ al 0 = true then 0 else 4

/-- The objects `table_put` leaves behind. -/
def putLeaves (pos : Option EntryList) (key : CStr) (value : Block) (al : Allocs) : Nat :=
  if al 0 = false then 0
  else if ¬ (0 < value.datasize ∧ value.data ≠ none ∧ al 1 = true ∧ al 2 = true) then 1
  else if al 3 = false then 3
  else entryLeaves pos key (Allocs.drop al 4)

theorem listAdd_code {L : EntryList} (hL : L.Good) {e : Entry} {al al' : Allocs}
    {res : Int × EntryList} (hrun : KvStorage.listAdd L e al = .ok (res, al')) :
    res.1 = -1 ↔ e.key ∉ L.nodes.map Entry.key ∧ al 0 = false := by
  obtain ⟨L', -, hadd, -⟩ := listAdd_run hL e al
  rw [hrun] at hadd
  by_cases hmem : e.key ∈ L.nodes.map Entry.key
  · rw [if_pos hmem] at hadd
    cases hadd
    simp [hmem]
  · rw [if_neg hmem] at hadd
    cases h0 : al 0 <;> rw [h0] at hadd <;> cases hadd <;> simp [hmem]

theorem listCreate_code {al al' : Allocs} {r : Option EntryList}
    (hrun : KvStorage.listCreate al = .ok (r, al')) : al' = Allocs.drop al 1 ∧
      (al 0 = true ∧ r = some ⟨0, []⟩ ∨ al 0 = false ∧ r = none) := by
  unfold KvStorage.listCreate at hrun
  cases h0 : al 0 <;> simp only [run_bind, malloc_run, h0, ok_bind] at hrun <;> cases hrun
  · exact ⟨rfl, Or.inr ⟨rfl, rfl⟩⟩
  · exact ⟨rfl, Or.inl ⟨rfl, rfl⟩⟩

theorem unlinked_le_garbage {entry : Ptr} {e : Entry} (he : ownEntry entry e ≤ garbage 4)
    (r : Int) : unlinked entry e r ≤ garbage (if r = -1 then 4 else 0) := by
  unfold unlinked
  split
  next => exact he
  next => exact garbage_zero.ge

/-- The table, with what is at one position. -/
theorem position_le_own {a t p : Ptr} {T : Table} {i : Nat} {ps : List Ptr}
    {pos : Option EntryList} (hp : ps[i]? = some p) (hpos : T.lists[i]? = some pos) :
    cell t (.table a T.size) * (cell a (.array T.size ps) *
      (orNull ownList p pos * eachBut (orNull ownList) i ps T.lists)) ≤ ownTable t T := by
  rw [← each_getElem hp hpos]
  refine le_trans (mul_le_mul_right ?_ _) (tableAt_le_own a t T)
  exact le_iSup (fun ps => cell a (.array T.size ps) * each (orNull ownList) ps T.lists) ps

/-- The table, with another list at one position. -/
theorem setPosition_le_own {a t : Ptr} {T : Table} {i : Nat} {ps : List Ptr}
    (hps : i < ps.length) (hlists : i < T.lists.length) (p : Ptr) (L : EntryList) :
    cell t (.table a T.size) * (cell a (.array T.size (ps.set i p)) *
      (ownList p L * eachBut (orNull ownList) i ps T.lists))
      ≤ ownTable t { T with lists := T.lists.set i (some L) } := by
  have hset : orNull ownList p (some L) * _ = _ := each_set hps hlists p (some L)
  rw [orNull_some] at hset
  rw [hset]
  refine le_trans (mul_le_mul_right ?_ _) (tableAt_le_own a t { T with
    lists := T.lists.set i (some L) })
  exact le_iSup (fun ps => cell a (.array T.size ps) *
    each (orNull ownList) ps (T.lists.set i (some L))) (ps.set i p)

theorem hashValue_refines {k : Int → HeapM γ} {P : Assert Cell} {key : Ptr} {s : CStr} {size : Int}
    (hs : P.Owns (strAt key s)) (hk : Refines al P (k (KvStorage.hashValue s size)) m S) :
    Refines al P (hashValue key size >>= k) m S := by
  unfold hashValue
  rw [bind_assoc]
  exact Refines.read hs rfl hk

/-- The end of `table_put`: the list at the position of the entry has had its turn. -/
theorem put_le_own {T : Table} {a t k entrada p : Ptr} {i : Nat} {ps : List Ptr} {key : CStr}
    {e : Entry} (he : ownEntry entrada e ≤ garbage 4) (hps : i < ps.length)
    (hlists : i < T.lists.length) (r : Int) (L : EntryList) :
    ownList p L * unlinked entrada e r * (cell a (.array T.size (ps.set i p)) *
      (eachBut (orNull ownList) i ps T.lists * (cell t (.table a T.size) * strAt k key)))
      ≤ ownTable t { T with lists := T.lists.set i (some L) } * strAt k key *
        garbage (if r = -1 then 4 else 0) := by
  have hgarbage := unlinked_le_garbage he r
  calc ownList p L * unlinked entrada e r * (cell a (.array T.size (ps.set i p)) *
        (eachBut (orNull ownList) i ps T.lists * (cell t (.table a T.size) * strAt k key)))
      = cell t (.table a T.size) * (cell a (.array T.size (ps.set i p)) *
        (ownList p L * eachBut (orNull ownList) i ps T.lists)) * strAt k key *
        unlinked entrada e r := by ac_rfl
    _ ≤ _ := mul_le_mul' (mul_le_mul_left (setPosition_le_own hps hlists p L) _) hgarbage

theorem putEntry_refines {T : Table} (hT : T.WF) (al : Allocs) (t k entrada : Ptr) (e : Entry)
    (he : ownEntry entrada e ≤ garbage 4) :
    Refines al (ownTable t T * (ownEntry entrada e * strAt k e.key)) (putEntry t k entrada)
      (putValue T e) fun r res => ⨆ _ : r = res.1,
        ownTable t res.2 * strAt k e.key * garbage (entryLeaves (T.listOf e.key) e.key al) := by
  refine Refines.iSup_mul fun a => ?_
  unfold putEntry putValue
  refine Refines.read (owns_refl _).mul_left.mul_left rfl ?_
  dsimp only
  refine hashValue_refines (owns_refl _).mul_right.mul_right ?_
  have hsplit : tableAt a t T * (ownEntry entrada e * strAt k e.key)
      = listsAt T.size a T.lists * (cell t (.table a T.size) *
        (ownEntry entrada e * strAt k e.key)) := by
    unfold tableAt
    ac_rfl
  rw [hsplit]
  refine arrayGet_refines _ fun ps p pos _ hp hpos => ?_
  have hlistOf : T.listOf e.key = pos := by
    unfold Table.listOf Table.slot
    rw [hpos, Option.getD_some]
  generalize (KvStorage.hashValue e.key T.size).toNat = i at hp hpos ⊢
  obtain ⟨hps, hself⟩ := List.getElem?_eq_some_iff.mp hp
  obtain ⟨hlists, -⟩ := List.getElem?_eq_some_iff.mp hpos
  rw [each_getElem hp hpos, hlistOf]
  cases pos with
  | none =>
    refine Refines.shows (orNull_none_shows ownList p).mul_left.mul_right.mul_left fun hnull => ?_
    rw [if_pos hnull]
    dsimp only
    refine Refines.call (listCreate_refines al) _ (one_mul _).ge fun lista r al' hcreate => ?_
    obtain ⟨rfl, ⟨h0, rfl⟩ | ⟨h0, rfl⟩⟩ := listCreate_code hcreate
    · rw [orNull_some]
      refine Refines.shows (ownList_shows lista _).mul_left fun hlista => ?_
      rw [if_neg hlista]
      have hadd : ownList lista ⟨0, []⟩ * (cell a (.array T.size ps) * (orNull ownList p none *
            eachBut (orNull ownList) i ps T.lists) * (cell t (.table a T.size) *
            (ownEntry entrada e * strAt k e.key)))
          = ownList lista ⟨0, []⟩ * ownEntry entrada e * (cell a (.array T.size ps) *
            (orNull ownList p none * (eachBut (orNull ownList) i ps T.lists *
            (cell t (.table a T.size) * strAt k e.key)))) := by
        ac_rfl
      refine Refines.call (listAdd_refines _ lista entrada ⟨0, []⟩ e) _ hadd.le
        fun r res al' hres => Refines.iSup_mul fun hr => ?_
      unfold arraySet
      rw [bind_assoc]
      refine Refines.read (owns_refl _).mul_left.mul_right rfl ?_
      dsimp only
      rw [if_pos hps, hnull, orNull_none, one_mul]
      refine Refines.store _ (mul_left_comm _ _ _).le (Refines.pure (fact rfl ?_))
      rw [mul_left_comm]
      refine (put_le_own he hps hlists r res.2).trans (mul_le_mul_right (le_of_eq ?_) _)
      have hcode : res.1 = -1 ↔ Allocs.drop al 1 0 = false := by
        simpa using listAdd_code good_nil hres
      change _ ↔ al 1 = false at hcode
      rw [hr, entryLeaves, h0]
      cases h1 : al 1 <;> simp [h1] at hcode <;> simp [hcode]
    · refine Refines.shows (orNull_none_shows ownList lista).mul_left fun hlista => ?_
      rw [if_pos hlista]
      refine Refines.pure (fact rfl ?_)
      rw [hlista, orNull_none, one_mul, entryLeaves, h0, if_neg (by simp)]
      calc cell a (.array T.size ps) * (orNull ownList p none *
            eachBut (orNull ownList) i ps T.lists) *
            (cell t (.table a T.size) * (ownEntry entrada e * strAt k e.key))
          = cell t (.table a T.size) * (cell a (.array T.size ps) * (orNull ownList p none *
            eachBut (orNull ownList) i ps T.lists)) * strAt k e.key * ownEntry entrada e := by
            ac_rfl
        _ ≤ ownTable t T * strAt k e.key * garbage 4 :=
            mul_le_mul' (mul_le_mul_left (position_le_own hp hpos) _) he
  | some L =>
    have hL := hT.good L (hT.listOf_mem hlistOf)
    refine Refines.shows ((ownList_shows p L).mul_left.mul_right.mul_left) fun hnull => ?_
    rw [if_neg hnull]
    have hadd : cell a (.array T.size ps) * (orNull ownList p (some L) *
          eachBut (orNull ownList) i ps T.lists) * (cell t (.table a T.size) *
          (ownEntry entrada e * strAt k e.key))
        = ownList p L * ownEntry entrada e * (cell a (.array T.size (ps.set i p)) *
          (eachBut (orNull ownList) i ps T.lists * (cell t (.table a T.size) *
          strAt k e.key))) := by
      rw [orNull_some, ← hself, List.set_getElem_self]
      ac_rfl
    refine Refines.call (listAdd_refines al p entrada L e) _ hadd.le fun r res al' hres => ?_
    refine Refines.iSup_mul fun hr => Refines.pure (fact rfl ?_)
    refine (put_le_own he hps hlists r res.2).trans (mul_le_mul_right (le_of_eq ?_) _)
    have hcode := listAdd_code hL hres
    rw [List.mem_map] at hcode
    rw [hr, entryLeaves]
    by_cases htaken : (∃ e' ∈ L.nodes, e'.key = e.key) ∨ al 0 = true
    · rw [if_pos htaken, if_neg fun h => htaken.elim (hcode.mp h).1 fun h0 =>
        Bool.false_ne_true ((hcode.mp h).2.symm.trans h0)]
    · have hfull : al 0 = false := by simpa using fun h => htaken (.inr h)
      rw [if_neg htaken, if_pos (hcode.mpr ⟨fun h => htaken (.inl h), hfull⟩)]

theorem ownBlock_le_garbage (p : Ptr) {b : Block} (hb : b.data ≠ none) :
    ownBlock p b ≤ garbage 2 := by
  obtain ⟨n, data⟩ := b
  cases data with
  | none => exact absurd rfl hb
  | some bytes =>
    refine iSup_le fun d => ?_
    exact mul_le_garbage (m := 1) (n := 1) (cell_le_garbage _ _) (cell_le_garbage _ _)

theorem ownEntry_le_garbage (p : Ptr) {e : Entry} (he : e.value.data ≠ none) :
    ownEntry p e ≤ garbage 4 := by
  refine iSup_le fun d => iSup_le fun k => iSup_le fun v => ?_
  have hvalue := le_trans (blockAt_le_own d v e.value) (ownBlock_le_garbage v he)
  exact mul_le_garbage (m := 1) (n := 3) (cell_le_garbage _ _)
    (mul_le_garbage (m := 1) (n := 2) (cell_le_garbage _ _) hvalue)

/-- What `block_duplicate` needs: something to copy, and memory for two objects. -/
theorem blockDuplicate_code {b : Block} {al al' : Allocs} {r : Option Block}
    (hrun : KvStorage.blockDuplicate (some b) al = .ok (r, al')) :
    (r = none ∧ ¬ (0 < b.datasize ∧ b.data ≠ none ∧ al 0 = true ∧ al 1 = true)) ∨
      ((∃ c, r = some c ∧ c.data ≠ none) ∧ al' = Allocs.drop al 2 ∧
        0 < b.datasize ∧ b.data ≠ none ∧ al 0 = true ∧ al 1 = true) := by
  obtain ⟨n, data⟩ := b
  unfold KvStorage.blockDuplicate at hrun
  cases data with
  | none =>
    cases hrun
    exact Or.inl ⟨rfl, fun h => h.2.1 rfl⟩
  | some bytes =>
    dsimp only at hrun ⊢
    split at hrun
    next hn =>
      cases hrun
      exact Or.inl ⟨rfl, fun h => by omega⟩
    next hn =>
      cases h0 : al 0 with
      | false =>
        simp only [run_bind, malloc_run, h0, ok_bind] at hrun
        cases hrun
        exact Or.inl ⟨rfl, by simp⟩
      | true =>
        cases h1 : al 1 with
        | false =>
          simp only [run_bind, malloc_run, h0, h1, ok_bind, if_true] at hrun
          cases hrun
          exact Or.inl ⟨rfl, by simp⟩
        | true =>
          simp only [run_bind, malloc_run, h0, h1, ok_bind, if_true, bind_eq_ok] at hrun
          obtain ⟨⟨copy, al₁⟩, hcopy, hret⟩ := hrun
          unfold CLib.memcpy at hcopy
          split at hcopy <;> cases hcopy
          cases hret
          exact Or.inr ⟨⟨_, rfl, Option.some_ne_none _⟩, rfl, by omega, by simp, rfl, rfl⟩

theorem tablePut_refines {T : Table} (hT : T.WF) (al : Allocs) (t d k v : Ptr) (key : CStr)
    (value : Block) :
    Refines al (ownTable t T * (strAt k key * blockAt d v value)) (tablePut t k v)
      (KvStorage.tablePut T key (some value)) fun r res => ⨆ _ : r = res.1,
        ownTable t res.2 * (strAt k key * blockAt d v value) *
          garbage (putLeaves (T.listOf key) key value al) := by
  refine Refines.shows (ownTable_shows t T).mul_left fun ht => ?_
  refine Refines.shows (cell_shows k (Cell.str key)).mul_left.mul_right fun hk => ?_
  refine Refines.shows (blockAt_shows d v value).mul_right.mul_right fun hv => ?_
  unfold tablePut KvStorage.tablePut
  rw [if_neg (by simp [ht, hk, hv])]
  refine Refines.read (owns_refl _).mul_left.mul_right rfl ?_
  dsimp only
  refine Refines.malloc_test (fun h0 ck => ?_) fun h0 => ?_
  · have hdup : cell (some ck) (.str key) * (ownTable t T * (strAt k key * blockAt d v value))
        = blockAt d v value * (cell (some ck) (.str key) * (ownTable t T * strAt k key)) := by
      ac_rfl
    refine Refines.call (blockDuplicate_refines _ d v value) _ hdup.le fun cv r al' hcopy => ?_
    have h0' : ¬ al 0 = false := by simp [h0]
    obtain ⟨rfl, hno⟩ | ⟨⟨c, rfl, hc⟩, rfl, hyes⟩ := blockDuplicate_code hcopy
    · change ¬ (0 < value.datasize ∧ value.data ≠ none ∧ al 1 = true ∧ al 2 = true) at hno
      refine Refines.shows (orNull_none_shows ownBlock cv).mul_left.mul_left fun hcv => ?_
      rw [if_pos hcv]
      refine Refines.pure (fact rfl ?_)
      rw [hcv, orNull_none, one_mul, ← hdup, putLeaves, if_neg h0', if_pos hno, mul_comm]
      exact mul_le_mul_right (cell_le_garbage _ _) _
    · change 0 < value.datasize ∧ value.data ≠ none ∧ al 1 = true ∧ al 2 = true at hyes
      rw [orNull_some, ownBlock, mul_assoc]
      refine Refines.iSup_mul fun d' => ?_
      refine Refines.shows (blockAt_shows d' cv c).mul_left fun hcv => ?_
      rw [if_neg hcv, ← hdup]
      have hentry : blockAt d' cv c * (cell (some ck) (.str key) * (ownTable t T *
            (strAt k key * blockAt d v value)))
          = strAt (some ck) key * blockAt d' cv c * (ownTable t T *
            (strAt k key * blockAt d v value)) := by
        unfold strAt
        ac_rfl
      refine Refines.call (entryCreate_refines _ d' (some ck) cv key c) _ hentry.le
        fun entrada r al'' hnew => ?_
      have hfull : putLeaves (T.listOf key) key value al = if al 3 = false then 3
          else entryLeaves (T.listOf key) key (Allocs.drop al 4) := by
        rw [putLeaves, if_neg h0', if_neg (not_not.mpr hyes)]
      have hnew' : (if al 3 = true then some ⟨key, c⟩ else none) = r ∧ Allocs.drop al 4 = al'' := by
        rw [entryCreate_run, Except.ok.injEq, Prod.mk.injEq] at hnew
        exact hnew
      obtain ⟨hr, rfl⟩ := hnew'
      cases r with
      | none =>
        have h3 : al 3 = false := by
          by_contra h3
          rw [if_pos (by simpa using h3)] at hr
          cases hr
        refine Refines.iSup_mul fun hnull => ?_
        rw [if_pos hnull]
        refine Refines.pure (fact rfl ?_)
        rw [hfull, if_pos h3, mul_comm]
        refine mul_le_mul_right (mul_le_garbage (m := 1) (n := 2) (cell_le_garbage _ _) ?_) _
        exact le_trans (blockAt_le_own d' cv c) (ownBlock_le_garbage cv hc)
      | some e =>
        have h3 : al 3 = true := by
          by_contra h3
          rw [if_neg h3] at hr
          cases hr
        refine Refines.iSup_mul fun he => ?_
        subst he
        refine Refines.shows (entryAt_shows d' (some ck) cv entrada _).mul_left fun hnull => ?_
        rw [if_neg hnull.1]
        have hput := (putEntry_refines hT (Allocs.drop al 4) t k entrada ⟨key, c⟩
          (ownEntry_le_garbage entrada hc)).frame (blockAt d v value)
        refine hput.mono ?_ fun r res => ?_
        · calc entryAt d' (some ck) cv entrada ⟨key, c⟩ * (ownTable t T *
                (strAt k key * blockAt d v value))
              = ownTable t T * (entryAt d' (some ck) cv entrada ⟨key, c⟩ * strAt k key) *
                blockAt d v value := by ac_rfl
            _ ≤ _ := mul_le_mul_left (mul_le_mul_right (mul_le_mul_left
                (entryAt_le_own d' (some ck) cv entrada ⟨key, c⟩) _) _) _
        · rw [iSup_mul, hfull, if_neg (by simp [h3])]
          exact iSup_mono fun _ => le_of_eq (by ac_rfl)
  · refine Refines.pure (fact rfl ?_)
    rw [putLeaves, if_pos h0, garbage_zero, mul_one]

/-! ## `table_get`, `table_remove` -/

/-- The table, with one position taken out to work on it. -/
theorem position_refines {k : Ptr → HeapM γ} {k' : Option EntryList → CM δ} (F : Assert Cell)
    (a t : Ptr) (T : Table) (hash : Int)
    (hk : ∀ ps p pos, ps[hash.toNat]? = some p → T.lists[hash.toNat]? = some pos →
      Refines al (orNull ownList p pos * (cell t (.table a T.size) * (cell a (.array T.size ps) *
        eachBut (orNull ownList) hash.toNat ps T.lists) * F)) (k p) (k' pos) S) :
    Refines al (tableAt a t T * F) (arrayGet a hash >>= k) (CLib.arrayGet T.lists hash >>= k')
      S := by
  have hsplit : tableAt a t T * F = listsAt T.size a T.lists * (cell t (.table a T.size) * F) := by
    unfold tableAt
    ac_rfl
  rw [hsplit]
  refine arrayGet_refines _ fun ps p pos _ hp hpos => ?_
  refine (hk ps p pos hp hpos).mono ?_ fun _ _ => le_rfl
  rw [each_getElem hp hpos]
  exact le_of_eq (by ac_rfl)

/-- The position put back as it was. -/
theorem position_back {a t p : Ptr} {T : Table} {i : Nat} {ps : List Ptr} {pos : Option EntryList}
    (hp : ps[i]? = some p) (hpos : T.lists[i]? = some pos) (F : Assert Cell) :
    orNull ownList p pos * (cell t (.table a T.size) * (cell a (.array T.size ps) *
      eachBut (orNull ownList) i ps T.lists) * F) ≤ ownTable t T * F := by
  refine le_trans (le_of_eq ?_) (mul_le_mul_left (position_le_own (a := a) hp hpos) F)
  ac_rfl

theorem tableGet_refines (al : Allocs) (t k : Ptr) (T : Table) (key : CStr) :
    Refines al (ownTable t T * strAt k key) (tableGet t k) (KvStorage.tableGet T key)
      fun q r => orNull ownBlock q r * (ownTable t T * strAt k key) := by
  refine Refines.iSup_mul fun a => ?_
  refine Refines.shows (tableAt_shows a t T).mul_left fun ht => ?_
  refine Refines.shows (cell_shows k (Cell.str key)).mul_right fun hk => ?_
  unfold tableGet KvStorage.tableGet
  rw [if_neg (not_or.mpr ⟨ht, hk⟩)]
  refine Refines.read (owns_refl _).mul_left.mul_left rfl ?_
  dsimp only
  refine hashValue_refines (owns_refl _).mul_right ?_
  refine position_refines _ a t T _ fun ps p pos hp hpos => ?_
  have hback := position_back (a := a) (t := t) hp hpos (strAt k key)
  cases pos with
  | none =>
    refine Refines.shows (orNull_none_shows ownList p).mul_left fun hnull => ?_
    rw [if_pos hnull]
    refine Refines.pure ?_
    rwa [orNull_none, one_mul]
  | some L =>
    refine Refines.shows (ownList_shows p L).mul_left fun hnull => ?_
    rw [if_neg hnull]
    dsimp only
    have hsplit : orNull ownList p (some L) * (cell t (.table a T.size) *
          (cell a (.array T.size ps) * eachBut (orNull ownList)
          (KvStorage.hashValue key T.size).toNat ps T.lists) * strAt k key)
        = ownList p L * strAt k key * (cell t (.table a T.size) * (cell a (.array T.size ps) *
          eachBut (orNull ownList) (KvStorage.hashValue key T.size).toNat ps T.lists)) := by
      rw [orNull_some]
      ac_rfl
    rw [hsplit] at hback ⊢
    refine Refines.run (listGet_runs p k L key) _ le_rfl fun entrada => ?_
    cases KvStorage.listGet L key with
    | none =>
      refine Refines.iSup_mul fun hentrada => ?_
      rw [if_pos hentrada]
      refine Refines.pure ?_
      rwa [orNull_none, one_mul]
    | some e =>
      refine Refines.mono ?_ ((lent_mul_le _).trans (lent_mono hback)) fun _ _ => le_rfl
      refine Refines.shows (ownEntry_shows entrada e).mul_left fun hentrada => ?_
      rw [if_neg hentrada]
      refine Refines.iSup_mul fun d => Refines.iSup_mul fun ek => Refines.iSup_mul fun v => ?_
      refine Refines.read (owns_refl _).mul_left.mul_left rfl ?_
      have hcopy := (blockDuplicate_refines al d v e.value).frame (cell entrada (.entry ek v) *
        strAt ek e.key * Quantale.rightMulResiduation (ownEntry entrada e)
        (ownTable t T * strAt k key))
      have hentry : blockAt d v e.value * (cell entrada (.entry ek v) * strAt ek e.key *
            Quantale.rightMulResiduation (ownEntry entrada e) (ownTable t T * strAt k key))
          = entryAt d ek v entrada e *
            Quantale.rightMulResiduation (ownEntry entrada e) (ownTable t T * strAt k key) := by
        unfold entryAt
        ac_rfl
      refine hcopy.mono hentry.ge fun q r => ?_
      rw [mul_assoc, hentry]
      exact mul_le_mul_right (le_trans (mul_le_mul_left (entryAt_le_own d ek v entrada e) _)
        lent_le) _

theorem tableRemove_refines (al : Allocs) (t k : Ptr) (T : Table) (key : CStr) :
    Refines al (ownTable t T * strAt k key) (tableRemove t k) (KvStorage.tableRemove T key)
      fun r res => ⨆ _ : r = res.1, ownTable t res.2 * strAt k key := by
  refine Refines.iSup_mul fun a => ?_
  refine Refines.shows (tableAt_shows a t T).mul_left fun ht => ?_
  refine Refines.shows (cell_shows k (Cell.str key)).mul_right fun hk => ?_
  unfold tableRemove KvStorage.tableRemove
  rw [if_neg (not_or.mpr ⟨ht, hk⟩)]
  refine Refines.read (owns_refl _).mul_left.mul_left rfl ?_
  dsimp only
  refine hashValue_refines (owns_refl _).mul_right ?_
  refine position_refines _ a t T _ fun ps p pos hp hpos => ?_
  cases pos with
  | none =>
    refine Refines.shows (orNull_none_shows ownList p).mul_left fun hnull => ?_
    rw [if_pos hnull]
    exact Refines.pure (fact rfl (position_back hp hpos _))
  | some L =>
    refine Refines.shows (ownList_shows p L).mul_left fun hnull => ?_
    rw [if_neg hnull]
    obtain ⟨hps, hself⟩ := List.getElem?_eq_some_iff.mp hp
    obtain ⟨hlists, -⟩ := List.getElem?_eq_some_iff.mp hpos
    generalize (KvStorage.hashValue key T.size).toNat = i at hps hself hlists ⊢
    have hsplit : orNull ownList p (some L) * (cell t (.table a T.size) *
          (cell a (.array T.size ps) * eachBut (orNull ownList) i ps T.lists) * strAt k key)
        = ownList p L * strAt k key * (cell t (.table a T.size) * (cell a (.array T.size ps) *
          eachBut (orNull ownList) i ps T.lists)) := by
      rw [orNull_some]
      ac_rfl
    rw [hsplit]
    refine Refines.ret (Refines.run (listRemove_runs p k L key) _ le_rfl fun r => ?_)
    refine Refines.iSup_mul fun hr => Refines.pure (fact hr ?_)
    have hset := mul_le_mul_left (setPosition_le_own (a := a) (t := t) hps hlists p
      (KvStorage.listRemove L key).2) (strAt k key)
    rw [← hself, List.set_getElem_self] at hset
    refine le_trans (le_of_eq ?_) hset
    rw [hself]
    ac_rfl

/-! ## `table_size`, `table_destroy` -/

/-- What is owned at the positions from `i` on is read, not changed. -/
theorem sizeLoop {k : Int → HeapM γ} {P : Assert Cell} {a : Ptr} {n : Int} {ps : List Ptr}
    {lists : List (Option EntryList)} (hP : P.Owns (cell a (.array n ps) *
      each (orNull ownList) ps lists)) (rest : List (Option EntryList)) :
    ∀ (done : List (Option EntryList)) (total : Int), lists = done ++ rest →
    Refines al P (k (rest.foldl (fun totalEntradas l =>
      match l with
      | none => totalEntradas
      | some lista => cint (totalEntradas + KvStorage.listSize lista)) total)) m S →
    Refines al P (count (sizeStep a) rest.length done.length total >>= k) m S := by
  induction rest with
  | nil => exact fun _ _ _ hk => hk
  | cons pos rest ih =>
    intro done total hlists hk
    refine Refines.shows (hP.shows (each_shows_length ps lists).mul_right) fun hlen => ?_
    refine Refines.count_succ ?_
    rw [sizeStep, arrayGet, bind_assoc, bind_assoc]
    refine Refines.read (hP.trans (owns_refl _).mul_left) rfl ?_
    dsimp only
    have hpos : lists[done.length]? = some pos := by
      rw [hlists, List.getElem?_append_right le_rfl, Nat.sub_self, List.getElem?_cons_zero]
    have hlt : done.length < ps.length := by
      rw [hlen, hlists, List.length_append, List.length_cons]
      omega
    have hp : ps[done.length]? = some ps[done.length] := List.getElem?_eq_getElem hlt
    rw [if_pos (Int.natCast_nonneg _), Int.toNat_natCast, hp]
    dsimp only
    rw [pure_bind]
    have hitem : P.Owns (orNull ownList ps[done.length] pos) := by
      rw [each_getElem hp hpos] at hP
      exact hP.trans (owns_refl _).mul_left.mul_right
    have hrest := fun total => ih (done ++ [pos]) total (by rw [hlists, List.append_assoc]; rfl)
    rw [List.length_append] at hrest
    cases pos with
    | none =>
      refine Refines.shows (hitem.shows (orNull_none_shows ownList _)) fun hnull => ?_
      rw [if_pos hnull, pure_bind]
      exact hrest total hk
    | some L =>
      refine Refines.shows (hitem.shows (ownList_shows _ L)) fun hnull => ?_
      rw [if_neg hnull, bind_assoc]
      refine listSize_refines _ L hitem ?_
      rw [pure_bind]
      exact hrest _ hk

theorem tableSize_refines {k : Int → HeapM γ} {P : Assert Cell} {t : Ptr} {T : Table}
    (hT : (T.lists.length : Int) = T.size) (hP : P.Owns (ownTable t T))
    (hk : Refines al P (k (KvStorage.tableSize T)) m S) :
    Refines al P (tableSize t >>= k) m S := by
  refine Refines.shows (hP.shows (ownTable_shows t T)) fun ht => ?_
  unfold tableSize
  rw [if_neg ht, bind_assoc]
  refine Refines.owns hP fun a => ?_
  refine Refines.read (owns_inf.trans (owns_refl _).mul_left) rfl ?_
  dsimp only
  have harray : (P ⊓ tableAt a t T * ⊤).Owns (listsAt T.size a T.lists) :=
    owns_inf.trans (owns_refl _).mul_right
  refine Refines.owns harray fun ps => ?_
  rw [← hT, Int.toNat_natCast]
  refine sizeLoop owns_inf T.lists [] 0 rfl ?_
  exact hk.mono (inf_le_left.trans inf_le_left) fun _ _ => le_rfl

/-- The lists are freed one by one; the array still holds their addresses. -/
theorem destroyLoop {k : Unit → HeapM γ} {a : Ptr} {n : Int} (F : Assert Cell)
    (rest : List (Option EntryList)) : ∀ done ps : List Ptr,
    (∀ all, Refines al (cell a (.array n all) * F) (k ()) m S) →
    Refines al (cell a (.array n (done ++ ps)) * each (orNull ownList) ps rest * F)
      (count (destroyListStep a) rest.length done.length () >>= k) m S := by
  induction rest with
  | nil =>
    intro done ps hk
    refine Refines.shows (each_shows_length ps []).mul_right.mul_left fun hlen => ?_
    rw [List.length_eq_zero_iff.mp hlen, each, mul_one]
    exact hk (done ++ [])
  | cons pos rest ih =>
    intro done ps hk
    refine Refines.shows (each_shows_length ps (pos :: rest)).mul_right.mul_left fun hlen => ?_
    obtain _ | ⟨p, ps⟩ := ps
    · cases hlen
    refine Refines.count_succ ?_
    rw [destroyListStep, arrayGet, bind_assoc, bind_assoc]
    refine Refines.read (owns_refl _).mul_left.mul_left rfl ?_
    dsimp only
    rw [if_pos (Int.natCast_nonneg _), Int.toNat_natCast, List.getElem?_append_right le_rfl,
      Nat.sub_self, List.getElem?_cons_zero]
    dsimp only
    rw [pure_bind, each]
    have hrest := ih (done ++ [p]) ps hk
    rw [List.append_assoc, List.length_append] at hrest
    cases pos with
    | none =>
      refine Refines.shows (orNull_none_shows ownList p).mul_left.mul_right.mul_left fun hp => ?_
      have hone : orNull ownList p none = 1 := by rw [hp, orNull_none]
      rw [if_pos hp, pure_bind, hone, one_mul]
      exact hrest
    | some L =>
      refine Refines.shows (ownList_shows p L).mul_left.mul_right.mul_left fun hp => ?_
      rw [if_neg hp, bind_assoc, orNull_some, mul_left_comm, mul_assoc]
      refine Refines.run (listDestroy_runs p L) _ le_rfl fun _ => Refines.iSup_mul fun _ => ?_
      rw [one_mul, pure_bind]
      exact hrest

/-- Nothing is left of a table. -/
theorem tableDestroy_runs {T : Table} (hT : (T.lists.length : Int) = T.size) (t : Ptr) :
    Runs (ownTable t T) (tableDestroy t) fun r => ⨆ _ : r = 0, 1 := by
  refine Runs.intro fun al => Refines.iSup fun a => ?_
  refine Refines.shows (tableAt_shows a t T) fun ht => ?_
  unfold tableDestroy
  rw [if_neg ht]
  refine Refines.read (owns_refl _).mul_left rfl ?_
  dsimp only
  rw [← hT, Int.toNat_natCast, tableAt, mul_comm]
  refine Refines.iSup_mul fun ps => ?_
  refine destroyLoop (cell t (.table a T.size)) T.lists [] ps fun all => ?_
  exact Refines.free _ le_rfl (Refines.free 1 (mul_one _).ge (Refines.pure (fact rfl le_rfl)))

/-! ## `table_get_keys` -/

theorem copyNodeKeys_code {cap : Int} : ∀ {nodes : List Entry} {filled keys : List (Option CStr)}
    {al al' : Allocs}, copyNodeKeys cap nodes filled al = .ok (keys, al') →
      ∃ ks, keys = filled ++ ks ++ [none] ∧ ks.length = nodes.length
  | [], filled, keys, al, al', hrun => by
    unfold copyNodeKeys CLib.arrayPut at hrun
    split at hrun <;> cases hrun
    exact ⟨[], by rw [List.append_nil], rfl⟩
  | c :: nodes, filled, keys, al, al', hrun => by
    unfold copyNodeKeys at hrun
    obtain ⟨⟨k, al₁⟩, -, hrun⟩ := bind_eq_ok.mp hrun
    obtain ⟨⟨filled', al₂⟩, hput, hrun⟩ := bind_eq_ok.mp hrun
    unfold CLib.arrayPut at hput
    split at hput <;> cases hput
    obtain ⟨ks, hks, hlen⟩ := copyNodeKeys_code hrun
    exact ⟨k :: ks, by rw [hks, List.append_assoc filled, List.singleton_append],
      by rw [List.length_cons, hlen, List.length_cons]⟩

/-- `list_get_keys` answers one pointer for each node, and a final NULL. -/
theorem listGetKeys_code {L : EntryList} {keys : List (Option CStr)} {al al' : Allocs}
    (hrun : KvStorage.listGetKeys L al = .ok (some keys, al')) :
    ∃ ks, keys = ks ++ [none] ∧ ks.length = L.nodes.length := by
  unfold KvStorage.listGetKeys at hrun
  split at hrun
  next => cases hrun
  next =>
    rw [run_bind, bind_eq_ok] at hrun
    obtain ⟨⟨ok, al₁⟩, -, hrun⟩ := hrun
    cases ok with
    | false => cases hrun
    | true =>
      obtain ⟨⟨ks, al₂⟩, hcopy, hret⟩ := bind_eq_ok.mp hrun
      cases hret
      exact copyNodeKeys_code hcopy

/-- The inner loop ends only where every pointer it goes through is a string. -/
theorem copyListKeys_code {cap : Int} {arr : List (Option CStr)} : ∀ {n j : Nat}
    {keys keys' : List (Option CStr)} {al al' : Allocs},
    copyListKeys cap (some arr) n j keys al = .ok (keys', al') →
      ∀ i, j ≤ i → i < j + n → ∃ s, arr[i]? = some (some s)
  | 0, j, _, _, _, _, _ => fun i hj hi => by omega
  | n + 1, j, keys, keys', al, al', hrun => by
    unfold copyListKeys at hrun
    rw [deref_some, pure_bind, run_bind, bind_eq_ok] at hrun
    obtain ⟨⟨k, al₂⟩, hget, hrun⟩ := hrun
    obtain ⟨⟨k', al₃⟩, hdup, hrun⟩ := bind_eq_ok.mp hrun
    obtain ⟨⟨keys₁, al₄⟩, -, hrun⟩ := bind_eq_ok.mp hrun
    have hrest := copyListKeys_code hrun
    intro i hj hi
    rcases Nat.eq_or_lt_of_le hj with rfl | hlt
    · unfold CLib.arrayGet at hget
      rw [if_pos (Int.natCast_nonneg _), Int.toNat_natCast] at hget
      cases k with
      | none => cases hdup
      | some s =>
        refine ⟨s, ?_⟩
        cases harr : arr[j]? with
        | none =>
          rw [harr] at hget
          cases hget
        | some k =>
          rw [harr] at hget
          cases hget
          rfl
    · exact hrest i hlt (by omega)

theorem afterNull_eq_zero {ks : List (Option CStr)} (h : ∀ k ∈ ks, k ≠ none) :
    afterNull (ks ++ [none]) = 0 := by
  induction ks with
  | nil => rfl
  | cons k ks ih =>
    cases k with
    | none => exact absurd rfl (h none (List.mem_cons_self ..))
    | some s => exact ih fun k hk => h k (List.mem_cons_of_mem _ hk)

/-- The inner loop: one copy of each key, in an array with room for it. -/
theorem copyLoop (F : Assert Cell) (keys q : Ptr) (cap : Int) (inner : Option (List (Option CStr)))
    (n : Nat) : ∀ (al : Allocs) (j : Nat) (filled : List (Option CStr)),
    Refines al (arrayAt (orNull strAt) cap keys filled * (orNull ownKeys q inner * F))
      (count (copyStep keys q) n j filled.length) (copyListKeys cap inner n j filled)
      fun index filled' => ⨆ _ : index = filled'.length,
        arrayAt (orNull strAt) cap keys filled' * (orNull ownKeys q inner * F) := by
  induction n with
  | zero => exact fun al j filled => Refines.pure (fact rfl le_rfl)
  | succ n ih =>
    intro al j filled
    refine Refines.ret (Refines.count_succ ?_)
    unfold copyListKeys
    cases inner with
    | none => exact Refines.throw_bind
    | some arr =>
      rw [deref_some, pure_bind, copyStep, bind_assoc]
      have hsplit : arrayAt (orNull strAt) cap keys filled * (ownKeys q arr * F)
          = ownKeys q arr * (arrayAt (orNull strAt) cap keys filled * F) := mul_left_comm _ _ _
      rw [orNull_some, hsplit]
      refine Refines.iSup_mul fun cap' => arrayGet_refines _ fun ps p v _ hp hv => ?_
      cases v with
      | none => exact Refines.throw_bind
      | some s =>
        rw [bind_assoc]
        refine strdup_refines (s := s) (p := p) ?_ fun al' copy r => ?_
        · rw [each_getElem hp hv]
          exact (owns_refl _).mul_left.mul_right.mul_left
        · have hpush : orNull strAt copy r * (cell q (.array cap' ps) * each (orNull strAt) ps arr *
                (arrayAt (orNull strAt) cap keys filled * F))
              ≤ arrayAt (orNull strAt) cap keys filled * (orNull strAt copy r *
                (ownKeys q arr * F)) := by
            have hown : cell q (.array cap' ps) * each (orNull strAt) ps arr ≤ ownKeys q arr :=
              le_iSup_of_le cap' (le_iSup_of_le ps le_rfl)
            refine le_trans (mul_le_mul_right (mul_le_mul_left hown _) _) (le_of_eq ?_)
            ac_rfl
          rw [bind_assoc]
          refine Refines.mono (arrayPush_refines (ownKeys q arr * F) copy r ?_) hpush
            fun _ _ => le_rfl
          rw [pure_bind, bind_pure]
          have hrest := ih al' (j + 1) (filled ++ [r])
          rwa [List.length_append] at hrest

/-- `list_free_keys` of what `list_get_keys` answered, NULL or an array whose only NULL is its last
pointer. -/
theorem freeCopied_runs (q : Ptr) (keys : Option (List (Option CStr)))
    (hkeys : ∀ arr, keys = some arr → none ∈ arr ∧ afterNull arr = 0) :
    Runs (orNull ownKeys q keys) (listFreeKeys q) fun _ => 1 := by
  cases keys with
  | none =>
    refine Runs.intro fun al => Refines.shows (orNull_none_shows ownKeys q) fun hq => ?_
    unfold listFreeKeys
    rw [if_pos hq]
    exact Refines.pure (iSup_le fun _ => le_rfl)
  | some arr =>
    obtain ⟨hnull, hzero⟩ := hkeys arr rfl
    refine (listFreeKeys_runs q hnull).mono le_rfl fun r => iSup_le fun _ => ?_
    rw [hzero, garbage_zero]

/-- Where the inner loop ends, the keys of a list were all copied before. -/
theorem copied_keys {L : EntryList} (hL : L.size = L.nodes.length)
    {inner : Option (List (Option CStr))} {cap : Int} {filled filled' : List (Option CStr)}
    {al al' al'' : Allocs} (hinner : KvStorage.listGetKeys L al = .ok (inner, al'))
    (hcopy : copyListKeys cap inner (KvStorage.listSize L).toNat 0 filled al'
      = .ok (filled', al'')) :
    ∀ arr, inner = some arr → none ∈ arr ∧ afterNull arr = 0 := by
  rintro arr rfl
  obtain ⟨ks, rfl, hlen⟩ := listGetKeys_code hinner
  refine ⟨List.mem_append_right _ (List.mem_cons_self ..), afterNull_eq_zero fun k hk => ?_⟩
  obtain ⟨i, hi, rfl⟩ := List.mem_iff_getElem.mp hk
  have hn : (KvStorage.listSize L).toNat = L.nodes.length := by
    rw [KvStorage.listSize, hL, Int.toNat_natCast]
  obtain ⟨s, hs⟩ := copyListKeys_code hcopy i (Nat.zero_le i) (by omega)
  rw [List.getElem?_append_left hi, List.getElem?_eq_getElem hi] at hs
  rw [Option.some.inj hs]
  exact Option.some_ne_none s

/-- The outer loop. Every list knows its length. -/
theorem listKeysLoop (F : Assert Cell) {a : Ptr} {n : Int} {ps : List Ptr} (keys : Ptr) (cap : Int)
    {lists : List (Option EntryList)}
    (hexact : ∀ L, some L ∈ lists → L.size = L.nodes.length) (rest : List (Option EntryList)) :
    ∀ (al : Allocs) (done : List (Option EntryList)) (filled : List (Option CStr)),
    lists = done ++ rest →
    Refines al (arrayAt (orNull strAt) cap keys filled *
        (cell a (.array n ps) * each (orNull ownList) ps lists * F))
      (count (listKeysStep a keys) rest.length done.length filled.length)
      (copyTableKeys cap rest filled) fun index filled' => ⨆ _ : index = filled'.length,
        arrayAt (orNull strAt) cap keys filled' *
          (cell a (.array n ps) * each (orNull ownList) ps lists * F) := by
  induction rest with
  | nil => exact fun al done filled _ => Refines.pure (fact rfl le_rfl)
  | cons pos rest ih =>
    intro al done filled hlists
    refine Refines.shows (each_shows_length ps lists).mul_right.mul_left.mul_right fun hlen => ?_
    have hpos : lists[done.length]? = some pos := by
      rw [hlists, List.getElem?_append_right le_rfl, Nat.sub_self, List.getElem?_cons_zero]
    have hlt : done.length < ps.length := by
      rw [hlen, hlists, List.length_append, List.length_cons]
      omega
    have hp : ps[done.length]? = some ps[done.length] := List.getElem?_eq_getElem hlt
    have hrest := fun al filled => ih al (done ++ [pos]) filled
      (by rw [hlists, List.append_assoc]; rfl)
    rw [List.length_append] at hrest
    refine Refines.ret (Refines.count_succ ?_)
    rw [listKeysStep, arrayGet, bind_assoc, bind_assoc]
    refine Refines.read (owns_refl _).mul_left.mul_left.mul_right rfl ?_
    dsimp only
    rw [if_pos (Int.natCast_nonneg _), Int.toNat_natCast, hp]
    dsimp only
    rw [pure_bind]
    generalize hpd : ps[done.length] = p at hp
    cases pos with
    | none =>
      have hitem : (each (orNull ownList) ps lists).Owns (orNull ownList p none) := by
        rw [each_getElem hp hpos]
        exact (owns_refl _).mul_left
      refine Refines.shows (hitem.shows (orNull_none_shows ownList p)).mul_right.mul_left.mul_right
        fun hnull => ?_
      rw [if_pos hnull, pure_bind, bind_pure]
      exact hrest al filled
    | some L =>
      have hL := hexact L (hlists ▸ List.mem_append_right _ (List.mem_cons_self ..))
      have hsplit : cell a (.array n ps) * each (orNull ownList) ps lists * F
          = ownList p L * (cell a (.array n ps) * eachBut (orNull ownList) done.length ps lists *
            F) := by
        rw [each_getElem hp hpos, orNull_some]
        ac_rfl
      rw [hsplit] at hrest ⊢
      refine Refines.shows (ownList_shows p L).mul_left.mul_right fun hnull => ?_
      rw [if_neg hnull, bind_assoc, copyTableKeys]
      refine Refines.call (listGetKeys_refines al p L) _ (mul_left_comm _ _ _).le
        fun q inner al' hinner => ?_
      rw [bind_assoc]
      refine listSize_refines p L (owns_refl _).mul_right.mul_left ?_
      have hcopy : orNull ownKeys q inner * ownList p L * (arrayAt (orNull strAt) cap keys filled *
            (cell a (.array n ps) * eachBut (orNull ownList) done.length ps lists * F))
          = arrayAt (orNull strAt) cap keys filled * (orNull ownKeys q inner * (ownList p L *
            (cell a (.array n ps) * eachBut (orNull ownList) done.length ps lists * F))) := by
        ac_rfl
      rw [hcopy, bind_assoc]
      refine Refines.bind (copyLoop _ keys q cap inner _ al' 0 filled)
        fun index filled' al'' hrun => Refines.iSup fun hindex => ?_
      rw [bind_assoc, hindex]
      refine Refines.run (freeCopied_runs q inner (copied_keys hL hinner hrun)) _
        (mul_left_comm _ _ _).le fun _ => ?_
      rw [one_mul, pure_bind, bind_pure]
      exact hrest al'' filled'

/-- Every list of a table knows its length. -/
def Exact (T : Table) : Prop := ∀ L, some L ∈ T.lists → L.size = L.nodes.length

theorem tableGetKeys_refines {T : Table} (hT : (T.lists.length : Int) = T.size) (hexact : Exact T)
    (al : Allocs) (t : Ptr) :
    Refines al (ownTable t T) (tableGetKeys t) (KvStorage.tableGetKeys T)
      fun q r => orNull ownKeys q r * ownTable t T := by
  refine Refines.shows (ownTable_shows t T) fun ht => ?_
  unfold tableGetKeys KvStorage.tableGetKeys
  rw [if_neg ht]
  refine tableSize_refines hT (owns_refl _) (Refines.malloc_test (fun _ keys => ?_) fun _ => ?_)
  · refine Refines.mul_iSup fun a => ?_
    refine Refines.read (owns_refl _).mul_left.mul_right rfl ?_
    dsimp only
    unfold tableAt
    rw [← mul_assoc]
    refine Refines.mul_iSup fun ps => ?_
    have hempty : cell (some keys) (.array (ptrArrayCap (cint (KvStorage.tableSize T + 1))) [])
        ≤ arrayAt (orNull strAt) (ptrArrayCap (cint (KvStorage.tableSize T + 1))) (some keys) [] :=
      le_iSup_of_le [] (mul_one _).ge
    have hstart : cell (some keys) (.array (ptrArrayCap (cint (KvStorage.tableSize T + 1))) []) *
          cell t (.table a T.size) * (cell a (.array T.size ps) *
          each (orNull ownList) ps T.lists)
        ≤ arrayAt (orNull strAt) (ptrArrayCap (cint (KvStorage.tableSize T + 1))) (some keys) [] *
          (cell a (.array T.size ps) * each (orNull ownList) ps T.lists *
          cell t (.table a T.size)) := by
      rw [mul_assoc, mul_comm (cell t _)]
      exact mul_le_mul_left hempty _
    rw [← hT, Int.toNat_natCast, hT]
    refine Refines.bind ((listKeysLoop (cell t (.table a T.size)) (some keys) _ hexact T.lists _ []
      [] rfl).mono hstart fun _ _ => le_rfl) fun index filled al' _ => Refines.iSup fun hindex => ?_
    rw [hindex]
    refine arrayNull_refines _ (Refines.pure ?_)
    refine mul_le_mul' (le_iSup (fun cap => arrayAt (orNull strAt) cap (some keys) _) _)
      (le_trans ?_ (tableAt_le_own a t T))
    rw [mul_comm]
    exact mul_le_mul_right (le_iSup (fun ps => cell a (.array T.size ps) *
      each (orNull ownList) ps T.lists) ps) _
  · exact Refines.pure (by rw [orNull_none, one_mul])

end

end KvStorage.Memory
