import KvStorage.Data.Table

/-!
# The hash table refines a finite map

`Table.map` reads a table as the finite map from keys to byte strings it stands
for. `Table.WF` is the representation invariant: as many positions as `size`
says, every allocated list good, every entry in the position its key hashes to,
every stored value a non-empty block.

One lemma per operation says what it does to the map, and each holds for every
allocation outcome (`tablePut_run`, `tableRemove_run`); the refinement theorem
`table_refines_map` runs them from `table_create` on with memory available.
The early stops of the list walks are sound because every operation restores
`WF` — including for emptied lists, which stay allocated.
-/

namespace KvStorage

open CLib SortedMap

/-- Finite maps from keys to byte strings. -/
abbrev KvMap := Finmap (fun _ : CStr => List Byte)

/-- The value bytes of an entry. -/
def Entry.bytes (e : Entry) : List Byte := e.value.content

namespace Table

/-- The chain at one position, empty for NULL. -/
def nodesOf : Option EntryList → List Entry
  | none => []
  | some l => l.nodes

/-- The chains of all positions. -/
def buckets (t : Table) : List (List Entry) := t.lists.map nodesOf

/-- All entries, position by position. -/
def entries (t : Table) : List Entry := t.buckets.flatten

/-- The finite map a table stands for. -/
def map (t : Table) : KvMap := toMap Entry.key Entry.bytes t.entries

/-- The position of a key. -/
def slot (n : Int) (key : CStr) : Nat := (hashValue key n).toNat

/-- The list pointer at the position of a key. -/
def listOf (t : Table) (key : CStr) : Option EntryList :=
  (t.lists[slot t.size key]?).getD none

/-- What `table_put` stores: a copy of a non-empty value. -/
def Stored (e : Entry) : Prop := ∃ v, v ≠ [] ∧ e.value = Block.ofBytes v

/-- The hash of a key is an index: always for a 7-bit key, and for other keys
when the sum of the signed bytes happens not to be negative. -/
def Indexes (t : Table) (key : CStr) : Prop := 0 ≤ hashValue key t.size

instance (t : Table) (key : CStr) : Decidable (t.Indexes key) :=
  inferInstanceAs (Decidable (_ ≤ _))

/-- The representation invariant. -/
structure WF (t : Table) : Prop where
  size_pos : 0 < t.size
  length_eq : (t.lists.length : Int) = t.size
  good : ∀ l, some l ∈ t.lists → l.Good
  placed : Placed Entry.key (slot t.size) t.buckets
  stored : ∀ e ∈ t.entries, Stored e

/-- The table with another list at position `i`. -/
def setList (t : Table) (i : Nat) (l : EntryList) : Table :=
  { t with lists := t.lists.set i (some l) }

@[simp] theorem setList_size (t : Table) (i : Nat) (l : EntryList) :
    (t.setList i l).size = t.size := rfl

theorem buckets_setList (t : Table) (i : Nat) (l : EntryList) :
    (t.setList i l).buckets = t.buckets.set i l.nodes := by
  unfold buckets setList
  rw [List.map_set]
  rfl

theorem mem_entries {t : Table} {e : Entry} :
    e ∈ t.entries ↔ ∃ l, some l ∈ t.lists ∧ e ∈ l.nodes := by
  unfold entries buckets
  rw [List.mem_flatten]
  constructor
  · rintro ⟨b, hb, he⟩
    obtain ⟨p, hp, rfl⟩ := List.mem_map.mp hb
    cases p with
    | none => exact absurd he (by simp [nodesOf])
    | some l => exact ⟨l, hp, he⟩
  · rintro ⟨l, hl, he⟩
    exact ⟨l.nodes, List.mem_map.mpr ⟨some l, hl, rfl⟩, he⟩

namespace WF

variable {t : Table}

theorem toBuckets (h : t.WF) : Buckets Entry.key (slot t.size) t.buckets where
  sorted := by
    intro b hb
    obtain ⟨p, hp, rfl⟩ := List.mem_map.mp hb
    cases p with
    | none => exact sortedKeys_nil _
    | some l => exact (h.good l hp).sorted
  placed := h.placed

/-- Every key, 7-bit or not, has a position below the length: the remainder is
smaller than the divisor, and a negative one counts as 0 here. -/
theorem slot_lt (h : t.WF) (key : CStr) : slot t.size key < t.lists.length := by
  have hlt : hashValue key t.size < t.size := Int.tmod_lt_of_pos _ h.size_pos
  have hlen := h.length_eq
  have hpos := h.size_pos
  unfold slot
  omega

theorem buckets_slot (h : t.WF) (key : CStr) :
    t.buckets[slot t.size key]? = some (nodesOf (t.listOf key)) := by
  unfold buckets listOf
  rw [List.getElem?_map, List.getElem?_eq_getElem (h.slot_lt key)]
  rfl

theorem indexes (h : t.WF) {key : CStr} (hk : Hashable key) : t.Indexes key :=
  (hashValue_range hk h.size_pos).1

/-- Indexing the array with the hash stays inside it. -/
theorem arrayGet_hash (h : t.WF) {key : CStr} (hk : t.Indexes key) :
    arrayGet t.lists (hashValue key t.size) = pure (t.listOf key) := by
  have hslot : hashValue key t.size = (slot t.size key : Int) := by
    unfold Indexes at hk
    unfold slot
    omega
  unfold listOf
  rw [hslot, arrayGet_nat (h.slot_lt key), List.getElem?_eq_getElem (h.slot_lt key)]
  rfl

theorem listOf_mem (h : t.WF) {key : CStr} {l : EntryList} (hl : t.listOf key = some l) :
    some l ∈ t.lists := by
  unfold listOf at hl
  rw [List.getElem?_eq_getElem (h.slot_lt key), Option.getD_some] at hl
  exact hl ▸ List.getElem_mem (h.slot_lt key)

/-- A lookup in the whole map is a lookup at the key's position. -/
theorem lookup_map (h : t.WF) (key : CStr) :
    t.map.lookup key = (toMap Entry.key Entry.bytes (nodesOf (t.listOf key))).lookup key := by
  obtain ⟨hlt, hbucket⟩ := List.getElem?_eq_some_iff.mp (h.buckets_slot key)
  unfold map entries
  rw [h.toBuckets.lookup Entry.bytes hlt, hbucket]

/-- Changing the list at one position changes the answers for its keys only. -/
theorem lookup_setList (h : t.WF) {i : Nat} {l : EntryList} (hl : l.Good)
    (hp : ∀ e ∈ l.nodes, slot t.size e.key = i) (key : CStr) :
    (t.setList i l).map.lookup key
      = if slot t.size key = i then (toMap Entry.key Entry.bytes l.nodes).lookup key
        else t.map.lookup key := by
  have hlt := h.slot_lt key
  unfold map entries
  rw [buckets_setList,
    h.toBuckets.lookup_set Entry.bytes hl.sorted hp (by simpa [buckets] using hlt)]

theorem setList (h : t.WF) {i : Nat} {l : EntryList} (hl : l.Good)
    (hp : ∀ e ∈ l.nodes, slot t.size e.key = i) (hst : ∀ e ∈ l.nodes, Stored e) :
    (t.setList i l).WF where
  size_pos := h.size_pos
  length_eq := by
    unfold Table.setList
    rw [List.length_set]
    exact h.length_eq
  good := by
    intro l' hl'
    rcases List.mem_or_eq_of_mem_set hl' with hmem | heq
    · exact h.good l' hmem
    · exact Option.some.inj heq ▸ hl
  placed := by
    rw [buckets_setList]
    exact (h.toBuckets.set hl.sorted hp).placed
  stored := by
    intro e he
    obtain ⟨l', hl', hmem⟩ := mem_entries.mp he
    rcases List.mem_or_eq_of_mem_set hl' with hold | heq
    · exact h.stored e (mem_entries.mpr ⟨l', hold, hmem⟩)
    · exact hst e (Option.some.inj heq ▸ hmem)

/-- The entries at a position all belong there. -/
theorem slot_of_mem (h : t.WF) {key : CStr} {l : EntryList} (hl : t.listOf key = some l) :
    ∀ e ∈ l.nodes, slot t.size e.key = slot t.size key := by
  intro e he
  obtain ⟨hlt, hbucket⟩ := List.getElem?_eq_some_iff.mp (h.buckets_slot key)
  refine h.placed (slot t.size key) hlt e ?_
  rw [hbucket, hl]
  exact he

theorem stored_of_mem (h : t.WF) {key : CStr} {l : EntryList} (hl : t.listOf key = some l) :
    ∀ e ∈ l.nodes, Stored e :=
  fun e he => h.stored e (mem_entries.mpr ⟨l, h.listOf_mem hl, he⟩)

/-- A key is in the map exactly when it is in the chain at its position. -/
theorem mem_map (h : t.WF) {key : CStr} :
    key ∈ t.map ↔ key ∈ (nodesOf (t.listOf key)).map Entry.key := by
  rw [← not_iff_not, ← Finmap.lookup_eq_none, h.lookup_map key, Finmap.lookup_eq_none,
    ← Finmap.mem_keys, mem_keys_toMap]

theorem nodup_keys (h : t.WF) : (t.entries.map Entry.key).Nodup := h.toBuckets.nodup

theorem card_keys (h : t.WF) : t.map.keys.card = t.entries.length :=
  card_keys_toMap Entry.key Entry.bytes h.nodup_keys

/-- The map read off the entries as they are stored. -/
theorem lookup_eq_some_iff (h : t.WF) {key : CStr} {v : List Byte} :
    t.map.lookup key = some v ↔ ⟨key, Block.ofBytes v⟩ ∈ t.entries := by
  rw [Table.map, lookup_toMap_eq_some Entry.key Entry.bytes h.nodup_keys]
  constructor
  · rintro ⟨e, he, rfl, rfl⟩
    obtain ⟨v, -, hv⟩ := h.stored e he
    cases e
    subst hv
    simpa [Entry.bytes] using he
  · intro he
    exact ⟨_, he, rfl, Block.content_ofBytes v⟩

/-- No stored value is empty. -/
theorem bytes_ne_nil (h : t.WF) {e : Entry} (he : e ∈ t.entries) : e.bytes ≠ [] := by
  obtain ⟨v, hv, hblock⟩ := h.stored e he
  rw [Entry.bytes, hblock, Block.content_ofBytes]
  exact hv

theorem lookup_ne_nil (h : t.WF) {key : CStr} {v : List Byte} (hv : t.map.lookup key = some v) :
    v ≠ [] := by
  obtain ⟨e, he, -, hev⟩ := (lookup_toMap_eq_some Entry.key Entry.bytes h.nodup_keys).mp hv
  exact hev ▸ h.bytes_ne_nil he

end WF

end Table

open Table

/-! ## `table_create` -/

theorem tableCreate_allocated {n : Int} (hn : 0 < n) :
    tableCreate n allocated = .ok (some ⟨List.replicate n.toNat none, n⟩, allocated) := by
  unfold tableCreate
  rw [if_neg (not_le.mpr hn)]
  rfl

/-- A table that was created has its lists and nothing in them. -/
theorem tableCreate_some {n : Int} {al al' : Allocs} {t : Table}
    (hrun : tableCreate n al = .ok (some t, al')) : t = ⟨List.replicate n.toNat none, n⟩ := by
  unfold tableCreate at hrun
  split at hrun
  next => cases hrun
  next =>
    simp only [run_bind, malloc_run, ok_bind] at hrun
    cases h0 : al 0 <;> cases h1 : al 1 <;> simp [h0, h1] at hrun
    exact hrun.1.symm

theorem buckets_replicate (k : Nat) (n : Int) :
    (Table.mk (List.replicate k none) n).buckets = List.replicate k [] := by
  unfold buckets
  rw [List.map_replicate]
  rfl

theorem map_replicate (k : Nat) (n : Int) : (Table.mk (List.replicate k none) n).map = ∅ := by
  unfold Table.map entries
  rw [buckets_replicate, List.flatten_replicate_nil]
  rfl

theorem wf_replicate {n : Int} (hn : 0 < n) :
    (Table.mk (List.replicate n.toNat none) n).WF where
  size_pos := hn
  length_eq := by
    rw [List.length_replicate]
    exact Int.toNat_of_nonneg (Int.le_of_lt hn)
  good := fun l hl => absurd (List.eq_of_mem_replicate hl) (by simp)
  placed := by
    intro i hi e he
    simp only [buckets_replicate, List.getElem_replicate, List.not_mem_nil] at he
  stored := by
    intro e he
    rw [entries, buckets_replicate, List.flatten_replicate_nil] at he
    exact absurd he (by simp)

/-! ## `table_put` under every allocation outcome -/

/-- How a `table_put` ends: its answer, whether it stored the entry, and the
number of allocations it made. -/
structure PutOutcome where
  res : Int
  stores : Bool
  used : Nat
  deriving DecidableEq

/-- The outcome by the list pointer at the key's position and the allocations:
key copy, block copy (two), entry, then a list and a node, or a node only for a
key that is new to its list. -/
def putOutcome (pos : Option EntryList) (key : CStr) (al : Allocs) : PutOutcome :=
  if al 0 = false then ⟨-1, false, 1⟩
  else if al 1 = false then ⟨-1, false, 2⟩
  else if al 2 = false then ⟨-1, false, 3⟩
  else if al 3 = false then ⟨-1, false, 4⟩
  else match pos with
    | none =>
      if al 4 = false then ⟨-1, false, 5⟩
      else ⟨0, al 5, 6⟩
    | some l =>
      if key ∈ l.nodes.map Entry.key then ⟨0, true, 4⟩
      else ⟨0, al 4, 5⟩

theorem putOutcome_allocated (pos : Option EntryList) (key : CStr) :
    (putOutcome pos key allocated).res = 0 ∧ (putOutcome pos key allocated).stores = true := by
  unfold putOutcome allocated
  cases pos with
  | none => simp
  | some l => by_cases h : key ∈ l.nodes.map Entry.key <;> simp [h]

/-- Putting a list with the new entry at the key's position inserts into the
map. -/
theorem map_setList_upsert {t : Table} (h : t.WF) {entrada : Entry} {l : EntryList}
    (hl : l.Good)
    (hnodes : l.nodes = upsert Entry.key entrada (nodesOf (t.listOf entrada.key)))
    (hsorted : SortedKeys Entry.key (nodesOf (t.listOf entrada.key)))
    (hp : ∀ e ∈ l.nodes, slot t.size e.key = slot t.size entrada.key) :
    (t.setList (slot t.size entrada.key) l).map = t.map.insert entrada.key entrada.bytes := by
  apply Finmap.ext_lookup
  intro key
  rw [h.lookup_setList hl hp]
  by_cases hkey : key = entrada.key
  · subst hkey
    rw [if_pos rfl, hnodes, toMap_upsert _ _ hsorted, if_pos rfl, Finmap.lookup_insert]
  · rw [Finmap.lookup_insert_of_ne _ hkey]
    by_cases hslot : slot t.size key = slot t.size entrada.key
    · have hsame : t.listOf key = t.listOf entrada.key := by
        unfold listOf
        rw [hslot]
      rw [if_pos hslot, hnodes, toMap_upsert _ _ hsorted, if_neg hkey, h.lookup_map key, hsame]
    · rw [if_neg hslot]

/-- Putting back a list with the same chain leaves the map alone. -/
theorem map_setList_same {t : Table} (h : t.WF) {key : CStr} {l : EntryList} (hl : l.Good)
    (hnodes : l.nodes = nodesOf (t.listOf key))
    (hp : ∀ e ∈ l.nodes, slot t.size e.key = slot t.size key) :
    (t.setList (slot t.size key) l).map = t.map := by
  apply Finmap.ext_lookup
  intro key'
  rw [h.lookup_setList hl hp]
  by_cases hslot : slot t.size key' = slot t.size key
  · have hsame : t.listOf key' = t.listOf key := by
      unfold listOf
      rw [hslot]
    rw [if_pos hslot, hnodes, h.lookup_map key', hsame]
  · rw [if_neg hslot]

/-- The last stage of `table_put`: `list_add` into the list found or created at
the key's position. `pos` is what `list_add` works on, `l` what it leaves. -/
theorem put_into_list {t : Table} (h : t.WF) {entrada : Entry} (hst : Stored entrada)
    {lista : EntryList} (hgood : lista.Good)
    (hpos : lista.nodes = nodesOf (t.listOf entrada.key)) (al : Allocs) :
    ∃ l', listAdd lista entrada al
        = .ok (if entrada.key ∈ lista.nodes.map Entry.key then ((1, l'), al)
              else if al 0 then ((0, l'), fun i => al (i + 1))
              else ((-1, l'), fun i => al (i + 1))) ∧
      (t.setList (slot t.size entrada.key) l').WF ∧
      (t.setList (slot t.size entrada.key) l').map
        = if entrada.key ∉ lista.nodes.map Entry.key ∧ al 0 = false then t.map
          else t.map.insert entrada.key entrada.bytes := by
  obtain ⟨l', hl', hrun, hnodes⟩ := listAdd_run hgood entrada al
  have hold : ∀ e ∈ lista.nodes, slot t.size e.key = slot t.size entrada.key ∧ Stored e := by
    intro e he
    rw [hpos] at he
    cases hlist : t.listOf entrada.key with
    | none => exact absurd he (by simp [hlist, nodesOf])
    | some l =>
      rw [hlist] at he
      exact ⟨h.slot_of_mem hlist e he, h.stored_of_mem hlist e he⟩
  have hnew : ∀ e ∈ l'.nodes, slot t.size e.key = slot t.size entrada.key ∧ Stored e := by
    intro e he
    rw [hnodes] at he
    split at he
    · exact hold e he
    · rcases mem_upsert Entry.key he with rfl | he
      · exact ⟨rfl, hst⟩
      · exact hold e he
  refine ⟨l', hrun, h.setList hl' (fun e he => (hnew e he).1) (fun e he => (hnew e he).2), ?_⟩
  split at hnodes
  next hkeep =>
    rw [if_pos hkeep, map_setList_same h hl' (hnodes.trans hpos) (fun e he => (hnew e he).1)]
  next hput =>
    rw [if_neg hput, map_setList_upsert h hl' (by rw [hnodes, hpos])
      (hpos ▸ hgood.sorted) (fun e he => (hnew e he).1)]

/-- `table_put` of a valid value, for every allocation outcome. -/
theorem tablePut_run {t : Table} (h : t.WF) {key : CStr} (hk : t.Indexes key) {b : Block}
    (hb : b.Valid) (al : Allocs) :
    ∃ t', tablePut t key (some b) al
        = .ok (((putOutcome (t.listOf key) key al).res, t'),
            fun i => al (i + (putOutcome (t.listOf key) key al).used)) ∧
      t'.WF ∧ t'.size = t.size ∧
      t'.map = if (putOutcome (t.listOf key) key al).stores then t.map.insert key b.content
        else t.map := by
  unfold tablePut putOutcome
  simp only [run_bind, malloc_run, ok_bind]
  by_cases h0 : al 0 = false
  · exact ⟨t, by simp [h0], h, rfl, by simp [h0]⟩
  by_cases h1 : al 1 = false
  · exact ⟨t, by simp [h0, h1, blockDuplicate_run hb], h, rfl, by simp [h0, h1]⟩
  by_cases h2 : al 2 = false
  · exact ⟨t, by simp [h0, h1, h2, blockDuplicate_run hb], h, rfl, by simp [h0, h1, h2]⟩
  by_cases h3 : al 3 = false
  · exact ⟨t, by simp [h0, h1, h2, h3, blockDuplicate_run hb, entryCreate_run], h, rfl,
      by simp [h0, h1, h2, h3]⟩
  -- the copies succeeded: what is left depends on the list pointer
  have hst : Stored ⟨key, Block.ofBytes b.content⟩ := ⟨b.content, hb.content_ne_nil, rfl⟩
  have hbytes : (Entry.mk key (Block.ofBytes b.content)).bytes = b.content := by
    simp [Entry.bytes]
  simp only [Bool.not_eq_false] at h0 h1 h2 h3
  simp only [h0, h1, h2, h3, blockDuplicate_run hb, entryCreate_run, h.arrayGet_hash hk, ok_bind,
    run_bind, run_pure, if_true, Bool.true_eq_false, if_false]
  cases hlist : t.listOf key with
  | none =>
    simp only [listCreate, run_bind, malloc_run, ok_bind]
    by_cases h4 : al 4 = false
    · exact ⟨t, by simp [h4], h, rfl, by simp [h4]⟩
    · simp only [Bool.not_eq_false] at h4
      obtain ⟨l', hrun, hwf, hmap⟩ := put_into_list h hst good_nil
        (by rw [hlist]; rfl) (fun i => al (i + 5))
      refine ⟨t.setList (slot t.size key) l', ?_, hwf, rfl, ?_⟩
      · by_cases h5 : al 5 <;> simp [h4, h5, hrun, Table.setList, slot]
      · rw [hmap, hbytes]
        by_cases h5 : al 5 <;> simp [h4, h5]
  | some lista =>
    obtain ⟨l', hrun, hwf, hmap⟩ := put_into_list h hst (h.good lista (h.listOf_mem hlist))
      (by rw [hlist]; rfl) (fun i => al (i + 4))
    refine ⟨t.setList (slot t.size key) l', ?_, hwf, rfl, ?_⟩
    · by_cases hmem : key ∈ lista.nodes.map Entry.key
      · simp [hmem, hrun, Table.setList, slot]
      · by_cases h4 : al 4 <;> simp [hmem, h4, hrun, Table.setList, slot]
    · rw [hmap, hbytes]
      by_cases hmem : key ∈ lista.nodes.map Entry.key
      · simp [hmem]
      · by_cases h4 : al 4 <;> simp [hmem, h4]

/-- The four allocations for the copies of key and value and for the entry. -/
def copied (al : Allocs) : Bool := al 0 && al 1 && al 2 && al 3

theorem putOutcome_of_not_copied {al : Allocs} (h : copied al = false) (pos : Option EntryList)
    (key : CStr) : (putOutcome pos key al).res = -1 ∧ (putOutcome pos key al).stores = false := by
  unfold copied at h
  unfold putOutcome
  by_cases h0 : al 0 <;> by_cases h1 : al 1 <;> by_cases h2 : al 2 <;> simp_all

/-- A negative hash is an access outside the array, once the copies are made. -/
theorem tablePut_unindexed {t : Table} {key : CStr} (hk : ¬ t.Indexes key) {b : Block}
    (hb : b.Valid) (pos : Option EntryList) (al : Allocs) :
    tablePut t key (some b) al
      = if copied al then .error .outOfBounds
        else .ok ((-1, t), fun i => al (i + (putOutcome pos key al).used)) := by
  have hfault : arrayGet t.lists (hashValue key t.size) = throw .outOfBounds := if_neg hk
  unfold tablePut putOutcome copied
  simp only [run_bind, malloc_run, ok_bind]
  by_cases h0 : al 0
  · by_cases h1 : al 1
    · by_cases h2 : al 2
      · by_cases h3 : al 3 <;>
          simp [h0, h1, h2, h3, blockDuplicate_run hb, entryCreate_run, hfault]
      · simp [h0, h1, h2, blockDuplicate_run hb]
    · simp [h0, h1, blockDuplicate_run hb]
  · simp [h0]

/-- A `table_put` that returns stored the entry, or changed nothing in the map. -/
theorem tablePut_inv {t t' : Table} (h : t.WF) {key : CStr} {b : Block} (hb : b.Valid) {r : Int}
    {al al' : Allocs} (hrun : tablePut t key (some b) al = .ok ((r, t'), al')) :
    t'.WF ∧ t'.size = t.size ∧ (t'.map = t.map ∨ t.Indexes key ∧
      (putOutcome (t.listOf key) key al).stores = true ∧
      al' = Allocs.drop al (putOutcome (t.listOf key) key al).used ∧
      t'.map = t.map.insert key b.content) := by
  by_cases hk : t.Indexes key
  · obtain ⟨t₁, hput, hwf, hsz, hmap⟩ := tablePut_run h hk hb al
    rw [hrun] at hput
    cases hput
    refine ⟨hwf, hsz, ?_⟩
    split at hmap
    next hstores => exact Or.inr ⟨hk, hstores, rfl, hmap⟩
    next => exact Or.inl hmap
  · rw [tablePut_unindexed hk hb none al] at hrun
    split at hrun
    next => cases hrun
    next =>
      cases hrun
      exact ⟨h, rfl, Or.inl rfl⟩

theorem tablePut_allocated {t : Table} (h : t.WF) {key : CStr} (hk : t.Indexes key) {b : Block}
    (hb : b.Valid) :
    ∃ t', tablePut t key (some b) allocated = .ok ((0, t'), allocated) ∧ t'.WF ∧
      t'.size = t.size ∧ t'.map = t.map.insert key b.content := by
  obtain ⟨t', hrun, hwf, hsz, hmap⟩ := tablePut_run h hk hb allocated
  obtain ⟨hres, hstores⟩ := putOutcome_allocated (t.listOf key) key
  rw [hres] at hrun
  rw [if_pos hstores] at hmap
  exact ⟨t', hrun, hwf, hsz, hmap⟩

/-! ## `table_get` -/

/-- `table_get` answers with a copy of the value when memory suffices. -/
theorem tableGet_allocated {t : Table} (h : t.WF) {key : CStr} (hk : t.Indexes key) :
    tableGet t key allocated = .ok ((t.map.lookup key).map Block.ofBytes, allocated) := by
  unfold tableGet
  simp only [run_bind, h.arrayGet_hash hk, run_pure, ok_bind]
  rw [h.lookup_map key]
  cases hlist : t.listOf key with
  | none => simp [nodesOf]
  | some lista =>
    have hs := (h.good lista (h.listOf_mem hlist)).sorted
    rw [nodesOf, ← search_eq_lookup Entry.key Entry.bytes hs]
    dsimp only
    rw [listGet, getNode_eq_search]
    cases hsearch : search Entry.key key lista.nodes with
    | none => rfl
    | some e =>
      obtain ⟨v, hv, hblock⟩ := h.stored_of_mem hlist e (search_mem Entry.key hsearch).1
      dsimp only
      rw [hblock, blockDuplicate_allocated (Block.ofBytes_valid hv)]
      simp [Entry.bytes, hblock]

/-! ## `table_remove` -/

/-- `table_remove` deletes the key; its answer is 0 for a key that was there. -/
theorem tableRemove_run {t : Table} (h : t.WF) {key : CStr} (hk : t.Indexes key) (al : Allocs) :
    ∃ r t', tableRemove t key al = .ok ((r, t'), al) ∧ t'.WF ∧ t'.size = t.size ∧
      t'.map = t.map.erase key ∧ (r = 0 ↔ key ∈ t.map) := by
  unfold tableRemove
  simp only [run_bind, h.arrayGet_hash hk, run_pure, ok_bind]
  cases hlist : t.listOf key with
  | none =>
    have hmem : key ∉ t.map := by
      rw [h.mem_map, hlist]
      simp [nodesOf]
    refine ⟨-1, t, rfl, h, rfl, ?_, by simp [hmem]⟩
    apply Finmap.ext_lookup
    intro key'
    by_cases hkey : key' = key
    · rw [hkey, Finmap.lookup_erase, Finmap.lookup_eq_none]
      exact hmem
    · rw [Finmap.lookup_erase_ne hkey]
  | some lista =>
    have hgood := h.good lista (h.listOf_mem hlist)
    obtain ⟨l', hl', heq, hnodes⟩ := listRemove_eq hgood key
    have hsub : ∀ e ∈ l'.nodes, e ∈ lista.nodes := fun e he =>
      mem_of_mem_remove Entry.key (hnodes ▸ he)
    have hp : ∀ e ∈ l'.nodes, slot t.size e.key = slot t.size key := fun e he =>
      h.slot_of_mem hlist e (hsub e he)
    refine ⟨if key ∈ lista.nodes.map Entry.key then 0 else 1, t.setList (slot t.size key) l',
      by simp only [heq]; rfl,
      h.setList hl' hp (fun e he => h.stored_of_mem hlist e (hsub e he)), rfl, ?_, ?_⟩
    · apply Finmap.ext_lookup
      intro key'
      rw [h.lookup_setList hl' hp]
      by_cases hkey : key' = key
      · rw [if_pos (by rw [hkey]), hnodes, toMap_remove _ _ hgood.sorted, if_pos hkey, hkey,
          Finmap.lookup_erase]
      · rw [Finmap.lookup_erase_ne hkey]
        by_cases hslot : slot t.size key' = slot t.size key
        · have hsame : t.listOf key' = some lista := by
            unfold listOf at hlist ⊢
            rw [hslot, hlist]
          rw [if_pos hslot, hnodes, toMap_remove _ _ hgood.sorted, if_neg hkey, h.lookup_map key',
            hsame, nodesOf]
        · rw [if_neg hslot]
    · rw [h.mem_map, hlist, nodesOf]
      by_cases hmem : key ∈ lista.nodes.map Entry.key <;> simp [hmem]

theorem tableRemove_unindexed {t : Table} {key : CStr} (hk : ¬ t.Indexes key) (al : Allocs) :
    tableRemove t key al = .error .outOfBounds := by
  have hfault : arrayGet t.lists (hashValue key t.size) = throw .outOfBounds := if_neg hk
  unfold tableRemove
  simp [hfault]

end KvStorage
