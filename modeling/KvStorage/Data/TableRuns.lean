import KvStorage.Data.TableMap

/-!
# Listings, and runs of table operations

`table_size` and `table_get_keys` walk all positions; both are compared with the
entries in position order (`Table.entries`), which is a listing of the map with
distinct keys. The key listing goes through an array that is allocated for
`table_size + 1` pointers and filled from one array per list, so the proof is
also that no write and no read leaves these arrays.

`table_refines_map` closes the data layer: whatever sequence of puts and removes
is run on a fresh table, the table answers like the finite map the same sequence
builds.
-/

namespace KvStorage

open CLib SortedMap Table

/-! ## `table_size` -/

theorem tableSize_foldl : ∀ (lists : List (Option EntryList)) (acc : Int),
    (∀ l, some l ∈ lists → l.Good) →
    lists.foldl (fun totalEntradas l =>
      match l with
      | none => totalEntradas
      | some lista => cint (totalEntradas + listSize lista)) (cint acc)
      = cint (acc + (lists.map nodesOf).flatten.length)
  | [], acc, _ => by simp
  | none :: lists, acc, h => by
    have hrest := tableSize_foldl lists acc fun l hl => h l (List.mem_cons_of_mem _ hl)
    simpa [nodesOf] using hrest
  | some l :: lists, acc, h => by
    have hsz : listSize l = cint l.nodes.length := (h l (List.mem_cons_self ..)).size_eq
    have hstep : cint (cint acc + listSize l) = cint (acc + l.nodes.length) := by
      rw [hsz, cint_add_cint, Int.add_comm, cint_add_cint, Int.add_comm]
    have hrest := tableSize_foldl lists (acc + l.nodes.length)
      fun l' hl' => h l' (List.mem_cons_of_mem _ hl')
    simp only [List.foldl_cons, hstep, hrest, List.map_cons, List.flatten_cons, List.length_append,
      nodesOf]
    push_cast
    rw [Int.add_assoc]

/-- `table_size` is the number of entries, as an `int` holds it. -/
theorem tableSize_eq {t : Table} (h : t.WF) : tableSize t = cint t.entries.length := by
  have hfold := tableSize_foldl t.lists 0 h.good
  rw [Int.zero_add] at hfold
  exact hfold

theorem tableSize_card {t : Table} (h : t.WF) (hlive : t.map.keys.card < 2 ^ 31) :
    tableSize t = t.map.keys.card := by
  rw [h.card_keys] at hlive ⊢
  rw [tableSize_eq h, cint_of_lt (by omega) (by omega)]

/-! ## `table_get_keys` -/

theorem copyListKeys_allocated (cap : Int) (ks : List CStr) (tail : List (Option CStr)) :
    ∀ (n j : Nat) (keys : List (Option CStr)), j + n = ks.length →
      (keys.length : Int) + n ≤ cap →
      copyListKeys cap (some (ks.map some ++ tail)) n j keys allocated
        = .ok (keys ++ (ks.drop j).map some, allocated)
  | 0, j, keys, hj, _ => by
    unfold copyListKeys
    rw [List.drop_of_length_le (by omega)]
    simp
  | n + 1, j, keys, hj, hcap => by
    push_cast at hcap
    have hlt : j < ks.length := by omega
    have harr : j < (ks.map some ++ tail).length := by
      rw [List.length_append, List.length_map]
      omega
    have hkey : (ks.map some ++ tail)[j] = some ks[j] := by
      rw [List.getElem_append_left (by rw [List.length_map]; exact hlt)]
      exact List.getElem_map ..
    have hrest := copyListKeys_allocated cap ks tail n (j + 1) (keys ++ [some ks[j]])
      (by omega) (by rw [List.length_append, List.length_singleton]; push_cast; omega)
    unfold copyListKeys
    simp only [deref_some, run_bind, run_pure, ok_bind, arrayGet_nat harr, hkey, strdup_allocated]
    rw [arrayPut_of_lt (by omega)]
    simp only [run_pure, ok_bind, hrest, List.drop_eq_getElem_cons hlt, List.map_cons,
      List.append_assoc, List.singleton_append]

theorem copyTableKeys_allocated (cap : Int) {lists : List (Option EntryList)}
    (hgood : ∀ l, some l ∈ lists → l.Good) (hlt : (lists.map nodesOf).flatten.length < 2 ^ 31) :
    ∀ keys : List (Option CStr), (keys.length : Int) + (lists.map nodesOf).flatten.length ≤ cap →
      copyTableKeys cap lists keys allocated
        = .ok (keys ++ keyCopies (lists.map nodesOf).flatten, allocated) := by
  induction lists with
  | nil =>
    intro keys _
    simp [copyTableKeys]
  | cons pos lists ih =>
    intro keys hcap
    have hgood' : ∀ l, some l ∈ lists → l.Good := fun l hl => hgood l (List.mem_cons_of_mem _ hl)
    rw [List.map_cons, List.flatten_cons, List.length_append] at hlt hcap
    rw [List.map_cons, List.flatten_cons]
    cases pos with
    | none => exact ih hgood' (by omega) keys (by simpa [nodesOf] using hcap)
    | some l =>
      have hl := hgood l (List.mem_cons_self ..)
      simp only [nodesOf] at hcap hlt ⊢
      push_cast at hcap
      have hsz : (listSize l).toNat = l.nodes.length := by
        rw [listSize, hl.size_eq, cint_of_lt (by omega) (by omega), Int.toNat_natCast]
      have hrest := ih hgood' (by omega) (keys ++ keyCopies l.nodes)
        (by rw [List.length_append, length_keyCopies]; push_cast; omega)
      unfold copyTableKeys
      by_cases hnil : l.nodes = []
      · -- an emptied list: `list_get_keys` answers NULL and no key is copied
        simp only [listGetKeys, if_pos hnil, run_bind, run_pure, ok_bind, hsz]
        rw [hnil] at hrest ⊢
        simpa [copyListKeys] using hrest
      · have hcopy := copyListKeys_allocated cap (l.nodes.map Entry.key) [none] l.nodes.length 0
          keys (by rw [List.length_map, Nat.zero_add]) (by omega)
        rw [List.drop_zero, ← keyCopies_eq_map] at hcopy
        simp only [run_bind, listGetKeys_allocated hl hnil (by omega), ok_bind, hsz, hcopy,
          hrest, keyCopies_append, List.append_assoc]

/-- `table_get_keys` lists the keys of the entries in position order. -/
theorem tableGetKeys_allocated {t : Table} (h : t.WF) (hlive : t.map.keys.card < 2 ^ 31) :
    tableGetKeys t allocated
      = .ok (some ((t.entries.map Entry.key).map some ++ [none]), allocated) := by
  have hsize := tableSize_card h hlive
  rw [h.card_keys] at hlive hsize
  have hcap : (t.entries.length : Int) < ptrArrayCap (cint (tableSize t + 1)) := by
    rw [hsize]
    exact lt_ptrArrayCap hlive
  have hcopy := copyTableKeys_allocated (ptrArrayCap (cint (tableSize t + 1))) h.good hlive []
    (by simpa [entries, buckets] using Int.le_of_lt hcap)
  have hput : arrayPut (ptrArrayCap (cint (tableSize t + 1))) (keyCopies t.entries) none
      = pure (keyCopies t.entries ++ [none]) :=
    arrayPut_of_lt (by rw [length_keyCopies]; exact hcap)
  unfold tableGetKeys
  simp only [run_bind, malloc_allocated, ok_bind, if_true, hcopy, List.nil_append]
  change ((arrayPut _ (keyCopies t.entries) none allocated).bind _) = _
  rw [hput]
  simp [keyCopies]

theorem mem_entries_keys {t : Table} {key : CStr} :
    key ∈ t.entries.map Entry.key ↔ key ∈ t.map := by
  rw [← Finmap.mem_keys, Table.map, mem_keys_toMap]

/-! ## Runs -/

/-- A call that changes the table. -/
inductive TableOp
  | put (key : CStr) (value : Block)
  | remove (key : CStr)

/-- What a caller may pass: a 7-bit key whose byte sum fits, and for a put a
block with `datasize > 0` and data. -/
def TableOp.Ok : TableOp → Prop
  | put key value => Hashable key ∧ value.Valid
  | remove key => Hashable key

/-- One call, on the table. -/
def runOp (t : Table) : TableOp → CM Table
  | .put key value => do
    let (_, t) ← tablePut t key (some value)
    pure t
  | .remove key => do
    let (_, t) ← tableRemove t key
    pure t

/-- A sequence of calls. -/
def runOps (t : Table) : List TableOp → CM Table
  | [] => pure t
  | op :: ops => do
    let t ← runOp t op
    runOps t ops

/-- The same call on a finite map. -/
def mapOp (M : KvMap) : TableOp → KvMap
  | .put key value => M.insert key value.content
  | .remove key => M.erase key

theorem runOp_allocated {t : Table} (h : t.WF) {op : TableOp} (hop : op.Ok) :
    ∃ t', runOp t op allocated = .ok (t', allocated) ∧ t'.WF ∧ t'.map = mapOp t.map op := by
  cases op with
  | put key value =>
    obtain ⟨t', hrun, hwf, -, hmap⟩ := tablePut_allocated h (h.indexes hop.1) hop.2
    exact ⟨t', by simp [runOp, hrun], hwf, hmap⟩
  | remove key =>
    obtain ⟨r, t', hrun, hwf, -, hmap, -⟩ := tableRemove_run h (h.indexes hop) allocated
    exact ⟨t', by simp [runOp, hrun], hwf, hmap⟩

theorem runOps_allocated : ∀ (ops : List TableOp) {t : Table}, t.WF → (∀ op ∈ ops, op.Ok) →
    ∃ t', runOps t ops allocated = .ok (t', allocated) ∧ t'.WF ∧
      t'.map = ops.foldl mapOp t.map
  | [], t, h, _ => ⟨t, rfl, h, rfl⟩
  | op :: ops, t, h, hops => by
    obtain ⟨t₁, hrun₁, hwf₁, hmap₁⟩ := runOp_allocated h (hops op (List.mem_cons_self ..))
    obtain ⟨t₂, hrun₂, hwf₂, hmap₂⟩ :=
      runOps_allocated ops hwf₁ fun op' hop' => hops op' (List.mem_cons_of_mem _ hop')
    refine ⟨t₂, by simp [runOps, hrun₁, hrun₂], hwf₂, ?_⟩
    rw [List.foldl_cons, ← hmap₁]
    exact hmap₂

/-! With failing allocations, and with keys whose byte sum is too large for an `int`, a run
may end early or lose an update, but not the invariant. -/

/-- A put or a remove of a 7-bit key of any length, and for a put a block with `datasize > 0`
and data. -/
def TableOp.SevenBit : TableOp → Prop
  | put key value => key.SevenBit ∧ value.Valid
  | remove key => key.SevenBit

/-- All keys of a map are 7-bit keys. -/
def SevenBitKeys (M : KvMap) : Prop := ∀ key ∈ M, key.SevenBit

theorem sevenBitKeys_insert {M : KvMap} (hM : SevenBitKeys M) {key : CStr} (hk : key.SevenBit)
    (v : List Byte) : SevenBitKeys (M.insert key v) := by
  intro key' hmem
  rcases Finmap.mem_insert.mp hmem with h | h
  · exact h ▸ hk
  · exact hM key' h

theorem runOp_sevenBit {t t' : Table} (h : t.WF) (hkeys : SevenBitKeys t.map) {op : TableOp}
    (hop : op.SevenBit) {al al' : Allocs} (hrun : runOp t op al = .ok (t', al')) :
    t'.WF ∧ SevenBitKeys t'.map := by
  cases op with
  | put key value =>
    obtain ⟨h7, hvalue⟩ := hop
    simp only [runOp, run_bind, bind_eq_ok] at hrun
    obtain ⟨⟨⟨r, t₁⟩, al₁⟩, hput, hret⟩ := hrun
    cases hret
    obtain ⟨hwf, -, hmap⟩ := tablePut_inv h hvalue hput
    refine ⟨hwf, ?_⟩
    rcases hmap with hsame | ⟨-, -, -, hinsert⟩
    · rw [hsame]
      exact hkeys
    · rw [hinsert]
      exact sevenBitKeys_insert hkeys h7 _
  | remove key =>
    by_cases hk : t.Indexes key
    · obtain ⟨r, t₁, hremove, hwf, -, hmap, -⟩ := tableRemove_run h hk al
      simp only [runOp, run_bind, hremove, ok_bind, run_pure, Except.ok.injEq, Prod.mk.injEq]
        at hrun
      rw [← hrun.1]
      refine ⟨hwf, ?_⟩
      intro key' hmem
      rw [hmap, Finmap.mem_erase] at hmem
      exact hkeys key' hmem.2
    · simp [runOp, tableRemove_unindexed hk] at hrun

theorem runOps_sevenBit {ops : List TableOp} (hops : ∀ op ∈ ops, op.SevenBit) : ∀ {t t' : Table},
    t.WF → SevenBitKeys t.map → ∀ {al al' : Allocs}, runOps t ops al = .ok (t', al') →
      t'.WF ∧ SevenBitKeys t'.map := by
  induction ops with
  | nil =>
    intro t t' h hkeys al al' hrun
    cases hrun
    exact ⟨h, hkeys⟩
  | cons op ops ih =>
    intro t t' h hkeys al al' hrun
    unfold runOps at hrun
    rw [run_bind, bind_eq_ok] at hrun
    obtain ⟨⟨t₁, al₁⟩, hfirst, hrest⟩ := hrun
    obtain ⟨hwf₁, hkeys₁⟩ := runOp_sevenBit h hkeys (hops op (List.mem_cons_self ..)) hfirst
    exact ih (fun op' hop' => hops op' (List.mem_cons_of_mem _ hop')) hwf₁ hkeys₁ hrest

/-- **The hash table is a finite map.** After any sequence of puts and removes
on a fresh table, lookups, size and key listing are those of the finite map the
same sequence builds from the empty one. -/
theorem table_refines_map (n : Int) (hn : 0 < n) (ops : List TableOp) (hops : ∀ op ∈ ops, op.Ok)
    (hlive : (ops.foldl mapOp ∅).keys.card < 2 ^ 31) :
    ∃ t₀ t, tableCreate n allocated = .ok (some t₀, allocated) ∧
      runOps t₀ ops allocated = .ok (t, allocated) ∧
      (∀ key, Hashable key → tableGet t key allocated
        = .ok (((ops.foldl mapOp ∅).lookup key).map Block.ofBytes, allocated)) ∧
      tableSize t = (ops.foldl mapOp ∅).keys.card ∧
      ∃ keys : List CStr,
        tableGetKeys t allocated = .ok (some (keys.map some ++ [none]), allocated) ∧
        keys.Nodup ∧ ∀ key, key ∈ keys ↔ key ∈ ops.foldl mapOp ∅ := by
  obtain ⟨t, hrun, hwf, hmap⟩ := runOps_allocated ops (wf_replicate hn) hops
  rw [map_replicate] at hmap
  rw [← hmap] at hlive ⊢
  refine ⟨_, t, tableCreate_allocated hn, hrun,
    fun key hk => tableGet_allocated hwf (hwf.indexes hk), tableSize_card hwf hlive,
    t.entries.map Entry.key, tableGetKeys_allocated hwf hlive, hwf.nodup_keys,
    fun key => mem_entries_keys⟩

/-- Three calls on three positions; both keys hash to position 1. -/
def collidingOps : List TableOp :=
  [.put ⟨[97], by decide⟩ (Block.ofBytes [1]), .put ⟨[100], by decide⟩ (Block.ofBytes [2]),
    .remove ⟨[97], by decide⟩]

theorem table_refines_map_colliding :
    ∃ t₀ t, tableCreate 3 allocated = .ok (some t₀, allocated) ∧
      runOps t₀ collidingOps allocated = .ok (t, allocated) ∧
      (∀ key, Hashable key → tableGet t key allocated
        = .ok (((collidingOps.foldl mapOp ∅).lookup key).map Block.ofBytes, allocated)) ∧
      tableSize t = (collidingOps.foldl mapOp ∅).keys.card ∧
      ∃ keys : List CStr,
        tableGetKeys t allocated = .ok (some (keys.map some ++ [none]), allocated) ∧
        keys.Nodup ∧ ∀ key, key ∈ keys ↔ key ∈ collidingOps.foldl mapOp ∅ := by
  refine table_refines_map 3 (by decide) collidingOps ?_ (by decide)
  intro op hop
  simp only [collidingOps, List.mem_cons, List.not_mem_nil, or_false] at hop
  rcases hop with rfl | rfl | rfl
  · exact ⟨.of_length (by simp [CStr.SevenBit]) (by simp), Block.ofBytes_valid (by decide)⟩
  · exact ⟨.of_length (by simp [CStr.SevenBit]) (by simp), Block.ofBytes_valid (by decide)⟩
  · exact Hashable.of_length (by simp [CStr.SevenBit]) (by simp)

end KvStorage
