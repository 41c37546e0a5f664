import KvStorage.Server.Listings

/-!
# State transfer

What `set_antecessor` does once it is connected to the chosen predecessor: it
fetches the predecessor's table with `rtable_get_table` and puts every entry into
its own, which is empty. The two tables may have different numbers of lists; as
finite maps they are equal afterwards.
-/

namespace KvStorage

open CLib SortedMap Table

variable {W : Type}

/-- The loop of `set_antecessor` over the entries, up to the final NULL. -/
def putEntries (table : Table) : List (Option Entry) → CM Table
  | [] => throw .outOfBounds
  | none :: _ => pure table
  | some entry :: rest => do
    let (_, table) ← tablePut table entry.key (some entry.value)
    putEntries table rest

/-- `set_antecessor` past `rtable_connect`. -/
def setAntecessor (previousServer : Remote W) (table : Table) : StateT W CM Table := do
  match ← rtableGetTable previousServer with
  -- "Erro em rtable_get_table."
  | none => pure table
  | some entries => putEntries table entries

/-- The loop is a run of puts. -/
theorem putEntries_eq_runOps (es : List Entry) (table : Table) :
    putEntries table (es.map some ++ [none])
      = runOps table (es.map fun e => .put e.key e.value) := by
  induction es generalizing table with
  | nil => rfl
  | cons e es ih =>
    rw [List.map_cons, List.cons_append, List.map_cons]
    unfold putEntries runOps runOp
    simp only [ih, bind_assoc, pure_bind]

/-- The loop over any copies, up to the first NULL, is inside the table where the hash of every
key is. -/
theorem putEntries_returns_iff : ∀ {entries : List (Option Entry)} {table : Table}, table.WF →
    (∀ e, some e ∈ entries → e.value.Valid) →
    ((∃ r, putEntries table (entries ++ [none]) allocated = .ok r) ↔
      ∀ e, some e ∈ entries.takeWhile Option.isSome → table.Indexes e.key)
  | [], table, _, _ => iff_of_true ⟨(table, allocated), rfl⟩ nofun
  | none :: rest, table, _, _ => iff_of_true ⟨(table, allocated), rfl⟩ nofun
  | some entry :: rest, table, h, hvalid => by
    have hentry := hvalid entry (List.mem_cons_self ..)
    rw [List.takeWhile_cons_of_pos rfl]
    by_cases hk : table.Indexes entry.key
    · obtain ⟨t', hrun, hwf, hsize, -⟩ := tablePut_allocated h hk hentry
      have hstep : putEntries table (some entry :: rest ++ [none]) allocated
          = putEntries t' (rest ++ [none]) allocated := run_bind_ok hrun
      rw [hstep, putEntries_returns_iff hwf fun e he => hvalid e (List.mem_cons_of_mem _ he)]
      unfold Indexes
      rw [hsize]
      constructor
      · intro hrest e he
        rcases List.mem_cons.mp he with heq | hmem
        · cases heq
          exact hk
        · exact hrest e hmem
      · exact fun hall e he => hall e (List.mem_cons_of_mem _ he)
    · -- the first key is outside: the access ends the loop
      have hfault : tablePut table entry.key (some entry.value) allocated
          = .error .outOfBounds := tablePut_unindexed hk hentry none allocated
      refine iff_of_false ?_ fun hall => hk (hall entry (List.mem_cons_self ..))
      intro ⟨r, hrun⟩
      have hstop : putEntries table (some entry :: rest ++ [none]) allocated
          = .error .outOfBounds := by
        rw [List.cons_append, putEntries, run_bind, hfault]
        rfl
      rw [hstop] at hrun
      cases hrun

/-- All keys of a table are 7-bit keys. -/
def HashableKeys (M : KvMap) : Prop := ∀ key ∈ M, Hashable key

/-- The entries of a table, in any order, put into an empty one. -/
theorem putEntries_perm {t table : Table} (h : t.WF) (hkeys : HashableKeys t.map)
    (htable : table.WF) (hempty : table.map = ∅) {order : List Entry}
    (horder : order.Perm t.entries) :
    ∃ t', putEntries table (order.map some ++ [none]) allocated = .ok (t', allocated) ∧
      t'.WF ∧ t'.map = t.map := by
  have hnd : (order.map Entry.key).Nodup := (horder.map Entry.key).nodup_iff.mpr h.nodup_keys
  have hops : ∀ op ∈ order.map fun e => TableOp.put e.key e.value, op.Ok := by
    intro op hop
    obtain ⟨e, hmem, rfl⟩ := List.mem_map.mp hop
    have he : e ∈ t.entries := horder.mem_iff.mp hmem
    obtain ⟨v, hv, hblock⟩ := h.stored e he
    refine ⟨hkeys e.key (mem_entries_keys.mp (List.mem_map_of_mem he)), ?_⟩
    rw [hblock]
    exact Block.ofBytes_valid hv
  obtain ⟨t', hrun, hwf, hmap⟩ := runOps_allocated _ htable hops
  refine ⟨t', ?_, hwf, ?_⟩
  · rw [putEntries_eq_runOps]
    exact hrun
  · rw [hmap, hempty, List.foldl_map]
    exact (foldl_insert_empty Entry.key Entry.bytes hnd).trans
      (toMap_perm Entry.key Entry.bytes horder hnd)

theorem putEntries_allocated {t table : Table} (h : t.WF) (hkeys : HashableKeys t.map)
    (htable : table.WF) (hempty : table.map = ∅) :
    ∃ t', putEntries table (t.entries.map some ++ [none]) allocated = .ok (t', allocated) ∧
      t'.WF ∧ t'.map = t.map :=
  putEntries_perm h hkeys htable hempty (List.Perm.refl _)

/-- A listing that arrived is copied. -/
theorem rtableGetTable_of_listing (t : Table) (al : Allocs) :
    rtableGetTable (W := Unit) (fun _ => pure (some (tableReply t).toMessageT)) () al
      = (liftM (copyReceivedEntries (tableReply t).toMessageT) :
          StateT Unit CM (Option (List (Option Entry)))) () al := by
  have hcall : (pure (some (tableReply t).toMessageT) : StateT Unit CM (Option MessageT))
      () al = .ok ((some (tableReply t).toMessageT, ()), al) := rfl
  have hopcode : ¬ (tableReply t).toMessageT.opcode ≠ OP_GETTABLE + 1 := fun hne => hne rfl
  unfold rtableGetTable
  rw [state_bind_ok hcall]
  dsimp only
  rw [if_neg hopcode]

/-- What arrives of a listing that fits its frame. -/
theorem rtableGetTable_listing {t : Table} (h : t.WF) (hfit : messageSize (tableReply t) ≤ 65535) :
    rtableGetTable (W := Unit) (fun _ => pure (some (tableReply t).toMessageT)) () allocated
      = .ok ((some (t.entries.map some ++ [none]), ()), allocated) := by
  rw [rtableGetTable_of_listing]
  exact state_lift_ok (copyReceivedEntries_listing h hfit)

/-- The table that `set_antecessor` has filled is the predecessor's. -/
theorem setAntecessor_listing {t table : Table} (h : t.WF) (hkeys : HashableKeys t.map)
    (hfit : messageSize (tableReply t) ≤ 65535) (htable : table.WF) (hempty : table.map = ∅) :
    ∃ t', setAntecessor (W := Unit) (fun _ => pure (some (tableReply t).toMessageT)) table ()
        allocated = .ok ((t', ()), allocated) ∧ t'.WF ∧ t'.map = t.map := by
  obtain ⟨t', hrun, hwf, hmap⟩ := putEntries_allocated h hkeys htable hempty
  refine ⟨t', ?_, hwf, hmap⟩
  unfold setAntecessor
  rw [state_bind_ok (rtableGetTable_listing h hfit)]
  exact state_lift_ok hrun

/-! ## Over the wire -/

/-- The keys of a listing that fits its frame are short enough to be hashed. -/
theorem hashableKeys_of_fits {t : Table} (h7 : SevenBitKeys t.map)
    (hfit : messageSize (tableReply t) ≤ 65535) : HashableKeys t.map := by
  intro key hkey
  obtain ⟨e, he, rfl⟩ := List.mem_map.mp (mem_entries_keys.mpr hkey)
  have hmem : e.wire ∈ (tableReply t).entries := List.mem_map_of_mem he
  have hle := mem_entries_le_messageSize hmem
  exact .of_length (h7 e.key hkey) (show e.wire.key.bytes.length ≤ 65535 by omega)

/-- **State transfer copies the map.** A table with `nP` lists that any puts and removes
have filled is fetched in one GETTABLE exchange; the loop of `set_antecessor` puts what
arrived into an empty table with `nN` lists, and the two tables are the same map. The
entries could have come in any order. -/
theorem state_transfer_copies_map (codec : MessageCodec) (clock : Timeval × Timeval)
    {splits : Splits} (hsp : splits.Ok) {nP nN : Int} (hP : 0 < nP) (hN : 0 < nN)
    {ops : List TableOp} (hops : ∀ op ∈ ops, op.SevenBit) {al₀ al₁ al₂ : Allocs}
    {fresh table : Table} (hfresh : tableCreate nP al₀ = .ok (some fresh, al₁))
    {s : Server} (hrun : runOps fresh ops al₁ = .ok (s.table, al₂))
    (hfit : messageSize (tableReply s.table) ≤ 65535)
    (htable : tableCreate nN allocated = .ok (some table, allocated)) :
    ∃ entries s', rtableGetTable (exchange codec clock splits) s allocated
        = .ok ((some (entries.map some ++ [none]), s'), allocated) ∧
      s'.table.map = s.table.map ∧
      (∃ t', setAntecessor (exchange codec clock splits) table s allocated
        = .ok ((t', s'), allocated) ∧ t'.map = s.table.map) ∧
      ∀ order : List Entry, order.Perm entries →
        ∃ t', putEntries table (order.map some ++ [none]) allocated = .ok (t', allocated) ∧
          t'.map = s.table.map := by
  have hfresh' := tableCreate_some hfresh
  have htable' := tableCreate_some htable
  subst hfresh' htable'
  have hnone : SevenBitKeys (Table.mk (List.replicate nP.toNat none) nP).map := by
    intro key hkey
    rw [map_replicate] at hkey
    exact absurd hkey Finmap.notMem_empty
  obtain ⟨hwf, h7⟩ := runOps_sevenBit hops (wf_replicate hP) hnone hrun
  have hkeys := hashableKeys_of_fits h7 hfit
  have hload : ∀ order : List Entry, order.Perm s.table.entries → ∃ t',
      putEntries ⟨List.replicate nN.toNat none, nN⟩ (order.map some ++ [none]) allocated
        = .ok (t', allocated) ∧ t'.map = s.table.map := by
    intro order horder
    obtain ⟨t', hput, -, hmap⟩ :=
      putEntries_perm hwf hkeys (wf_replicate hN) (map_replicate _ _) horder
    exact ⟨t', hput, hmap⟩
  obtain ⟨s', hget, hsame⟩ := rtableGetTable_exchange codec clock hsp hwf hfit
  obtain ⟨t', hput, hmap⟩ := hload s.table.entries (List.Perm.refl _)
  refine ⟨s.table.entries, s', hget, hsame, ⟨t', ?_, hmap⟩, hload⟩
  unfold setAntecessor
  rw [state_bind_ok hget]
  exact state_lift_ok hput

/-- A server with one entry in three lists. -/
def singleEntry : Server :=
  ⟨⟨[none, some ⟨1, [⟨keyA, Block.ofBytes [1]⟩]⟩, none], 3⟩, 0, 0, ⟨0, 0, 0⟩⟩

/-- Three entries in two of three lists, copied into two lists as they arrive, and in the
reverse order. -/
theorem state_transfer_copies_map_reversed :
    ∃ (entries : List Entry) (t' t'' : Table) (s' : Server),
    rtableGetTable (exchange protoCodec noTime noSplits) threeEntries allocated
      = .ok ((some (entries.map some ++ [none]), s'), allocated) ∧
    setAntecessor (exchange protoCodec noTime noSplits) ⟨[none, none], 2⟩ threeEntries allocated
      = .ok ((t', s'), allocated) ∧ t'.map = threeEntries.table.map ∧
    putEntries ⟨[none, none], 2⟩ (entries.reverse.map some ++ [none]) allocated
      = .ok (t'', allocated) ∧ t''.map = threeEntries.table.map := by
  have hfresh : tableCreate 3 allocated = .ok (some ⟨[none, none, none], 3⟩, allocated) := rfl
  have hrun : runOps ⟨[none, none, none], 3⟩ threePuts allocated
      = .ok (threeEntries.table, allocated) := rfl
  have htable : tableCreate 2 allocated = .ok (some ⟨[none, none], 2⟩, allocated) := rfl
  obtain ⟨entries, s', hget, -, ⟨t', hset, hmap⟩, horder⟩ := state_transfer_copies_map protoCodec
    noTime noSplits_ok (by decide) (by decide) threePuts_sevenBit hfresh hrun (by decide) htable
  obtain ⟨t'', hput, hmap'⟩ := horder entries.reverse (List.reverse_perm entries)
  exact ⟨entries, t', t'', s', hget, hset, hmap, hput, hmap'⟩

end KvStorage
