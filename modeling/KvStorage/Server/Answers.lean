import KvStorage.Server.Forward

/-!
# What `invoke` answers when memory suffices

One lemma per opcode that only reads: the reply, and what is left of the server. No read touches the
table; what changes is the number of operations and their time, and nothing at all where the answer
is `OP_ERROR`.

The listings are built in loops over the positions and the nodes of each list. Where every
allocation succeeds the loops yield `Table.entries`, in that order (`fillTable_allocated`), and the
arrays have room for the NULL at their end as long as an `int` counts the keys.
-/

namespace KvStorage

open CLib Table

variable {W : Type}

/-- The server after an operation that counts in the statistics. -/
def Server.counted (s : Server) (clock : Timeval × Timeval) : Server :=
  { s with stats := updateOperations s.stats (interval clock.1 clock.2) }

/-- Counting an operation leaves the table alone. -/
@[simp] theorem Server.counted_table (s : Server) (clock : Timeval × Timeval) :
    (s.counted clock).table = s.table := rfl

/-! ## Listing the entries -/

/-- An entry as GETTABLE sends it. -/
def Entry.toEntryT (e : Entry) : EntryT := ⟨some e.key, e.bytes⟩

/-- The entry as it is packed. -/
def Entry.wire (e : Entry) : WireEntry := ⟨e.key, e.bytes⟩

/-- The copy of one entry in the reply to a GETTABLE. -/
theorem entryReply_allocated {e : Entry} (h : Stored e) :
    entryReply e allocated = .ok (some e.toEntryT, allocated) := by
  obtain ⟨v, -, hv⟩ := h
  have hpay : e.value.payload = pure e.bytes := by
    rw [Entry.bytes, hv, payload_ofBytes, Block.content_ofBytes]
  unfold entryReply Entry.toEntryT
  simp [hpay, allocated_shift]

theorem fillListEntries_allocated (cap : Int) : ∀ {nodes : List Entry},
    (∀ e ∈ nodes, Stored e) → ∀ entries : List (Option EntryT),
    (entries.length : Int) + nodes.length ≤ cap →
    fillListEntries cap nodes entries allocated
      = .ok (some (entries ++ nodes.map fun e => some e.toEntryT), allocated)
  | [], _, entries, _ => by simp [fillListEntries]
  | e :: nodes, hst, entries, hcap => by
    rw [List.length_cons] at hcap
    push_cast at hcap
    have hrest := fillListEntries_allocated cap
      (fun e' he' => hst e' (List.mem_cons_of_mem _ he')) (entries ++ [some e.toEntryT])
      (by rw [List.length_append, List.length_singleton]; push_cast; omega)
    unfold fillListEntries
    simp only [run_bind, entryReply_allocated (hst e (List.mem_cons_self ..)), ok_bind]
    rw [arrayPut_of_lt (by omega)]
    simp only [run_pure, ok_bind, hrest, List.map_cons, List.append_assoc, List.singleton_append]

/-- The loop over the positions: a position without a list adds nothing, the others their entries
from head to tail. -/
theorem fillTableEntries_allocated (cap : Int) : ∀ (lists : List (Option EntryList)),
    (∀ e ∈ (lists.map nodesOf).flatten, Stored e) → ∀ entries : List (Option EntryT),
    (entries.length : Int) + (lists.map nodesOf).flatten.length ≤ cap →
    fillTableEntries cap lists entries allocated
      = .ok (some (entries ++ (lists.map nodesOf).flatten.map fun e => some e.toEntryT), allocated)
  | [], _, entries, _ => by simp [fillTableEntries]
  | none :: lists, hst, entries, hcap => by
    have hrest := fillTableEntries_allocated cap lists
      (by simpa [nodesOf] using hst) entries (by simpa [nodesOf] using hcap)
    simpa [fillTableEntries, nodesOf] using hrest
  | some l :: lists, hst, entries, hcap => by
    rw [List.map_cons, List.flatten_cons, nodesOf] at hst hcap
    rw [List.length_append] at hcap
    push_cast at hcap
    have hfirst := fillListEntries_allocated cap
      (fun e he => hst e (List.mem_append_left _ he)) entries (by omega)
    have hrest := fillTableEntries_allocated cap lists
      (fun e he => hst e (List.mem_append_right _ he))
      (entries ++ l.nodes.map fun e => some e.toEntryT)
      (by rw [List.length_append, List.length_map]; push_cast; omega)
    unfold fillTableEntries
    simp only [run_bind, hfirst, ok_bind, hrest, List.map_cons, List.flatten_cons, nodesOf,
      List.map_append, List.append_assoc]

/-- The array GETTABLE fills. -/
theorem fillTable_allocated {t : Table} (h : t.WF) (hlive : t.map.keys.card < 2 ^ 31) :
    fillTableEntries (ptrArrayCap (cint (tableSize t + 1))) t.lists [] allocated
        = .ok (some (t.entries.map fun e => some e.toEntryT), allocated) ∧
      arrayPut (ptrArrayCap (cint (tableSize t + 1))) (t.entries.map fun e => some e.toEntryT) none
        = pure ((t.entries.map fun e => some e.toEntryT) ++ [none]) := by
  have hsize := tableSize_card h hlive
  rw [h.card_keys] at hlive hsize
  have hcap : (t.entries.length : Int) < ptrArrayCap (cint (tableSize t + 1)) := by
    rw [hsize]
    exact lt_ptrArrayCap hlive
  constructor
  · exact fillTableEntries_allocated _ t.lists h.stored []
      (by simpa [entries, buckets] using Int.le_of_lt hcap)
  · exact arrayPut_of_lt (by rw [List.length_map]; exact hcap)

/-- The counts of the listings are the number of keys. -/
theorem tableSize_toSize {t : Table} (h : t.WF) (hlive : t.map.keys.card < 2 ^ 31) :
    (tableSize t % 2 ^ 64).toNat = t.entries.length := by
  rw [tableSize_card h hlive]
  rw [h.card_keys] at hlive ⊢
  omega

/-! ## One lemma per opcode -/

section Answers

variable {s : Server} (h : s.table.WF) (clock : Timeval × Timeval) {msg : MessageT} (w : W)

include h

/-- A key that is stored: the request comes back with the value. -/
theorem invokeGet_found (hk : s.table.Indexes msg.key) {v : List Byte}
    (hv : s.table.map.lookup msg.key = some v) :
    invokeGet clock msg (s, w) allocated
      = .ok (((0, { msg.answer OP_GET CT_VALUE with value := v }), (s.counted clock, w)),
          allocated) := by
  have hget := tableGet_allocated h hk
  rw [hv, Option.map_some] at hget
  unfold invokeGet
  rw [state_bind_ok sm_startRead, state_bind_ok state_get,
    state_bind_ok (state_lift_ok hget), state_bind_ok sm_endRead]
  simp [getReply, payload_ofBytes, Server.counted, allocated_shift]

/-- A key that is not: `OP_ERROR`, and no operation is counted. -/
theorem invokeGet_missing (hk : s.table.Indexes msg.key)
    (hv : s.table.map.lookup msg.key = none) :
    invokeGet clock msg (s, w) allocated = .ok (((0, msg.error), (s, w)), allocated) := by
  have hget := tableGet_allocated h hk
  rw [hv, Option.map_none] at hget
  unfold invokeGet
  rw [state_bind_ok sm_startRead, state_bind_ok state_get,
    state_bind_ok (state_lift_ok hget), state_bind_ok sm_endRead]
  simp

omit h in
theorem invokeSize_run (hsize : tableSize s.table ≠ -1) (al : Allocs) :
    invokeSize clock msg (s, w) al
      = .ok (((0, { msg.answer OP_SIZE CT_RESULT with result := Int32.ofInt (tableSize s.table) }),
          (s.counted clock, w)), al) := by
  unfold invokeSize
  rw [state_bind_ok sm_startRead, state_bind_ok state_get, state_bind_ok sm_endRead]
  simp [hsize, Server.counted]

theorem invokeGetKeys_allocated (hlive : s.table.map.keys.card < 2 ^ 31) :
    invokeGetKeys clock msg (s, w) allocated
      = .ok (((0, { msg.answer OP_GETKEYS CT_KEYS with
            keys := some ((s.table.entries.map Entry.key).map some ++ [none]),
            nKeys := s.table.entries.length }), (s.counted clock, w)), allocated) := by
  have hkeys := tableGetKeys_allocated h hlive
  unfold invokeGetKeys
  rw [state_bind_ok sm_startRead, state_bind_ok state_get, state_bind_ok (state_lift_ok hkeys)]
  dsimp only
  rw [state_bind_ok sm_endRead, tableSize_toSize h hlive]
  simp [Server.counted]

/-- All entries in the order of their positions; the NULL behind them is not counted. -/
theorem invokeGetTable_allocated (hlive : s.table.map.keys.card < 2 ^ 31) :
    invokeGetTable clock msg (s, w) allocated
      = .ok (((0, { msg.answer OP_GETTABLE CT_TABLE with
            entries := some ((s.table.entries.map fun e => some e.toEntryT) ++ [none]),
            nEntries := s.table.entries.length }), (s.counted clock, w)), allocated) := by
  obtain ⟨hfill, hput⟩ := fillTable_allocated h hlive
  unfold invokeGetTable
  rw [state_bind_ok sm_startRead, state_bind_ok state_get,
    state_bind_ok (state_lift_ok malloc_allocated), if_pos rfl]
  dsimp only
  rw [state_bind_ok (state_lift_ok hfill)]
  dsimp only
  rw [hput, state_bind_ok (state_lift_ok (run_pure _)), state_bind_ok sm_endRead,
    tableSize_toSize h hlive]
  simp [Server.counted]

end Answers

end KvStorage
