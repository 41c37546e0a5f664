import KvStorage.Server.Answers
import KvStorage.Wire.Protobuf

/-!
# Remote calls

One call of a client stub from end to end: the request is packed and framed,
`thread_client` receives it, runs `invoke` and sends the reply, and the stub
reads it. All of it is at the level of the bytes, with any short transfers on
either end; `exchange_reply` reduces it to the two messages.

A table that is reachable through `invoke` satisfies `Table.WF` (`Reached.wf`),
so no stored block is empty, which is what keeps `rtable_get_table` from
putting a NULL before the last element.
-/

namespace KvStorage

open CLib Table SortedMap

/-! ## One exchange -/

/-- The kernel's choices on both ends of the connection. -/
structure Splits where
  clientReads : List IoEvent
  clientWrites : List IoEvent
  serverReads : List IoEvent
  serverWrites : List IoEvent

structure Splits.Ok (splits : Splits) : Prop where
  clientReads : Unfailing splits.clientReads
  clientWrites : Unfailing splits.clientWrites
  serverReads : Unfailing splits.serverReads
  serverWrites : Unfailing splits.serverWrites

variable (codec : MessageCodec) (clock : Timeval × Timeval) (splits : Splits)

/-- `thread_client` on one request, on a server without a successor. -/
def serveRequest (s : Server) (c : Conn) : CM (Server × Conn) := do
  match ← networkReceive codec.toCodec c with
  | (none, c) => pure (s, c)
  | (some message, c) =>
    let ((rc, reply), (s, _)) ← invoke (W := Unit) none clock message.toMessageT (s, ())
    if rc = -1 then pure (s, c)
    else
      let r ← reply.content
      let (_, c) ← networkSend codec.toCodec r c
      pure (s, c)

/-- `network_send_receive` against that server: the bytes the client writes are
what the server reads, and the other way round. What the client sends does not
depend on what comes back, so the request is computed first. -/
def exchange : Remote Server := fun msg s => do
  let request ← msg.content
  let (_, sent) ← sendFrame codec.toCodec request (Conn.new [] splits.clientWrites)
  let (s, served) ← serveRequest codec clock s
    { Conn.new splits.serverReads splits.serverWrites with incoming := sent.written }
  let (reply, _) ← networkSendReceive codec.toCodec request
    { Conn.new splits.clientReads splits.clientWrites with incoming := served.written }
  pure (reply.map WireMsg.toMessageT, s)

/-- A message with an opcode is not empty. -/
theorem fitsFrame_of {m : WireMsg} {opcode : Int32} (hop : m.opcode = opcode) (hne : opcode ≠ 0)
    (hfit : messageSize m ≤ 65535) : FitsFrame codec.toCodec m := by
  unfold FitsFrame
  rw [codec.getPackedSize_eq]
  refine ⟨?_, hfit⟩
  have hvarint : int64Varint m.opcode.toInt ≠ 0 := by
    intro h0
    have hlt := Int32.toInt_lt m.opcode
    have hle := Int32.le_toInt m.opcode
    have hzero : m.opcode.toInt = 0 := by
      unfold int64Varint at h0
      omega
    exact hne (hop ▸ Int32.toInt_inj.mp hzero)
  unfold messageSize varintFieldSize
  rw [if_neg hvarint]
  omega

variable {splits}

/-- The server's side of an exchange that is answered. -/
theorem serveRequest_reply {m r : WireMsg} {reply : MessageT} {s s' : Server} {c : Conn}
    (hin : c.incoming = frame codec.toCodec m) (hreads : Unfailing c.reads)
    (hwrites : Unfailing c.writes) (hmf : FitsFrame codec.toCodec m)
    (hrun : invoke none clock m.toMessageT (s, ()) allocated
      = .ok (((0, reply), (s', ())), allocated))
    (hr : reply.content allocated = .ok (r, allocated)) (hrf : FitsFrame codec.toCodec r) :
    ∃ c', serveRequest codec clock s c allocated = .ok ((s', c'), allocated) ∧
      c'.written = c.written ++ frame codec.toCodec r := by
  obtain ⟨s₁, hs₁, hrecv⟩ := networkReceive_frame codec.toCodec hmf.2
    (hin.trans (List.append_nil _).symm) hreads allocated_zero
  obtain ⟨s₂, hs₂, hsend⟩ := networkSend_run codec.toCodec hrf.2
    (show Unfailing ({ c with incoming := [], reads := s₁ } : Conn).writes from hwrites)
    allocated_zero
  refine ⟨{ c with incoming := [], reads := s₁, written := c.written ++ frame codec.toCodec r,
                   writes := s₂ }, ?_, rfl⟩
  unfold serveRequest
  simp [hrecv, hrun, hr, hsend, allocated_shift]

/-- An exchange whose request and reply fit their frames. -/
theorem exchange_reply (hsp : splits.Ok) {msg reply : MessageT} {m r : WireMsg} {s s' : Server}
    (hm : msg.content allocated = .ok (m, allocated)) (hback : m.toMessageT = msg)
    (hmf : FitsFrame codec.toCodec m)
    (hrun : invoke none clock msg (s, ()) allocated
      = .ok (((0, reply), (s', ())), allocated))
    (hr : reply.content allocated = .ok (r, allocated)) (hrf : FitsFrame codec.toCodec r) :
    exchange codec clock splits msg s allocated = .ok ((some r.toMessageT, s'), allocated) := by
  rw [← hback] at hrun
  obtain ⟨w₁, -, hsend⟩ := sendFrame_run codec.toCodec hmf.2
    (show Unfailing (Conn.new [] splits.clientWrites).writes from hsp.clientWrites) allocated_zero
  obtain ⟨c', hserve, hwritten⟩ := serveRequest_reply codec clock
    (c := { Conn.new splits.serverReads splits.serverWrites with
      incoming := frame codec.toCodec m }) rfl hsp.serverReads hsp.serverWrites hmf hrun hr hrf
  obtain ⟨c'', hrecv, -⟩ := networkSendReceive_frame codec.toCodec hmf.2 hrf.2
    (c := { Conn.new splits.clientReads splits.clientWrites with incoming := c'.written })
    (hwritten.trans (List.append_nil _).symm) hsp.clientReads hsp.clientWrites
  unfold exchange
  simp only [run_bind, hm, ok_bind, hsend, allocated_shift]
  simp only [Conn.new, List.nil_append] at hserve hrecv ⊢
  simp [hserve, hrecv]

/-- An exchange that `invoke` refuses with -1: the connection is closed and no
reply comes. -/
theorem exchange_refused (hsp : splits.Ok) {msg reply : MessageT} {m : WireMsg} {s s' : Server}
    (hm : msg.content allocated = .ok (m, allocated)) (hback : m.toMessageT = msg)
    (hmf : FitsFrame codec.toCodec m)
    (hrun : invoke none clock msg (s, ()) allocated
      = .ok (((-1, reply), (s', ())), allocated)) :
    exchange codec clock splits msg s allocated = .ok ((none, s'), allocated) := by
  rw [← hback] at hrun
  obtain ⟨w₁, -, hsend⟩ := sendFrame_run codec.toCodec hmf.2
    (show Unfailing (Conn.new [] splits.clientWrites).writes from hsp.clientWrites) allocated_zero
  obtain ⟨s₁, -, hrecv⟩ := networkReceive_frame codec.toCodec hmf.2
    (c := { Conn.new splits.serverReads splits.serverWrites with
      incoming := frame codec.toCodec m }) (List.append_nil _).symm hsp.serverReads allocated_zero
  obtain ⟨c'', hclosed⟩ := networkSendReceive_closed codec.toCodec hmf.2
    (c := Conn.new splits.clientReads splits.clientWrites) rfl hsp.clientReads hsp.clientWrites
  unfold exchange serveRequest
  simp only [run_bind, hm, ok_bind, hsend, allocated_shift]
  simp only [Conn.new, List.nil_append] at hrecv hclosed ⊢
  simp [hrecv, hrun, hclosed, allocated_shift]

/-! ## Reachable tables -/

/-- A server whose table was created with `n` lists and then changed by
`invoke` alone. -/
inductive Reached (n : Int) : Server → Prop
  | create {t : Table} {al : Allocs} :
      tableCreate n allocated = .ok (some t, al) → Reached n ⟨t, 0, 0, ⟨0, 0, 0⟩⟩
  | request {s s' : Server} {clock : Timeval × Timeval} {m : WireMsg} {rc : Int} {reply : MessageT}
      {al : Allocs} :
      Reached n s → messageSize m ≤ 65535 →
      invoke none clock m.toMessageT (s, ()) allocated = .ok (((rc, reply), (s', ())), al) →
      Reached n s'

/-- The table, read off the state `invoke` runs on. -/
def tableOf {W : Type} (x : Server × W) : Table := x.1.table

section Reads

variable {W : Type} (msg : MessageT)

theorem keeps_monitor : Keeps (tableOf (W := W)) startRead ∧ Keeps (tableOf (W := W)) endRead ∧
    Keeps (tableOf (W := W)) (recordOperation clock) := by
  refine ⟨?_, ?_, ?_⟩ <;> intro x al a x' al' hrun <;> cases hrun <;> rfl

theorem invokeGet_keeps : Keeps (tableOf (W := W)) (invokeGet clock msg) := by
  obtain ⟨hstart, hend, hrecord⟩ := keeps_monitor (W := W) clock
  refine keeps_bind hstart fun _ => keeps_bind keeps_get fun x => ?_
  refine keeps_bind (keeps_lift _) fun block => keeps_bind hend fun _ => ?_
  cases block with
  | none => exact keeps_pure _
  | some block =>
    refine keeps_bind (keeps_lift _) fun r => keeps_ite ?_ (keeps_pure _)
    exact keeps_bind hrecord fun _ => keeps_pure _

theorem invokeSize_keeps : Keeps (tableOf (W := W)) (invokeSize clock msg) := by
  obtain ⟨hstart, hend, hrecord⟩ := keeps_monitor (W := W) clock
  refine keeps_bind hstart fun _ => keeps_bind keeps_get fun x => keeps_bind hend fun _ => ?_
  refine keeps_ite (keeps_pure _) ?_
  exact keeps_bind hrecord fun _ => keeps_pure _

theorem invokeGetKeys_keeps : Keeps (tableOf (W := W)) (invokeGetKeys clock msg) := by
  obtain ⟨hstart, hend, hrecord⟩ := keeps_monitor (W := W) clock
  refine keeps_bind hstart fun _ => keeps_bind keeps_get fun x => ?_
  refine keeps_bind (keeps_lift _) fun keys => ?_
  cases keys with
  | none => exact keeps_bind hend fun _ => keeps_pure _
  | some keys => exact keeps_bind hend fun _ => keeps_bind hrecord fun _ => keeps_pure _

theorem invokeGetTable_keeps : Keeps (tableOf (W := W)) (invokeGetTable clock msg) := by
  obtain ⟨hstart, hend, hrecord⟩ := keeps_monitor (W := W) clock
  refine keeps_bind hstart fun _ => keeps_bind keeps_get fun x => ?_
  refine keeps_bind (keeps_lift _) fun ok => keeps_ite ?_ (keeps_bind hend fun _ => keeps_pure _)
  refine keeps_bind (keeps_lift _) fun entries => ?_
  cases entries with
  | none => exact keeps_pure _
  | some entries =>
    refine keeps_bind (keeps_lift _) fun entries => ?_
    exact keeps_bind hend fun _ => keeps_bind hrecord fun _ => keeps_pure _

theorem invokeStats_keeps : Keeps (tableOf (W := W)) (invokeStats msg) := by
  refine keeps_bind (keeps_lift _) fun ok => keeps_ite ?_ (keeps_pure _)
  exact keeps_bind keeps_get fun _ => keeps_pure _

/-- Only PUT and DEL change the table. -/
theorem invoke_keeps (next : Option (Remote W)) (hput : msg.opcode ≠ OP_PUT)
    (hdel : msg.opcode ≠ OP_DEL) : Keeps (tableOf (W := W)) (invoke next clock msg) := by
  unfold invoke
  rw [if_neg hput, if_neg hdel]
  refine keeps_ite (invokeGet_keeps clock msg) (keeps_ite (invokeSize_keeps clock msg) ?_)
  refine keeps_ite (invokeGetKeys_keeps clock msg) (keeps_ite (invokeGetTable_keeps clock msg) ?_)
  exact keeps_ite (invokeStats_keeps msg) (keeps_pure _)

end Reads

/-- One request keeps the representation invariant. -/
theorem invoke_wf {s s' : Server} (h : s.table.WF) {m : WireMsg} (hfit : messageSize m ≤ 65535)
    {rc : Int} {reply : MessageT} {al al' : Allocs}
    (hrun : invoke (W := Unit) none clock m.toMessageT (s, ()) al
      = .ok (((rc, reply), (s', ())), al')) :
    s'.table.WF := by
  by_cases hput : m.opcode = OP_PUT
  · rw [invoke_put _ _ hput] at hrun
    cases hentry : m.entry with
    | none =>
      rw [invokePut_noEntry none clock (by rw [WireMsg.toMessageT, hentry]; rfl)] at hrun
      cases hrun
    | some e =>
      have hmsg : m.toMessageT.entry = some ⟨some e.key, e.value⟩ := by
        rw [WireMsg.toMessageT, hentry]
        rfl
      have hlen := entry_le_messageSize hentry
      cases hfault : putFaults s.table e.key e.value al with
      | true =>
        have hstop := invokePut_fault (W := Unit) none clock hmsg (by omega) hfault ()
        rw [Option.map_none] at hstop
        rw [hstop] at hrun
        cases hrun
      | false =>
        obtain ⟨rc₁, reply₁, s₁, al₁, hrun₁, hwf, -⟩ :=
          invokePut_run h (W := Unit) none clock hmsg (by omega) hfault ()
        rw [Option.map_none, hrun] at hrun₁
        cases hrun₁
        exact hwf
  · by_cases hdel : m.opcode = OP_DEL
    · rw [invoke_del _ _ hdel] at hrun
      by_cases hk : s.table.Indexes m.toMessageT.key
      · obtain ⟨reply₁, s₁, hrun₁, hwf, -⟩ := invokeDel_run h (W := Unit) none clock hk al ()
        rw [Option.map_none, hrun] at hrun₁
        cases hrun₁
        exact hwf
      · rw [invokeDel_fault none clock hk] at hrun
        cases hrun
    · have hkeep : s'.table = s.table :=
        invoke_keeps clock m.toMessageT none hput hdel _ _ _ _ _ hrun
      rw [hkeep]
      exact h

/-- The representation invariant of every reachable table. -/
theorem Reached.wf {n : Int} (hn : 0 < n) {s : Server} (h : Reached n s) : s.table.WF := by
  induction h with
  | create hcreate =>
    rw [tableCreate_allocated hn] at hcreate
    cases hcreate
    exact wf_replicate hn
  | request _ hfit hrun ih => exact invoke_wf _ ih hfit hrun

/-! ## The replies on the wire -/

/-- The answer to a PUT still carries the entry, those to GET and DEL the key. -/
def putReply (key : CStr) (v : List Byte) : WireMsg :=
  { putWire key v with opcode := OP_PUT + 1, cType := CT_NONE }

def getReplyWire (key : CStr) : Option (List Byte) → WireMsg
  | some v => { keyWire OP_GET key with opcode := OP_GET + 1, cType := CT_VALUE, value := v }
  | none => { keyWire OP_GET key with opcode := OP_ERROR, cType := CT_NONE }

def delReply (key : CStr) (found : Bool) : WireMsg :=
  if found then { keyWire OP_DEL key with opcode := OP_DEL + 1, cType := CT_NONE }
  else { keyWire OP_DEL key with opcode := OP_ERROR, cType := CT_NONE }

def sizeReply (size : Int) : WireMsg :=
  { bareWire OP_SIZE with opcode := OP_SIZE + 1, cType := CT_RESULT, result := Int32.ofInt size }

def keysReply (t : Table) : WireMsg :=
  { bareWire OP_GETKEYS with opcode := OP_GETKEYS + 1, cType := CT_KEYS
                             keys := t.entries.map Entry.key }

def tableReply (t : Table) : WireMsg :=
  { bareWire OP_GETTABLE with opcode := OP_GETTABLE + 1, cType := CT_TABLE
                              entries := t.entries.map Entry.wire }

theorem sizeReply_fits (size : Int) : messageSize (sizeReply size) ≤ 65535 := by
  have hop : varintFieldSize (int64Varint (OP_SIZE + 1).toInt) = 2 := by decide
  have hct : varintFieldSize (int64Varint CT_RESULT.toInt) = 2 := by decide
  have hle := varintFieldSize_zigzag (Int32.ofInt size)
  simp only [messageSize, sizeReply, bareWire, WireMsg.init, hop, hct]
  simp only [Option.elim_none, emptyString, bytesFieldSize, if_pos, List.map_nil, List.sum_nil]
  omega

theorem toInt_ofInt_tableSize {t : Table} (h : t.WF) :
    (Int32.ofInt (tableSize t)).toInt = tableSize t := by
  rw [tableSize_eq h, cint, Int32.toInt_ofInt_of_le (Int.le_bmod (by decide))
    (Int.bmod_lt (by decide))]

/-! ## The listings on the wire -/

theorem content_keysAnswer (t : Table) :
    ({ (bareMessage OP_GETKEYS).answer OP_GETKEYS CT_KEYS with
      keys := some ((t.entries.map Entry.key).map some ++ [none]),
      nKeys := t.entries.length } : MessageT).content allocated
      = .ok (keysReply t, allocated) := by
  have hkeys := arrayContent_map (f := (·.getD emptyString)) (g := id) (h := id) (fun _ => rfl)
    (t.entries.map Entry.key) [none] allocated
  rw [List.map_id, List.length_map] at hkeys
  unfold MessageT.content
  exact run_bind_ok hkeys

theorem content_tableAnswer (t : Table) :
    ({ (bareMessage OP_GETTABLE).answer OP_GETTABLE CT_TABLE with
      entries := some ((t.entries.map fun e => some e.toEntryT) ++ [none]),
      nEntries := t.entries.length } : MessageT).content allocated
      = .ok (tableReply t, allocated) := by
  have hentries := arrayContent_map
    (f := fun e : Option EntryT => (e.map EntryT.content).getD ⟨emptyString, []⟩)
    (g := Entry.toEntryT) (h := Entry.wire) (fun _ => rfl) t.entries [none] allocated
  unfold MessageT.content
  refine (run_bind_ok (show arrayContent (β := CStr) (·.getD emptyString) 0 none allocated
    = .ok ([], allocated) from rfl)).trans ?_
  exact run_bind_ok hentries

/-! ## The stub functions -/

theorem copyReceivedValue_allocated {v : List Byte} (hv : v ≠ []) (hlen : v.length < 2 ^ 31) :
    copyReceivedValue v allocated = .ok (some (Block.ofBytes v), allocated) := by
  have hcint : cint v.length = v.length := cint_of_lt (by omega) (by omega)
  have hpos : 0 < v.length := List.length_pos_of_ne_nil hv
  unfold copyReceivedValue
  rw [hcint]
  simp [hpos, blockCreate_run hv, allocated_shift]

/-- The keys of a received message are copied one by one. -/
theorem copyReceivedKeys_allocated {r : WireMsg} (hlen : r.keys.length < 2 ^ 31) :
    copyReceivedKeys r.toMessageT allocated
      = .ok (some (r.keys.map some ++ [none]), allocated) := by
  have hcint : cint r.keys.length = r.keys.length := cint_of_lt (by omega) (by omega)
  have hcap := lt_ptrArrayCap hlen
  have hcopy : copyListKeys (ptrArrayCap (cint (r.keys.length + 1))) r.toMessageT.keys
      r.keys.length 0 [] allocated = .ok (r.keys.map some, allocated) := by
    by_cases hnil : r.keys = []
    · simp [hnil, copyListKeys]
    · have hkeys : r.toMessageT.keys = some (r.keys.map some ++ []) := by
        simp [WireMsg.toMessageT, hnil]
      have hrun := copyListKeys_allocated (ptrArrayCap (cint (r.keys.length + 1))) r.keys []
        r.keys.length 0 [] (Nat.zero_add _) (by rw [List.length_nil]; omega)
      rw [hkeys, hrun]
      rfl
  have hput : arrayPut (ptrArrayCap (cint (r.keys.length + 1))) (r.keys.map some) none
      = pure (r.keys.map some ++ [none]) := arrayPut_of_lt (by rw [List.length_map]; exact hcap)
  have hn : r.toMessageT.nKeys = r.keys.length := rfl
  unfold copyReceivedKeys
  rw [run_bind_ok malloc_allocated, if_pos rfl, hn, hcint, Int.toNat_natCast,
    run_bind_ok hcopy, hput]
  rfl

/-- The entry `rtable_get_table` builds. -/
def WireEntry.toEntry (e : WireEntry) : Entry := ⟨e.key, Block.ofBytes e.value⟩

/-- What `rtable_get_table` puts into its array for a received entry: a NULL where there is no
value. -/
def WireEntry.copy (e : WireEntry) : Option Entry := if e.value = [] then none else some e.toEntry

/-- One round of the loop of `rtable_get_table`: the block, the entry around it, and their copy. -/
def copyEntry (e : EntryT) : CM (Option Entry) := do
  let data := if e.value = [] then none else some e.value
  let block ← blockCreate (cint e.value.length) data
  let entry ← entryCreate e.key block
  entryDuplicate entry

theorem copyListEntries_succ (cap : Int) (received : Option (List (Option EntryT))) (n i : Nat)
    (table : List (Option Entry)) :
    copyListEntries cap received (n + 1) i table = (do
      let arr ← deref received
      let e ← deref (← arrayGet arr i)
      let copy ← copyEntry e
      let table ← arrayPut cap table copy
      copyListEntries cap received n (i + 1) table) := by
  unfold copyEntry
  simp only [bind_assoc]
  rfl

theorem copyEntry_allocated {e : WireEntry} (hlen : e.value.length < 2 ^ 31) :
    copyEntry e.toEntryT allocated = .ok (e.copy, allocated) := by
  have hvalue : e.toEntryT.value = e.value := rfl
  unfold copyEntry WireEntry.copy
  rw [hvalue]
  by_cases hne : e.value = []
  · rw [hne]
    rfl
  · have hblock : blockCreate (cint e.value.length) (some e.value) allocated
        = .ok (some (Block.ofBytes e.value), allocated) := by
      rw [cint_of_lt (by omega) (by omega), blockCreate_run hne]
      rfl
    have hentry : entryCreate e.toEntryT.key (some (Block.ofBytes e.value)) allocated
        = .ok (some e.toEntry, allocated) := entryCreate_run _ _ _
    have hdup : entryDuplicate (some e.toEntry) allocated = .ok (some e.toEntry, allocated) := by
      have hcopy := blockDuplicate_allocated (Block.ofBytes_valid hne)
      rw [Block.content_ofBytes] at hcopy
      simp [entryDuplicate, WireEntry.toEntry, hcopy, allocated_shift]
    rw [if_neg hne, if_neg hne, run_bind_ok hblock, run_bind_ok hentry, hdup]

theorem copyListEntries_allocated (cap : Int) (es : List WireEntry)
    (hes : ∀ e ∈ es, e.value.length < 2 ^ 31) :
    ∀ (n i : Nat) (table : List (Option Entry)), i + n = es.length →
      (table.length : Int) + n ≤ cap →
      copyListEntries cap (some (es.map fun e => some e.toEntryT)) n i table allocated
        = .ok (table ++ (es.drop i).map WireEntry.copy, allocated)
  | 0, i, table, hi, _ => by
    unfold copyListEntries
    rw [List.drop_of_length_le (by omega)]
    simp
  | n + 1, i, table, hi, hcap => by
    push_cast at hcap
    have hlt : i < es.length := by omega
    have hrest := copyListEntries_allocated cap es hes n (i + 1) (table ++ [es[i].copy])
      (by omega) (by rw [List.length_append, List.length_singleton]; push_cast; omega)
    have harr : i < (es.map fun e => some e.toEntryT).length := by
      rw [List.length_map]
      exact hlt
    have hget : arrayGet (es.map fun e => some e.toEntryT) i allocated
        = .ok (some es[i].toEntryT, allocated) := by
      rw [arrayGet_nat harr, List.getElem_map]
      rfl
    have hput : arrayPut cap table es[i].copy = pure (table ++ [es[i].copy]) :=
      arrayPut_of_lt (by omega)
    rw [copyListEntries_succ, deref_some, run_bind_ok (run_pure _), run_bind_ok hget, deref_some,
      run_bind_ok (run_pure _), run_bind_ok (copyEntry_allocated (hes _ (List.getElem_mem hlt))),
      hput, run_bind_ok (run_pure _), hrest, List.drop_eq_getElem_cons hlt, List.map_cons,
      List.append_assoc, List.singleton_append]

/-- The entries of a received message. -/
theorem copyReceivedEntries_allocated {r : WireMsg} (hlen : r.entries.length < 2 ^ 31)
    (hes : ∀ e ∈ r.entries, e.value.length < 2 ^ 31) :
    copyReceivedEntries r.toMessageT allocated
      = .ok (some (r.entries.map WireEntry.copy ++ [none]), allocated) := by
  have hcint : cint r.entries.length = r.entries.length := cint_of_lt (by omega) (by omega)
  have hcap : (r.entries.length : Int) < ptrArrayCap (r.entries.length + 1) := by
    unfold ptrArrayCap
    omega
  have hcopy : copyListEntries (ptrArrayCap (r.entries.length + 1)) r.toMessageT.entries
      r.entries.length 0 [] allocated = .ok (r.entries.map WireEntry.copy, allocated) := by
    by_cases hnil : r.entries = []
    · simp [hnil, copyListEntries]
    · have hentries : r.toMessageT.entries = some (r.entries.map fun e => some e.toEntryT) := by
        simp [WireMsg.toMessageT, hnil]
      have hrun := copyListEntries_allocated (ptrArrayCap (r.entries.length + 1)) r.entries hes
        r.entries.length 0 [] (Nat.zero_add _) (by rw [List.length_nil]; omega)
      rw [hentries, hrun]
      rfl
  have hput : arrayPut (ptrArrayCap (r.entries.length + 1)) (r.entries.map WireEntry.copy) none
      = pure (r.entries.map WireEntry.copy ++ [none]) :=
    arrayPut_of_lt (by rw [List.length_map]; exact hcap)
  have hn : r.toMessageT.nEntries = r.entries.length := rfl
  unfold copyReceivedEntries
  rw [run_bind_ok malloc_allocated, if_pos rfl, hn, hcint, Int.toNat_natCast,
    run_bind_ok hcopy, hput]
  rfl

/-- The entries of the reply are those of the table. -/
theorem tableReply_toEntry {t : Table} (h : t.WF) :
    (tableReply t).entries.map WireEntry.toEntry = t.entries := by
  rw [tableReply, List.map_map]
  refine (List.map_congr_left fun e he => ?_).trans (List.map_id _)
  obtain ⟨v, -, hv⟩ := h.stored e he
  cases e
  subst hv
  simp [Entry.wire, Entry.bytes, WireEntry.toEntry]

theorem tableReply_length_le {t : Table} (hfit : messageSize (tableReply t) ≤ 65535) :
    t.entries.length ≤ 65535 := by
  have hcount := entries_length_le_messageSize (tableReply t)
  rw [show (tableReply t).entries.length = t.entries.length from List.length_map _] at hcount
  omega

theorem tableReply_values {t : Table} (h : t.WF) (hfit : messageSize (tableReply t) ≤ 65535) :
    ∀ e ∈ (tableReply t).entries, e.value ≠ [] ∧ e.value.length < 2 ^ 31 := by
  intro e he
  have hvalue := mem_entries_le_messageSize he
  obtain ⟨e', he', rfl⟩ := List.mem_map.mp he
  exact ⟨h.bytes_ne_nil he', by omega⟩

/-- What `rtable_get_table` makes of a listing that fits its frame. -/
theorem copyReceivedEntries_listing {t : Table} (h : t.WF)
    (hrep : messageSize (tableReply t) ≤ 65535) :
    copyReceivedEntries (tableReply t).toMessageT allocated
      = .ok (some (t.entries.map some ++ [none]), allocated) := by
  have hcount := tableReply_length_le hrep
  have hvalues := tableReply_values h hrep
  have hcopy := copyReceivedEntries_allocated (r := tableReply t)
    (by simp only [tableReply, List.length_map]; omega) fun e he => (hvalues e he).2
  have hsame : (tableReply t).entries.map WireEntry.copy = t.entries.map some := by
    rw [← tableReply_toEntry h, List.map_map]
    exact List.map_congr_left fun e he => if_neg (hvalues e he).1
  rw [hsame] at hcopy
  exact hcopy

/-- A PUT whose allocations succeed. -/
theorem invoke_put_allocated {s : Server} (h : s.table.WF) {key : CStr} (hk : Hashable key)
    {v : List Byte} (hv : v ≠ []) (hlen : v.length < 2 ^ 31) :
    ∃ s', invoke (W := Unit) none clock (putMessage key v) (s, ()) allocated
        = .ok (((0, (putMessage key v).answer OP_PUT CT_NONE), (s', ())), allocated) ∧
      s'.table.WF ∧ s'.table.map = s.table.map.insert key v := by
  have hix := h.indexes hk
  have hfault : putFaults s.table key v allocated = false := by
    simp [putFaults, hix]
  obtain ⟨hres, hstores⟩ := putOutcome_allocated (s.table.listOf key) key
  have hok : putRes s.table key v allocated ≠ -1 := by
    simp [putRes, hv, hres]
  obtain ⟨rc, reply, s', n, hrun, hwf, hmap, -, hanswer⟩ :=
    invokePut_run h (W := Unit) none clock (rfl : (putMessage key v).entry = _) hlen hfault ()
  obtain ⟨rfl, rfl⟩ := hanswer hok
  refine ⟨s', ?_, hwf, ?_⟩
  · rw [invoke_put _ _ rfl]
    simpa [sentTo] using hrun
  · rw [hmap]
    simp [putMap, putStores, hv, hix, hstores]

section Calls

variable (hsp : splits.Ok) {s : Server} (h : s.table.WF)

include hsp h

theorem rtablePut_exchange {key : CStr} (hk : Hashable key) {b : Block} (hb : b.Valid)
    (hreq : messageSize (putWire key b.content) ≤ 65535)
    (hrep : messageSize (putReply key b.content) ≤ 65535) :
    ∃ s', rtablePut (exchange codec clock splits) (some ⟨key, b⟩) s allocated
        = .ok ((0, s'), allocated) ∧ s'.table.map = s.table.map.insert key b.content := by
  have hv := hb.content_ne_nil
  have hlen := entry_le_messageSize (rfl : (putWire key b.content).entry = some ⟨key, b.content⟩)
  obtain ⟨s', hrun, -, hmap⟩ := invoke_put_allocated clock h hk hv (by dsimp only at hlen; omega)
  have hcall := exchange_reply codec clock hsp (content_putMessage key b.content allocated)
    (toMessageT_putWire key b.content) (fitsFrame_of codec rfl (show OP_PUT ≠ 0 by decide) hreq)
    hrun (show _ = Except.ok (putReply key b.content, allocated) from rfl)
    (fitsFrame_of codec rfl (show OP_PUT + 1 ≠ 0 by decide) hrep)
  have hpay : b.payload = pure b.content := payload_valid hb
  refine ⟨s', ?_, hmap⟩
  simp [rtablePut, hpay, hcall, acknowledged, WireMsg.toMessageT, putReply]

theorem rtableGet_exchange {key : CStr} (hk : Hashable key)
    (hreq : messageSize (keyWire OP_GET key) ≤ 65535)
    (hrep : messageSize (getReplyWire key (s.table.map.lookup key)) ≤ 65535) :
    ∃ s', rtableGet (exchange codec clock splits) (some key) s allocated
        = .ok (((s.table.map.lookup key).map Block.ofBytes, s'), allocated) ∧
      s'.table.map = s.table.map := by
  have hix : s.table.Indexes (keyMessage OP_GET key).key := h.indexes hk
  have hmf := fitsFrame_of codec rfl (show OP_GET ≠ 0 by decide) hreq
  cases hlookup : s.table.map.lookup key with
  | none =>
    rw [hlookup] at hrep
    have hcall := exchange_reply codec clock hsp (content_keyMessage OP_GET key allocated)
      (toMessageT_keyWire OP_GET key) hmf
      (by rw [invoke_get _ _ rfl]; exact invokeGet_missing h clock () hix hlookup)
      (show _ = Except.ok (getReplyWire key none, allocated) from rfl)
      (fitsFrame_of codec rfl (show OP_ERROR ≠ 0 by decide) hrep)
    refine ⟨s, ?_, rfl⟩
    have hop : OP_ERROR ≠ OP_GET + 1 := by decide
    simp [rtableGet, hcall, WireMsg.toMessageT, getReplyWire, hop]
  | some v =>
    rw [hlookup] at hrep
    have hv := h.lookup_ne_nil hlookup
    have hlen : v.length ≤ 65535 := (value_le_messageSize (getReplyWire key (some v))).trans hrep
    have hcall := exchange_reply codec clock hsp (content_keyMessage OP_GET key allocated)
      (toMessageT_keyWire OP_GET key) hmf
      (by rw [invoke_get _ _ rfl]; exact invokeGet_found h clock () hix hlookup)
      (show _ = Except.ok (getReplyWire key (some v), allocated) from rfl)
      (fitsFrame_of codec rfl (show OP_GET + 1 ≠ 0 by decide) hrep)
    have hcopy := copyReceivedValue_allocated hv (by omega)
    refine ⟨s.counted clock, ?_, rfl⟩
    simp [rtableGet, hcall, WireMsg.toMessageT, getReplyWire, hcopy]

theorem rtableDel_exchange {key : CStr} (hk : Hashable key)
    (hreq : messageSize (keyWire OP_DEL key) ≤ 65535)
    (hrep : messageSize (delReply key (key ∈ s.table.map)) ≤ 65535) :
    ∃ s', rtableDel (exchange codec clock splits) (some key) s allocated
        = .ok ((if key ∈ s.table.map then 0 else -1, s'), allocated) ∧
      s'.table.map = s.table.map.erase key := by
  have hix : s.table.Indexes (keyMessage OP_DEL key).key := h.indexes hk
  have hmf := fitsFrame_of codec rfl (show OP_DEL ≠ 0 by decide) hreq
  obtain ⟨reply, s', hrun, -, hmap, hfound, habsent⟩ :=
    invokeDel_run h (W := Unit) none clock hix allocated ()
  by_cases hmem : key ∈ s.table.map
  · have hreply := hfound hmem
    subst hreply
    rw [decide_eq_true hmem] at hrep
    have hcall := exchange_reply codec clock hsp (content_keyMessage OP_DEL key allocated)
      (toMessageT_keyWire OP_DEL key) hmf (by rw [invoke_del _ _ rfl]; exact hrun)
      (show _ = Except.ok (delReply key true, allocated) from rfl)
      (fitsFrame_of codec rfl (show OP_DEL + 1 ≠ 0 by decide) hrep)
    refine ⟨s', ?_, hmap⟩
    simp [rtableDel, hcall, acknowledged, WireMsg.toMessageT, delReply, hmem]
  · have hreply := habsent hmem
    subst hreply
    rw [decide_eq_false hmem] at hrep
    have hcall := exchange_reply codec clock hsp (content_keyMessage OP_DEL key allocated)
      (toMessageT_keyWire OP_DEL key) hmf (by rw [invoke_del _ _ rfl]; exact hrun)
      (show _ = Except.ok (delReply key false, allocated) from rfl)
      (fitsFrame_of codec rfl (show OP_ERROR ≠ 0 by decide) hrep)
    have hop : OP_ERROR ≠ OP_DEL + 1 := by decide
    refine ⟨s', ?_, hmap⟩
    simp [rtableDel, hcall, acknowledged, WireMsg.toMessageT, delReply, hmem, hop]

/-- The size as an `int` holds it. -/
theorem rtableSize_exchange :
    ∃ s', rtableSize (exchange codec clock splits) s allocated
        = .ok ((cint s.table.map.keys.card, s'), allocated) ∧ s'.table.map = s.table.map := by
  have hmf : FitsFrame codec.toCodec (bareWire OP_SIZE) :=
    fitsFrame_of codec rfl (show OP_SIZE ≠ 0 by decide) (by decide)
  rw [h.card_keys, ← tableSize_eq h]
  by_cases hsize : tableSize s.table = -1
  · have hrefuse : invoke none clock (bareMessage OP_SIZE) (s, ()) allocated
        = .ok (((-1, (bareMessage OP_SIZE).error), (s, ())), allocated) := by
      rw [invoke_size _ _ rfl, invokeSize, state_bind_ok sm_startRead, state_bind_ok state_get,
        state_bind_ok sm_endRead]
      simp [hsize]
    have hcall := exchange_refused codec clock hsp (content_bareMessage OP_SIZE allocated)
      (toMessageT_bareWire OP_SIZE) hmf hrefuse
    exact ⟨s, by simp [rtableSize, hcall, hsize], rfl⟩
  · have hcall := exchange_reply codec clock hsp (content_bareMessage OP_SIZE allocated)
      (toMessageT_bareWire OP_SIZE) hmf
      (by rw [invoke_size _ _ rfl]; exact invokeSize_run clock () hsize allocated)
      (show _ = Except.ok (sizeReply (tableSize s.table), allocated) from rfl)
      (fitsFrame_of codec rfl (show OP_SIZE + 1 ≠ 0 by decide) (sizeReply_fits _))
    refine ⟨s.counted clock, ?_, rfl⟩
    have hval := toInt_ofInt_tableSize h
    simp only [rtableSize, state_bind, hcall, ok_bind]
    simp [WireMsg.toMessageT, sizeReply, hval]

theorem rtableGetKeys_exchange (hrep : messageSize (keysReply s.table) ≤ 65535) :
    ∃ s', rtableGetKeys (exchange codec clock splits) s allocated
        = .ok ((some ((s.table.entries.map Entry.key).map some ++ [none]), s'), allocated) ∧
      s'.table.map = s.table.map := by
  have hmf : FitsFrame codec.toCodec (bareWire OP_GETKEYS) :=
    fitsFrame_of codec rfl (show OP_GETKEYS ≠ 0 by decide) (by decide)
  have hcount := keys_length_le_messageSize (keysReply s.table)
  have hn : s.table.entries.length ≤ 65535 := by
    simp only [keysReply, List.length_map] at hcount
    exact hcount.trans hrep
  have hcall := exchange_reply codec clock hsp (content_bareMessage OP_GETKEYS allocated)
    (toMessageT_bareWire OP_GETKEYS) hmf
    (by
      rw [invoke_getKeys _ _ rfl]
      exact invokeGetKeys_allocated h clock () (by rw [h.card_keys]; omega))
    (content_keysAnswer s.table) (fitsFrame_of codec rfl (show OP_GETKEYS + 1 ≠ 0 by decide) hrep)
  have hcopy := copyReceivedKeys_allocated (r := keysReply s.table)
    (by simp only [keysReply, List.length_map]; omega)
  refine ⟨s.counted clock, ?_, rfl⟩
  unfold rtableGetKeys
  rw [state_bind_ok hcall]
  exact state_lift_ok hcopy

theorem rtableGetTable_exchange (hrep : messageSize (tableReply s.table) ≤ 65535) :
    ∃ s', rtableGetTable (exchange codec clock splits) s allocated
        = .ok ((some (s.table.entries.map some ++ [none]), s'), allocated) ∧
      s'.table.map = s.table.map := by
  have hmf : FitsFrame codec.toCodec (bareWire OP_GETTABLE) :=
    fitsFrame_of codec rfl (show OP_GETTABLE ≠ 0 by decide) (by decide)
  have hn := tableReply_length_le hrep
  have hcall := exchange_reply codec clock hsp (content_bareMessage OP_GETTABLE allocated)
    (toMessageT_bareWire OP_GETTABLE) hmf
    (by
      rw [invoke_getTable _ _ rfl]
      exact invokeGetTable_allocated h clock () (by rw [h.card_keys]; omega))
    (content_tableAnswer s.table) (fitsFrame_of codec rfl (show OP_GETTABLE + 1 ≠ 0 by decide) hrep)
  refine ⟨s.counted clock, ?_, rfl⟩
  unfold rtableGetTable
  rw [state_bind_ok hcall]
  exact state_lift_ok (copyReceivedEntries_listing h hrep)

end Calls

/-- **Remote calls are map operations.** On every table reachable through
`invoke`, each stub function whose frames fit does what the finite map does; the
size is the one an `int` holds. -/
theorem remote_calls_are_map_operations (hsp : splits.Ok) {n : Int} (hn : 0 < n) {s : Server}
    (hs : Reached n s) :
    (∀ key b, key.SevenBit → b.Valid → messageSize (putWire key b.content) ≤ 65535 →
      messageSize (putReply key b.content) ≤ 65535 →
      ∃ s', rtablePut (exchange codec clock splits) (some ⟨key, b⟩) s allocated
          = .ok ((0, s'), allocated) ∧ s'.table.map = s.table.map.insert key b.content) ∧
    (∀ key, key.SevenBit → messageSize (keyWire OP_GET key) ≤ 65535 →
      messageSize (getReplyWire key (s.table.map.lookup key)) ≤ 65535 →
      ∃ s', rtableGet (exchange codec clock splits) (some key) s allocated
          = .ok (((s.table.map.lookup key).map Block.ofBytes, s'), allocated) ∧
        s'.table.map = s.table.map) ∧
    (∀ key, key.SevenBit → messageSize (keyWire OP_DEL key) ≤ 65535 →
      messageSize (delReply key (key ∈ s.table.map)) ≤ 65535 →
      ∃ s', rtableDel (exchange codec clock splits) (some key) s allocated
          = .ok ((if key ∈ s.table.map then 0 else -1, s'), allocated) ∧
        s'.table.map = s.table.map.erase key) ∧
    (∃ s', rtableSize (exchange codec clock splits) s allocated
        = .ok ((cint s.table.map.keys.card, s'), allocated) ∧ s'.table.map = s.table.map ∧
      (s.table.map.keys.card < 2 ^ 31 →
        cint s.table.map.keys.card = s.table.map.keys.card)) ∧
    (messageSize (keysReply s.table) ≤ 65535 → ∃ s' : Server, ∃ keys : List CStr,
      rtableGetKeys (exchange codec clock splits) s allocated
          = .ok ((some (keys.map some ++ [none]), s'), allocated) ∧
        s'.table.map = s.table.map ∧ keys.Nodup ∧ ∀ key, key ∈ keys ↔ key ∈ s.table.map) ∧
    (messageSize (tableReply s.table) ≤ 65535 → ∃ s' : Server, ∃ entries : List Entry,
      rtableGetTable (exchange codec clock splits) s allocated
          = .ok ((some (entries.map some ++ [none]), s'), allocated) ∧
        s'.table.map = s.table.map ∧ (entries.map Entry.key).Nodup ∧
        ∀ key v, s.table.map.lookup key = some v ↔ ⟨key, Block.ofBytes v⟩ ∈ entries) := by
  have h := hs.wf hn
  refine ⟨fun key b h7 hb hreq hrep => ?_, fun key h7 hreq hrep => ?_, fun key h7 hreq hrep => ?_,
    ?_, fun hrep => ?_, fun hrep => ?_⟩
  · have hk : Hashable key :=
      hashable_of_fits_entry (m := putWire key b.content) rfl h7 hreq
    exact rtablePut_exchange codec clock hsp h hk hb hreq hrep
  · have hk : Hashable key := hashable_of_fits (m := keyWire OP_GET key) h7 hreq
    exact rtableGet_exchange codec clock hsp h hk hreq hrep
  · have hk : Hashable key := hashable_of_fits (m := keyWire OP_DEL key) h7 hreq
    exact rtableDel_exchange codec clock hsp h hk hreq hrep
  · obtain ⟨s', hrun, hmap⟩ := rtableSize_exchange codec clock hsp h
    exact ⟨s', hrun, hmap, fun hlive => cint_of_lt (Int.natCast_nonneg _) (by omega)⟩
  · obtain ⟨s', hrun, hmap⟩ := rtableGetKeys_exchange codec clock hsp h hrep
    exact ⟨s', _, hrun, hmap, h.nodup_keys, fun key => mem_entries_keys⟩
  · obtain ⟨s', hrun, hmap⟩ := rtableGetTable_exchange codec clock hsp h hrep
    exact ⟨s', _, hrun, hmap, h.nodup_keys, fun key v => h.lookup_eq_some_iff⟩

/-! ## A table with more keys than an `int` counts -/

/-- No short transfers. -/
def noSplits : Splits := ⟨[], [], [], []⟩

theorem noSplits_ok : noSplits.Ok := by
  constructor <;> exact List.forall_mem_nil _

/-- The request that stores a one-byte value under a numbered key fits its frame. -/
theorem numberedPut_fits {i : Nat} (hi : i < 127 ^ 5) :
    messageSize (putWire (numberedKey i) [1]) ≤ 65535 := by
  have hop : varintFieldSize (int64Varint OP_PUT.toInt) = 2 := by decide
  have hct : varintFieldSize (int64Varint CT_ENTRY.toInt) = 2 := by decide
  have hzero : varintFieldSize (zigzag (0 : Int32).toInt) = 0 := by decide
  have hvalue : bytesFieldSize [(1 : Byte)] = 3 := by decide
  have hkey := bytesFieldSize_le ((numberedKey_length hi).trans (by omega))
  have hlen := numberedKey_length hi
  have hentry : delimitedSize (bytesFieldSize (numberedKey i).bytes + 3)
      ≤ 2 + (bytesFieldSize (numberedKey i).bytes + 3) := delimitedSize_le (by omega)
  have hempty : bytesFieldSize [] = 0 := rfl
  simp only [messageSize, putWire, WireMsg.init, entrySize, hop, hct, hzero, hvalue, hempty,
    Option.elim_some, Option.elim_none, emptyString, List.map_nil, List.sum_nil]
  omega

/-- Any number of such keys can be stored one after the other. -/
theorem reached_numberedKeys {k : Nat} (hk : k ≤ 127 ^ 5) :
    ∃ s, Reached 1 s ∧ ∀ key, key ∈ s.table.map ↔ ∃ i < k, key = numberedKey i := by
  induction k with
  | zero =>
    refine ⟨_, .create (tableCreate_allocated (by omega)), fun key => ?_⟩
    rw [map_replicate]
    simp [Finmap.notMem_empty]
  | succ k ih =>
    obtain ⟨s, hs, hkeys⟩ := ih (by omega)
    have h := hs.wf (by omega)
    have hfit := numberedPut_fits (i := k) (by omega)
    have hk : Hashable (numberedKey k) :=
      hashable_of_fits_entry (m := putWire (numberedKey k) [1]) rfl (numberedKey_sevenBit k) hfit
    obtain ⟨s', hrun, -, hinsert⟩ :=
      invoke_put_allocated noTime h hk (List.cons_ne_nil 1 []) (show 1 < 2 ^ 31 by omega)
    rw [← toMessageT_putWire] at hrun
    refine ⟨s', .request hs hfit hrun, fun key => ?_⟩
    rw [hinsert, Finmap.mem_insert, hkeys]
    constructor
    · rintro (rfl | ⟨i, hi, rfl⟩)
      · exact ⟨k, by omega, rfl⟩
      · exact ⟨i, by omega, rfl⟩
    · intro ⟨i, hi, hkey⟩
      by_cases hik : i = k
      · exact Or.inl (hik ▸ hkey)
      · exact Or.inr ⟨i, by omega, hkey⟩

/-- With 2^31 keys the `int` that carries the size has wrapped. -/
theorem size_wraps_at_2_pow_31 : ∃ s : Server, Reached 1 s ∧ ∃ size s',
    rtableSize (exchange protoCodec noTime noSplits) s allocated
      = .ok ((size, s'), allocated) ∧ size ≠ s.table.map.keys.card := by
  obtain ⟨s, hs, hkeys⟩ := reached_numberedKeys (k := 2 ^ 31) (by norm_num)
  have hcard : s.table.map.keys.card = 2 ^ 31 := by
    have himage : s.table.map.keys = (Finset.range (2 ^ 31)).image numberedKey := by
      ext key
      rw [Finmap.mem_keys, hkeys]
      simp only [Finset.mem_image, Finset.mem_range]
      exact ⟨fun ⟨i, hi, he⟩ => ⟨i, hi, he.symm⟩, fun ⟨i, hi, he⟩ => ⟨i, hi, he.symm⟩⟩
    rw [himage, Finset.card_image_of_injective _ numberedKey_injective, Finset.card_range]
  obtain ⟨s', hrun, -⟩ := rtableSize_exchange protoCodec noTime noSplits_ok (hs.wf (by omega))
  refine ⟨s, hs, _, s', hrun, ?_⟩
  rw [hcard]
  decide

/-- A server with two lists on which a client has stored `a`. -/
def oneStored : Server :=
  ⟨⟨[none, some ⟨1, [⟨keyA, Block.ofBytes [1]⟩]⟩], 2⟩, 0, 0, ⟨1, 0, 0⟩⟩

/-- Now `d` as well, in the other list. -/
def twoStored : Server :=
  ⟨⟨[some ⟨1, [⟨keyD, Block.ofBytes [2]⟩]⟩, some ⟨1, [⟨keyA, Block.ofBytes [1]⟩]⟩], 2⟩, 0, 0,
    ⟨2, 0, 0⟩⟩

theorem reached_twoStored : Reached 2 twoStored := by
  have hfitA : messageSize (putWire keyA [1]) ≤ 65535 := by decide
  have hfitD : messageSize (putWire keyD [2]) ≤ 65535 := by decide
  have hputA : invoke (W := Unit) none noTime (putMessage keyA [1])
      (⟨⟨[none, none], 2⟩, 0, 0, ⟨0, 0, 0⟩⟩, ()) allocated
      = .ok (((0, (putMessage keyA [1]).answer OP_PUT CT_NONE), (oneStored, ())), allocated) := rfl
  have hputD : invoke (W := Unit) none noTime (putMessage keyD [2]) (oneStored, ()) allocated
      = .ok (((0, (putMessage keyD [2]).answer OP_PUT CT_NONE), (twoStored, ())), allocated) := rfl
  rw [← toMessageT_putWire] at hputA hputD
  have hfresh : Reached 2 ⟨⟨[none, none], 2⟩, 0, 0, ⟨0, 0, 0⟩⟩ :=
    .create (tableCreate_allocated (by decide))
  exact (hfresh.request hfitA hputA).request hfitD hputD

/-- Short counts and interruptions at both ends. -/
def shortSplits : Splits := ⟨[.piece 1, .eintr], [.eintr, .piece 3], [.piece 2], [.piece 1, .eintr]⟩

theorem shortSplits_ok : shortSplits.Ok := by
  constructor <;> unfold Unfailing shortSplits <;> decide

/-- A PUT of a third key, a GET and a GETTABLE. -/
theorem remote_calls_are_map_operations_stored :
    (∃ s', rtablePut (exchange protoCodec noTime shortSplits) (some ⟨keyB, Block.ofBytes [3]⟩)
        twoStored allocated = .ok ((0, s'), allocated) ∧
      s'.table.map = twoStored.table.map.insert keyB [3]) ∧
    (∃ s', rtableGet (exchange protoCodec noTime shortSplits) (some keyA) twoStored allocated
        = .ok ((some (Block.ofBytes [1]), s'), allocated)) ∧
    ∃ (s' : Server) (entries : List Entry),
      rtableGetTable (exchange protoCodec noTime shortSplits) twoStored allocated
        = .ok ((some (entries.map some ++ [none]), s'), allocated) ∧
      (entries.map Entry.key).Nodup ∧
      (⟨keyA, Block.ofBytes [1]⟩ : Entry) ∈ entries ∧
      (⟨keyD, Block.ofBytes [2]⟩ : Entry) ∈ entries := by
  have hlookup : twoStored.table.map.lookup keyA = some [1] := rfl
  have hlookup' : twoStored.table.map.lookup keyD = some [2] := rfl
  obtain ⟨hput, hget, -, -, -, htable⟩ :=
    remote_calls_are_map_operations protoCodec noTime shortSplits_ok (by decide) reached_twoStored
  refine ⟨hput keyB (Block.ofBytes [3]) (by simp [keyB, CStr.SevenBit])
    (Block.ofBytes_valid (by decide)) (by decide) (by decide), ?_, ?_⟩
  · obtain ⟨s', hrun, -⟩ := hget keyA (by simp [keyA, CStr.SevenBit]) (by decide)
      (by rw [hlookup]; decide)
    rw [hlookup] at hrun
    exact ⟨s', hrun⟩
  · obtain ⟨s', entries, hrun, -, hnodup, hmem⟩ := htable (by decide)
    exact ⟨s', entries, hrun, hnodup, (hmem keyA [1]).mp hlookup, (hmem keyD [2]).mp hlookup'⟩

end KvStorage
