import KvStorage.Client.Remote

/-!
# The table of a server

What a connection thread does to its server's table, cut where `invoke` enters
and leaves the monitor: the body of the write section of a PUT or a DEL
(`Replica.write`) and the answer of a read (`Replica.answer`), both computed by
the functions of the skeleton on a run in which memory suffices.

`Replica` carries the representation invariant, `Key` and `Value` what a frame
of a well-behaved client can hold, so the bodies are total. What they do is
said once on the finite map; the models of the whole chain use nothing else
about tables.
-/

namespace KvStorage

open CLib Table

/-- A table with its representation invariant. -/
structure Replica where
  table : Table
  wf : table.WF

/-- The finite map a table represents. -/
def Replica.map (r : Replica) : KvMap := r.table.map

/-- A 7-bit key whose byte sum fits an `int`, as every one that came in a frame
(`hashable_of_fits`). -/
abbrev Key := { key : CStr // Hashable key }

/-- A value that is not empty and whose length fits an `int`. -/
abbrev Value := { v : List Byte // v ≠ [] ∧ v.length < 2 ^ 31 }

/-! ## Writes -/

/-- A request that changes the table. -/
inductive Write
  | put (key : Key) (value : Value)
  | del (key : Key)

namespace Write

/-- The request as the stub builds it. -/
def message : Write → MessageT
  | put key value => putMessage key.val value.val
  | del key => keyMessage OP_DEL key.val

/-- The write section of `invoke` up to the call on the successor: `res` or
`result`, and the table. -/
def writeSection (w : Write) (table : Table) : CM (Int × Table) :=
  match w with
  | put key value => do
    let (_, res, table) ← applyPut table ⟨some key.val, value.val⟩
    pure (res, table)
  | del key => tableRemove table key.val

/-- The reply that follows the write section; none where `invoke` returns -1. -/
def reply (w : Write) (res : Int) : Option WireMsg :=
  match w with
  | put key value => if res = -1 then none else some (putReply key.val value.val)
  | del key => some (delReply key.val (res = 0))

/-- The write on a finite map. -/
def onMap (w : Write) (M : KvMap) : KvMap :=
  match w with
  | put key value => M.insert key.val value.val
  | del key => M.erase key.val

/-- Its reply, by the map it meets. -/
def replyOn (w : Write) (M : KvMap) : WireMsg :=
  match w with
  | put key value => putReply key.val value.val
  | del key => delReply key.val (key.val ∈ M)

theorem writeSection_allocated (w : Write) {t : Table} (h : t.WF) :
    ∃ res t', w.writeSection t allocated = .ok ((res, t'), allocated) ∧ t'.WF ∧
      t'.map = w.onMap t.map ∧ w.reply res = some (w.replyOn t.map) := by
  cases w with
  | put key value =>
    obtain ⟨hv, hlen⟩ := value.property
    have hix := h.indexes key.property
    have hfault : putFaults t key.val value.val allocated = false := by
      simp [putFaults, hix]
    obtain ⟨hres, hstores⟩ := putOutcome_allocated (t.listOf key.val) key.val
    obtain ⟨t', n, hrun, hwf, -, hmap, -⟩ := applyPut_outcome h key.val hlen hfault
    have hres' : putRes t key.val value.val allocated = 0 := by
      simp [putRes, hv, hres]
    refine ⟨0, t', ?_, hwf, ?_, ?_⟩
    · show (applyPut t ⟨some key.val, value.val⟩ >>= _) allocated = _
      rw [run_bind_ok hrun, hres']
      rfl
    · rw [hmap]
      simp [onMap, putMap, putStores, hv, hix, hstores]
    · simp [reply, replyOn]
  | del key =>
    obtain ⟨r, t', hrun, hwf, -, hmap, hres⟩ :=
      tableRemove_run h (h.indexes key.property) allocated
    refine ⟨r, t', hrun, hwf, hmap, ?_⟩
    simp only [reply, replyOn, hres]

end Write

namespace Replica

/-- The write section on a replica. -/
def write (r : Replica) (w : Write) : Int × Replica :=
  match hrun : w.writeSection r.table allocated with
  | .ok ((res, t), _) => (res, ⟨t, by
      obtain ⟨res', t', hrun', hwf, -⟩ := w.writeSection_allocated r.wf
      rw [hrun] at hrun'
      cases hrun'
      exact hwf⟩)
  | .error _ => (-1, r)

theorem write_eq (r : Replica) (w : Write) : ∃ al,
    w.writeSection r.table allocated = .ok (((r.write w).1, (r.write w).2.table), al) := by
  obtain ⟨res, t, hrun, -⟩ := w.writeSection_allocated r.wf
  refine ⟨allocated, ?_⟩
  unfold write
  split
  next res' t' al' hrun' =>
    rw [hrun] at hrun'
    cases hrun'
    exact hrun
  next e hrun' =>
    rw [hrun] at hrun'
    cases hrun'

@[simp] theorem write_map (r : Replica) (w : Write) : (r.write w).2.map = w.onMap r.map := by
  obtain ⟨al, heq⟩ := r.write_eq w
  obtain ⟨res, t, hrun, -, hmap, -⟩ := w.writeSection_allocated r.wf
  rw [hrun] at heq
  cases heq
  exact hmap

@[simp] theorem reply_write (r : Replica) (w : Write) :
    w.reply (r.write w).1 = some (w.replyOn r.map) := by
  obtain ⟨al, heq⟩ := r.write_eq w
  obtain ⟨res, t, hrun, -, -, hreply⟩ := w.writeSection_allocated r.wf
  rw [hrun] at heq
  cases heq
  exact hreply

/-- Undisturbed, and on a server without a successor, `invoke` does what the
section does and answers what `reply` says. -/
theorem invoke_write (r : Replica) (w : Write) (clock : Timeval × Timeval) {s : Server}
    (hs : s.table = r.table) : ∃ reply s',
    invoke (W := Unit) none clock w.message (s, ()) allocated
      = .ok (((0, reply), (s', ())), allocated) ∧
    s'.table.map = (r.write w).2.map ∧
    reply.content allocated = .ok (w.replyOn r.map, allocated) := by
  have h : s.table.WF := hs ▸ r.wf
  rw [write_map]
  cases w with
  | put key value =>
    obtain ⟨hv, hlen⟩ := value.property
    have hix := h.indexes key.property
    have hfault : putFaults s.table key.val value.val allocated = false := by
      simp [putFaults, hix]
    obtain ⟨hres, hstores⟩ := putOutcome_allocated (s.table.listOf key.val) key.val
    obtain ⟨rc, reply, s', n, hrun, -, hmap, -, hanswer⟩ :=
      invokePut_run h (W := Unit) none clock (rfl : (putMessage key.val value.val).entry = _)
        hlen hfault ()
    obtain ⟨rfl, rfl⟩ := hanswer (by simp [putRes, hv, hres])
    refine ⟨(putMessage key.val value.val).answer OP_PUT CT_NONE, s', ?_, ?_, rfl⟩
    · rw [Write.message, invoke_put _ _ rfl]
      exact hrun
    · rw [hmap, map, ← hs]
      simp [Write.onMap, putMap, putStores, hv, hix, hstores]
  | del key =>
    have hix : s.table.Indexes (keyMessage OP_DEL key.val).key := h.indexes key.property
    obtain ⟨reply, s', hrun, -, hmap, hfound, habsent⟩ :=
      invokeDel_run h (W := Unit) none clock hix allocated ()
    refine ⟨reply, s', ?_, ?_, ?_⟩
    · rw [Write.message, invoke_del _ _ rfl]
      exact hrun
    · rw [hmap, map, ← hs]
      rfl
    · show _ = Except.ok (delReply key.val (key.val ∈ r.table.map), allocated)
      rw [← hs]
      by_cases hmem : key.val ∈ s.table.map
      · rw [hfound hmem, decide_eq_true hmem]
        rfl
      · rw [habsent hmem, decide_eq_false hmem]
        rfl

end Replica

/-! ## Reads -/

/-- A request that leaves the table as it is. -/
inductive Query
  | get (key : Key)
  | size
  | getKeys
  | getTable

/-- The request as the stub builds it. -/
def Query.message : Query → MessageT
  | .get key => keyMessage OP_GET key.val
  | .size => bareMessage OP_SIZE
  | .getKeys => bareMessage OP_GETKEYS
  | .getTable => bareMessage OP_GETTABLE

namespace Replica

/-- What `invoke` answers to a read on this table; none where it returns -1 and
the connection is closed. -/
def answer (r : Replica) (q : Query) : Option WireMsg :=
  match invoke (W := Unit) none noTime q.message (⟨r.table, 0, 0, ⟨0, 0, 0⟩⟩, ()) allocated with
  | .ok (((rc, reply), _), _) =>
    if rc = -1 then none
    else
      match reply.content allocated with
      | .ok (m, _) => some m
      | .error _ => none
  | .error _ => none

theorem answer_of {r : Replica} {q : Query} {reply : MessageT} {s : Server} {m : WireMsg}
    (hrun : invoke (W := Unit) none noTime q.message (⟨r.table, 0, 0, ⟨0, 0, 0⟩⟩, ()) allocated
      = .ok (((0, reply), (s, ())), allocated))
    (hm : reply.content allocated = .ok (m, allocated)) : r.answer q = some m := by
  unfold answer
  rw [hrun]
  dsimp only
  rw [if_neg (by omega), hm]

theorem answer_get (r : Replica) (key : Key) :
    r.answer (.get key) = some (getReplyWire key.val (r.map.lookup key.val)) := by
  have hix : r.table.Indexes (keyMessage OP_GET key.val).key := r.wf.indexes key.property
  cases hlookup : r.map.lookup key.val with
  | none =>
    refine answer_of (s := ⟨r.table, 0, 0, ⟨0, 0, 0⟩⟩) ?_
      (show ((keyMessage OP_GET key.val).error).content allocated = _ from rfl)
    rw [Query.message, invoke_get _ _ rfl]
    exact invokeGet_missing r.wf noTime () hix hlookup
  | some v =>
    refine answer_of (s := Server.counted ⟨r.table, 0, 0, ⟨0, 0, 0⟩⟩ noTime) ?_
      (show ({ (keyMessage OP_GET key.val).answer OP_GET CT_VALUE with value := v } :
        MessageT).content allocated = _ from rfl)
    rw [Query.message, invoke_get _ _ rfl]
    exact invokeGet_found r.wf noTime () hix hlookup

theorem answer_size (r : Replica) : r.answer .size
    = if cint r.map.keys.card = -1 then none else some (sizeReply (cint r.map.keys.card)) := by
  have hsize : tableSize r.table = cint r.map.keys.card := by
    rw [tableSize_eq r.wf, map, r.wf.card_keys]
  rw [← hsize]
  by_cases h : tableSize r.table = -1
  · rw [if_pos h]
    unfold answer
    rw [Query.message, invoke_size _ _ rfl, invokeSize, state_bind_ok sm_startRead,
      state_bind_ok state_get, state_bind_ok sm_endRead]
    simp [h]
  · rw [if_neg h]
    refine answer_of (s := Server.counted ⟨r.table, 0, 0, ⟨0, 0, 0⟩⟩ noTime) ?_
      (show ({ (bareMessage OP_SIZE).answer OP_SIZE CT_RESULT with
        result := Int32.ofInt (tableSize r.table) } : MessageT).content allocated = _ from rfl)
    rw [Query.message, invoke_size _ _ rfl]
    exact invokeSize_run noTime () h allocated

theorem card_lt_of_keys_fit {t : Table} (h : t.WF) (hfit : messageSize (keysReply t) ≤ 65535) :
    t.map.keys.card < 2 ^ 31 := by
  have hcount := keys_length_le_messageSize (keysReply t)
  simp only [keysReply, List.length_map] at hcount hfit
  rw [h.card_keys]
  omega

theorem card_lt_of_table_fits {t : Table} (h : t.WF) (hfit : messageSize (tableReply t) ≤ 65535) :
    t.map.keys.card < 2 ^ 31 := by
  have hcount := tableReply_length_le hfit
  rw [h.card_keys]
  omega

theorem answer_getKeys (r : Replica) (hfit : messageSize (keysReply r.table) ≤ 65535) :
    r.answer .getKeys = some (keysReply r.table) := by
  refine answer_of (s := Server.counted ⟨r.table, 0, 0, ⟨0, 0, 0⟩⟩ noTime) ?_
    (content_keysAnswer r.table)
  rw [Query.message, invoke_getKeys _ _ rfl]
  exact invokeGetKeys_allocated r.wf noTime () (card_lt_of_keys_fit r.wf hfit)

theorem answer_getTable (r : Replica) (hfit : messageSize (tableReply r.table) ≤ 65535) :
    r.answer .getTable = some (tableReply r.table) := by
  refine answer_of (s := Server.counted ⟨r.table, 0, 0, ⟨0, 0, 0⟩⟩ noTime) ?_
    (content_tableAnswer r.table)
  rw [Query.message, invoke_getTable _ _ rfl]
  exact invokeGetTable_allocated r.wf noTime () (card_lt_of_table_fits r.wf hfit)

end Replica

/-! ## An empty table and a first write -/

/-- An empty table of `k + 1` lists. -/
def emptyReplica (k : Nat) : Replica where
  table := ⟨List.replicate ((k : Int) + 1).toNat none, k + 1⟩
  wf := wf_replicate (by omega)

theorem map_emptyReplica (k : Nat) : (emptyReplica k).map = ∅ := map_replicate _ _

theorem oneByte_ok : ([1] : List Byte) ≠ [] ∧ ([1] : List Byte).length < 2 ^ 31 :=
  ⟨List.cons_ne_nil 1 [], show 1 < 2 ^ 31 by omega⟩

/-- A PUT of a one-byte value. -/
def putA : Write := .put ⟨keyA, hashable_keyA⟩ ⟨[1], oneByte_ok⟩

/-- The same under another key. -/
def putB : Write := .put ⟨keyB, hashable_keyB⟩ ⟨[1], oneByte_ok⟩

end KvStorage
