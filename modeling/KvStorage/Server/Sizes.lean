import KvStorage.Server.Requests

/-!
# What a PUT that fits brings with it

A reply is built in the request's own structure and echoes its fields: the reply to a PUT
still carries the entry, the reply to a GET still carries the key. If the PUT of a key and a
value fits the two-byte header, so do its reply, the PUT sent on to the successor, the GET of
that key and the reply that brings the value back (`put_fits_travels`). The nested length
prefix of the entry pays for the fields outside it.
-/

namespace KvStorage

open CLib Table ProtoWire SortedMap

variable {W : Type}

/-! ## The sizes -/

/-- The size of the fields behind the opcode and the content type. -/
def fieldsSize (m : WireMsg) : Nat :=
  (m.entry.elim 0 fun e => delimitedSize (entrySize e))
    + bytesFieldSize m.key.bytes
    + bytesFieldSize m.value
    + varintFieldSize (zigzag m.result.toInt)
    + (m.keys.map fun k => delimitedSize k.bytes.length).sum
    + (m.entries.map fun e => delimitedSize (entrySize e)).sum
    + (m.stats.elim 0 fun s => delimitedSize (statisticsSize s))

/-- A number that takes two bytes with its tag, as every opcode and content type does. -/
def Short (x : Int32) : Prop := int64Varint x.toInt ≠ 0 ∧ int64Varint x.toInt < 128

instance (x : Int32) : Decidable (Short x) := inferInstanceAs (Decidable (_ ∧ _))

theorem Short.size {x : Int32} (h : Short x) : varintFieldSize (int64Varint x.toInt) = 2 := by
  unfold varintFieldSize
  rw [if_neg h.1, varintSize_of_lt h.2]

theorem messageSize_eq {m : WireMsg} (hop : Short m.opcode) (hct : Short m.cType) :
    messageSize m = 4 + fieldsSize m := by
  have hopcode := hop.size
  have hcType := hct.size
  unfold messageSize fieldsSize
  omega

theorem fieldsSize_putWire (key : CStr) (value : List Byte) :
    fieldsSize (putWire key value)
      = delimitedSize (bytesFieldSize key.bytes + bytesFieldSize value) := rfl

/-- The reply to a GET: key and value side by side. -/
def valueWire (key : CStr) (value : List Byte) : WireMsg :=
  { keyWire OP_GET key with opcode := OP_GET + 1, cType := CT_VALUE, value := value }

theorem fieldsSize_valueWire (key : CStr) (value : List Byte) :
    fieldsSize (valueWire key value) = bytesFieldSize key.bytes + bytesFieldSize value := by
  unfold fieldsSize
  simp [valueWire, keyWire, WireMsg.init, varintFieldSize, zigzag]

theorem fieldsSize_keyWire (key : CStr) :
    fieldsSize (keyWire OP_GET key) = bytesFieldSize key.bytes := by
  have hnil : bytesFieldSize [] = 0 := rfl
  unfold fieldsSize
  simp [keyWire, WireMsg.init, varintFieldSize, zigzag, hnil]

/-- Side by side they take less than inside an entry. -/
theorem valueWire_le_putWire (key : CStr) (value : List Byte) :
    fieldsSize (valueWire key value) ≤ fieldsSize (putWire key value) := by
  rw [fieldsSize_valueWire, fieldsSize_putWire]
  unfold delimitedSize
  omega

theorem keyWire_le_putWire (key : CStr) (value : List Byte) :
    fieldsSize (keyWire OP_GET key) ≤ fieldsSize (putWire key value) := by
  have hle := valueWire_le_putWire key value
  rw [fieldsSize_valueWire] at hle
  rw [fieldsSize_keyWire]
  omega

/-- The packed message is one the two-byte header announces. -/
def FitsHeader (K : MessageCodec) (m : MessageT) : Prop :=
  ∃ w, (∀ al, m.content al = .ok (w, al)) ∧ K.getPackedSize w ≤ 65535

/-- A message with fewer bytes of fields than a PUT that fits. -/
theorem fitsHeader_of_le {K : MessageCodec} {m : MessageT} (w : WireMsg) {put : WireMsg}
    (hm : ∀ al, m.content al = .ok (w, al)) (hop : Short w.opcode) (hct : Short w.cType)
    (hput : Short put.opcode ∧ Short put.cType) (hle : fieldsSize w ≤ fieldsSize put)
    (hfit : K.getPackedSize put ≤ 65535) : FitsHeader K m := by
  refine ⟨w, hm, ?_⟩
  rw [K.getPackedSize_eq, messageSize_eq hput.1 hput.2] at hfit
  rw [K.getPackedSize_eq, messageSize_eq hop hct]
  omega

theorem putWire_short (key : CStr) (value : List Byte) :
    Short (putWire key value).opcode ∧ Short (putWire key value).cType :=
  ⟨(by decide : Short OP_PUT), (by decide : Short CT_ENTRY)⟩

/-! ## The requests that are sent -/

/-- A server behind a handle, with the requests it was sent. -/
def recording (f : MessageT → W → Option MessageT × W) (msg : MessageT)
    (x : W × List MessageT) : Option MessageT × (W × List MessageT) :=
  ((f msg x.1).1, ((f msg x.1).2, x.2 ++ [msg]))

/-- A forwarded PUT is the request itself, once or not at all. -/
theorem forwardPut_sends (f : MessageT → W → Option MessageT × W) (key : CStr)
    {dados : Option Block} {value : List Byte}
    (hdados : ∀ b, dados = some b → b = Block.ofBytes value) {s s' : Server}
    {x x' : W × List MessageT} {al al' : Allocs}
    (hrun : forwardPut (some (answering (recording f))) (some key) dados (s, x) al
      = .ok (((), (s', x')), al')) :
    x'.2 = x.2 ∨ x'.2 = x.2 ++ [putMessage key value] := by
  unfold forwardPut at hrun
  dsimp only at hrun
  cases dados with
  | none =>
    have hentry : entryCreate (some key) none al = .ok (none, al) := rfl
    rw [state_bind_ok (state_lift_ok hentry)] at hrun
    cases hrun
    exact Or.inl rfl
  | some b =>
    rw [hdados b rfl, state_bind_ok (state_lift_ok (entryCreate_run ..)), state_discard,
      sm_forward] at hrun
    split at hrun
    next =>
      rw [rtablePut_answering] at hrun
      cases hrun
      exact Or.inr rfl
    next =>
      cases hrun
      exact Or.inl rfl

theorem rtableGet_sends {f : MessageT → W → Option MessageT × W} {key : CStr} {w w' : W}
    {sent : List MessageT} {block : Option Block} {al al' : Allocs}
    (hrun : rtableGet (answering (recording f)) (some key) (w, []) al
      = .ok ((block, (w', sent)), al')) : sent = [keyMessage OP_GET key] := by
  unfold rtableGet at hrun
  dsimp only at hrun
  rw [state_bind_ok (answering_run ..)] at hrun
  dsimp only [recording] at hrun
  cases hreply : (f (keyMessage OP_GET key) w).1 with
  | none =>
    rw [hreply] at hrun
    cases hrun
    rfl
  | some receivedMsg =>
    rw [hreply] at hrun
    dsimp only at hrun
    split at hrun
    next =>
      cases hrun
      rfl
    next =>
      obtain ⟨-, hx⟩ := state_lift_eq_ok.mp hrun
      cases hx
      rfl

/-- What `table_get` returns are the bytes stored under the key. -/
theorem tableGet_inv {t : Table} (h : t.WF) {key : CStr} {b : Block} {al al' : Allocs}
    (hrun : tableGet t key al = .ok (some b, al')) :
    ∃ v, t.map.lookup key = some v ∧ b = Block.ofBytes v := by
  by_cases hk : t.Indexes key
  · have hlookup := h.lookup_map key
    unfold tableGet at hrun
    simp only [run_bind, h.arrayGet_hash hk, run_pure, ok_bind] at hrun
    cases hlist : t.listOf key with
    | none =>
      rw [hlist] at hrun
      cases hrun
    | some lista =>
      have hs := (h.good lista (h.listOf_mem hlist)).sorted
      rw [hlist] at hrun hlookup
      rw [nodesOf, ← search_eq_lookup Entry.key Entry.bytes hs] at hlookup
      dsimp only at hrun
      rw [listGet, getNode_eq_search] at hrun
      cases hsearch : search Entry.key key lista.nodes with
      | none =>
        rw [hsearch] at hrun
        cases hrun
      | some e =>
        obtain ⟨v, hv, hblock⟩ := h.stored_of_mem hlist e (search_mem Entry.key hsearch).1
        rw [hsearch] at hrun hlookup
        dsimp only at hrun
        rw [hblock, blockDuplicate_run (Block.ofBytes_valid hv), Block.content_ofBytes] at hrun
        refine ⟨v, ?_, ?_⟩
        · rw [hlookup, Option.map_some, Entry.bytes, hblock, Block.content_ofBytes]
        · split at hrun
          next =>
            split at hrun
            next =>
              cases hrun
              rfl
            next => cases hrun
          next => cases hrun
  · have hfault : arrayGet t.lists (hashValue key t.size) = throw .outOfBounds := if_neg hk
    unfold tableGet at hrun
    rw [hfault] at hrun
    cases hrun

/-- A GET is answered with the stored value or refused. -/
theorem invokeGet_inv {clock : Timeval × Timeval} {msg reply : MessageT} {s s' : Server}
    {w w' : W} {rc : Int} {al al' : Allocs} (h : s.table.WF) {v : List Byte}
    (hv : s.table.map.lookup msg.key = some v)
    (hrun : invokeGet clock msg (s, w) al = .ok (((rc, reply), (s', w')), al')) :
    reply = msg.error ∨ reply = { msg.answer OP_GET CT_VALUE with value := v } := by
  unfold invokeGet at hrun
  rw [state_bind_ok sm_startRead, state_bind_ok state_get, state_bind, bind_eq_ok] at hrun
  obtain ⟨⟨⟨block, x⟩, al₁⟩, hlift, hrun⟩ := hrun
  obtain ⟨hget, rfl⟩ := state_lift_eq_ok.mp hlift
  dsimp only at hget hrun
  rw [state_bind_ok sm_endRead] at hrun
  cases block with
  | none =>
    cases hrun
    exact Or.inl rfl
  | some block =>
    obtain ⟨v', hv', rfl⟩ := tableGet_inv h hget
    rw [hv] at hv'
    cases hv'
    have hreply : getReply msg (Block.ofBytes v) al₁
        = .ok (if al₁ 0 then (0, { msg.answer OP_GET CT_VALUE with value := v })
            else (-1, msg.error), fun i => al₁ (i + 1)) := by
      unfold getReply
      rw [payload_ofBytes]
      by_cases h0 : al₁ 0 <;> simp [h0]
    dsimp only at hrun
    rw [state_bind_ok (state_lift_ok hreply)] at hrun
    by_cases h0 : al₁ 0
    · rw [if_pos h0] at hrun
      dsimp only at hrun
      rw [if_pos rfl, state_bind_ok (sm_recordOperation _)] at hrun
      cases hrun
      exact Or.inr rfl
    · rw [if_neg h0] at hrun
      cases hrun
      exact Or.inl rfl

/-! ## The five messages -/

/-- Everything a PUT of this key and value brings with it fits the header: its reply, which still
carries the entry; the request sent on, which is the same one; the GET of the key; and the reply
with the value, which still carries the key. -/
structure Travels (K : MessageCodec) (key : CStr) (value : List Byte) : Prop where
  putReply : ∀ (W : Type) (next : Option (Remote W)) (clock : Timeval × Timeval) (s s' : Server)
    (w w' : W) (rc : Int) (reply : MessageT) (al al' : Allocs),
    invoke next clock (putMessage key value) (s, w) al = .ok (((rc, reply), (s', w')), al') →
      (rc = -1 ∧ reply = (putMessage key value).error ∨
        rc = 0 ∧ reply = (putMessage key value).answer OP_PUT CT_NONE) ∧ FitsHeader K reply
  forwarded : ∀ (W : Type) (f : MessageT → W → Option MessageT × W) (clock : Timeval × Timeval)
    (s s' : Server) (w w' : W) (sent : List MessageT) (rc : Int) (reply : MessageT)
    (al al' : Allocs),
    invoke (some (answering (recording f))) clock (putMessage key value) (s, (w, [])) al
        = .ok (((rc, reply), (s', (w', sent))), al') →
      (s.table.WF →
        sent = if putSends s.table key value al then [putMessage key value] else []) ∧
      ∀ msg ∈ sent, msg = putMessage key value ∧ FitsHeader K msg
  get : ∀ (W : Type) (f : MessageT → W → Option MessageT × W) (w w' : W) (sent : List MessageT)
    (block : Option Block) (al al' : Allocs),
    rtableGet (answering (recording f)) (some key) (w, []) al
        = .ok ((block, (w', sent)), al') →
      sent = [keyMessage OP_GET key] ∧ ∀ msg ∈ sent, FitsHeader K msg
  getReply : ∀ (W : Type) (next : Option (Remote W)) (clock : Timeval × Timeval) (n : Int)
    (s s' : Server) (w w' : W) (rc : Int) (reply : MessageT) (al al' : Allocs),
    Served n s → s.table.map.lookup key = some value →
    invoke next clock (keyMessage OP_GET key) (s, w) al = .ok (((rc, reply), (s', w')), al') →
      (reply = (keyMessage OP_GET key).error ∨
        reply = { (keyMessage OP_GET key).answer OP_GET CT_VALUE with value := value }) ∧
      FitsHeader K reply

/-- The reply to a PUT has the size of the request. -/
theorem put_reply_fits {K : MessageCodec} {key : CStr} {value : List Byte}
    (hfit : K.getPackedSize (putWire key value) ≤ 65535) {next : Option (Remote W)}
    {clock : Timeval × Timeval} {s s' : Server} {w w' : W} {rc : Int} {reply : MessageT}
    {al al' : Allocs}
    (hrun : invoke next clock (putMessage key value) (s, w) al
      = .ok (((rc, reply), (s', w')), al')) :
    (rc = -1 ∧ reply = (putMessage key value).error ∨
      rc = 0 ∧ reply = (putMessage key value).answer OP_PUT CT_NONE) ∧ FitsHeader K reply := by
  rw [invoke_put _ _ rfl] at hrun
  obtain ⟨e, dados, res, al₁, s₁, s₂, al₂, -, -, -, ⟨-, hrc, hreply⟩ | ⟨-, hrc, hreply⟩⟩ :=
    invokePut_inv hrun
  · refine ⟨Or.inl ⟨hrc, hreply⟩, ?_⟩
    rw [hreply]
    exact fitsHeader_of_le { putWire key value with opcode := OP_ERROR, cType := CT_NONE }
      (fun _ => rfl) (by decide : Short OP_ERROR) (by decide : Short CT_NONE)
      (putWire_short key value) le_rfl hfit
  · refine ⟨Or.inr ⟨hrc, hreply⟩, ?_⟩
    rw [hreply]
    exact fitsHeader_of_le { putWire key value with opcode := OP_PUT + 1, cType := CT_NONE }
      (fun _ => rfl) (by decide : Short (OP_PUT + 1)) (by decide : Short CT_NONE)
      (putWire_short key value) le_rfl hfit

theorem length_value_of_fits {K : MessageCodec} {key : CStr} {value : List Byte}
    (hfit : K.getPackedSize (putWire key value) ≤ 65535) : value.length ≤ 65535 := by
  rw [K.getPackedSize_eq] at hfit
  have hentry : (putWire key value).entry = some ⟨key, value⟩ := rfl
  have hle := entry_le_messageSize hentry
  dsimp only at hle
  omega

/-- Once, where there is memory for the block and for the entry. -/
theorem forwarded_once {key : CStr} {value : List Byte} (hlen : value.length < 2 ^ 31)
    {f : MessageT → W → Option MessageT × W} {clock : Timeval × Timeval} {s s' : Server}
    (h : s.table.WF) {w w' : W} {sent : List MessageT} {rc : Int} {reply : MessageT}
    {al al' : Allocs}
    (hrun : invoke (some (answering (recording f))) clock (putMessage key value) (s, (w, [])) al
      = .ok (((rc, reply), (s', (w', sent))), al')) :
    sent = if putSends s.table key value al then [putMessage key value] else [] := by
  have hentry : (putMessage key value).entry = some ⟨some key, value⟩ := rfl
  rw [invoke_put _ _ rfl] at hrun
  cases hok : putFaults s.table key value al with
  | false =>
    obtain ⟨rc', reply', s'', n, hrun', -⟩ :=
      invokePut_run h (some (recording f)) clock hentry hlen hok (w, [])
    rw [Option.map_some, hrun] at hrun'
    have hstate := congrArg (fun x => x.1.2.2.2) (Except.ok.inj hrun')
    dsimp only at hstate
    rw [hstate]
    split
    next => rfl
    next => rfl
  | true =>
    have hfault := invokePut_fault (some (recording f)) clock hentry hlen hok (w, [])
    rw [Option.map_some, hrun] at hfault
    cases hfault

theorem forwarded_fits {K : MessageCodec} {key : CStr} {value : List Byte}
    (hfit : K.getPackedSize (putWire key value) ≤ 65535)
    {f : MessageT → W → Option MessageT × W} {clock : Timeval × Timeval} {s s' : Server} {w w' : W}
    {sent : List MessageT} {rc : Int} {reply : MessageT} {al al' : Allocs}
    (hrun : invoke (some (answering (recording f))) clock (putMessage key value) (s, (w, [])) al
      = .ok (((rc, reply), (s', (w', sent))), al')) :
    ∀ msg ∈ sent, msg = putMessage key value ∧ FitsHeader K msg := by
  have hlen := length_value_of_fits hfit
  rw [invoke_put _ _ rfl] at hrun
  obtain ⟨e, dados, res, al₁, s₁, s₂, al₂, hentry, happly, hforward, -⟩ := invokePut_inv hrun
  cases hentry
  have hdados : ∀ b, dados = some b → b = Block.ofBytes value := by
    rintro b rfl
    rw [(applyPut_block happly).1]
    dsimp only
    rw [cint_of_lt (by omega) (by omega), Block.ofBytes]
  intro msg hmsg
  rcases forwardPut_sends f key hdados hforward with hsent | hsent
  · dsimp only at hsent
    rw [hsent] at hmsg
    cases hmsg
  · dsimp only at hsent
    rw [hsent, List.nil_append, List.mem_singleton] at hmsg
    exact ⟨hmsg, putWire key value, hmsg ▸ content_putMessage key value, hfit⟩

/-- **What can be put can be read back and replicated.** -/
theorem put_fits_travels (K : MessageCodec) {key : CStr} {value : List Byte}
    {f : MessageT → W → Option MessageT × W} {w w' : W} {rc : Int} {request : MessageT}
    {al al' : Allocs}
    (hput : rtablePut (answering (recording f)) (some ⟨key, Block.ofBytes value⟩) (w, []) al
      = .ok ((rc, (w', [request])), al'))
    (hfit : FitsHeader K request) : Travels K key value := by
  have hfit' : K.getPackedSize (putWire key value) ≤ 65535 := by
    rw [rtablePut_answering] at hput
    obtain ⟨m, hcontent, hsize⟩ := hfit
    cases hput
    have heq := hcontent allocated
    rw [content_putMessage] at heq
    cases heq
    exact hsize
  constructor
  case putReply => exact fun _ _ _ _ _ _ _ _ _ _ _ hrun => put_reply_fits hfit' hrun
  case forwarded =>
    intro W f clock s s' w w' sent rc reply al al' hrun
    have hlen := length_value_of_fits hfit'
    exact ⟨fun h => forwarded_once (by omega) h hrun, forwarded_fits hfit' hrun⟩
  case get =>
    intro W f w w' sent block al al' hrun
    have hsent := rtableGet_sends hrun
    refine ⟨hsent, fun msg hmsg => ?_⟩
    rw [hsent, List.mem_singleton] at hmsg
    rw [hmsg]
    exact fitsHeader_of_le (keyWire OP_GET key) (content_keyMessage OP_GET key)
      (by decide : Short OP_GET) (by decide : Short CT_KEY)
      (putWire_short key value) (keyWire_le_putWire key value) hfit'
  case getReply =>
    intro W next clock n s s' w w' rc reply al al' hs hv hrun
    rw [invoke_get _ _ rfl] at hrun
    have hreply := invokeGet_inv hs.wf hv hrun
    refine ⟨hreply, ?_⟩
    rcases hreply with rfl | rfl
    · exact fitsHeader_of_le { keyWire OP_GET key with opcode := OP_ERROR, cType := CT_NONE }
        (fun _ => rfl) (by decide : Short OP_ERROR) (by decide : Short CT_NONE)
        (putWire_short key value) (keyWire_le_putWire key value) hfit'
    · exact fitsHeader_of_le (valueWire key value) (fun _ => rfl)
        (by decide : Short (OP_GET + 1)) (by decide : Short CT_VALUE)
        (putWire_short key value) (valueWire_le_putWire key value) hfit'

/-- A PUT of one byte under one character, to a server that never answers. -/
theorem put_fits_travels_single : Travels protoCodec ⟨[97], by decide⟩ [1] :=
  put_fits_travels protoCodec
    (rtablePut_answering (recording fun _ w => (none, w)) ⟨[97], by decide⟩ [1] ((), []) allocated)
    ⟨putWire ⟨[97], by decide⟩ [1], content_putMessage _ _, by decide⟩

end KvStorage
