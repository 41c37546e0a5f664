import KvStorage.Client.Remote
import KvStorage.Server.Sizes
import KvStorage.Server.Statistics

/-!
# Calls over a chain of servers

A handle is one end of a connection, and at the other end a thread of the server runs
`thread_client`. Both ends stay in use from call to call: what a call leaves unread is what the
next one reads first, and a connection that was closed stays closed (`Hop`).

A server that has a successor forwards its writes over a handle of its own, so the handle on the
first server of a chain leads through all of them (`chainCall`) and the one on the last server to
that one alone (`lastCall`). Where nothing fails, a call leaves every connection as it was,
`rtable_put` and `rtable_del` do the same to every table of the chain, and the other calls answer
from the last table.
-/

namespace KvStorage

open CLib Table

variable {W : Type} (codec : MessageCodec)

/-! ## A connection in use -/

/-- The end of the handle, the end of the thread that serves it, and whether the thread is still
in its loop. -/
structure Hop where
  caller : Conn
  thread : Conn
  served : Bool

/-- `network_send_receive` behind its last `write_all`. -/
def receiveReply : NM (Option WireMsg) := do
  let (nbytes, tamanhoBuffer) ← connRead 2
  if nbytes ≠ 2 then
    connClose
    pure none
  else
    let len := ntohs (shortOfBytes tamanhoBuffer)
    if ← malloc then
      let (nbytes, readBuf) ← connRead len
      if nbytes ≠ len then
        connClose
        pure none
      else pure (codec.unpack readBuf)
    else pure none

theorem networkSendReceive_eq (m : WireMsg) : networkSendReceive codec.toCodec m = (do
    if ← sendFrame codec.toCodec m then receiveReply codec else pure none) := rfl

/-- What is behind the loop of `thread_client`. -/
def Server.left (s : Server) : Server := { s with stats := updateClientsDisconnect s.stats }

/-- One round of the loop of `thread_client`; whether there is another one. -/
def threadClientRound (next : Option (Remote W)) (clock : Timeval × Timeval) (c : Conn)
    (x : Server × W) : CM (Bool × Conn × (Server × W)) := do
  match ← networkReceive codec.toCodec c with
  | (none, c) => pure (false, c, x)
  | (some message, c) =>
    let ((rc, reply), x) ← invoke next clock message.toMessageT x
    if rc = -1 then pure (false, c, x)
    else
      let r ← reply.content
      let (sent, c) ← networkSend codec.toCodec r c
      pure (sent ≠ -1, c, x)

namespace Hop

/-- The thread deals with what has arrived; one that has left its loop does not. -/
def serve (next : Option (Remote W)) (clock : Timeval × Timeval) (l : Hop) (x : Server × W) :
    CM (Hop × (Server × W)) :=
  if l.served then do
    let (served, thread, x) ← threadClientRound codec next clock l.thread x
    pure (⟨l.caller, thread, served⟩, if served then x else (x.1.left, x.2))
  else pure (l, x)

/-- What one end has written arrives at the other. -/
def request (l : Hop) : Hop :=
  { l with caller := { l.caller with written := [] }
           thread := { l.thread with incoming := l.thread.incoming ++ l.caller.written } }

def reply (l : Hop) : Hop :=
  { l with caller := { l.caller with incoming := l.caller.incoming ++ l.thread.written }
           thread := { l.thread with written := [] } }

/-- A thread in its loop sees the end of the stream when the caller has closed its end. -/
def settle (l : Hop) (x : Server × W) : Hop × (Server × W) :=
  if l.served ∧ l.caller.closes ≠ 0 then ({ l with served := false }, (x.1.left, x.2)) else (l, x)

/-- `network_send_receive` over the connection, and the thread at its other end. -/
def call (next : Option (Remote W)) (clock : Timeval × Timeval) : Remote (Hop × (Server × W)) :=
  fun msg (l, x) => do
  let m ← msg.content
  -- no transfer works on a descriptor that is closed
  if l.caller.closes ≠ 0 then pure (none, (l, x))
  else
    let (sent, caller) ← sendFrame codec.toCodec m l.caller
    let l := { l with caller := caller }
    if sent then
      let (l, x) ← serve codec next clock l.request x
      let l := l.reply
      let (received, caller) ← receiveReply codec l.caller
      pure (received.map WireMsg.toMessageT, settle { l with caller := caller } x)
    else pure (none, settle { l with caller := { caller with written := [] } } x)

/-- Between two calls: nothing is on its way, both ends are open, and no transfer will fail. -/
structure Idle (l : Hop) : Prop where
  served : l.served = true
  closes : l.caller.closes = 0
  received : l.caller.incoming = [] ∧ l.thread.incoming = []
  written : l.caller.written = [] ∧ l.thread.written = []
  caller : Unfailing l.caller.reads ∧ Unfailing l.caller.writes
  thread : Unfailing l.thread.reads ∧ Unfailing l.thread.writes

end Hop

/-- A frame that has arrived is read, and nothing more. -/
theorem receiveReply_frame {r : WireMsg} (hr : codec.getPackedSize r ≤ 65535) {c : Conn}
    (hin : c.incoming = frame codec.toCodec r) (hreads : Unfailing c.reads) :
    ∃ script, Unfailing script ∧ receiveReply codec c allocated
      = .ok ((some r, { c with incoming := [], reads := script }), allocated) := by
  obtain ⟨s₁, s₂, hs₂, hhdr, hbody⟩ :=
    readFrame_eq codec.toCodec (hin.trans (List.append_nil _).symm) hreads
  rw [List.append_nil] at hhdr hbody
  refine ⟨s₂, hs₂, ?_⟩
  unfold receiveReply
  simp [hhdr, hbody, ntohs_roundtrip (Nat.lt_succ_of_le hr), codec.unpack_pack, allocated_shift]

section Reply

variable {next : Option (Remote W)} {clock : Timeval × Timeval} {msg answer : MessageT}
  {m r : WireMsg} {x x' : Server × W}

/-- The thread answers a request that has arrived, and waits for the next one. -/
theorem threadClientRound_reply {c : Conn} (hin : c.incoming = frame codec.toCodec m)
    (hreads : Unfailing c.reads) (hwrites : Unfailing c.writes) (hmf : FitsFrame codec.toCodec m)
    (hrun : invoke next clock m.toMessageT x allocated = .ok (((0, answer), x'), allocated))
    (hr : answer.content allocated = .ok (r, allocated)) (hrf : FitsFrame codec.toCodec r) :
    ∃ reads writes, Unfailing reads ∧ Unfailing writes ∧
      threadClientRound codec next clock c x allocated
        = .ok ((true, { c with
            incoming := []
            reads := reads
            written := c.written ++ frame codec.toCodec r
            writes := writes }, x'), allocated) := by
  obtain ⟨reads, hr', hrecv⟩ := networkReceive_frame codec.toCodec hmf.2
    (hin.trans (List.append_nil _).symm) hreads allocated_zero
  obtain ⟨writes, hw', hsend⟩ := networkSend_run codec.toCodec hrf.2
    (show Unfailing ({ c with incoming := [], reads := reads } : Conn).writes from hwrites)
    allocated_zero
  refine ⟨reads, writes, hr', hw', ?_⟩
  unfold threadClientRound
  simp [hrecv, hrun, hr, hsend, allocated_shift]

/-- A call between whose frames nothing else happens. -/
theorem Hop.call_reply {l : Hop} (hl : l.Idle)
    (hm : msg.content allocated = .ok (m, allocated)) (hback : m.toMessageT = msg)
    (hmf : FitsFrame codec.toCodec m)
    (hrun : invoke next clock msg x allocated = .ok (((0, answer), x'), allocated))
    (hr : answer.content allocated = .ok (r, allocated)) (hrf : FitsFrame codec.toCodec r) :
    ∃ l' : Hop, l'.Idle ∧ Hop.call codec next clock msg (l, x) allocated
      = .ok ((some r.toMessageT, (l', x')), allocated) := by
  obtain ⟨⟨_, cr, _, cs, _⟩, ⟨_, tr, _, ts, tc⟩, _⟩ := l
  obtain ⟨hserved, hcloses, ⟨hcin, htin⟩, ⟨hcw, htw⟩, ⟨hcr, hcs⟩, ⟨htr, hts⟩⟩ := hl
  dsimp only at hserved hcloses hcin htin hcw htw hcr hcs htr hts
  subst hserved hcloses hcin htin hcw htw
  rw [← hback] at hrun
  obtain ⟨cs', hcs', hsend⟩ := sendFrame_run codec.toCodec (c := ⟨[], cr, [], cs, 0⟩) hmf.2 hcs
    allocated_zero
  obtain ⟨tr', ts', htr', hts', hround⟩ := threadClientRound_reply codec
    (c := ⟨frame codec.toCodec m, tr, [], ts, tc⟩) rfl htr hts hmf hrun hr hrf
  obtain ⟨cr', hcr', hreply⟩ := receiveReply_frame codec hrf.2
    (c := ⟨frame codec.toCodec r, cr, [], cs', 0⟩) rfl hcr
  refine ⟨⟨⟨[], cr', [], cs', 0⟩, ⟨[], tr', [], ts', tc⟩, true⟩,
    ⟨rfl, rfl, ⟨rfl, rfl⟩, ⟨rfl, rfl⟩, ⟨hcr', hcs'⟩, ⟨htr', hts'⟩⟩, ?_⟩
  unfold Hop.call
  simp [hm, hsend, Hop.serve, Hop.request, Hop.reply, hround, hreply, Hop.settle, allocated_shift]

end Reply

/-- The statistics after an operation that may count. -/
def statsAfter (counts : Prop) [Decidable counts] (clock : Timeval × Timeval) (s : StatisticsT) :
    StatisticsT :=
  if counts then updateOperations s (interval clock.1 clock.2) else s

/-! ## Writes with a successor -/

/-- The reply to a PUT or a DEL is as long as the request. -/
theorem messageSize_putReply (key : CStr) (v : List Byte) :
    messageSize (putReply key v) = messageSize (putWire key v) := by
  rw [messageSize_eq (by decide : Short (OP_PUT + 1)) (by decide : Short CT_NONE),
    messageSize_eq (putWire_short key v).1 (putWire_short key v).2]
  rfl

theorem messageSize_delReply (key : CStr) (found : Bool) :
    messageSize (delReply key found) = messageSize (keyWire OP_DEL key) := by
  rw [messageSize_eq (m := keyWire OP_DEL key) (by decide : Short OP_DEL)
    (by decide : Short CT_KEY)]
  cases found with
  | false => exact messageSize_eq (by decide : Short OP_ERROR) (by decide : Short CT_NONE)
  | true => exact messageSize_eq (by decide : Short (OP_DEL + 1)) (by decide : Short CT_NONE)

section Writes

variable {next : Option (Remote W)} (clock : Timeval × Timeval) {s : Server} (h : s.table.WF)
  {key : CStr} (hk : Hashable key) {w w' : W}

include h hk

/-- A PUT that is stored, and forwarded while nobody else is let in. -/
theorem invoke_put_forwarded {v : List Byte} (hv : v ≠ []) (hlen : v.length < 2 ^ 31)
    (hforward : ∀ s, forwardPut next (some key) (some (Block.ofBytes v)) (s, w) allocated
      = .ok (((), (s, w')), allocated)) :
    ∃ s' : Server, invoke next clock (putMessage key v) (s, w) allocated
        = .ok (((0, (putMessage key v).answer OP_PUT CT_NONE), (s', w')), allocated) ∧
      s'.table.WF ∧ s'.table.map = s.table.map.insert key v ∧
      s'.stats = statsAfter True clock s.stats := by
  have hix := h.indexes hk
  have hfault : putFaults s.table key v allocated = false := by simp [putFaults, hix]
  obtain ⟨hres, hstores⟩ := putOutcome_allocated (s.table.listOf key) key
  obtain ⟨t, n, hrun, hwf, -, hmap, -⟩ := applyPut_outcome h key hlen hfault
  have hok : putRes s.table key v allocated = 0 := by simp [putRes, hv, hres]
  have hderef : deref (putMessage key v).entry allocated = .ok (⟨some key, v⟩, allocated) := rfl
  rw [hok] at hrun
  refine ⟨({ s with table := t } : Server).counted clock, ?_, hwf,
    hmap.trans (by simp [putMap, putStores, hv, hix, hstores]), rfl⟩
  rw [invoke_put _ _ rfl]
  unfold invokePut
  rw [state_bind_ok sm_startWrite, state_bind_ok (state_lift_ok hderef), state_bind_ok state_get,
    state_bind_ok (state_lift_ok hrun)]
  simp [hv, hforward, Server.counted]

/-- A DEL, which is forwarded whether or not the key is there. -/
theorem invoke_del_forwarded
    (hforward : ∀ s, forwardDel next key (s, w) allocated = .ok (((), (s, w')), allocated)) :
    ∃ s' : Server, invoke next clock (keyMessage OP_DEL key) (s, w) allocated
        = .ok (((0, if key ∈ s.table.map then (keyMessage OP_DEL key).answer OP_DEL CT_NONE
            else (keyMessage OP_DEL key).error), (s', w')), allocated) ∧
      s'.table.WF ∧ s'.table.map = s.table.map.erase key ∧
      s'.stats = statsAfter (key ∈ s.table.map) clock s.stats := by
  obtain ⟨r, t, hrun, hwf, -, hmap, hres⟩ := tableRemove_run h (h.indexes hk) allocated
  rw [invoke_del _ _ rfl]
  unfold invokeDel
  rw [state_bind_ok sm_startWrite, state_bind_ok state_get,
    state_bind_ok (state_lift_ok (show tableRemove s.table (keyMessage OP_DEL key).key allocated = _
      from hrun))]
  by_cases hmem : key ∈ s.table.map
  · refine ⟨({ s with table := t } : Server).counted clock, ?_, hwf, hmap, (if_pos hmem).symm⟩
    simp [hmem, hres.mpr hmem, keyMessage, hforward, Server.counted]
  · have hr : r ≠ 0 := fun h0 => hmem (hres.mp h0)
    refine ⟨{ s with table := t }, ?_, hwf, hmap, (if_neg hmem).symm⟩
    simp [hmem, hr, keyMessage, hforward]

/-- `rtable_put` of a handle, whatever is behind the server at its other end. -/
theorem rtablePut_call {l : Hop} (hl : l.Idle) {v : List Byte} (hv : v ≠ [])
    (hreq : messageSize (putWire key v) ≤ 65535)
    (hforward : ∀ s, forwardPut next (some key) (some (Block.ofBytes v)) (s, w) allocated
      = .ok (((), (s, w')), allocated)) :
    ∃ (l' : Hop) (s' : Server), l'.Idle ∧ s'.table.WF ∧
      s'.table.map = s.table.map.insert key v ∧ s'.stats = statsAfter True clock s.stats ∧
      rtablePut (Hop.call codec next clock) (some ⟨key, Block.ofBytes v⟩) (l, (s, w)) allocated
        = .ok ((0, (l', (s', w'))), allocated) := by
  have hrep := (messageSize_putReply key v).trans_le hreq
  have hlen := entry_le_messageSize (rfl : (putWire key v).entry = some ⟨key, v⟩)
  obtain ⟨s', hrun, hwf, hmap, hstats⟩ :=
    invoke_put_forwarded clock h hk hv (by dsimp only at hlen; omega) hforward
  obtain ⟨l', hl', hcall⟩ := Hop.call_reply codec hl (content_putMessage key v allocated)
    (toMessageT_putWire key v) (fitsFrame_of codec rfl (show OP_PUT ≠ 0 by decide) hreq) hrun
    (show _ = Except.ok (putReply key v, allocated) from rfl)
    (fitsFrame_of codec rfl (show OP_PUT + 1 ≠ 0 by decide) hrep)
  refine ⟨l', s', hl', hwf, hmap, hstats, ?_⟩
  simp [rtablePut, payload_ofBytes, hcall, acknowledged, WireMsg.toMessageT, putReply]

theorem rtableDel_call {l : Hop} (hl : l.Idle)
    (hreq : messageSize (keyWire OP_DEL key) ≤ 65535)
    (hforward : ∀ s, forwardDel next key (s, w) allocated = .ok (((), (s, w')), allocated)) :
    ∃ (l' : Hop) (s' : Server), l'.Idle ∧ s'.table.WF ∧ s'.table.map = s.table.map.erase key ∧
      s'.stats = statsAfter (key ∈ s.table.map) clock s.stats ∧
      rtableDel (Hop.call codec next clock) (some key) (l, (s, w)) allocated
        = .ok ((if key ∈ s.table.map then 0 else -1, (l', (s', w'))), allocated) := by
  obtain ⟨s', hrun, hwf, hmap, hstats⟩ := invoke_del_forwarded clock h hk hforward
  have hmf := fitsFrame_of codec (m := keyWire OP_DEL key) rfl (show OP_DEL ≠ 0 by decide) hreq
  by_cases hmem : key ∈ s.table.map
  · rw [if_pos hmem] at hrun
    have hrep := (messageSize_delReply key true).trans_le hreq
    obtain ⟨l', hl', hcall⟩ := Hop.call_reply codec hl (content_keyMessage OP_DEL key allocated)
      (toMessageT_keyWire OP_DEL key) hmf hrun
      (show _ = Except.ok (delReply key true, allocated) from rfl)
      (fitsFrame_of codec rfl (show OP_DEL + 1 ≠ 0 by decide) hrep)
    refine ⟨l', s', hl', hwf, hmap, hstats, ?_⟩
    simp [rtableDel, hcall, acknowledged, WireMsg.toMessageT, delReply, hmem]
  · rw [if_neg hmem] at hrun
    have hrep := (messageSize_delReply key false).trans_le hreq
    obtain ⟨l', hl', hcall⟩ := Hop.call_reply codec hl (content_keyMessage OP_DEL key allocated)
      (toMessageT_keyWire OP_DEL key) hmf hrun
      (show _ = Except.ok (delReply key false, allocated) from rfl)
      (fitsFrame_of codec rfl (show OP_ERROR ≠ 0 by decide) hrep)
    have hop : OP_ERROR ≠ OP_DEL + 1 := by decide
    refine ⟨l', s', hl', hwf, hmap, hstats, ?_⟩
    simp [rtableDel, hcall, acknowledged, WireMsg.toMessageT, delReply, hmem, hop]

end Writes

/-! ## A chain of servers -/

/-- The first server and what is behind it: nothing, or the handle on the rest of the chain. -/
def Chain : Nat → Type
  | 0 => Server × Unit
  | n + 1 => Server × (Hop × Chain n)

section Chain

variable (clocks : Nat → Timeval × Timeval)

/-- The handle on the first server. The clocks are counted from the end of the chain. -/
def chainCall : (n : Nat) → Remote (Hop × Chain n)
  | 0 => Hop.call codec none (clocks 0)
  | n + 1 => Hop.call codec (some (chainCall n)) (clocks (n + 1))

/-- A handle on the last server. -/
def lastCall : (n : Nat) → Remote (Hop × Chain n)
  | 0 => Hop.call codec none (clocks 0)
  | n + 1 => fun msg (l, (s, (own, c))) => do
    let (answer, (l, c)) ← lastCall n msg (l, c)
    pure (answer, (l, (s, (own, c))))

end Chain

namespace Chain

/-- Every server of the chain stores this map, and nothing is on its way between them. -/
def Holds (M : KvMap) : (n : Nat) → Chain n → Prop
  | 0, (s, _) => s.table.WF ∧ s.table.map = M
  | n + 1, (s, (l, c)) => (s.table.WF ∧ s.table.map = M) ∧ l.Idle ∧ Holds M n c

def last : (n : Nat) → Chain n → Server
  | 0, (s, _) => s
  | n + 1, (_, (_, c)) => last n c

section Writes

variable (clocks : Nat → Timeval × Timeval) {M : KvMap} {key : CStr} (hk : Hashable key)

include hk

/-- A PUT reaches every table, the last one before the first one answers. -/
theorem rtablePut_chain {v : List Byte} (hv : v ≠ [])
    (hreq : messageSize (putWire key v) ≤ 65535) : ∀ (n : Nat) {l : Hop} {c : Chain n},
    l.Idle → Holds M n c → ∃ (l' : Hop) (c' : Chain n), l'.Idle ∧ Holds (M.insert key v) n c' ∧
      (last n c').stats = statsAfter True (clocks 0) (last n c).stats ∧
      rtablePut (chainCall codec clocks n) (some ⟨key, Block.ofBytes v⟩) (l, c) allocated
        = .ok ((0, (l', c')), allocated)
  | 0, l, (s, w), hl, ⟨hwf, hmap⟩ => by
    have hforward (s : Server) : forwardPut none (some key) (some (Block.ofBytes v)) (s, w)
        allocated = .ok (((), (s, w)), allocated) := rfl
    obtain ⟨l', s', hl', hwf', hmap', hstats, hrun⟩ :=
      rtablePut_call codec (clocks 0) hwf hk hl hv hreq hforward
    exact ⟨l', (s', w), hl', ⟨hwf', hmap ▸ hmap'⟩, hstats, hrun⟩
  | n + 1, l, (s, (own, c)), hl, ⟨⟨hwf, hmap⟩, hown, hc⟩ => by
    obtain ⟨own', c', hown', hc', hstats, hnext⟩ := rtablePut_chain hv hreq n hown hc
    have hforward (s : Server) : forwardPut (some (chainCall codec clocks n)) (some key)
        (some (Block.ofBytes v)) (s, (own, c)) allocated
        = .ok (((), (s, (own', c'))), allocated) := by
      simp [forwardPut, entryCreate_run, hnext, allocated_shift]
    obtain ⟨l', s', hl', hwf', hmap', -, hrun⟩ :=
      rtablePut_call codec (clocks (n + 1)) hwf hk hl hv hreq hforward
    exact ⟨l', (s', (own', c')), hl', ⟨⟨hwf', hmap ▸ hmap'⟩, hown', hc'⟩, hstats, hrun⟩

/-- A DEL reaches every table, whether or not the key is there. -/
theorem rtableDel_chain (hreq : messageSize (keyWire OP_DEL key) ≤ 65535) :
    ∀ (n : Nat) {l : Hop} {c : Chain n}, l.Idle → Holds M n c →
    ∃ (l' : Hop) (c' : Chain n), l'.Idle ∧ Holds (M.erase key) n c' ∧
      (last n c').stats = statsAfter (key ∈ M) (clocks 0) (last n c).stats ∧
      rtableDel (chainCall codec clocks n) (some key) (l, c) allocated
        = .ok ((if key ∈ M then 0 else -1, (l', c')), allocated)
  | 0, l, (s, w), hl, ⟨hwf, hmap⟩ => by
    have hforward (s : Server) : forwardDel none key (s, w) allocated
        = .ok (((), (s, w)), allocated) := rfl
    obtain ⟨l', s', hl', hwf', hmap', hstats, hrun⟩ :=
      rtableDel_call codec (clocks 0) hwf hk hl hreq hforward
    subst hmap
    exact ⟨l', (s', w), hl', ⟨hwf', hmap'⟩, hstats, hrun⟩
  | n + 1, l, (s, (own, c)), hl, ⟨⟨hwf, hmap⟩, hown, hc⟩ => by
    obtain ⟨own', c', hown', hc', hstats, hnext⟩ := rtableDel_chain hreq n hown hc
    have hforward (s : Server) : forwardDel (some (chainCall codec clocks n)) key (s, (own, c))
        allocated = .ok (((), (s, (own', c'))), allocated) := by
      simp [forwardDel, hnext]
    obtain ⟨l', s', hl', hwf', hmap', -, hrun⟩ :=
      rtableDel_call codec (clocks (n + 1)) hwf hk hl hreq hforward
    subst hmap
    exact ⟨l', (s', (own', c')), hl', ⟨⟨hwf', hmap'⟩, hown', hc'⟩, hstats, hrun⟩

end Writes

/-- Another last server. -/
def setLast (s' : Server) : (n : Nat) → Chain n → Chain n
  | 0, (_, w) => (s', w)
  | n + 1, (s, (own, c)) => (s, (own, setLast s' n c))

theorem last_setLast (s' : Server) : ∀ (n : Nat) (c : Chain n), last n (setLast s' n c) = s'
  | 0, _ => rfl
  | n + 1, (_, (_, c)) => last_setLast s' n c

section Last

variable {M : KvMap}

theorem Holds.last : ∀ {n : Nat} {c : Chain n}, Holds M n c →
    (last n c).table.WF ∧ (last n c).table.map = M
  | 0, (_, _), h => h
  | n + 1, (_, (_, _)), ⟨_, _, hc⟩ => Holds.last (n := n) hc

theorem Holds.setLast {s' : Server} (hwf : s'.table.WF) (hmap : s'.table.map = M) :
    ∀ {n : Nat} {c : Chain n}, Holds M n c → Holds M n (setLast s' n c)
  | 0, (_, _), _ => ⟨hwf, hmap⟩
  | n + 1, (_, (_, _)), ⟨hs, hown, hc⟩ => ⟨hs, hown, Holds.setLast hwf hmap (n := n) hc⟩

end Last

end Chain

/-! ## Calls on the last server -/

def statsReply (s : StatisticsT) : WireMsg :=
  { bareWire OP_STATS with opcode := OP_STATS + 1, cType := CT_STATS, stats := some s }

/-- A varint takes ten bytes at most, and its tag. -/
theorem varintFieldSize_int64 (x : Int) : varintFieldSize (int64Varint x) ≤ 11 := by
  have hlt : int64Varint x < 2 ^ 64 := by
    unfold int64Varint
    omega
  unfold varintFieldSize ProtoWire.varintSize
  split
  next => omega
  next hne =>
    have hlog := (Nat.log2_lt hne).mpr hlt
    omega

theorem statsReply_fits (s : StatisticsT) : messageSize (statsReply s) ≤ 65535 := by
  have hsize : statisticsSize s ≤ 33 := by
    have hoperations := varintFieldSize_int64 s.nOperations.toInt
    have htime := varintFieldSize_int64 s.totalTime.toInt
    have hclients := varintFieldSize_int64 s.nClients.toInt
    unfold statisticsSize
    omega
  have hfield := delimitedSize_le (hsize.trans (by decide))
  have hfields : fieldsSize (statsReply s) = delimitedSize (statisticsSize s) := by
    unfold fieldsSize
    simp [statsReply, bareWire, WireMsg.init, emptyString, bytesFieldSize, varintFieldSize, zigzag]
  rw [messageSize_eq (by decide : Short (OP_STATS + 1)) (by decide : Short CT_STATS), hfields]
  omega

section Last

variable (clocks : Nat → Timeval × Timeval) {msg answer : MessageT} {l l' : Hop} {s' : Server}

/-- A handle on the last server reaches the last server. -/
theorem lastCall_run {a : Option MessageT} : ∀ {n : Nat} {c : Chain n},
    Hop.call codec none (clocks 0) msg (l, (c.last n, ())) allocated
      = .ok ((a, (l', (s', ()))), allocated) →
    lastCall codec clocks n msg (l, c) allocated
      = .ok ((a, (l', c.setLast s' n)), allocated)
  | 0, (s, ()), h => h
  | n + 1, (s, (own, c)), h => by
    have hrun := lastCall_run (n := n) (c := c) h
    unfold lastCall
    simp [hrun, Chain.setLast]

variable {M : KvMap} {n : Nat} {c : Chain n} {m r : WireMsg}

/-- A call that the last server answers without changing its table. -/
theorem lastCall_reply (hl : l.Idle) (hc : c.Holds M n)
    (hm : msg.content allocated = .ok (m, allocated)) (hback : m.toMessageT = msg)
    (hmf : FitsFrame codec.toCodec m)
    (hrun : invoke none (clocks 0) msg (c.last n, ()) allocated
      = .ok (((0, answer), (s', ())), allocated))
    (htable : s'.table = (c.last n).table)
    (hr : answer.content allocated = .ok (r, allocated)) (hrf : FitsFrame codec.toCodec r) :
    ∃ (l' : Hop) (c' : Chain n), l'.Idle ∧ c'.Holds M n ∧ c'.last n = s' ∧
      lastCall codec clocks n msg (l, c) allocated
        = .ok ((some r.toMessageT, (l', c')), allocated) := by
  obtain ⟨l', hl', hcall⟩ := Hop.call_reply codec hl hm hback hmf hrun hr hrf
  obtain ⟨hwf, hmap⟩ := hc.last
  exact ⟨l', c.setLast s' n, hl', hc.setLast (htable ▸ hwf) (htable ▸ hmap),
    Chain.last_setLast s' n c, lastCall_run codec clocks hcall⟩

section Reads

variable (hl : l.Idle) (hc : c.Holds M n)

include hl hc

theorem rtableGet_last {key : CStr} (hk : Hashable key)
    (hreq : messageSize (keyWire OP_GET key) ≤ 65535)
    (hrep : messageSize (getReplyWire key (M.lookup key)) ≤ 65535) :
    ∃ (l' : Hop) (c' : Chain n), l'.Idle ∧ c'.Holds M n ∧
      (c'.last n).stats = statsAfter (key ∈ M) (clocks 0) (c.last n).stats ∧
      rtableGet (lastCall codec clocks n) (some key) (l, c) allocated
        = .ok (((M.lookup key).map Block.ofBytes, (l', c')), allocated) := by
  obtain ⟨hwf, hmap⟩ := hc.last
  have hix : (c.last n).table.Indexes (keyMessage OP_GET key).key := hwf.indexes hk
  have hmf := fitsFrame_of codec (m := keyWire OP_GET key) rfl (show OP_GET ≠ 0 by decide) hreq
  have hmem : key ∈ M ↔ (M.lookup key).isSome := Finmap.lookup_isSome.symm
  subst hmap
  cases hlookup : (c.last n).table.map.lookup key with
  | none =>
    rw [hlookup] at hrep hmem
    obtain ⟨l', c', hl', hc', hlast, hcall⟩ := lastCall_reply codec clocks hl hc
      (content_keyMessage OP_GET key allocated) (toMessageT_keyWire OP_GET key) hmf
      (by rw [invoke_get _ _ rfl]; exact invokeGet_missing hwf (clocks 0) () hix hlookup) (by rfl)
      (show _ = Except.ok (getReplyWire key none, allocated) from rfl)
      (fitsFrame_of codec rfl (show OP_ERROR ≠ 0 by decide) hrep)
    have hop : OP_ERROR ≠ OP_GET + 1 := by decide
    refine ⟨l', c', hl', hc', ?_, ?_⟩
    · rw [hlast, statsAfter, if_neg fun h => Bool.noConfusion (hmem.mp h)]
    · simp [rtableGet, hcall, WireMsg.toMessageT, getReplyWire, hop]
  | some v =>
    rw [hlookup] at hrep hmem
    have hv := hwf.lookup_ne_nil hlookup
    have hlen : v.length ≤ 65535 := (value_le_messageSize (getReplyWire key (some v))).trans hrep
    obtain ⟨l', c', hl', hc', hlast, hcall⟩ := lastCall_reply codec clocks hl hc
      (content_keyMessage OP_GET key allocated) (toMessageT_keyWire OP_GET key) hmf
      (by rw [invoke_get _ _ rfl]; exact invokeGet_found hwf (clocks 0) () hix hlookup) (by rfl)
      (show _ = Except.ok (getReplyWire key (some v), allocated) from rfl)
      (fitsFrame_of codec rfl (show OP_GET + 1 ≠ 0 by decide) hrep)
    have hcopy := copyReceivedValue_allocated hv (by omega)
    refine ⟨l', c', hl', hc', ?_, ?_⟩
    · rw [hlast, statsAfter, if_pos (hmem.mpr rfl)]
      rfl
    · simp [rtableGet, hcall, WireMsg.toMessageT, getReplyWire, hcopy]

theorem rtableSize_last (hsmall : M.keys.card < 2 ^ 31) :
    ∃ (l' : Hop) (c' : Chain n), l'.Idle ∧ c'.Holds M n ∧
      (c'.last n).stats = statsAfter True (clocks 0) (c.last n).stats ∧
      rtableSize (lastCall codec clocks n) (l, c) allocated
        = .ok (((M.keys.card : Int), (l', c')), allocated) := by
  obtain ⟨hwf, hmap⟩ := hc.last
  subst hmap
  have hsize := tableSize_card hwf hsmall
  have hne : tableSize (c.last n).table ≠ -1 := by omega
  obtain ⟨l', c', hl', hc', hlast, hcall⟩ := lastCall_reply codec clocks hl hc
    (content_bareMessage OP_SIZE allocated) (toMessageT_bareWire OP_SIZE)
    (fitsFrame_of codec rfl (show OP_SIZE ≠ 0 by decide) (by decide))
    (by rw [invoke_size _ _ rfl]; exact invokeSize_run (clocks 0) () hne allocated) (by rfl)
    (show _ = Except.ok (sizeReply (tableSize (c.last n).table), allocated) from rfl)
    (fitsFrame_of codec rfl (show OP_SIZE + 1 ≠ 0 by decide) (sizeReply_fits _))
  refine ⟨l', c', hl', hc', ?_, ?_⟩
  · rw [hlast, statsAfter, if_pos trivial]
    rfl
  · have hval := toInt_ofInt_tableSize hwf
    rw [hsize] at hval hcall
    simp only [rtableSize, state_bind, hcall, ok_bind]
    simp [WireMsg.toMessageT, sizeReply, hval]

theorem rtableGetKeys_last (hrep : messageSize (keysReply (c.last n).table) ≤ 65535) :
    ∃ (l' : Hop) (c' : Chain n), l'.Idle ∧ c'.Holds M n ∧
      (c'.last n).stats = statsAfter True (clocks 0) (c.last n).stats ∧
      rtableGetKeys (lastCall codec clocks n) (l, c) allocated
        = .ok ((some (((c.last n).table.entries.map Entry.key).map some ++ [none]), (l', c')),
          allocated) := by
  obtain ⟨hwf, -⟩ := hc.last
  have hcount := keys_length_le_messageSize (keysReply (c.last n).table)
  have hlength : (keysReply (c.last n).table).keys.length = (c.last n).table.entries.length :=
    List.length_map _
  obtain ⟨l', c', hl', hc', hlast, hcall⟩ := lastCall_reply codec clocks hl hc
    (content_bareMessage OP_GETKEYS allocated) (toMessageT_bareWire OP_GETKEYS)
    (fitsFrame_of codec rfl (show OP_GETKEYS ≠ 0 by decide) (by decide))
    (by
      rw [invoke_getKeys _ _ rfl]
      exact invokeGetKeys_allocated hwf (clocks 0) () (by rw [hwf.card_keys]; omega)) (by rfl)
    (content_keysAnswer (c.last n).table)
    (fitsFrame_of codec rfl (show OP_GETKEYS + 1 ≠ 0 by decide) hrep)
  have hcopy := copyReceivedKeys_allocated (r := keysReply (c.last n).table) (by omega)
  refine ⟨l', c', hl', hc', ?_, ?_⟩
  · rw [hlast, statsAfter, if_pos trivial]
    rfl
  · unfold rtableGetKeys
    rw [state_bind_ok hcall]
    exact state_lift_ok hcopy

theorem rtableGetTable_last (hrep : messageSize (tableReply (c.last n).table) ≤ 65535) :
    ∃ (l' : Hop) (c' : Chain n), l'.Idle ∧ c'.Holds M n ∧
      (c'.last n).stats = statsAfter True (clocks 0) (c.last n).stats ∧
      rtableGetTable (lastCall codec clocks n) (l, c) allocated
        = .ok ((some ((c.last n).table.entries.map some ++ [none]), (l', c')), allocated) := by
  obtain ⟨hwf, -⟩ := hc.last
  have hn := tableReply_length_le hrep
  obtain ⟨l', c', hl', hc', hlast, hcall⟩ := lastCall_reply codec clocks hl hc
    (content_bareMessage OP_GETTABLE allocated) (toMessageT_bareWire OP_GETTABLE)
    (fitsFrame_of codec rfl (show OP_GETTABLE ≠ 0 by decide) (by decide))
    (by
      rw [invoke_getTable _ _ rfl]
      exact invokeGetTable_allocated hwf (clocks 0) () (by rw [hwf.card_keys]; omega)) (by rfl)
    (content_tableAnswer (c.last n).table)
    (fitsFrame_of codec rfl (show OP_GETTABLE + 1 ≠ 0 by decide) hrep)
  refine ⟨l', c', hl', hc', ?_, ?_⟩
  · rw [hlast, statsAfter, if_pos trivial]
    rfl
  · unfold rtableGetTable
    rw [state_bind_ok hcall]
    exact state_lift_ok (copyReceivedEntries_listing hwf hrep)

/-- The statistics are those before the call, which does not count. -/
theorem rtableStats_last :
    ∃ (l' : Hop) (c' : Chain n), l'.Idle ∧ c'.Holds M n ∧ (c'.last n).stats = (c.last n).stats ∧
      rtableStats (lastCall codec clocks n) (l, c) allocated
        = .ok ((some (c.last n).stats, (l', c')), allocated) := by
  have hrun : invoke none (clocks 0) (bareMessage OP_STATS) (c.last n, ()) allocated
      = .ok (((0, { (bareMessage OP_STATS).answer OP_STATS CT_STATS with
          stats := some (c.last n).stats }), (c.last n, ())), allocated) := rfl
  obtain ⟨l', c', hl', hc', hlast, hcall⟩ := lastCall_reply codec clocks hl hc
    (content_bareMessage OP_STATS allocated) (toMessageT_bareWire OP_STATS)
    (fitsFrame_of codec rfl (show OP_STATS ≠ 0 by decide) (by decide)) hrun rfl
    (show _ = Except.ok (statsReply (c.last n).stats, allocated) from rfl)
    (fitsFrame_of codec rfl (show OP_STATS + 1 ≠ 0 by decide) (statsReply_fits _))
  refine ⟨l', c', hl', hc', by rw [hlast], ?_⟩
  simp [rtableStats, hcall, WireMsg.toMessageT, statsReply, allocated_shift]

end Reads

end Last

end KvStorage
