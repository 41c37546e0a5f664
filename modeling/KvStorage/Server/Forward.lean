import KvStorage.Server.Skeleton

/-!
# A write and its successor

What `invoke` does with a PUT or a DEL when there is a successor, for every
allocation outcome on both servers and every fate of the forwarded request. The
answers of `rtable_put` and `rtable_del` are dropped, the write is forwarded
whether or not it was applied, and `table_put` drops the answer of `list_add`;
`WriteAgrees` is therefore met under a condition only, and
`write_agrees_iff` says exactly which.
-/

namespace KvStorage

open CLib Table

/-! ## The local part of a PUT -/

/-- Whether a PUT of `v` under `key` stores it: a value, a block around it, an
index inside the array, and every allocation down to the list node. -/
def putStores (t : Table) (key : CStr) (v : List Byte) (al : Allocs) : Bool :=
  decide (v ≠ []) && al 0 && decide (t.Indexes key) &&
    (putOutcome (t.listOf key) key (Allocs.drop al 1)).stores

/-- The allocations a PUT makes before it forwards. -/
def putUsed (t : Table) (key : CStr) (al : Allocs) : Nat :=
  1 + (putOutcome (t.listOf key) key (Allocs.drop al 1)).used

/-- The map after a PUT that may have been stored. -/
def putMap (stores : Bool) (M : KvMap) (key : CStr) (v : List Byte) : KvMap :=
  if stores then M.insert key v else M

theorem insert_of_lookup {M : KvMap} {key : CStr} {v : List Byte} (h : M.lookup key = some v) :
    M.insert key v = M := by
  apply Finmap.ext_lookup
  intro k
  by_cases hk : k = key
  · rw [hk, Finmap.lookup_insert, h]
  · rw [Finmap.lookup_insert_of_ne _ hk]

theorem putMap_eq_self_iff {stores : Bool} {M : KvMap} {key : CStr} {v : List Byte} :
    putMap stores M key v = M ↔ stores = false ∨ M.lookup key = some v := by
  unfold putMap
  cases stores with
  | false => simp
  | true =>
    rw [if_pos rfl]
    constructor
    · intro h
      rw [← h, Finmap.lookup_insert]
      exact Or.inr rfl
    · intro h
      exact insert_of_lookup (h.resolve_left (by simp))

theorem putMap_eq_insert_iff {stores : Bool} {M : KvMap} {key : CStr} {v : List Byte} :
    putMap stores M key v = M.insert key v ↔ stores = true ∨ M.lookup key = some v := by
  unfold putMap
  cases stores with
  | true => simp
  | false =>
    rw [if_neg (by simp)]
    constructor
    · intro h
      rw [h, Finmap.lookup_insert]
      exact Or.inr rfl
    · intro h
      exact (insert_of_lookup (h.resolve_left (by simp))).symm

/-- The block of a PUT is created, then `table_put` runs; an index outside the
array ends the process. -/
theorem applyPut_run {t : Table} (key : CStr) {v : List Byte} (hv : v ≠ [])
    (hlen : v.length < 2 ^ 31) (al : Allocs) :
    applyPut t ⟨some key, v⟩ al
      = if al 0 = false then .ok ((none, -1, t), Allocs.drop al 1)
        else (tablePut t key (some (Block.ofBytes v)) (Allocs.drop al 1)).bind
          fun r => .ok ((some (Block.ofBytes v), r.1.1, r.1.2), r.2) := by
  have hcint : cint v.length = v.length := cint_of_lt (by omega) (by omega)
  unfold applyPut
  simp only [if_neg hv, hcint, run_bind, blockCreate_run hv, ok_bind, run_pure]
  by_cases h0 : al 0
  · simp [h0]
    rfl
  · simp [h0, tablePut]
    rfl

/-- The answer of `table_put` in a PUT, by the value, the allocations and the
position of the key: -1 where there is no block, or a failed allocation is
reported. -/
def putRes (t : Table) (key : CStr) (v : List Byte) (al : Allocs) : Int :=
  if v = [] ∨ al 0 = false then -1 else (putOutcome (t.listOf key) key (Allocs.drop al 1)).res

/-- Whether a PUT ends the process: the copies are made and the index is
outside the array. -/
def putFaults (t : Table) (key : CStr) (v : List Byte) (al : Allocs) : Bool :=
  decide (v ≠ []) && al 0 && !decide (t.Indexes key) && copied (Allocs.drop al 1)

/-- Whether a PUT forwards its entry: a block was created, and the entry around
it. -/
def putSends (t : Table) (key : CStr) (v : List Byte) (al : Allocs) : Bool :=
  decide (v ≠ []) && al 0 && al (putUsed t key al)

theorem drop_putUsed (t : Table) (key : CStr) (al : Allocs) :
    Allocs.drop al (putUsed t key al)
      = fun i =>
          Allocs.drop al 1 (i + (putOutcome (t.listOf key) key (Allocs.drop al 1)).used) := by
  funext i
  unfold putUsed Allocs.drop
  congr 1
  omega

/-- The write section of a PUT, before it forwards. -/
theorem applyPut_outcome {t : Table} (h : t.WF) (key : CStr) {v : List Byte}
    (hlen : v.length < 2 ^ 31) {al : Allocs} (hok : putFaults t key v al = false) :
    ∃ t' n, applyPut t ⟨some key, v⟩ al
        = .ok ((if decide (v ≠ []) && al 0 then some (Block.ofBytes v) else none,
            putRes t key v al, t'), Allocs.drop al n) ∧
      t'.WF ∧ t'.size = t.size ∧ t'.map = putMap (putStores t key v al) t.map key v ∧
      (v ≠ [] → al 0 = true → n = putUsed t key al) := by
  by_cases hv : v = []
  · subst hv
    exact ⟨t, 0, by simp [applyPut, tablePut, putRes, cint]; rfl, h, rfl,
      by simp [putStores, putMap], fun hne => absurd rfl hne⟩
  rw [applyPut_run key hv hlen]
  by_cases h0 : al 0 = false
  · exact ⟨t, 1, by simp [h0, putRes], h, rfl, by simp [h0, putStores, putMap],
      fun _ h1 => absurd h1 (by simp [h0])⟩
  simp only [Bool.not_eq_false] at h0
  have hvalid := Block.ofBytes_valid hv
  by_cases hk : t.Indexes key
  · obtain ⟨t', hrun, hwf, hsz, hmap⟩ := tablePut_run h hk hvalid (Allocs.drop al 1)
    refine ⟨t', putUsed t key al, ?_, hwf, hsz, ?_, fun _ _ => rfl⟩
    · simp [h0, hv, hrun, putRes, drop_putUsed]
    · rw [hmap, Block.content_ofBytes, putMap]
      simp [putStores, hv, h0, hk]
  · have hcopied : copied (Allocs.drop al 1) = false := by
      simpa [putFaults, hv, h0, hk] using hok
    have hrun := tablePut_unindexed hk hvalid (t.listOf key) (Allocs.drop al 1)
    obtain ⟨hres, -⟩ := putOutcome_of_not_copied hcopied (t.listOf key) key
    rw [hcopied, if_neg (by simp)] at hrun
    refine ⟨t, putUsed t key al, ?_, h, rfl, ?_, fun _ _ => rfl⟩
    · simp [h0, hv, hrun, putRes, hres, drop_putUsed]
    · simp [putStores, putMap, hk]

theorem applyPut_fault {t : Table} (key : CStr) {v : List Byte}
    (hlen : v.length < 2 ^ 31) {al : Allocs} (hfault : putFaults t key v al = true) :
    applyPut t ⟨some key, v⟩ al = .error .outOfBounds := by
  simp only [putFaults, Bool.and_eq_true, decide_eq_true_eq, Bool.not_eq_true',
    decide_eq_false_iff_not] at hfault
  obtain ⟨⟨⟨hv, h0⟩, hk⟩, hcopied⟩ := hfault
  rw [applyPut_run key hv hlen, if_neg (by simp [h0]),
    tablePut_unindexed hk (Block.ofBytes_valid hv) none, hcopied]
  rfl

/-! ## A successor that answers -/

variable {W : Type}

/-- A connection whose other side answers with a function of its state. -/
def answering (f : MessageT → W → Option MessageT × W) : Remote W := fun msg w => pure (f msg w)

/-- The other side after a request that is sent if there is a handle. -/
def sentTo (next : Option (MessageT → W → Option MessageT × W)) (msg : MessageT) (w : W) : W :=
  next.elim w fun f => (f msg w).2

@[simp] theorem answering_run (f : MessageT → W → Option MessageT × W) (msg : MessageT) (w : W)
    (al : Allocs) : answering f msg w al = .ok (f msg w, al) := rfl

theorem payload_ofBytes (v : List Byte) : (Block.ofBytes v).payload = pure v := by
  unfold Block.payload Block.ofBytes
  simp [memcpy_of_le]

theorem payload_valid {b : Block} (h : b.Valid) : b.payload = pure b.content := by
  obtain ⟨hpos, d, hd, hle⟩ := h
  obtain ⟨n, hn⟩ := Int.eq_ofNat_of_zero_le (Int.le_of_lt hpos)
  funext al
  unfold Block.payload Block.content
  rw [hd, hn, deref_some, run_bind, run_pure, ok_bind]
  dsimp only
  rw [memcpy_of_le (by omega)]
  rfl

@[simp] theorem rtablePut_answering (f : MessageT → W → Option MessageT × W) (key : CStr)
    (v : List Byte) (w : W) (al : Allocs) :
    rtablePut (answering f) (some ⟨key, Block.ofBytes v⟩) w al
      = .ok ((acknowledged OP_PUT (f (putMessage key v) w).1, (f (putMessage key v) w).2), al) := by
  simp [rtablePut, payload_ofBytes]

@[simp] theorem rtableDel_answering (f : MessageT → W → Option MessageT × W) (key : CStr) (w : W)
    (al : Allocs) :
    rtableDel (answering f) (some key) w al
      = .ok ((acknowledged OP_DEL (f (keyMessage OP_DEL key) w).1,
          (f (keyMessage OP_DEL key) w).2), al) := by
  simp [rtableDel]

/-! ## `invoke` of a PUT and of a DEL -/

/-- The forwarding stage of a PUT, with or without a block. -/
theorem forwardPut_run (next : Option (MessageT → W → Option MessageT × W)) (key : CStr)
    (v : List Byte) (b : Bool) (s : Server) (w : W) (al : Allocs) :
    ∃ n, forwardPut (next.map answering) (some key)
        (if b = true then some (Block.ofBytes v) else none) (s, w) al
      = .ok (((), (s, if (b && al 0) = true then sentTo next (putMessage key v) w else w)),
          Allocs.drop al n) := by
  cases next with
  | none => exact ⟨0, by simp [forwardPut, sentTo]; rfl⟩
  | some f =>
    cases b with
    | false => exact ⟨0, by simp [forwardPut, entryCreate, rtablePut]; rfl⟩
    | true =>
      refine ⟨1, ?_⟩
      by_cases h0 : al 0 = true
      · simp only [forwardPut, Option.map_some, if_true, state_bind, state_lift, entryCreate_run,
          ok_bind, h0, state_discard, sm_forward, rtablePut_answering, Bool.and_self, sentTo,
          Option.elim_some]
        rfl
      · simp [forwardPut, h0, entryCreate_run, rtablePut]
        rfl

/-- A PUT that does not end the process: its table, what the successor was sent,
and its answer. -/
theorem invokePut_run {s : Server} (h : s.table.WF)
    (next : Option (MessageT → W → Option MessageT × W)) (clock : Timeval × Timeval)
    {msg : MessageT} {key : CStr} {v : List Byte} (hentry : msg.entry = some ⟨some key, v⟩)
    (hlen : v.length < 2 ^ 31) {al : Allocs} (hok : putFaults s.table key v al = false) (w : W) :
    ∃ rc reply s' n, invokePut (next.map answering) clock msg (s, w) al
        = .ok (((rc, reply), (s', if putSends s.table key v al
            then sentTo next (putMessage key v) w else w)), Allocs.drop al n) ∧
      s'.table.WF ∧ s'.table.map = putMap (putStores s.table key v al) s.table.map key v ∧
      (putRes s.table key v al = -1 → rc = -1 ∧ reply = msg.error) ∧
      (putRes s.table key v al ≠ -1 → rc = 0 ∧ reply = msg.answer OP_PUT CT_NONE) := by
  obtain ⟨t', n₁, hrun, hwf, -, hmap, hnext⟩ := applyPut_outcome h key hlen hok
  have hsends : (decide (v ≠ []) && al 0 && Allocs.drop al n₁ 0) = putSends s.table key v al := by
    unfold putSends
    by_cases hv : v = []
    · simp [hv]
    · by_cases h0 : al 0 = true
      · rw [hnext hv h0, Allocs.drop, Nat.zero_add]
      · simp [h0]
  obtain ⟨n₂, hpush⟩ := forwardPut_run next key v (decide (v ≠ []) && al 0)
    { s with nWriters := s.nWriters + 1, table := t' } w (Allocs.drop al n₁)
  rw [hsends, Allocs.drop_drop] at hpush
  have hderef : deref msg.entry al = .ok (⟨some key, v⟩, al) := by
    rw [hentry]
    rfl
  unfold invokePut
  rw [state_bind_ok sm_startWrite, state_bind_ok (state_lift_ok hderef), state_bind_ok state_get,
    state_bind_ok (state_lift_ok hrun)]
  dsimp only
  rw [state_bind_ok (sm_setTable _), state_bind_ok hpush, state_bind_ok sm_endWrite]
  by_cases hres : putRes s.table key v al = -1
  · refine ⟨-1, msg.error, { s with table := t' }, n₁ + n₂, ?_, hwf, hmap, fun _ => ⟨rfl, rfl⟩,
      fun hne => absurd hres hne⟩
    simp [hres]
  · refine ⟨0, msg.answer OP_PUT CT_NONE,
      { s with table := t', stats := updateOperations s.stats (interval clock.1 clock.2) },
      n₁ + n₂, ?_,
      hwf, hmap, fun he => absurd he hres, fun _ => ⟨rfl, rfl⟩⟩
    simp [hres]

theorem invokePut_fault {s : Server}
    (next : Option (MessageT → W → Option MessageT × W)) (clock : Timeval × Timeval)
    {msg : MessageT} {key : CStr} {v : List Byte} (hentry : msg.entry = some ⟨some key, v⟩)
    (hlen : v.length < 2 ^ 31) {al : Allocs} (hfault : putFaults s.table key v al = true) (w : W) :
    invokePut (next.map answering) clock msg (s, w) al = .error .outOfBounds := by
  have hderef : deref msg.entry al = .ok (⟨some key, v⟩, al) := by
    rw [hentry]
    rfl
  unfold invokePut
  rw [state_bind_ok sm_startWrite, state_bind_ok (state_lift_ok hderef), state_bind_ok state_get,
    state_bind, state_lift, applyPut_fault key hlen hfault]
  rfl

theorem invokePut_noEntry {s : Server} (next : Option (Remote W)) (clock : Timeval × Timeval)
    {msg : MessageT} (hentry : msg.entry = none) (al : Allocs) (w : W) :
    invokePut next clock msg (s, w) al = .error .nullDeref := by
  unfold invokePut
  rw [state_bind_ok sm_startWrite, state_bind, state_lift, hentry]
  rfl

/-- A DEL whose key indexes the table: removed here, forwarded in any case. -/
theorem invokeDel_run {s : Server} (h : s.table.WF)
    (next : Option (MessageT → W → Option MessageT × W)) (clock : Timeval × Timeval)
    {msg : MessageT} (hk : s.table.Indexes msg.key) (al : Allocs) (w : W) :
    ∃ reply s', invokeDel (next.map answering) clock msg (s, w) al
        = .ok (((0, reply), (s', sentTo next (keyMessage OP_DEL msg.key) w)), al) ∧
      s'.table.WF ∧ s'.table.map = s.table.map.erase msg.key ∧
      (msg.key ∈ s.table.map → reply = msg.answer OP_DEL CT_NONE) ∧
      (msg.key ∉ s.table.map → reply = msg.error) := by
  obtain ⟨r, t', hrun, hwf, -, hmap, hres⟩ := tableRemove_run h hk al
  have hpush : forwardDel (next.map answering) msg.key
      ({ s with nWriters := s.nWriters + 1, table := t' }, w) al
      = .ok (((), ({ s with nWriters := s.nWriters + 1, table := t' },
          sentTo next (keyMessage OP_DEL msg.key) w)), al) := by
    cases next with
    | none => rfl
    | some f => simp [forwardDel, sentTo]
  unfold invokeDel
  rw [state_bind_ok sm_startWrite, state_bind_ok state_get, state_bind_ok (state_lift_ok hrun)]
  dsimp only
  rw [state_bind_ok (sm_setTable _), state_bind_ok hpush, state_bind_ok sm_endWrite]
  by_cases hmem : msg.key ∈ s.table.map
  · refine ⟨msg.answer OP_DEL CT_NONE,
      { s with table := t', stats := updateOperations s.stats (interval clock.1 clock.2) }, ?_, hwf,
      hmap, fun _ => rfl, fun hne => absurd hmem hne⟩
    simp [hres.mpr hmem]
  · have hr : r ≠ 0 := fun h0 => hmem (hres.mp h0)
    refine ⟨msg.error, { s with table := t' }, ?_, hwf, hmap, fun he => absurd he hmem,
      fun _ => rfl⟩
    simp [hr]

theorem invokeDel_fault {s : Server} (next : Option (Remote W)) (clock : Timeval × Timeval)
    {msg : MessageT} (hk : ¬ s.table.Indexes msg.key) (al : Allocs) (w : W) :
    invokeDel next clock msg (s, w) al = .error .outOfBounds := by
  unfold invokeDel
  rw [state_bind_ok sm_startWrite, state_bind_ok state_get, state_bind, state_lift,
    tableRemove_unindexed hk]
  rfl

/-! ## The successor at the other end -/

/-- What happens to a forwarded request. -/
inductive Delivery
  /-- It does not reach the successor. -/
  | lost
  /-- The successor handles it with these allocations; the answer comes back or
  not. -/
  | handled (al : Allocs) (acked : Bool)

/-- The successor's end of the connection. A fault there ends the successor's
process; the table it had is then left as it was. -/
def deliver (next : Option (MessageT → W → Option MessageT × W)) (clock : Timeval × Timeval) :
    Delivery → MessageT → Server × W → Option MessageT × (Server × W)
  | .lost, _, x => (none, x)
  | .handled al acked, msg, x =>
    match msg.content allocated with
    | .error _ => (none, x)
    | .ok (m, _) =>
      match invoke (next.map answering) clock m.toMessageT x al with
      | .error _ => (none, x)
      | .ok (((rc, reply), x'), _) =>
        match reply.content allocated with
        | .error _ => (none, x')
        | .ok (r, _) => (if acked ∧ rc ≠ -1 then some r.toMessageT else none, x')

/-- Whether a forwarded PUT is stored by the successor. -/
def Delivery.storesPut (d : Delivery) (t : Table) (key : CStr) (v : List Byte) : Bool :=
  match d with
  | .lost => false
  | .handled al _ => putStores t key v al

/-- Whether a forwarded DEL is carried out by the successor. -/
def Delivery.removes (d : Delivery) (t : Table) (key : CStr) : Bool :=
  match d with
  | .lost => false
  | .handled _ _ => t.Indexes key

section Deliver

variable (next : Option (MessageT → W → Option MessageT × W)) (clock : Timeval × Timeval)
  {al al' : Allocs} (acked : Bool) {msg : MessageT} {m : WireMsg} {x x' : Server × W}

theorem deliver_ok {rc : Int} {reply : MessageT} (hm : msg.content allocated = .ok (m, allocated))
    (hrun : invoke (next.map answering) clock m.toMessageT x al = .ok (((rc, reply), x'), al')) :
    (deliver next clock (.handled al acked) msg x).2 = x' := by
  unfold deliver
  dsimp only
  rw [hm]
  dsimp only
  rw [hrun]
  dsimp only
  split
  next => rfl
  next => rfl

theorem deliver_fault {e : Fault} (hm : msg.content allocated = .ok (m, allocated))
    (hrun : invoke (next.map answering) clock m.toMessageT x al = .error e) :
    (deliver next clock (.handled al acked) msg x).2 = x := by
  unfold deliver
  dsimp only
  rw [hm]
  dsimp only
  rw [hrun]

end Deliver

theorem deliver_put {s : Server} (h : s.table.WF)
    (next : Option (MessageT → W → Option MessageT × W)) (clock : Timeval × Timeval) (d : Delivery)
    (key : CStr) {v : List Byte} (hlen : v.length < 2 ^ 31) (w : W) :
    (deliver next clock d (putMessage key v) (s, w)).2.1.table.map
      = putMap (d.storesPut s.table key v) s.table.map key v := by
  cases d with
  | lost => rfl
  | handled al acked =>
    have hput : invoke (next.map answering) clock (putWire key v).toMessageT
        = invokePut (next.map answering) clock (putMessage key v) := invoke_put _ _ rfl
    have hentry : (putMessage key v).entry = some ⟨some key, v⟩ := rfl
    cases hfault : putFaults s.table key v al with
    | true =>
      have hno : putStores s.table key v al = false := by
        simp only [putFaults, Bool.and_eq_true, Bool.not_eq_true', decide_eq_false_iff_not]
          at hfault
        simp [putStores, hfault.1.2]
      rw [deliver_fault next clock acked (content_putMessage key v _)
        (by rw [hput, invokePut_fault next clock hentry hlen hfault])]
      simp [Delivery.storesPut, hno, putMap]
    | false =>
      obtain ⟨rc, reply, s', al', hrun, -, hmap, -, -⟩ :=
        invokePut_run h next clock hentry hlen hfault w
      rw [deliver_ok next clock acked (content_putMessage key v _) (by rw [hput, hrun])]
      exact hmap

theorem deliver_del {s : Server} (h : s.table.WF)
    (next : Option (MessageT → W → Option MessageT × W)) (clock : Timeval × Timeval) (d : Delivery)
    (key : CStr) (w : W) :
    (deliver next clock d (keyMessage OP_DEL key) (s, w)).2.1.table.map
      = if d.removes s.table key = true then s.table.map.erase key else s.table.map := by
  cases d with
  | lost => rfl
  | handled al acked =>
    have hdel : invoke (next.map answering) clock (keyWire OP_DEL key).toMessageT
        = invokeDel (next.map answering) clock (keyMessage OP_DEL key) := invoke_del _ _ rfl
    by_cases hk : s.table.Indexes key
    · have hk' : s.table.Indexes (keyMessage OP_DEL key).key := hk
      obtain ⟨reply, s', hrun, -, hmap, -, -⟩ := invokeDel_run h next clock hk' al w
      rw [deliver_ok next clock acked (content_keyMessage OP_DEL key _) (by rw [hdel, hrun])]
      rw [if_pos (by simp [Delivery.removes, hk])]
      exact hmap
    · have hk' : ¬ s.table.Indexes (keyMessage OP_DEL key).key := hk
      rw [deliver_fault next clock acked (content_keyMessage OP_DEL key _)
        (by rw [hdel, invokeDel_fault _ clock hk'])]
      simp [Delivery.removes, hk]

/-! ## When an acknowledged write is on the successor -/

section Agreement

variable (next : Option (MessageT → W → Option MessageT × W)) (clock clock' : Timeval × Timeval)

/-- An acknowledged write is in both tables, and a PUT that failed here is not
in the successor's. -/
def WriteAgrees (s : Server) (x : Server × W) (m : WireMsg) (al : Allocs) (d : Delivery) : Prop :=
  ∀ rc reply s' x' al',
    invoke (some (answering (deliver next clock' d))) clock m.toMessageT (s, x) al
      = .ok (((rc, reply), (s', x')), al') →
    (reply.opcode = OP_PUT + 1 → ∃ e, m.entry = some e ∧
      s'.table.map = s.table.map.insert e.key e.value ∧
      x'.1.table.map = x.1.table.map.insert e.key e.value) ∧
    (reply.opcode = OP_DEL + 1 →
      s'.table.map = s.table.map.erase m.key ∧ x'.1.table.map = x.1.table.map.erase m.key) ∧
    (m.opcode = OP_PUT → rc = -1 → x'.1.table.map = x.1.table.map)

/-- The condition for a PUT, on the two tables before it, on its allocations and
on the fate of the forwarded request. -/
def PutMeets (t succ : Table) (key : CStr) (v : List Byte) (al : Allocs) (d : Delivery) : Prop :=
  if putFaults t key v al = true then True
  else if putRes t key v al = -1 then
    -- refused here: nothing may change at the successor
    (putSends t key v al && d.storesPut succ key v) = false ∨ succ.map.lookup key = some v
  else
    -- accepted here: down to the list node, and stored by the successor
    putStores t key v al = true ∧
      ((putSends t key v al && d.storesPut succ key v) = true ∨ succ.map.lookup key = some v)

/-- The condition for a DEL. -/
def DelMeets (t succ : Table) (key : CStr) (d : Delivery) : Prop :=
  ¬ t.Indexes key ∨ key ∉ t.map ∨ key ∉ succ.map ∨ d.removes succ key = true

instance (t succ : Table) (key : CStr) (v : List Byte) (al : Allocs) (d : Delivery) :
    Decidable (PutMeets t succ key v al d) :=
  inferInstanceAs (Decidable (ite _ _ (ite _ _ _)))

instance (t succ : Table) (key : CStr) (d : Delivery) : Decidable (DelMeets t succ key d) :=
  inferInstanceAs (Decidable (_ ∨ _ ∨ _ ∨ _))

theorem erase_eq_self_iff {M : KvMap} {key : CStr} : M.erase key = M ↔ key ∉ M := by
  constructor
  · intro h hmem
    rw [← h, Finmap.mem_erase] at hmem
    exact hmem.1 rfl
  · intro hmem
    apply Finmap.ext_lookup
    intro k
    by_cases hk : k = key
    · rw [hk, Finmap.lookup_erase, Finmap.lookup_eq_none.mpr hmem]
    · rw [Finmap.lookup_erase_ne hk]

/-- `table_put` answers 0 without storing only for a key that is new. -/
theorem putOutcome_unstored {pos : Option EntryList} {key : CStr} {al : Allocs}
    (hres : (putOutcome pos key al).res ≠ -1) (hno : (putOutcome pos key al).stores = false) :
    key ∉ (nodesOf pos).map Entry.key := by
  unfold putOutcome at hres hno
  split at hres
  next => simp at hres
  split at hres
  next => simp at hres
  split at hres
  next => simp at hres
  split at hres
  next => simp at hres
  next h0 h1 h2 h3 =>
    rw [if_neg h0, if_neg h1, if_neg h2, if_neg h3] at hno
    cases pos with
    | none => simp [nodesOf]
    | some l =>
      intro hmem
      rw [nodesOf] at hmem
      simp [hmem] at hno

theorem putStores_eq_false {t : Table} (h : t.WF) {key : CStr} {v : List Byte} {al : Allocs}
    (hfault : putFaults t key v al = false) (hres : putRes t key v al ≠ -1)
    (hno : putStores t key v al = false) : t.map.lookup key = none := by
  unfold putRes at hres
  split at hres
  next => exact absurd rfl hres
  next hok =>
    obtain ⟨hv, h0⟩ := not_or.mp hok
    rw [Bool.not_eq_false] at h0
    have hk : t.Indexes key := by
      by_contra hk
      have hcopied : copied (Allocs.drop al 1) = false := by
        simpa [putFaults, hv, h0, hk] using hfault
      exact hres (putOutcome_of_not_copied hcopied _ key).1
    have hunstored : (putOutcome (t.listOf key) key (Allocs.drop al 1)).stores = false := by
      simpa [putStores, hv, h0, hk] using hno
    rw [Finmap.lookup_eq_none, h.mem_map]
    exact putOutcome_unstored hres hunstored

/-- The successor's table after a PUT that may have been forwarded to it. -/
theorem map_sentTo_put {x : Server × W} (hx : x.1.table.WF) (d : Delivery) (sends : Bool)
    (key : CStr) {v : List Byte} (hlen : v.length < 2 ^ 31) :
    (if sends = true then sentTo (some (deliver next clock' d)) (putMessage key v) x
        else x).1.table.map
      = putMap (sends && d.storesPut x.1.table key v) x.1.table.map key v := by
  cases sends with
  | false => rfl
  | true =>
    rw [if_pos rfl, Bool.true_and]
    exact deliver_put hx next clock' d key hlen x.2

section Run

variable {s s' : Server} {x x' : Server × W} {m : WireMsg} {al al' : Allocs} {d : Delivery}
  {rc : Int} {reply : MessageT}
  (hrun : invoke (some (answering (deliver next clock' d))) clock m.toMessageT (s, x) al
    = .ok (((rc, reply), (s', x')), al'))

include hrun

/-- For the run that there is, what its reply asks for. -/
theorem writeAgrees_of_run : WriteAgrees next clock clock' s x m al d ↔
    (reply.opcode = OP_PUT + 1 → ∃ e, m.entry = some e ∧
        s'.table.map = s.table.map.insert e.key e.value ∧
        x'.1.table.map = x.1.table.map.insert e.key e.value) ∧
      (reply.opcode = OP_DEL + 1 →
        s'.table.map = s.table.map.erase m.key ∧ x'.1.table.map = x.1.table.map.erase m.key) ∧
      (m.opcode = OP_PUT → rc = -1 → x'.1.table.map = x.1.table.map) := by
  constructor
  · intro hag
    exact hag _ _ _ _ _ hrun
  · intro hreply rc₂ reply₂ s₂ x₂ al₂ heq
    rw [hrun] at heq
    cases heq
    exact hreply

theorem writeAgrees_put_acked (hreply : reply.opcode = OP_PUT + 1) (hrc : rc = 0) {e : WireEntry}
    (hentry : m.entry = some e) : WriteAgrees next clock clock' s x m al d ↔
      s'.table.map = s.table.map.insert e.key e.value ∧
        x'.1.table.map = x.1.table.map.insert e.key e.value := by
  rw [writeAgrees_of_run next clock clock' hrun, hreply, hrc, hentry]
  constructor
  · rintro ⟨hput, -, -⟩
    obtain ⟨e', he', hmaps⟩ := hput rfl
    cases he'
    exact hmaps
  · intro hmaps
    exact ⟨fun _ => ⟨e, rfl, hmaps⟩, fun h => absurd h (by decide),
      fun _ h => absurd h (by decide)⟩

theorem writeAgrees_put_refused (hreply : reply.opcode = OP_ERROR) (hrc : rc = -1)
    (hop : m.opcode = OP_PUT) :
    WriteAgrees next clock clock' s x m al d ↔ x'.1.table.map = x.1.table.map := by
  rw [writeAgrees_of_run next clock clock' hrun, hreply, hrc, hop]
  constructor
  · rintro ⟨-, -, hput⟩
    exact hput rfl rfl
  · intro hmap
    exact ⟨fun h => absurd h (by decide), fun h => absurd h (by decide), fun _ _ => hmap⟩

theorem writeAgrees_del_acked (hreply : reply.opcode = OP_DEL + 1) (hop : m.opcode = OP_DEL) :
    WriteAgrees next clock clock' s x m al d ↔
      s'.table.map = s.table.map.erase m.key ∧ x'.1.table.map = x.1.table.map.erase m.key := by
  rw [writeAgrees_of_run next clock clock' hrun, hreply, hop]
  constructor
  · rintro ⟨-, hdel, -⟩
    exact hdel rfl
  · intro hmaps
    exact ⟨fun h => absurd h (by decide), fun _ => hmaps, fun h => absurd h (by decide)⟩

/-- A DEL of a key that is not here promises nothing. -/
theorem writeAgrees_del_refused (hreply : reply.opcode = OP_ERROR) (hop : m.opcode = OP_DEL) :
    WriteAgrees next clock clock' s x m al d := by
  rw [writeAgrees_of_run next clock clock' hrun, hreply, hop]
  exact ⟨fun h => absurd h (by decide), fun h => absurd h (by decide),
    fun h => absurd h (by decide)⟩

end Run

theorem writeAgrees_put_iff {s : Server} {x : Server × W} (hs : s.table.WF) (hx : x.1.table.WF)
    {m : WireMsg} (hop : m.opcode = OP_PUT) {e : WireEntry} (hentry : m.entry = some e)
    (hlen : e.value.length < 2 ^ 31) (al : Allocs) (d : Delivery) :
    WriteAgrees next clock clock' s x m al d
      ↔ PutMeets s.table x.1.table e.key e.value al d := by
  have hinvoke : invoke (some (answering (deliver next clock' d))) clock m.toMessageT
      = invokePut ((some (deliver next clock' d)).map answering) clock m.toMessageT :=
    invoke_put _ _ hop
  have hmsg : m.toMessageT.entry = some ⟨some e.key, e.value⟩ := by
    rw [WireMsg.toMessageT, hentry]
    rfl
  unfold PutMeets
  cases hfault : putFaults s.table e.key e.value al with
  | true =>
    -- no answer at all
    unfold WriteAgrees
    rw [if_pos rfl, hinvoke, invokePut_fault _ clock hmsg hlen hfault]
    simp
  | false =>
    rw [if_neg (by simp)]
    obtain ⟨rc, reply, s', al', hrun, -, hmap, hrefused, haccepted⟩ :=
      invokePut_run hs (some (deliver next clock' d)) clock hmsg hlen hfault x
    have hsucc := map_sentTo_put next clock' hx d (putSends s.table e.key e.value al) e.key hlen
    rw [← hinvoke] at hrun
    by_cases hres : putRes s.table e.key e.value al = -1
    · obtain ⟨hrc, hreply⟩ := hrefused hres
      rw [writeAgrees_put_refused next clock clock' hrun (by rw [hreply]; rfl) hrc hop, hsucc,
        if_pos hres, putMap_eq_self_iff]
    · obtain ⟨hrc, hreply⟩ := haccepted hres
      rw [writeAgrees_put_acked next clock clock' hrun (by rw [hreply]; rfl) hrc hentry, hsucc,
        hmap, if_neg hres, putMap_eq_insert_iff, putMap_eq_insert_iff]
      refine and_congr_left' (or_iff_left_of_imp fun hsome => ?_)
      -- an answer without the node means a key that was not there
      by_contra hno
      rw [putStores_eq_false hs hfault hres (Bool.eq_false_of_not_eq_true hno)] at hsome
      cases hsome

theorem writeAgrees_del_iff {s : Server} {x : Server × W} (hs : s.table.WF) (hx : x.1.table.WF)
    {m : WireMsg} (hop : m.opcode = OP_DEL) (al : Allocs) (d : Delivery) :
    WriteAgrees next clock clock' s x m al d ↔ DelMeets s.table x.1.table m.key d := by
  have hinvoke : invoke (some (answering (deliver next clock' d))) clock m.toMessageT
      = invokeDel ((some (deliver next clock' d)).map answering) clock m.toMessageT :=
    invoke_del _ _ hop
  unfold DelMeets
  by_cases hk : s.table.Indexes m.key
  · have hk' : s.table.Indexes m.toMessageT.key := hk
    obtain ⟨reply, s', hrun, -, hmap, hfound, habsent⟩ :=
      invokeDel_run hs (some (deliver next clock' d)) clock hk' al x
    have hkey : m.toMessageT.key = m.key := rfl
    rw [← hinvoke] at hrun
    rw [hkey] at hrun hmap hfound habsent
    have hsucc : (sentTo (some (deliver next clock' d)) (keyMessage OP_DEL m.key) x).1.table.map
        = if d.removes x.1.table m.key = true then x.1.table.map.erase m.key else x.1.table.map :=
      deliver_del hx next clock' d m.key x.2
    rw [or_iff_right (not_not.mpr hk)]
    by_cases hmem : m.key ∈ s.table.map
    · rw [writeAgrees_del_acked next clock clock' hrun (by rw [hfound hmem]; rfl) hop, hsucc,
        and_iff_right hmap, or_iff_right (not_not.mpr hmem)]
      cases d.removes x.1.table m.key with
      | true => simp
      | false =>
        rw [if_neg (by simp), eq_comm, erase_eq_self_iff]
        simp
    · refine iff_of_true ?_ (Or.inl hmem)
      exact writeAgrees_del_refused next clock clock' hrun (by rw [habsent hmem]; rfl) hop
  · have hk' : ¬ s.table.Indexes m.toMessageT.key := hk
    unfold WriteAgrees
    rw [hinvoke, invokeDel_fault _ clock hk']
    exact iff_of_true (by simp) (Or.inl hk)

/-- The condition for a write request. -/
def WriteMeets (t succ : Table) (m : WireMsg) (al : Allocs) (d : Delivery) : Prop :=
  if m.opcode = OP_PUT then m.entry.elim True fun e => PutMeets t succ e.key e.value al d
  else DelMeets t succ m.key d

theorem writeMeets_put {t succ : Table} {m : WireMsg} {al : Allocs} {d : Delivery} {e : WireEntry}
    (hop : m.opcode = OP_PUT) (he : m.entry = some e) :
    WriteMeets t succ m al d ↔ PutMeets t succ e.key e.value al d := by
  unfold WriteMeets
  rw [if_pos hop, he]
  rfl

/-- **When an acknowledged write is on the successor**: exactly when no
allocation that `table_put` does not report fails, and the forwarded request is
carried out there if and only if the write was here (or changes nothing). -/
theorem write_agrees_iff (s : Server) (x : Server × W) (hs : s.table.WF) (hx : x.1.table.WF)
    (m : WireMsg) (hop : m.opcode = OP_PUT ∨ m.opcode = OP_DEL) (hfit : messageSize m ≤ 65535)
    (al : Allocs) (d : Delivery) :
    WriteAgrees next clock clock' s x m al d ↔ WriteMeets s.table x.1.table m al d := by
  rcases hop with hput | hdel
  · cases hentry : m.entry with
    | none =>
      -- no entry in the request: the process ends at the NULL pointer
      have hmsg : m.toMessageT.entry = none := by
        rw [WireMsg.toMessageT, hentry]
        rfl
      have hmeets : WriteMeets s.table x.1.table m al d := by
        unfold WriteMeets
        rw [if_pos hput, hentry]
        trivial
      refine iff_of_true (fun rc reply s' x' al' hrun => ?_) hmeets
      rw [invoke_put _ _ hput, invokePut_noEntry _ clock hmsg] at hrun
      cases hrun
    | some e =>
      have hlen := entry_le_messageSize hentry
      rw [writeMeets_put hput hentry]
      exact writeAgrees_put_iff next clock clock' hs hx hput hentry (by omega) al d
  · have hput : m.opcode ≠ OP_PUT := by
      rw [hdel]
      decide
    rw [WriteMeets, if_neg hput]
    exact writeAgrees_del_iff next clock clock' hs hx hdel al d

end Agreement

/-! ## Two empty servers, and `put a 1` -/

/-- A server with one list and nothing in it. -/
def emptyServer : Server := ⟨⟨[none], 1⟩, 0, 0, ⟨0, 0, 0⟩⟩

theorem emptyServer_wf : emptyServer.table.WF := wf_replicate (by decide : (0 : Int) < 1)

theorem nul_notMem_keyA : (0 : Byte) ∉ [97] := by decide

def keyA : CStr := ⟨[97], nul_notMem_keyA⟩

/-- The key "b". -/
def keyB : CStr := ⟨[98], by decide⟩

theorem nul_notMem_keyD : (0 : Byte) ∉ [100] := by decide

/-- The key "d", in three lists at the position of "a". -/
def keyD : CStr := ⟨[100], nul_notMem_keyD⟩

theorem hashable_keyA : Hashable keyA :=
  .of_length (by simp [keyA, CStr.SevenBit]) (by simp [keyA])

theorem hashable_keyB : Hashable keyB :=
  .of_length (by simp [keyB, CStr.SevenBit]) (by simp [keyB])

/-- Nothing happens between the two clock readings. -/
def noTime : Timeval × Timeval := (⟨0, 0⟩, ⟨0, 0⟩)

/-- The request is forwarded and lost: it is acknowledged all the same. -/
theorem lost_write_acknowledged :
    ¬ WriteAgrees (W := Unit) none noTime noTime emptyServer (emptyServer, ()) (putWire keyA [1])
      allocated .lost := by
  rw [writeAgrees_put_iff none noTime noTime emptyServer_wf emptyServer_wf rfl rfl (by decide)]
  change ¬ PutMeets _ _ keyA [1] _ _
  decide

theorem write_agrees_handled :
    WriteAgrees (W := Unit) none noTime noTime emptyServer (emptyServer, ()) (putWire keyA [1])
      allocated (.handled allocated true) := by
  rw [write_agrees_iff none noTime noTime emptyServer (emptyServer, ()) emptyServer_wf
    emptyServer_wf (putWire keyA [1]) (Or.inl rfl) (by decide), writeMeets_put rfl rfl]
  decide

end KvStorage
