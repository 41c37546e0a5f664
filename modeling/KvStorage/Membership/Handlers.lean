import KvStorage.Membership.Address
import KvStorage.Membership.Transfer
import KvStorage.Server.Requests

/-!
# The handlers of a server

`set_next_server` and `set_antecessor` from the call to the return, one at a time. What
`get_node_data` answers for a child and whether `rtable_connect` gets through are arguments.
`strcmp` reads both its strings, so a NULL from `get_node_data` is a fault there, while
`rtable_connect` checks for it.

The string a handle is compared with is put together in two buffers (`oldData`). `sprintf`
writes the port into `char porto[8]`, so a port of eight digits or more is a fault. `strcat`
writes it behind a `strdup` of the host, into what `malloc` rounds its blocks up to: a host that
`inet_pton` has taken has at most 15 bytes, and with seven digits that is always enough
(`oldData_run`).

`set_antecessor` puts what its predecessor sends up to the first entry without a value, and a
key whose hash is negative ends that outside the table (`setAntecessor_safe_iff`).
-/

namespace KvStorage

open CLib Table

/-! ## The handles of a process -/

/-- The calls of `rtable_connect` so far, and the handles passed to `rtable_disconnect`. -/
structure Links where
  calls : Nat
  disconnected : List Nat

namespace Links

def close (l : Links) (r : Rtable) : Links := { l with disconnected := r.id :: l.disconnected }

/-- After one more call of `rtable_connect`. -/
def next (l : Links) : Links := { l with calls := l.calls + 1 }

/-- `rtable_connect`, with the next number. -/
def connect (data : Option CStr) (reached : Bool) : StateT Links CM (Option Rtable) := fun l =>
  pure (rtableConnect l.calls data reached, l.next)

def rtableDisconnect (r : Rtable) : StateT Links CM Unit := modify (·.close r)

/-- Only handles that were made are closed. -/
def Sound (l : Links) : Prop := ∀ id ∈ l.disconnected, id < l.calls

/-- A handle that was made from an address and is not closed. -/
structure Holds (l : Links) (r : Rtable) : Prop where
  made : r.id < l.calls
  kept : r.id ∉ l.disconnected
  built : ∃ data, rtableConnect r.id (some data) true = some r

/-- The handle is NULL, or open and on the address `data`. -/
def On (l : Links) (data : Option CStr) (h : Option Rtable) : Prop :=
  ∀ r, h = some r → l.Holds r ∧ rtableConnect r.id data true = some r

variable {l : Links} {r : Rtable}

theorem connect_run (data : Option CStr) (reached : Bool) (al : Allocs) :
    connect data reached l al = .ok ((rtableConnect l.calls data reached, l.next), al) := rfl

theorem rtableDisconnect_run (al : Allocs) :
    rtableDisconnect r l al = .ok (((), l.close r), al) := rfl

theorem Sound.next (h : l.Sound) : l.next.Sound := fun id hid => Nat.lt_succ_of_lt (h id hid)

theorem Sound.close (h : l.Sound) (hr : r.id < l.calls) : (l.close r).Sound := by
  intro id hid
  rcases List.mem_cons.mp hid with rfl | hid
  · exact hr
  · exact h id hid

end Links

theorem rtableConnect_reached {id : Nat} {data : Option CStr} {reached : Bool} {r : Rtable}
    (h : rtableConnect id data reached = some r) :
    r.id = id ∧ reached = true ∧ ∃ d, data = some d ∧ rtableConnect id (some d) true = some r := by
  obtain ⟨d, _, _, _, _, rfl, -, -, -, -, rfl, rfl⟩ := rtableConnect_eq_some.mp h
  exact ⟨rfl, rfl, d, rfl, h⟩

/-- A handle just made is on its address, and open. -/
theorem Links.Sound.on_connect {l : Links} (h : l.Sound) (data : Option CStr) (reached : Bool) :
    l.next.On data (rtableConnect l.calls data reached) := by
  intro r hr
  obtain ⟨hid, -, d, rfl, hd⟩ := rtableConnect_reached hr
  rw [← hid] at hd
  have hlt : r.id < l.next.calls := by
    rw [hid]
    exact Nat.lt_succ_self _
  have hkept : r.id ∉ l.next.disconnected := by
    intro hmem
    have hlt := h _ hmem
    omega
  exact ⟨⟨hlt, hkept, d, hd⟩, hd⟩

/-! ## Comparing addresses -/

/-- No block that `malloc` hands out has room for fewer bytes. -/
def blockRoom : Nat := 24

/-- `antigo_sucessor_data` in `set_next_server`, `old_data` in `alt_check`. -/
def oldData (r : Rtable) : CM (List Byte) := do
  let porto := decimal r.serverPort
  -- `sprintf` into `char porto[8]`
  if 8 ≤ porto.length then throw .outOfBounds
  -- `strdup` and `strcat`
  else if ← malloc then
    if max blockRoom (r.serverAddress.length + 1) < r.serverAddress.length + porto.length + 1 then
      throw .outOfBounds
    else pure (antigoSucessorData r)
  else throw .nullDeref

/-- The buffers hold every address with a port of at most seven digits. -/
theorem oldData_run {l : Links} {r : Rtable} (h : l.Holds r) :
    oldData r allocated
      = if r.serverPort < portLimit then .ok (antigoSucessorData r, allocated)
        else .error .outOfBounds := by
  obtain ⟨d, hd⟩ := h.built
  have hhost := length_of_inetPton (rtableConnect_some hd).2.2.2
  have hdigits : 8 ≤ (decimal r.serverPort).length ↔ ¬ r.serverPort < portLimit := by
    rw [portLimit, ← length_decimal_le_iff]
    omega
  unfold oldData
  by_cases hport : r.serverPort < portLimit
  · have hfit : ¬ max blockRoom (r.serverAddress.length + 1)
        < r.serverAddress.length + (decimal r.serverPort).length + 1 := by
      have hlen := mt hdigits.mp (not_not_intro hport)
      unfold blockRoom
      omega
    rw [if_neg (mt hdigits.mp (not_not_intro hport)), if_pos hport,
      run_bind_ok malloc_allocated, if_pos rfl, if_neg hfit]
    rfl
  · rw [if_pos (hdigits.mpr hport), if_neg hport]
    rfl

/-- The `strcmp` of `set_next_server` and of `alt_check`. -/
def compareData (data : CStr) (r : Rtable) : Int := strcmpBytes data.bytes (antigoSucessorData r)

theorem nul_notMem_serverAddress {id : Nat} {data : CStr} {r : Rtable}
    (h : rtableConnect id (some data) true = some r) : (0 : Byte) ∉ r.serverAddress := by
  obtain ⟨d, hostName, rest, portoString, rest', hd, hhost, -, -, -, -, rfl⟩ :=
    rtableConnect_eq_some.mp h
  cases hd
  exact fun hmem => data.nul_free ((strtok_sublist hhost).subset hmem)

/-- They are found equal when the data is the host with the port right behind it. -/
theorem compareData_eq_zero {l : Links} {r : Rtable} (h : l.Holds r) (data : CStr) :
    compareData data r = 0 ↔ data.bytes = antigoSucessorData r := by
  obtain ⟨d, hd⟩ := h.built
  refine strcmpBytes_eq_zero data.nul_free fun hmem => ?_
  rcases List.mem_append.mp hmem with hhost | hport
  · exact nul_notMem_serverAddress hd hhost
  · exact nul_notMem_decimal _ hport

/-- The string a handle is compared with is no address. -/
theorem ne_of_connected {l : Links} {r r' : Rtable} (h : l.Holds r) {data : CStr} {id : Nat}
    (hdata : rtableConnect id (some data) true = some r') : data.bytes ≠ antigoSucessorData r := by
  obtain ⟨d, hd⟩ := h.built
  exact ne_antigoSucessorData hd hdata

namespace Handlers

/-! ## `set_next_server` -/

/-- `set_next_server` of the server `nodeId`: its result, and the handle it leaves. -/
def setNextServer (nodeId : CStr) (childrenList : List CStr) (nodeData : CStr → Option CStr)
    (reached : Bool) (nextServer : Option Rtable) : StateT Links CM (Int × Option Rtable) :=
  match novoSucessor nodeId none childrenList with
  | none =>
    match nextServer with
    | none => pure (0, none)
    | some r => do
      Links.rtableDisconnect r
      pure (0, none)
  | some novoSucessor => do
    let sucessorData := nodeData novoSucessor
    match nextServer with
    | none => openNext sucessorData
    | some r =>
      let antigoSucessorData ← oldData r
      let sucessor ← deref sucessorData
      if strcmpBytes sucessor.bytes antigoSucessorData = 0 then pure (0, some r)
      else
        Links.rtableDisconnect r
        openNext sucessorData
where
  openNext (sucessorData : Option CStr) : StateT Links CM (Int × Option Rtable) := do
    let nextServer ← Links.connect sucessorData reached
    if nextServer = none then pure (-1, none) else pure (0, nextServer)

/-- The handle after `rtable_connect`, and what the caller returns for it. -/
theorem openNext_run (reached : Bool) (data : Option CStr) (l : Links) :
    setNextServer.openNext reached data l allocated
      = .ok (((if rtableConnect l.calls data reached = none then -1 else 0,
          rtableConnect l.calls data reached), l.next), allocated) := by
  unfold setNextServer.openNext
  rw [state_bind_ok (Links.connect_run ..)]
  split
  next h => rw [h]; rfl
  next => rfl

section SetNextServer

variable {nodeId c : CStr} {childrenList : List CStr} {nodeData : CStr → Option CStr}
  {reached : Bool} {r : Rtable} {l : Links}

theorem setNextServer_none (h : novoSucessor nodeId none childrenList = none)
    (nextServer : Option Rtable) :
    setNextServer nodeId childrenList nodeData reached nextServer l allocated
      = .ok (((0, none), nextServer.elim l l.close), allocated) := by
  unfold setNextServer
  rw [h]
  cases nextServer with
  | none => rfl
  | some r => rfl

theorem setNextServer_first (h : novoSucessor nodeId none childrenList = some c) :
    setNextServer nodeId childrenList nodeData reached none l allocated
      = .ok (((if rtableConnect l.calls (nodeData c) reached = none then -1 else 0,
          rtableConnect l.calls (nodeData c) reached), l.next), allocated) := by
  unfold setNextServer
  rw [h]
  exact openNext_run ..

/-- A handle with a port that `porto` has no room for. -/
theorem setNextServer_wide (h : novoSucessor nodeId none childrenList = some c) (hr : l.Holds r)
    (hwide : ¬ r.serverPort < portLimit) :
    setNextServer nodeId childrenList nodeData reached (some r) l allocated
      = .error .outOfBounds := by
  have hold : oldData r allocated = .error .outOfBounds := (oldData_run hr).trans (if_neg hwide)
  unfold setNextServer
  rw [h]
  dsimp only
  rw [state_bind, state_lift, hold]
  rfl

/-- A child that disappeared, with a handle to compare: NULL goes to `strcmp`. -/
theorem setNextServer_gone (h : novoSucessor nodeId none childrenList = some c) (hr : l.Holds r)
    (hroom : r.serverPort < portLimit) (hdata : nodeData c = none) :
    setNextServer nodeId childrenList nodeData reached (some r) l allocated
      = .error .nullDeref := by
  have hold : oldData r allocated = .ok (antigoSucessorData r, allocated) :=
    (oldData_run hr).trans (if_pos hroom)
  unfold setNextServer
  rw [h]
  dsimp only
  rw [state_bind_ok (state_lift_ok hold), hdata]
  rfl

theorem setNextServer_compared (h : novoSucessor nodeId none childrenList = some c)
    (hr : l.Holds r) (hroom : r.serverPort < portLimit) {d : CStr} (hdata : nodeData c = some d) :
    setNextServer nodeId childrenList nodeData reached (some r) l allocated
      = .ok (if compareData d r = 0 then ((0, some r), l)
          else ((if rtableConnect l.calls (some d) reached = none then -1 else 0,
            rtableConnect l.calls (some d) reached), (l.close r).next), allocated) := by
  have hold : oldData r allocated = .ok (antigoSucessorData r, allocated) :=
    (oldData_run hr).trans (if_pos hroom)
  have hderef : deref (some d) allocated = .ok (d, allocated) := rfl
  unfold setNextServer compareData
  rw [h]
  dsimp only
  rw [state_bind_ok (state_lift_ok hold), hdata, state_bind_ok (state_lift_ok hderef)]
  split
  next => rfl
  next =>
    rw [state_bind_ok (Links.rtableDisconnect_run _)]
    exact openNext_run ..

/-- `set_next_server` returns, and the handle is NULL or on the child it selects. -/
def NextServerSafe (nodeId : CStr) (childrenList : List CStr) (nodeData : CStr → Option CStr)
    (reached : Bool) (nextServer : Option Rtable) (l : Links) : Prop :=
  ∃ rc h l', setNextServer nodeId childrenList nodeData reached nextServer l allocated
      = .ok (((rc, h), l'), allocated) ∧ l'.Sound ∧
    l'.On ((novoSucessor nodeId none childrenList).bind nodeData) h

theorem setNextServer_safe_iff (hl : l.Sound) {nextServer : Option Rtable}
    (hnext : ∀ r, nextServer = some r → l.Holds r) :
    NextServerSafe nodeId childrenList nodeData reached nextServer l ↔
      ∀ c r, novoSucessor nodeId none childrenList = some c → nextServer = some r →
        r.serverPort < portLimit ∧ ∃ d, nodeData c = some d ∧ d.bytes ≠ antigoSucessorData r := by
  unfold NextServerSafe
  cases hnovo : novoSucessor nodeId none childrenList with
  | none =>
    refine iff_of_true ⟨_, _, _, setNextServer_none hnovo nextServer, ?_, nofun⟩ nofun
    cases nextServer with
    | none => exact hl
    | some r => exact hl.close (hnext r rfl).made
  | some c =>
    rw [Option.bind_some]
    cases nextServer with
    | none =>
      exact iff_of_true ⟨_, _, _, setNextServer_first hnovo, hl.next, hl.on_connect _ _⟩ nofun
    | some r =>
      have hr := hnext r rfl
      by_cases hroom : r.serverPort < portLimit
      · cases hdata : nodeData c with
        | none =>
          refine iff_of_false ?_ fun hcond => ?_
          · intro ⟨rc, h, l', hrun, _⟩
            rw [setNextServer_gone hnovo hr hroom hdata] at hrun
            cases hrun
          · obtain ⟨d, hd, -⟩ := (hcond c r rfl rfl).2
            rw [hdata] at hd
            cases hd
        | some d =>
          have hrun : setNextServer nodeId childrenList nodeData reached (some r) l allocated = _ :=
            setNextServer_compared hnovo hr hroom hdata
          by_cases hsame : d.bytes = antigoSucessorData r
          · -- the handle stays, on an address that the data is not
            rw [if_pos ((compareData_eq_zero hr d).mpr hsame)] at hrun
            refine iff_of_false ?_ fun hcond => ?_
            · intro ⟨rc, h, l', hrun', _, hon⟩
              rw [hrun] at hrun'
              cases hrun'
              exact ne_of_connected hr (hon r rfl).2 hsame
            · obtain ⟨d', hd', hne⟩ := (hcond c r rfl rfl).2
              rw [hdata] at hd'
              cases hd'
              exact hne hsame
          · rw [if_neg fun heq => hsame ((compareData_eq_zero hr d).mp heq)] at hrun
            have hclosed := hl.close hr.made
            refine iff_of_true ⟨_, _, _, hrun, hclosed.next, hclosed.on_connect _ _⟩ ?_
            intro c' r' hc' hr'
            cases hc'
            cases hr'
            exact ⟨hroom, d, hdata, hsame⟩
      · refine iff_of_false ?_ fun hcond => hroom (hcond c r rfl rfl).1
        intro ⟨rc, h, l', hrun, _⟩
        rw [setNextServer_wide hnovo hr hroom] at hrun
        cases hrun

end SetNextServer

/-! ## `set_antecessor` -/

/-- `set_antecessor` before the transfer. -/
def connectAntecessor (nodeId : CStr) (childrenList : List CStr) (nodeData : CStr → Option CStr)
    (reached : Bool) : StateT Links CM (Int × Option Rtable) :=
  match antecessor nodeId none childrenList with
  | none => pure (0, none)
  | some antecessor => do
    let previousServer ← Links.connect (nodeData antecessor) reached
    if previousServer = none then pure (-1, none) else pure (0, previousServer)

/-- `set_antecessor`; `answer` is what the predecessor sends back for its table. -/
def setAntecessor (nodeId : CStr) (childrenList : List CStr) (nodeData : CStr → Option CStr)
    (reached : Bool) (answer : Option MessageT) (table : Table) :
    StateT Links CM (Int × Table) := do
  let (rc, previousServer) ← connectAntecessor nodeId childrenList nodeData reached
  match previousServer with
  | none => pure (rc, table)
  | some r =>
    let (table, _) ← KvStorage.setAntecessor (fun _ => pure answer : Remote Unit) table ()
    Links.rtableDisconnect r
    pure (0, table)

end Handlers

/-! ### The transfer, whatever message comes back -/

/-- What any message of one frame holds. -/
structure InFrame (m : WireMsg) : Prop where
  entries : m.entries.length ≤ 65535
  values : ∀ e ∈ m.entries, e.value.length ≤ 65535

/-- The entries of an answer that `set_antecessor` puts. -/
def WireMsg.transferred (m : WireMsg) : List WireEntry :=
  if m.opcode = OP_GETTABLE + 1 then m.entries.takeWhile fun e => e.value ≠ [] else []

/-- The copies up to the first NULL are those of the entries up to the first without a value. -/
theorem takeWhile_copy (es : List WireEntry) :
    (es.map WireEntry.copy).takeWhile Option.isSome
      = (es.takeWhile fun e => e.value ≠ []).map fun e => some e.toEntry := by
  induction es with
  | nil => rfl
  | cons e es ih =>
    by_cases hne : e.value = []
    · have hcopy : e.copy = none := if_pos hne
      rw [List.map_cons, hcopy, List.takeWhile_cons_of_neg (by decide),
        List.takeWhile_cons_of_neg (by simpa using hne)]
      rfl
    · have hcopy : e.copy = some e.toEntry := if_neg hne
      rw [List.map_cons, hcopy, List.takeWhile_cons_of_pos rfl, ih,
        List.takeWhile_cons_of_pos (by simpa using hne), List.map_cons]

theorem copy_valid {es : List WireEntry} {e : Entry} (h : some e ∈ es.map WireEntry.copy) :
    e.value.Valid := by
  obtain ⟨received, -, hcopy⟩ := List.mem_map.mp h
  unfold WireEntry.copy at hcopy
  split at hcopy
  next => cases hcopy
  next hne =>
    cases hcopy
    exact Block.ofBytes_valid hne

/-- What `rtable_get_table` makes of any message of one frame. -/
theorem rtableGetTable_answer {m : WireMsg} (hm : InFrame m) :
    rtableGetTable (fun _ => pure (some m.toMessageT) : Remote Unit) () allocated
      = .ok ((if m.opcode = OP_GETTABLE + 1 then some (m.entries.map WireEntry.copy ++ [none])
          else none, ()), allocated) := by
  have hcall : (pure (some m.toMessageT) : StateT Unit CM (Option MessageT)) () allocated
      = .ok ((some m.toMessageT, ()), allocated) := rfl
  have hopcode : m.toMessageT.opcode = m.opcode := rfl
  unfold rtableGetTable
  rw [state_bind_ok hcall]
  dsimp only
  rw [hopcode]
  by_cases hanswers : m.opcode = OP_GETTABLE + 1
  · have hcount := hm.entries
    rw [if_neg (not_not_intro hanswers), if_pos hanswers]
    exact state_lift_ok (copyReceivedEntries_allocated (by omega) fun e he =>
      lt_of_le_of_lt (hm.values e he) (by decide))
  · rw [if_pos hanswers, if_neg hanswers]
    rfl

/-- The transfer over a connection gets through where the keys that are put hash to indices. -/
theorem transfer_returns_iff {m : WireMsg} (hm : InFrame m) {table : Table} (h : table.WF) :
    (∃ r, setAntecessor (fun _ => pure (some m.toMessageT) : Remote Unit) table () allocated
        = .ok r) ↔ ∀ e ∈ m.transferred, table.Indexes e.key := by
  unfold setAntecessor WireMsg.transferred
  rw [state_bind_ok (rtableGetTable_answer hm)]
  by_cases hanswers : m.opcode = OP_GETTABLE + 1
  · have hvalid : ∀ e, some e ∈ m.entries.map WireEntry.copy → e.value.Valid :=
      fun e he => copy_valid he
    have hputs := putEntries_returns_iff h hvalid
    rw [takeWhile_copy] at hputs
    rw [if_pos hanswers, if_pos hanswers]
    dsimp only
    rw [state_lift]
    constructor
    · intro ⟨r, hr⟩ e he
      obtain ⟨t', hput, -⟩ := bind_eq_ok.mp hr
      exact hputs.mp ⟨t', hput⟩ e.toEntry (List.mem_map_of_mem he)
    · intro hall
      obtain ⟨t', hput⟩ := hputs.mpr fun e he => by
        obtain ⟨received, hmem, heq⟩ := List.mem_map.mp he
        cases heq
        exact hall received hmem
      exact ⟨_, by rw [hput]; rfl⟩
  · rw [if_neg hanswers, if_neg hanswers]
    exact iff_of_true ⟨((table, ()), allocated), rfl⟩ nofun

namespace Handlers

variable {nodeId : CStr} {childrenList : List CStr} {nodeData : CStr → Option CStr}
  {reached : Bool} {l : Links}

theorem connectAntecessor_run (h : l.Sound) : ∃ rc previousServer l',
    connectAntecessor nodeId childrenList nodeData reached l allocated
      = .ok (((rc, previousServer), l'), allocated) ∧ l'.Sound ∧
    l'.On ((antecessor nodeId none childrenList).bind nodeData) previousServer := by
  unfold connectAntecessor
  cases antecessor nodeId none childrenList with
  | none => exact ⟨0, none, l, rfl, h, nofun⟩
  | some a =>
    dsimp only
    rw [state_bind_ok (Links.connect_run ..), Option.bind_some]
    have hon := h.on_connect (nodeData a) reached
    split
    next hnone =>
      rw [hnone] at hon
      exact ⟨-1, none, l.next, rfl, h.next, hon⟩
    next => exact ⟨0, _, l.next, rfl, h.next, hon⟩

/-- `set_antecessor` connects to the child it selects or to none, and returns. -/
structure AntecessorSafe (nodeId : CStr) (childrenList : List CStr)
    (nodeData : CStr → Option CStr) (reached : Bool) (answer : Option WireMsg) (table : Table)
    (l : Links) : Prop where
  connects : ∃ rc previousServer l',
    connectAntecessor nodeId childrenList nodeData reached l allocated
      = .ok (((rc, previousServer), l'), allocated) ∧ l'.Sound ∧
    l'.On ((antecessor nodeId none childrenList).bind nodeData) previousServer
  returns : ∃ r, setAntecessor nodeId childrenList nodeData reached
    (answer.map WireMsg.toMessageT) table l allocated = .ok r

/-- `rtable_connect` gives `set_antecessor` a handle. -/
def Reaches (nodeId : CStr) (childrenList : List CStr) (nodeData : CStr → Option CStr)
    (reached : Bool) (l : Links) : Prop :=
  rtableConnect l.calls ((antecessor nodeId none childrenList).bind nodeData) reached ≠ none

theorem connectAntecessor_reaches {rc : Int} {previousServer : Option Rtable} {l' : Links}
    (hrun : connectAntecessor nodeId childrenList nodeData reached l allocated
      = .ok (((rc, previousServer), l'), allocated)) :
    previousServer ≠ none ↔ Reaches nodeId childrenList nodeData reached l := by
  unfold connectAntecessor at hrun
  unfold Reaches
  cases hselect : antecessor nodeId none childrenList with
  | none =>
    rw [hselect] at hrun
    cases hrun
    exact Iff.rfl
  | some a =>
    rw [hselect] at hrun
    dsimp only at hrun
    rw [state_bind_ok (Links.connect_run ..)] at hrun
    rw [Option.bind_some]
    split at hrun
    next hnone =>
      cases hrun
      exact iff_of_false (not_not_intro rfl) (not_not_intro hnone)
    next hsome =>
      cases hrun
      exact Iff.rfl

theorem setAntecessor_safe_iff (h : l.Sound) {table : Table} (ht : table.WF)
    {answer : Option WireMsg} (hanswer : ∀ m, answer = some m → InFrame m) :
    AntecessorSafe nodeId childrenList nodeData reached answer table l ↔
      (Reaches nodeId childrenList nodeData reached l → ∀ m, answer = some m →
        ∀ e ∈ m.transferred, 0 ≤ hashValue e.key table.size) := by
  have hconnect : ∃ rc previousServer l',
      connectAntecessor nodeId childrenList nodeData reached l allocated
        = .ok (((rc, previousServer), l'), allocated) ∧ l'.Sound ∧
      l'.On ((antecessor nodeId none childrenList).bind nodeData) previousServer :=
    connectAntecessor_run h
  obtain ⟨rc, previousServer, l', hrun, -⟩ := hconnect
  have hreaches := connectAntecessor_reaches hrun
  have hreturns : (∃ r, setAntecessor nodeId childrenList nodeData reached
      (answer.map WireMsg.toMessageT) table l allocated = .ok r) ↔
        (Reaches nodeId childrenList nodeData reached l → ∀ m, answer = some m →
          ∀ e ∈ m.transferred, table.Indexes e.key) := by
    unfold setAntecessor
    rw [state_bind_ok hrun]
    cases previousServer with
    | none => exact iff_of_true ⟨_, rfl⟩ fun hreached => absurd rfl (hreaches.mpr hreached)
    | some r =>
      rw [forall_prop_of_true (hreaches.mp nofun)]
      dsimp only
      rw [state_bind, state_lift]
      cases answer with
      | none => exact iff_of_true ⟨_, rfl⟩ nofun
      | some m =>
        have htransfer := transfer_returns_iff (hanswer m rfl) ht
        constructor
        · intro ⟨x, hx⟩ m' hm'
          cases hm'
          obtain ⟨y, hy, -⟩ := bind_eq_ok.mp hx
          obtain ⟨z, hz, -⟩ := bind_eq_ok.mp hy
          exact htransfer.mp ⟨z, hz⟩
        · intro hkeys
          obtain ⟨z, hz⟩ := htransfer.mpr (hkeys m rfl)
          exact ⟨_, by rw [Option.map_some, hz]; rfl⟩
  exact ⟨fun hsafe => hreturns.mp hsafe.returns, fun hkeys =>
    ⟨connectAntecessor_run h, hreturns.mpr hkeys⟩⟩

end Handlers

end KvStorage
