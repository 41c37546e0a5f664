import KvStorage.Lib.Decimal
import KvStorage.Membership.Select
import KvStorage.Server.Monitor

/-!
# The successor's handle while it is replaced

`next_server` is written by the ZooKeeper watcher, which takes no lock, and read by
`invoke` before it waits in `start_write`. The steps here are those of the source:
`set_next_server` selects, passes the old handle to `rtable_disconnect`, assigns the new
one; `invoke` reads the handle, waits for the write lock, changes the table, forwards on
the handle it has read, and leaves.

In general a handle can be closed while a request that read it waits. On the runs where
the watcher leaves the handle alone meanwhile (`Undisturbed`), every request forwards on
the current handle (`forwards_on_current_handle`).
-/

namespace KvStorage

open CLib RwMonitor

/-! ## Handles -/

/-- An `rtable_t`. The number is that of the call of `rtable_connect` that made it. -/
structure Rtable where
  id : Nat
  serverAddress : List Byte
  serverPort : Nat
  deriving DecidableEq

/-- The character `:`. -/
def colon : Byte := 58

/-- `strtok` with the delimiter `:`: the token, and the string behind it. -/
def strtok (s : List Byte) : Option (List Byte × List Byte) :=
  let s := s.dropWhile (· = colon)
  if s = [] then none else some (s.takeWhile (· ≠ colon), s.dropWhile (· ≠ colon))

/-- `rtable_connect`, call number `id`; `reached` says whether there was memory and `connect`
succeeded. -/
def rtableConnect (id : Nat) (addressPort : Option CStr) (reached : Bool) : Option Rtable :=
  match addressPort with
  | none => none
  | some addressPort =>
    match strtok addressPort.bytes with
    | none => none
    | some (hostName, rest) =>
      match strtok rest with
      | none => none
      | some (portoString, _) =>
        let porto := atoi portoString
        if porto ≤ 0 then none
        else if inetPton hostName ∧ reached then some ⟨id, hostName, porto.toNat⟩ else none

/-- `antigo_sucessor_data`: the address of the handle with the port behind it, and no
colon between them. -/
def antigoSucessorData (r : Rtable) : List Byte := r.serverAddress ++ decimal r.serverPort

/-! ## States -/

/-- Where a thread is in the PUT or DEL branch of `invoke`, with the handle it has read. -/
inductive WriteStage
  | idle
  /-- `get_next_server` has returned; `start_write` is to come, or not left yet. -/
  | entering (nextServer : Option Rtable)
  /-- The table was changed; the call over the handle is next. -/
  | forwarding (nextServer : Option Rtable)
  | leaving

/-- Where the watcher is in `set_next_server`. -/
inductive WatcherStage
  | idle
  /-- The loop is over. -/
  | selected (novoSucessor : Option CStr)
  /-- There is no successor, and the old handle was disconnected. -/
  | clearing
  /-- The old handle was disconnected, or there was none; `rtable_connect` is next. -/
  | connecting (sucessorData : Option CStr)

/-- A server process: its request threads `κ` and the watcher. -/
structure Handles (κ : Type) where
  monitor : RwMonitor κ
  stage : κ → WriteStage
  nextServer : Option Rtable
  watcher : WatcherStage
  /-- The handles passed to `rtable_disconnect`. -/
  disconnected : List Nat
  /-- The number of the next call of `rtable_connect`. -/
  calls : Nat

variable {κ : Type} [DecidableEq κ]

namespace Handles

/-- Thread `k` goes on to a stage. -/
def toStage (s : Handles κ) (k : κ) (stage : WriteStage) : Handles κ :=
  { s with stage := Function.update s.stage k stage }

/-- `rtable_disconnect`, and where the watcher goes on. -/
def disconnect (s : Handles κ) (r : Rtable) (watcher : WatcherStage) : Handles κ :=
  { s with disconnected := r.id :: s.disconnected, watcher := watcher }

/-- One step of a request thread or of the watcher of the server `nodeId`. -/
inductive Step (nodeId : CStr) : Handles κ → Handles κ → Prop
  | getNextServer {s : Handles κ} {k : κ} : s.stage k = .idle → s.monitor.place k = .outside →
      Step nodeId s (s.toStage k (.entering s.nextServer))
  | startWrite {s : Handles κ} {k : κ} {r : Option Rtable} : s.stage k = .entering r →
      s.monitor.place k = .outside →
      Step nodeId s { s with monitor := s.monitor.startWrite k }
  | wakeWrite {s : Handles κ} {k : κ} {r : Option Rtable} {woken : Bool} :
      s.stage k = .entering r → s.monitor.place k = .sleepsWrite woken →
      Step nodeId s { s with monitor := s.monitor.startWrite k }
  -- `table_put` or `table_remove`
  | apply {s : Handles κ} {k : κ} {r : Option Rtable} : s.stage k = .entering r →
      s.monitor.place k = .writing → Step nodeId s (s.toStage k (.forwarding r))
  -- `rtable_put` or `rtable_del` on `r`, or nothing when it is NULL
  | forward {s : Handles κ} {k : κ} {r : Option Rtable} : s.stage k = .forwarding r →
      Step nodeId s (s.toStage k .leaving)
  | endWrite {s : Handles κ} {k : κ} : s.stage k = .leaving → s.monitor.place k = .writing →
      Step nodeId s { s.toStage k .idle with monitor := s.monitor.endWrite k }
  -- the other requests do not use the handle
  | startRead {s : Handles κ} {k : κ} : s.stage k = .idle → s.monitor.place k = .outside →
      Step nodeId s { s with monitor := s.monitor.startRead k }
  | wakeRead {s : Handles κ} {k : κ} {woken : Bool} : s.stage k = .idle →
      s.monitor.place k = .sleepsRead woken →
      Step nodeId s { s with monitor := s.monitor.startRead k }
  | endRead {s : Handles κ} {k : κ} : s.stage k = .idle → s.monitor.place k = .reading →
      Step nodeId s { s with monitor := s.monitor.endRead k }
  | select {s : Handles κ} (children : List CStr) : s.watcher = .idle →
      Step nodeId s { s with watcher := .selected (novoSucessor nodeId none children) }
  | noSuccessor {s : Handles κ} : s.watcher = .selected none → s.nextServer = none →
      Step nodeId s { s with watcher := .idle }
  | dropSuccessor {s : Handles κ} {r : Rtable} : s.watcher = .selected none →
      s.nextServer = some r → Step nodeId s (s.disconnect r .clearing)
  | clear {s : Handles κ} : s.watcher = .clearing →
      Step nodeId s { s with nextServer := none, watcher := .idle }
  | firstSuccessor {s : Handles κ} {c : CStr} (sucessorData : Option CStr) :
      s.watcher = .selected (some c) → s.nextServer = none →
      Step nodeId s { s with watcher := .connecting sucessorData }
  | sameSuccessor {s : Handles κ} {c : CStr} (sucessorData : CStr) {r : Rtable} :
      s.watcher = .selected (some c) → s.nextServer = some r →
      sucessorData.bytes = antigoSucessorData r → Step nodeId s { s with watcher := .idle }
  | newSuccessor {s : Handles κ} {c : CStr} (sucessorData : CStr) {r : Rtable} :
      s.watcher = .selected (some c) → s.nextServer = some r →
      sucessorData.bytes ≠ antigoSucessorData r →
      Step nodeId s (s.disconnect r (.connecting (some sucessorData)))
  | connect {s : Handles κ} {sucessorData : Option CStr} (reached : Bool) :
      s.watcher = .connecting sucessorData →
      Step nodeId s { s with nextServer := rtableConnect s.calls sucessorData reached,
                             calls := s.calls + 1, watcher := .idle }

end Handles

open Handles

/-- All runs of the server `nodeId`, from the start of the process. -/
def handles (κ : Type) [DecidableEq κ] (nodeId : CStr) : Transition.System (Handles κ) where
  init s := s = ⟨⟨0, 0, fun _ => .outside⟩, fun _ => .idle, none, .idle, [], 0⟩
  step := Step nodeId

/-! ## An unchanged successor

The comparison of `set_next_server` never finds the successor unchanged: every address
`rtable_connect` accepts has a colon, and the rebuilt one has none. So every event with a
successor closes the handle and opens another one. -/

theorem strtok_eq_some {s token rest : List Byte} (h : strtok s = some (token, rest)) :
    token = (s.dropWhile (· = colon)).takeWhile (· ≠ colon) ∧
      rest = (s.dropWhile (· = colon)).dropWhile (· ≠ colon) := by
  unfold strtok at h
  dsimp only at h
  split at h
  next => cases h
  next =>
    cases h
    exact ⟨rfl, rfl⟩

/-- A token is a part of the string. -/
theorem strtok_sublist {s token rest : List Byte} (h : strtok s = some (token, rest)) :
    token.Sublist s := by
  rw [(strtok_eq_some h).1]
  exact (List.takeWhile_sublist _).trans (List.dropWhile_sublist _)

theorem strtok_inv {s token rest : List Byte} (h : strtok s = some (token, rest)) :
    colon ∉ token ∧ (rest ≠ [] → colon ∈ s) := by
  obtain ⟨rfl, rfl⟩ := strtok_eq_some h
  constructor
  · intro hmem
    simpa using List.mem_takeWhile_imp hmem
  · intro hne
    have hhead := List.head_dropWhile_not (fun b : Byte => decide (b ≠ colon)) hne
    have hmem := List.head_mem hne
    rw [decide_eq_false_iff_not, not_not] at hhead
    rw [hhead] at hmem
    exact (List.dropWhile_sublist _).subset ((List.dropWhile_sublist _).subset hmem)

theorem colon_notMem_decimal (n : Nat) : colon ∉ decimal n := by
  intro hmem
  obtain ⟨d, hd, heq⟩ := List.mem_map.mp hmem
  have hlt := Nat.digits_lt_base (by omega) (List.mem_reverse.mp hd)
  have hval : (48 + d) % 256 = 58 := congrArg Fin.val heq
  omega

/-- There is a handle exactly where all of `rtable_connect` went well. -/
theorem rtableConnect_eq_some {id : Nat} {addressPort : Option CStr} {reached : Bool} {r : Rtable} :
    rtableConnect id addressPort reached = some r ↔ ∃ d hostName rest portoString rest',
      addressPort = some d ∧ strtok d.bytes = some (hostName, rest) ∧
      strtok rest = some (portoString, rest') ∧ 0 < atoi portoString ∧
      inetPton hostName = true ∧ reached = true ∧ r = ⟨id, hostName, (atoi portoString).toNat⟩ := by
  constructor
  · intro h
    unfold rtableConnect at h
    split at h
    next => cases h
    next d =>
      split at h
      next => cases h
      next hostName rest hhost =>
        split at h
        next => cases h
        next portoString rest' hporto =>
          dsimp only at h
          split at h
          next => cases h
          next hpos =>
            split at h
            next hreached =>
              cases h
              exact ⟨d, hostName, rest, portoString, rest', rfl, hhost, hporto, by omega,
                hreached.1, hreached.2, rfl⟩
            next => cases h
  · rintro ⟨d, hostName, rest, portoString, rest', rfl, hhost, hporto, hpos, htaken, hreached, rfl⟩
    unfold rtableConnect
    simp only [hhost, hporto]
    rw [if_neg (by omega), if_pos ⟨htaken, hreached⟩]

/-- What `rtable_connect` read off the address. -/
theorem rtableConnect_some {id : Nat} {addressPort : CStr} {reached : Bool} {r : Rtable}
    (h : rtableConnect id (some addressPort) reached = some r) :
    r.id = id ∧ colon ∈ addressPort.bytes ∧ colon ∉ r.serverAddress ∧
      inetPton r.serverAddress = true := by
  obtain ⟨d, hostName, rest, portoString, rest', hd, hhost, hporto, -, htaken, -, rfl⟩ :=
    rtableConnect_eq_some.mp h
  cases hd
  obtain ⟨hnot, hcolon⟩ := strtok_inv hhost
  have hrest : rest ≠ [] := by
    intro hnil
    rw [hnil] at hporto
    cases hporto
  exact ⟨rfl, hcolon hrest, hnot, htaken⟩

/-- The address put together from a handle has no colon. -/
theorem colon_notMem_antigoSucessorData {r : Rtable} (h : colon ∉ r.serverAddress) :
    colon ∉ antigoSucessorData r := by
  intro hmem
  rcases List.mem_append.mp hmem with hhost | hport
  · exact h hhost
  · exact colon_notMem_decimal _ hport

theorem ne_antigoSucessorData {id id' : Nat} {old new : CStr} {r r' : Rtable}
    (hold : rtableConnect id (some old) true = some r)
    (hnew : rtableConnect id' (some new) true = some r') :
    new.bytes ≠ antigoSucessorData r := by
  intro heq
  obtain ⟨-, hcolon, -, -⟩ := rtableConnect_some hnew
  obtain ⟨-, -, hnot, -⟩ := rtableConnect_some hold
  rw [heq] at hcolon
  exact colon_notMem_antigoSucessorData hnot hcolon

/-! ## Leaving the handle alone -/

/-- The handle a thread has read and not used yet. -/
def WriteStage.held : WriteStage → Option (Option Rtable)
  | entering r => some r
  | forwarding r => some r
  | _ => none

/-- Between `rtable_disconnect` and the assignment to `next_server`. -/
def WatcherStage.Replacing : WatcherStage → Prop
  | clearing => True
  | connecting _ => True
  | _ => False

namespace Handles

/-- `next_server` still is the handle that was disconnected. -/
def Stale (s : Handles κ) : Prop := s.watcher.Replacing ∧ s.nextServer ≠ none

/-- The watcher disconnects the handle and changes `next_server` only while no request is
between reading the handle and forwarding, and no request reads it in between. -/
structure Undisturbed (s s' : Handles κ) : Prop where
  watcher : s'.disconnected ≠ s.disconnected ∨ s'.nextServer ≠ s.nextServer →
    ∀ k, (s.stage k).held = none
  reader : ∀ k, (s.stage k).held = none → (s'.stage k).held ≠ none → ¬ s.Stale

/-- What every request in progress has read is the current handle, and that one is
connected. -/
structure Current (s : Handles κ) : Prop where
  held : ∀ k r, (s.stage k).held = some r → r = s.nextServer ∧ ¬ s.Stale
  live : ∀ r, s.nextServer = some r → ¬ s.Stale → r.id ∉ s.disconnected
  old : ∀ id ∈ s.disconnected, id < s.calls
  made : ∀ r, s.nextServer = some r → r.id < s.calls

variable {s s' : Handles κ}

theorem stage_toStage_self (k : κ) (stage : WriteStage) : (s.toStage k stage).stage k = stage :=
  Function.update_self ..

theorem stage_toStage_of_ne {k k' : κ} (h : k' ≠ k) (stage : WriteStage) :
    (s.toStage k stage).stage k' = s.stage k' := Function.update_of_ne h ..

theorem held_toStage {k : κ} {stage : WriteStage} {k' : κ} {r : Option Rtable}
    (h : ((s.toStage k stage).stage k').held = some r) :
    stage.held = some r ∨ (s.stage k').held = some r := by
  by_cases hk : k' = k
  · subst hk
    rw [stage_toStage_self] at h
    exact Or.inl h
  · rw [stage_toStage_of_ne hk] at h
    exact Or.inr h

theorem rtableConnect_id {id : Nat} {addressPort : Option CStr} {reached : Bool} {r : Rtable}
    (h : rtableConnect id addressPort reached = some r) : r.id = id := by
  cases addressPort with
  | none => cases h
  | some addressPort => exact (rtableConnect_some h).1

/-! ### One step -/

omit [DecidableEq κ] in
/-- A step of a request changes nothing but what that request holds. -/
theorem Current.request (h : s.Current) (hnext : s'.nextServer = s.nextServer)
    (hwatcher : s'.watcher = s.watcher) (hdisc : s'.disconnected = s.disconnected)
    (hcalls : s'.calls = s.calls)
    (hheld : ∀ k r, (s'.stage k).held = some r →
      (s.stage k).held = some r ∨ r = s.nextServer ∧ ¬ s.Stale) : s'.Current := by
  have hstale : s'.Stale ↔ s.Stale := by
    unfold Stale
    rw [hnext, hwatcher]
  constructor
  · intro k r hk
    rw [hnext, hstale]
    rcases hheld k r hk with hold | hnew
    · exact h.held k r hold
    · exact hnew
  · rw [hnext, hstale, hdisc]
    exact h.live
  · rw [hdisc, hcalls]
    exact h.old
  · rw [hnext, hcalls]
    exact h.made

omit [DecidableEq κ] in
/-- The watcher goes on without touching a handle. -/
theorem Current.goOn (h : s.Current) (hs : ¬ s.Stale) {watcher : WatcherStage}
    (hw : ¬ Stale { s with watcher := watcher }) : Current { s with watcher := watcher } where
  held k r hk := ⟨(h.held k r hk).1, hw⟩
  live r hr _ := h.live r hr hs
  old := h.old
  made := h.made

omit [DecidableEq κ] in
theorem Current.disconnect (h : s.Current) (hnobody : ∀ k, (s.stage k).held = none) {r : Rtable}
    (hr : s.nextServer = some r) {watcher : WatcherStage} (hw : watcher.Replacing) :
    (s.disconnect r watcher).Current where
  held k r' hk := by
    have hnone : (s.stage k).held = none := hnobody k
    exact absurd (hnone.symm.trans hk) nofun
  live r' hr' hs := by
    refine absurd ⟨hw, ?_⟩ hs
    show s.nextServer ≠ none
    rw [hr]
    nofun
  old id hid := by
    rcases List.mem_cons.mp hid with heq | hmem
    · rw [heq]
      exact h.made r hr
    · exact h.old id hmem
  made := h.made

omit [DecidableEq κ] in
/-- The assignment at the end: the new handle is NULL or comes from this call. -/
theorem Current.assign (h : s.Current) {r : Option Rtable} {calls : Nat}
    (hcalls : s.calls ≤ calls) (hfresh : ∀ x, r = some x → x.id = s.calls ∧ s.calls < calls)
    (hnobody : r ≠ s.nextServer → ∀ k, (s.stage k).held = none) :
    Current { s with nextServer := r, calls := calls, watcher := .idle } where
  held k r' hk := by
    by_cases hsame : r = s.nextServer
    · exact ⟨(h.held k r' hk).1.trans hsame.symm, fun hstale => hstale.1⟩
    · exact absurd ((hnobody hsame k).symm.trans hk) nofun
  live x hx _ := by
    intro hmem
    have hlt := h.old x.id hmem
    have hid := (hfresh x hx).1
    omega
  old id hid := (h.old id hid).trans_le hcalls
  made x hx := by
    obtain ⟨hid, hlt⟩ := hfresh x hx
    exact hid ▸ hlt

theorem Current.step {nodeId : CStr} (h : s.Current) (hs : Step nodeId s s')
    (hu : Undisturbed s s') : s'.Current := by
  have hstays : ∀ {k : κ} {stage : WriteStage} {r : Option Rtable}, (s.stage k).held = some r →
      stage.held = some r ∨ stage.held = none → (s.toStage k stage).Current := by
    intro k stage r hk hstage
    refine h.request rfl rfl rfl rfl ?_
    intro k' r' hk'
    rcases held_toStage hk' with hnew | hold
    · rcases hstage with hsome | hnone
      · rw [hsome] at hnew
        cases hnew
        exact Or.inr (h.held k r hk)
      · rw [hnone] at hnew
        cases hnew
    · exact Or.inl hold
  cases hs with
  | @getNextServer k hk _ =>
    refine h.request rfl rfl rfl rfl ?_
    intro k' r hk'
    rcases held_toStage hk' with hnew | hold
    · refine Or.inr ⟨(Option.some.inj hnew).symm, hu.reader k (by rw [hk]; rfl) ?_⟩
      rw [stage_toStage_self]
      nofun
    · exact Or.inl hold
  | startWrite _ _ => exact h.request rfl rfl rfl rfl fun k r hk => Or.inl hk
  | wakeWrite _ _ => exact h.request rfl rfl rfl rfl fun k r hk => Or.inl hk
  | apply hk _ => exact hstays (by rw [hk]; rfl) (Or.inl rfl)
  | forward hk => exact hstays (by rw [hk]; rfl) (Or.inr rfl)
  | @endWrite k hk _ =>
    refine h.request rfl rfl rfl rfl ?_
    intro k' r hk'
    rcases held_toStage (s := s) hk' with hnew | hold
    · cases hnew
    · exact Or.inl hold
  | startRead _ _ => exact h.request rfl rfl rfl rfl fun k r hk => Or.inl hk
  | wakeRead _ _ => exact h.request rfl rfl rfl rfl fun k r hk => Or.inl hk
  | endRead _ _ => exact h.request rfl rfl rfl rfl fun k r hk => Or.inl hk
  | select _ hw =>
    refine h.goOn ?_ fun hstale => hstale.1
    unfold Stale
    rw [hw]
    exact fun hstale => hstale.1
  | noSuccessor hw hnone => exact h.goOn (fun hstale => hstale.2 hnone) fun hstale => hstale.1
  | @dropSuccessor r _ hr =>
    exact h.disconnect (hu.watcher (Or.inl (List.cons_ne_self _ _))) hr trivial
  | clear _ =>
    refine h.assign le_rfl nofun ?_
    intro hne
    exact hu.watcher (Or.inr hne)
  | firstSuccessor _ _ hnone =>
    exact h.goOn (fun hstale => hstale.2 hnone) fun hstale => hstale.2 hnone
  | sameSuccessor _ hw _ _ =>
    refine h.goOn ?_ fun hstale => hstale.1
    unfold Stale
    rw [hw]
    exact fun hstale => hstale.1
  | newSuccessor _ _ hr _ =>
    exact h.disconnect (hu.watcher (Or.inl (List.cons_ne_self _ _))) hr trivial
  | connect _ _ =>
    refine h.assign (Nat.le_succ _) ?_ ?_
    · intro x hx
      exact ⟨rtableConnect_id hx, Nat.lt_succ_self _⟩
    · intro hne
      exact hu.watcher (Or.inr hne)

end Handles

theorem current_of_reachable {nodeId : CStr} {s : Handles κ}
    (h : ((handles κ nodeId).restrict Undisturbed).Reachable s) : s.Current := by
  refine h.invariant (I := Current) ?_ ?_
  · intro s hs
    subst hs
    exact ⟨nofun, nofun, nofun, nofun⟩
  · intro s s' hcurrent hs
    exact hcurrent.step hs.1 hs.2

/-- **The current handle.** On the runs in which the watcher leaves the handle alone while a
request holds it, whoever is about to forward does so on the value of `next_server`, which
was not disconnected; where there is a successor, the write goes to it. -/
theorem forwards_on_current_handle {nodeId : CStr} {s : Handles κ}
    (h : ((handles κ nodeId).restrict Undisturbed).Reachable s) {k : κ} {r : Option Rtable}
    (hk : s.stage k = .forwarding r) :
    r = s.nextServer ∧ (∀ x, r = some x → x.id ∉ s.disconnected) ∧
      ∀ x, s.nextServer = some x → r = some x := by
  have hcurrent := current_of_reachable h
  obtain ⟨heq, hstale⟩ := hcurrent.held k r (by rw [hk]; rfl)
  subst heq
  exact ⟨rfl, fun x hx => hcurrent.live x hx hstale, fun x hx => hx⟩

/-! ## Two requests and the end of the successor -/

/-- The data of the second server: `127.0.0.1:5000`. -/
def secondData : CStr := ⟨[49, 50, 55, 46, 48, 46, 48, 46, 49, 58, 53, 48, 48, 48], by decide⟩

/-- The handle on it. -/
def secondHandle : Rtable := ⟨0, [49, 50, 55, 46, 48, 46, 48, 46, 49], 5000⟩

/-- The server `0` with its handle on the server `1`. -/
def connectedHandles : Handles (Fin 2) :=
  ⟨⟨0, 0, fun _ => .outside⟩, fun _ => .idle, some secondHandle, .idle, [], 1⟩

theorem connectedHandles_reachable :
    ((handles (Fin 2) (digitId 0)).restrict Undisturbed).Reachable connectedHandles := by
  have hquiet : ∀ {s s' : Handles (Fin 2)}, s'.stage = s.stage →
      (s'.disconnected ≠ s.disconnected ∨ s'.nextServer ≠ s.nextServer →
        ∀ k, (s.stage k).held = none) → Undisturbed s s' := by
    intro s s' hstage hwatcher
    refine ⟨hwatcher, fun k hnone hsome => ?_⟩
    rw [hstage] at hsome
    exact absurd hnone hsome
  have hidle : ∀ k : Fin 2, ((fun _ => WriteStage.idle) k).held = none := fun _ => rfl
  have h0 := Transition.System.Reachable.init
    (M := (handles (Fin 2) (digitId 0)).restrict Undisturbed) rfl
  have h1 := h0.step ⟨.select [digitId 0, digitId 1] rfl,
    hquiet rfl fun _ => hidle⟩
  have h2 := h1.step ⟨.firstSuccessor (c := digitId 1) (some secondData) rfl rfl,
    hquiet rfl fun _ => hidle⟩
  have h3 := h2.step ⟨.connect true rfl, hquiet rfl fun _ => hidle⟩
  exact h3

/-- A PUT in the first thread is forwarded on the handle. -/
theorem forwards_on_current_handle_connected : ∃ s : Handles (Fin 2),
    s.stage 0 = .forwarding (some secondHandle) ∧ some secondHandle = s.nextServer := by
  have hquiet : ∀ {s s' : Handles (Fin 2)}, s'.disconnected = s.disconnected →
      s'.nextServer = s.nextServer → s.watcher = .idle → Undisturbed s s' := by
    intro s s' hdisc hnext hidle
    refine ⟨fun h => ?_, fun k _ _ hstale => ?_⟩
    · rcases h with h | h
      · exact absurd hdisc h
      · exact absurd hnext h
    · rw [Stale, hidle] at hstale
      exact hstale.1
  have h1 := connectedHandles_reachable.step ⟨.getNextServer (k := 0) rfl rfl, hquiet rfl rfl rfl⟩
  have h2 := h1.step ⟨.startWrite (k := 0) rfl rfl, hquiet rfl rfl rfl⟩
  have h3 := h2.step ⟨.apply (k := 0) rfl rfl, hquiet rfl rfl rfl⟩
  exact ⟨_, rfl, (forwards_on_current_handle (k := 0) h3 rfl).1⟩

/-- The second thread reads the handle and waits for a GET of the first; meanwhile the
successor leaves and its handle is closed; then the second thread forwards on it. -/
theorem forwards_on_closed_handle : ∃ s : Handles (Fin 2),
    (handles (Fin 2) (digitId 0)).Reachable s ∧ s.stage 1 = .forwarding (some secondHandle) ∧
      s.nextServer = none ∧ secondHandle.id ∈ s.disconnected := by
  have h1 := connectedHandles_reachable.of_restrict.step (.startRead (k := 0) rfl rfl)
  have h2 := h1.step (.getNextServer (k := 1) rfl rfl)
  have h3 := h2.step (.startWrite (k := 1) rfl rfl)
  have h4 := h3.step (.select [digitId 0] rfl)
  have h5 := h4.step (.dropSuccessor (r := secondHandle) rfl rfl)
  have h6 := h5.step (.clear rfl)
  have h7 := h6.step (.endRead (k := 0) rfl rfl)
  have h8 := h7.step (.wakeWrite (k := 1) rfl rfl)
  have h9 := h8.step (.apply (k := 1) rfl rfl)
  exact ⟨_, h9, rfl, rfl, List.mem_cons_self⟩

end KvStorage
