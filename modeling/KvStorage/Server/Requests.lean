import KvStorage.Server.LockRelease
import KvStorage.Wire.Protobuf

/-!
# Any request

`message_t__unpack` accepts every combination of an opcode and fields. What `invoke` does with one
that the stub would never send: a PUT without an entry is read through a NULL pointer, and every
other request is answered without one; an answer `OP_ERROR` leaves the table as it was
(`invoke_safe_iff`).

The tables here are those of any run of `invoke` (`Served`): any requests, any successor, any
outcome of the allocations. They keep the representation invariant, whatever the requests were. They
may hold more keys than an `int` counts, and a key of many megabytes may hash outside the array;
such an access ends the run in the model, so the statements are about what happens before one:
`RunsTo` says that a run ends in such an access or in a result as described. Each function that
`invoke` calls has one such lemma, and each branch is put together from them.
-/

namespace KvStorage

open CLib Table

variable {W : Type}

/-! ## The branches that write -/

/-- A block that was created has the size and the bytes it was asked for. -/
theorem blockCreate_inv {size : Int} {data : Option (List Byte)} {b : Block} {al al' : Allocs}
    (hrun : blockCreate size data al = .ok (some b, al')) : b = ⟨size, data⟩ ∧ 0 < size := by
  unfold blockCreate at hrun
  split at hrun
  next => cases hrun
  next hcond =>
    simp only [run_bind, malloc_run, ok_bind] at hrun
    split at hrun
    next =>
      cases hrun
      exact ⟨rfl, by omega⟩
    next => cases hrun

/-- A length as an `int`: it may wrap, but never to a larger number. -/
theorem cint_toNat_le (n : Nat) : (cint n).toNat ≤ n := by
  unfold cint
  rw [Int.bmod_def]
  omega

theorem cint_length_le (v : List Byte) (h : 0 < cint v.length) : cint v.length ≤ v.length := by
  have hle := cint_toNat_le v.length
  generalize cint v.length = size at h hle ⊢
  omega

/-- The block of a PUT, where there is one, covers bytes of the request. -/
theorem applyPut_block {t t' : Table} {e : EntryT} {b : Block} {res : Int} {al al' : Allocs}
    (hrun : applyPut t e al = .ok ((some b, res, t'), al')) :
    b = ⟨cint e.value.length, some e.value⟩ ∧ b.Valid := by
  unfold applyPut at hrun
  dsimp only at hrun
  rw [run_bind, bind_eq_ok] at hrun
  obtain ⟨⟨dados, al₁⟩, hblock, hrest⟩ := hrun
  have hdados : dados = some b := by
    cases hkey : e.key with
    | none =>
      simp only [hkey] at hrest
      cases hrest
      rfl
    | some key =>
      simp only [hkey, run_bind, bind_eq_ok] at hrest
      obtain ⟨r, -, heq⟩ := hrest
      cases heq
      rfl
  subst hdados
  obtain ⟨rfl, hpos⟩ := blockCreate_inv hblock
  by_cases hv : e.value = []
  · rw [hv] at hpos
    exact absurd hpos (by decide)
  · have hle := cint_length_le e.value hpos
    rw [if_neg hv]
    generalize cint e.value.length = size at hpos hle ⊢
    exact ⟨rfl, hpos, e.value, rfl, hle⟩

/-- A PUT keeps the representation invariant, whatever its entry. -/
theorem applyPut_wf {t t' : Table} (h : t.WF) {e : EntryT} {dados : Option Block} {res : Int}
    {al al' : Allocs} (hrun : applyPut t e al = .ok ((dados, res, t'), al')) : t'.WF := by
  have hblock := fun b (hb : dados = some b) => (applyPut_block (hb ▸ hrun)).2
  unfold applyPut at hrun
  dsimp only at hrun
  rw [run_bind, bind_eq_ok] at hrun
  obtain ⟨⟨dados₁, al₁⟩, -, hrest⟩ := hrun
  cases hkey : e.key with
  | none =>
    simp only [hkey] at hrest
    cases hrest
    exact h
  | some key =>
    simp only [hkey, run_bind, bind_eq_ok] at hrest
    obtain ⟨⟨⟨r, t₁⟩, al₂⟩, hput, heq⟩ := hrest
    cases heq
    cases hd : dados with
    | none =>
      rw [hd] at hput
      cases hput
      exact h
    | some b =>
      rw [hd] at hput
      exact (tablePut_inv h (hblock b hd) hput).1

/-- What a PUT that returns has done: `table_put`, the forwarding, the answer. -/
theorem invokePut_inv {next : Option (Remote W)} {clock : Timeval × Timeval} {msg reply : MessageT}
    {s s' : Server} {w w' : W} {rc : Int} {al al' : Allocs}
    (hrun : invokePut next clock msg (s, w) al = .ok (((rc, reply), (s', w')), al')) :
    ∃ e dados res al₁ s₁ s₂ al₂, msg.entry = some e ∧
      applyPut s.table e al = .ok ((dados, res, s'.table), al₁) ∧
      forwardPut next e.key dados (s₁, w) al₁ = .ok (((), (s₂, w')), al₂) ∧
      (res = -1 ∧ rc = -1 ∧ reply = msg.error ∨
        res ≠ -1 ∧ rc = 0 ∧ reply = msg.answer OP_PUT CT_NONE) := by
  unfold invokePut at hrun
  rw [state_bind_ok sm_startWrite] at hrun
  cases hentry : msg.entry with
  | none =>
    rw [hentry] at hrun
    cases hrun
  | some e =>
    have hderef : deref (some e) al = .ok (e, al) := rfl
    rw [hentry, state_bind_ok (state_lift_ok hderef), state_bind_ok state_get, state_bind,
      bind_eq_ok] at hrun
    obtain ⟨⟨⟨⟨dados, res, t'⟩, x⟩, al₁⟩, hlift, hrun⟩ := hrun
    obtain ⟨happly, rfl⟩ := state_lift_eq_ok.mp hlift
    dsimp only at happly hrun
    rw [state_bind_ok (sm_setTable _), state_bind, bind_eq_ok] at hrun
    obtain ⟨⟨⟨_, ⟨s₂, w₂⟩⟩, al₂⟩, hforward, hrun⟩ := hrun
    have htable := keeps_forwardPut Server.table next e.key dados _ _ _ _ _ hforward
    dsimp only at htable hrun
    rw [state_bind_ok sm_endWrite] at hrun
    by_cases hres : res = -1
    · rw [if_pos hres] at hrun
      cases hrun
      rw [← htable] at happly
      exact ⟨e, dados, res, al₁, _, _, _, rfl, happly, hforward, Or.inl ⟨hres, rfl, rfl⟩⟩
    · rw [if_neg hres, state_bind_ok (sm_recordOperation _)] at hrun
      cases hrun
      rw [← htable] at happly
      exact ⟨e, dados, res, al₁, _, _, _, rfl, happly, hforward, Or.inr ⟨hres, rfl, rfl⟩⟩

/-- The two ends of a DEL. -/
theorem invokeDel_inv {next : Option (Remote W)} {clock : Timeval × Timeval} {msg reply : MessageT}
    {s s' : Server} {w w' : W} {rc : Int} {al al' : Allocs}
    (hrun : invokeDel next clock msg (s, w) al = .ok (((rc, reply), (s', w')), al')) :
    ∃ result al₁, tableRemove s.table msg.key al = .ok ((result, s'.table), al₁) ∧ rc = 0 ∧
      (result ≠ 0 ∧ reply = msg.error ∨ result = 0 ∧ reply = msg.answer OP_DEL CT_NONE) := by
  unfold invokeDel at hrun
  rw [state_bind_ok sm_startWrite, state_bind_ok state_get, state_bind, bind_eq_ok] at hrun
  obtain ⟨⟨⟨⟨result, t'⟩, x⟩, al₁⟩, hlift, hrun⟩ := hrun
  obtain ⟨hremove, rfl⟩ := state_lift_eq_ok.mp hlift
  dsimp only at hremove hrun
  rw [state_bind_ok (sm_setTable _), state_bind, bind_eq_ok] at hrun
  obtain ⟨⟨⟨_, ⟨s₂, w₂⟩⟩, al₂⟩, hforward, hrun⟩ := hrun
  have htable := keeps_forwardDel Server.table next msg.key _ _ _ _ _ hforward
  dsimp only at htable hrun
  rw [state_bind_ok sm_endWrite] at hrun
  by_cases hres : result = 0
  · rw [if_neg (not_not_intro hres), state_bind_ok (sm_recordOperation _)] at hrun
    cases hrun
    rw [← htable] at hremove
    exact ⟨result, al₁, hremove, rfl, Or.inr ⟨hres, rfl⟩⟩
  · rw [if_pos hres] at hrun
    cases hrun
    rw [← htable] at hremove
    exact ⟨result, al₁, hremove, rfl, Or.inl ⟨hres, rfl⟩⟩

/-! ## Served tables -/

/-- A server whose table was created with `n` lists and then changed by `invoke`. -/
inductive Served (n : Int) : Server → Prop
  | create {t : Table} {al al' : Allocs} :
      tableCreate n al = .ok (some t, al') → Served n ⟨t, 0, 0, ⟨0, 0, 0⟩⟩
  | request {W : Type} {next : Option (Remote W)} {clock : Timeval × Timeval} {msg reply : MessageT}
      {s s' : Server} {w w' : W} {rc : Int} {al al' : Allocs} : Served n s →
      invoke next clock msg (s, w) al = .ok (((rc, reply), (s', w')), al') → Served n s'

/-- One request, of any kind, keeps the representation invariant. -/
theorem invoke_table_wf {next : Option (Remote W)} {clock : Timeval × Timeval}
    {msg reply : MessageT} {s s' : Server} {w w' : W} {rc : Int} {al al' : Allocs}
    (h : s.table.WF)
    (hrun : invoke next clock msg (s, w) al = .ok (((rc, reply), (s', w')), al')) :
    s'.table.WF := by
  by_cases hput : msg.opcode = OP_PUT
  · rw [invoke_put _ _ hput] at hrun
    obtain ⟨e, dados, res, al₁, s₁, s₂, al₂, -, happly, -⟩ := invokePut_inv hrun
    exact applyPut_wf h happly
  · by_cases hdel : msg.opcode = OP_DEL
    · rw [invoke_del _ _ hdel] at hrun
      obtain ⟨result, al₁, hremove, -⟩ := invokeDel_inv hrun
      by_cases hk : s.table.Indexes msg.key
      · obtain ⟨r, t', hremove', hwf, -⟩ := tableRemove_run h hk al
        rw [hremove] at hremove'
        cases hremove'
        exact hwf
      · rw [tableRemove_unindexed hk] at hremove
        cases hremove
    · have hkeep : s'.table = s.table :=
        invoke_keeps clock msg next hput hdel _ _ _ _ _ hrun
      rw [hkeep]
      exact h

/-- By induction on the requests. -/
theorem Served.wf {n : Int} {s : Server} (hs : Served n s) : s.table.WF := by
  induction hs with
  | create hcreate =>
    have ht := tableCreate_some hcreate
    subst ht
    refine wf_replicate ?_
    by_contra hn
    rw [tableCreate, if_pos (by omega)] at hcreate
    cases hcreate
  | request _ hrun ih => exact invoke_table_wf ih hrun

/-! ## No NULL pointer, branch by branch -/

section Branches

variable {t : Table}

/-- With memory available a put succeeds, or its key hashes outside the array. -/
theorem runsTo_tablePut (h : t.WF) (key : CStr) {b : Block} (hb : b.Valid) :
    RunsTo (tablePut t key (some b)) fun r => r.1 = 0 ∧ r.2.WF := by
  by_cases hk : t.Indexes key
  · obtain ⟨t', hrun, hwf, -⟩ := tablePut_allocated h hk hb
    exact runsTo_of_run hrun ⟨rfl, hwf⟩
  · have hrun := tablePut_unindexed hk hb none allocated
    exact Or.inl hrun

theorem runsTo_blockCreate (size : Int) (data : Option (List Byte)) :
    RunsTo (blockCreate size data) fun dados =>
      ∀ b, dados = some b → b = ⟨size, data⟩ ∧ 0 < size ∧ data ≠ none := by
  unfold blockCreate
  refine runsTo_ite (fun _ => runsTo_pure nofun) fun hcond => ?_
  rw [not_or, not_le] at hcond
  refine runsTo_bind runsTo_malloc fun ok hok => ?_
  rw [if_pos hok]
  refine runsTo_pure fun b hb => ?_
  cases hb
  exact ⟨rfl, hcond⟩

/-- The block over a received value, where there is one, covers its bytes. -/
theorem runsTo_receivedBlock (v : List Byte) :
    RunsTo (blockCreate (cint v.length) (if v = [] then none else some v)) fun dados =>
      ∀ b, dados = some b → b.Valid := by
  have hsize := cint_length_le v
  generalize cint v.length = size at hsize ⊢
  refine (runsTo_blockCreate size _).imp fun dados hdados b hb => ?_
  obtain ⟨rfl, hpos, hdata⟩ := hdados b hb
  split at hdata
  next => exact absurd rfl hdata
  next hv =>
    rw [if_neg hv]
    exact ⟨hpos, v, rfl, hsize hpos⟩

/-- -1 is answered only before the table was changed. -/
theorem runsTo_applyPut (h : t.WF) (e : EntryT) :
    RunsTo (applyPut t e) fun r => (∀ b, r.1 = some b → b.Valid) ∧ (r.2.1 = -1 → r.2.2 = t) := by
  unfold applyPut
  refine runsTo_bind (runsTo_receivedBlock e.value) fun dados hvalid => ?_
  cases e.key with
  | none => exact runsTo_pure ⟨hvalid, fun _ => rfl⟩
  | some key =>
    cases dados with
    | none => exact runsTo_pure ⟨nofun, fun _ => rfl⟩
    | some b =>
      refine runsTo_bind (runsTo_tablePut h key (hvalid b rfl)) fun r hr => ?_
      refine runsTo_pure ⟨hvalid, fun hres => ?_⟩
      rw [hr.1] at hres
      cases hres

theorem runsTo_entryCreate (key : Option CStr) (value : Option Block) :
    RunsTo (entryCreate key value) fun entry => ∀ e, entry = some e → value = some e.value := by
  unfold entryCreate
  split
  next =>
    refine runsTo_bind runsTo_malloc fun ok hok => ?_
    rw [if_pos hok]
    refine runsTo_pure fun e he => ?_
    cases he
    rfl
  next => exact runsTo_pure nofun

/-- The exchange happens on the connection; the server is what it was. -/
theorem runsTo_forward {α : Type} {p : StateT W CM α} {w : W} (hp : RunsTo (p w) fun _ => True)
    (s : Server) : RunsTo (discard (forward p) (s, w)) fun r => r.2.1 = s := by
  rcases hp with hfault | ⟨r, hrun, -⟩
  · left
    rw [state_discard, sm_forward, hfault]
    rfl
  · right
    refine ⟨((), (s, r.2)), ?_, rfl⟩
    rw [state_discard, sm_forward, hrun]
    rfl

/-- Whatever the successor answers, its answer is thrown away. -/
theorem runsTo_forwardPut (next : Option (MessageT → W → Option MessageT × W))
    (key : Option CStr) {dados : Option Block} (hdados : ∀ b, dados = some b → b.Valid)
    (s : Server) (w : W) :
    RunsTo (forwardPut (next.map answering) key dados (s, w)) fun r => r.2.1 = s := by
  cases next with
  | none => exact runsTo_state_pure rfl
  | some f =>
    refine runsTo_state_lift (runsTo_entryCreate key dados) fun e he => runsTo_forward ?_ s
    cases e with
    | none => exact runsTo_state_pure trivial
    | some e =>
      refine runsTo_of_run (a := (acknowledged OP_PUT (f (putMessage e.key e.value.content) w).1,
        (f (putMessage e.key e.value.content) w).2)) ?_ trivial
      simp [rtablePut, payload_valid (hdados e.value (he e rfl))]

/-- The answer and the table after a branch that ended. -/
def ErrorUnchanged (s : Server) (r : (Int × MessageT) × (Server × W)) : Prop :=
  r.1.2.opcode = OP_ERROR → r.2.1.table = s.table

/-- An answer of `opcode + 1` is no `OP_ERROR`. -/
theorem answer_ne_error {msg : MessageT} {opcode cType : Int32} (h : opcode + 1 ≠ OP_ERROR)
    {P : Prop} (hop : (msg.answer opcode cType).opcode = OP_ERROR) : P := absurd hop h

/-- The entry is there, so nothing is read through NULL. -/
theorem runsTo_invokePut {s : Server} (h : s.table.WF)
    (next : Option (MessageT → W → Option MessageT × W)) (clock : Timeval × Timeval)
    {msg : MessageT} (hentry : msg.entry ≠ none) (w : W) :
    RunsTo (invokePut (next.map answering) clock msg (s, w)) (ErrorUnchanged s) := by
  unfold invokePut
  refine runsTo_state_step sm_startWrite (runsTo_state_lift (runsTo_deref hentry) fun e _ => ?_)
  refine runsTo_state_step state_get (runsTo_state_lift (runsTo_applyPut h e) ?_)
  intro ⟨dados, res, t'⟩ ⟨hvalid, hsame⟩
  refine runsTo_state_step (sm_setTable t')
    (runsTo_state_bind (runsTo_forwardPut next e.key hvalid _ w) ?_)
  rintro - ⟨s₁, w₁⟩ rfl
  refine runsTo_state_step sm_endWrite ?_
  by_cases hres : res = -1
  · rw [if_pos hres]
    exact runsTo_state_pure fun _ => hsame hres
  · rw [if_neg hres]
    exact runsTo_state_step (sm_recordOperation clock)
      (runsTo_state_pure (answer_ne_error (by decide)))

/-- A read section leaves the table alone, whatever it answers. -/
theorem runsTo_reads {p : SM W (Int × MessageT)} {s : Server} {w : W}
    (hkeep : Keeps (tableOf (W := W)) p) (hp : RunsTo (p (s, w)) fun _ => True) :
    RunsTo (p (s, w)) (ErrorUnchanged s) := by
  rcases hp with hfault | ⟨r, hrun, -⟩
  · exact Or.inl hfault
  · exact runsTo_of_run hrun fun _ => hkeep _ _ _ _ _ hrun

/-- A block that was found has bytes to copy. -/
theorem runsTo_tableGet (h : t.WF) (key : CStr) :
    RunsTo (tableGet t key) fun b => ∀ b', b = some b' → b'.Valid := by
  by_cases hk : t.Indexes key
  · refine runsTo_of_run (tableGet_allocated h hk) fun b' hb' => ?_
    obtain ⟨v, hv, rfl⟩ := Option.map_eq_some_iff.mp hb'
    exact Block.ofBytes_valid (h.lookup_ne_nil hv)
  · have hfault : arrayGet t.lists (hashValue key t.size) = throw .outOfBounds := if_neg hk
    left
    unfold tableGet
    rw [hfault]
    rfl

theorem runsTo_invokeGet {s : Server} (h : s.table.WF) (clock : Timeval × Timeval)
    (msg : MessageT) (w : W) : RunsTo (invokeGet clock msg (s, w)) (ErrorUnchanged s) := by
  refine runsTo_reads (invokeGet_keeps clock msg) ?_
  unfold invokeGet
  refine runsTo_state_step sm_startRead (runsTo_state_step state_get ?_)
  refine runsTo_state_lift (runsTo_tableGet h msg.key) fun block hblock => ?_
  refine runsTo_state_step sm_endRead ?_
  cases block with
  | none => exact runsTo_state_pure trivial
  | some block =>
    have hreply : RunsTo (getReply msg block) fun _ => True := by
      refine runsTo_bind runsTo_malloc fun ok hok => ?_
      rw [if_pos hok, payload_valid (hblock block rfl)]
      exact runsTo_pure trivial
    refine runsTo_state_lift hreply fun r _ => ?_
    dsimp only
    split
    next => exact runsTo_state_step (sm_recordOperation clock) (runsTo_state_pure trivial)
    next => exact runsTo_state_pure trivial

/-- Where the key is not found the nodes are the same. -/
theorem removeNode_not_found (key : CStr) : ∀ {nodes : List Entry},
    (removeNode key nodes).1 = false → (removeNode key nodes).2 = nodes
  | [], _ => rfl
  | cur :: next, h => by
    unfold removeNode at h ⊢
    split
    next heq =>
      rw [if_pos heq] at h
      cases h
    next hne =>
      rw [if_neg hne] at h
      split
      next => rfl
      next hgt =>
        rw [if_neg hgt] at h
        exact congrArg (cur :: ·) (removeNode_not_found key h)

theorem listRemove_ne_zero {l : EntryList} {key : CStr} (h : (listRemove l key).1 ≠ 0) :
    (listRemove l key).2 = l := by
  unfold listRemove at h ⊢
  have hsame := @removeNode_not_found key l.nodes
  generalize removeNode key l.nodes = r at h hsame ⊢
  obtain ⟨found, nodes⟩ := r
  cases found with
  | true => exact absurd rfl h
  | false =>
    cases hsame rfl
    rfl

/-- A removal that answers anything but 0 leaves the table as it was. -/
theorem runsTo_tableRemove (t : Table) (key : CStr) :
    RunsTo (tableRemove t key) fun r => r.1 ≠ 0 → r.2 = t := by
  unfold tableRemove
  refine runsTo_bind (runsTo_arrayGet t.lists _) fun pos hpos => ?_
  cases pos with
  | none => exact runsTo_pure fun _ => rfl
  | some lista =>
    dsimp only
    have hsame := @listRemove_ne_zero lista key
    generalize listRemove lista key = r at hsame ⊢
    refine runsTo_pure fun hr => ?_
    obtain ⟨hlt, hget⟩ := List.getElem?_eq_some_iff.mp hpos.2
    rw [hsame hr, ← hget, List.set_getElem_self]

theorem runsTo_forwardDel (next : Option (MessageT → W → Option MessageT × W)) (key : CStr)
    (s : Server) (w : W) :
    RunsTo (forwardDel (next.map answering) key (s, w)) fun r => r.2.1 = s := by
  cases next with
  | none => exact runsTo_state_pure rfl
  | some f =>
    refine runsTo_forward (runsTo_of_run (a := (acknowledged OP_DEL (f (keyMessage OP_DEL key) w).1,
      (f (keyMessage OP_DEL key) w).2)) ?_ trivial) s
    simp [rtableDel]

theorem runsTo_invokeDel (next : Option (MessageT → W → Option MessageT × W))
    (clock : Timeval × Timeval) (msg : MessageT) (s : Server) (w : W) :
    RunsTo (invokeDel (next.map answering) clock msg (s, w)) (ErrorUnchanged s) := by
  unfold invokeDel
  refine runsTo_state_step sm_startWrite (runsTo_state_step state_get ?_)
  refine runsTo_state_lift (runsTo_tableRemove s.table msg.key) ?_
  intro ⟨result, t'⟩ hsame
  refine runsTo_state_step (sm_setTable t')
    (runsTo_state_bind (runsTo_forwardDel next msg.key _ w) ?_)
  rintro - ⟨s₁, w₁⟩ rfl
  refine runsTo_state_step sm_endWrite ?_
  by_cases hres : result = 0
  · rw [if_neg (not_not_intro hres)]
    exact runsTo_state_step (sm_recordOperation clock)
      (runsTo_state_pure (answer_ne_error (by decide)))
  · rw [if_pos hres]
    exact runsTo_state_pure fun _ => hsame hres

theorem runsTo_invokeSize (clock : Timeval × Timeval) (msg : MessageT) (s : Server) (w : W) :
    RunsTo (invokeSize clock msg (s, w)) (ErrorUnchanged s) := by
  refine runsTo_reads (invokeSize_keeps clock msg) ?_
  unfold invokeSize
  refine runsTo_state_step sm_startRead (runsTo_state_step state_get ?_)
  refine runsTo_state_step sm_endRead ?_
  split
  next => exact runsTo_state_pure trivial
  next => exact runsTo_state_step (sm_recordOperation clock) (runsTo_state_pure trivial)

/-! ## The two listings, with any number of keys -/

/-- The keys of one list, with a NULL behind them, or an array that was too short. -/
theorem runsTo_copyNodeKeys (cap : Int) : ∀ (nodes : List Entry) (keys : List (Option CStr)),
    RunsTo (copyNodeKeys cap nodes keys) fun r => r = keys ++ keyCopies nodes ++ [none]
  | [], keys => by
    refine (runsTo_arrayPut cap keys none).imp fun r hr => ?_
    rw [hr]
    simp [keyCopies]
  | cur :: next, keys => by
    refine runsTo_bind (runsTo_strdup cur.key) fun k hk => ?_
    refine runsTo_bind (runsTo_arrayPut cap keys k) fun keys' hkeys' => ?_
    refine (runsTo_copyNodeKeys cap next keys').imp fun r hr => ?_
    rw [hr, hkeys', hk, keyCopies_cons]
    simp

/-- The array of `list_get_keys`, where there is one, begins with the keys of the list. -/
theorem runsTo_listGetKeys (l : EntryList) :
    RunsTo (listGetKeys l) fun keys =>
      l.nodes ≠ [] → keys = some ((l.nodes.map Entry.key).map some ++ [none]) := by
  unfold listGetKeys
  refine runsTo_ite (fun hnil => runsTo_pure fun hne => absurd hnil hne) fun _ => ?_
  refine runsTo_bind runsTo_malloc fun ok hok => ?_
  rw [if_pos hok]
  refine runsTo_bind (runsTo_copyNodeKeys _ l.nodes []) fun keys hkeys => runsTo_pure fun _ => ?_
  rw [hkeys, List.nil_append, keyCopies_eq_map]

/-- As many keys as the list counts: none is read behind the end. -/
theorem runsTo_copyListKeys (cap : Int) (ks : List CStr) (tail : List (Option CStr)) :
    ∀ (n j : Nat) (keys : List (Option CStr)), j + n ≤ ks.length →
      RunsTo (copyListKeys cap (some (ks.map some ++ tail)) n j keys) fun _ => True
  | 0, _, _, _ => runsTo_pure trivial
  | n + 1, j, keys, hj => by
    refine runsTo_bind (runsTo_deref nofun) fun arr harr => ?_
    rw [Option.some.injEq] at harr
    subst harr
    refine runsTo_bind (runsTo_arrayGet _ _) fun k hk => ?_
    have hlt : j < ks.length := by omega
    have hkey : k = some ks[j] := by
      have hget := hk.2
      rw [Int.toNat_natCast, List.getElem?_append_left (by rw [List.length_map]; omega),
        List.getElem?_map, List.getElem?_eq_getElem hlt] at hget
      exact (Option.some.inj hget).symm
    subst hkey
    refine runsTo_bind (runsTo_strdup _) fun k' _ => ?_
    refine runsTo_bind (runsTo_arrayPut cap keys k') fun keys' _ => ?_
    exact runsTo_copyListKeys cap ks tail n (j + 1) keys' (by omega)

/-- A list's counter is at most the number of its nodes. -/
theorem listSize_le {l : EntryList} (hl : l.Good) : (listSize l).toNat ≤ l.nodes.length := by
  rw [listSize, hl.size_eq]
  exact cint_toNat_le _

theorem runsTo_copyTableKeys (cap : Int) : ∀ {lists : List (Option EntryList)},
    (∀ l, some l ∈ lists → l.Good) → ∀ keys : List (Option CStr),
      RunsTo (copyTableKeys cap lists keys) fun _ => True
  | [], _, _ => runsTo_pure trivial
  | none :: lists, hgood, keys =>
    runsTo_copyTableKeys cap (fun l hl => hgood l (List.mem_cons_of_mem _ hl)) keys
  | some lista :: lists, hgood, keys => by
    have hle := listSize_le (hgood lista (List.mem_cons_self ..))
    refine runsTo_bind (runsTo_listGetKeys lista) fun arr harr => ?_
    have hcopy : RunsTo (copyListKeys cap arr (listSize lista).toNat 0 keys) fun _ => True := by
      by_cases hnil : lista.nodes = []
      · rw [hnil, List.length_nil, Nat.le_zero] at hle
        rw [hle]
        exact runsTo_pure trivial
      · rw [harr hnil]
        refine runsTo_copyListKeys cap _ [none] _ 0 keys ?_
        rw [Nat.zero_add, List.length_map]
        exact hle
    refine runsTo_bind hcopy fun keys' _ => ?_
    exact runsTo_copyTableKeys cap (fun l hl => hgood l (List.mem_cons_of_mem _ hl)) keys'

theorem runsTo_invokeGetKeys {s : Server} (h : s.table.WF) (clock : Timeval × Timeval)
    (msg : MessageT) (w : W) : RunsTo (invokeGetKeys clock msg (s, w)) (ErrorUnchanged s) := by
  have hkeys : RunsTo (tableGetKeys s.table) fun _ => True := by
    refine runsTo_bind runsTo_malloc fun ok hok => ?_
    rw [if_pos hok]
    refine runsTo_bind (runsTo_copyTableKeys _ h.good []) fun keys _ => ?_
    exact runsTo_bind (runsTo_arrayPut _ keys none) fun _ _ => runsTo_pure trivial
  refine runsTo_reads (invokeGetKeys_keeps clock msg) ?_
  unfold invokeGetKeys
  refine runsTo_state_step sm_startRead (runsTo_state_step state_get ?_)
  refine runsTo_state_lift hkeys fun keys _ => ?_
  cases keys with
  | none => exact runsTo_state_step sm_endRead (runsTo_state_pure trivial)
  | some keys =>
    refine runsTo_state_step sm_endRead ?_
    exact runsTo_state_step (sm_recordOperation clock) (runsTo_state_pure trivial)

theorem runsTo_fillListEntries (cap : Int) : ∀ {nodes : List Entry}, (∀ e ∈ nodes, Stored e) →
    ∀ entries : List (Option EntryT), RunsTo (fillListEntries cap nodes entries) fun _ => True
  | [], _, _ => runsTo_pure trivial
  | cur :: rest, hst, entries => by
    have hreply := entryReply_allocated (hst cur (List.mem_cons_self ..))
    refine runsTo_bind (runsTo_of_run hreply rfl) fun entrada hentrada => ?_
    subst hentrada
    refine runsTo_bind (runsTo_arrayPut cap entries _) fun entries' _ => ?_
    exact runsTo_fillListEntries cap (fun e he => hst e (List.mem_cons_of_mem _ he)) entries'

theorem runsTo_fillTableEntries (cap : Int) : ∀ {lists : List (Option EntryList)},
    (∀ l, some l ∈ lists → ∀ e ∈ l.nodes, Stored e) → ∀ entries : List (Option EntryT),
      RunsTo (fillTableEntries cap lists entries) fun _ => True
  | [], _, _ => runsTo_pure trivial
  | none :: lists, hst, entries =>
    runsTo_fillTableEntries cap (fun l hl => hst l (List.mem_cons_of_mem _ hl)) entries
  | some listaAtual :: lists, hst, entries => by
    refine runsTo_bind (runsTo_fillListEntries cap (hst _ (List.mem_cons_self ..)) entries)
      fun entries' _ => ?_
    cases entries' with
    | none => exact runsTo_pure trivial
    | some entries' =>
      exact runsTo_fillTableEntries cap (fun l hl => hst l (List.mem_cons_of_mem _ hl)) entries'

/-- Every stored entry has a key and bytes, which is all the loop reads. -/
theorem runsTo_invokeGetTable {s : Server} (h : s.table.WF) (clock : Timeval × Timeval)
    (msg : MessageT) (w : W) : RunsTo (invokeGetTable clock msg (s, w)) (ErrorUnchanged s) := by
  have hst : ∀ l, some l ∈ s.table.lists → ∀ e ∈ l.nodes, Stored e := fun l hl e he =>
    h.stored e (mem_entries.mpr ⟨l, hl, he⟩)
  refine runsTo_reads (invokeGetTable_keeps clock msg) ?_
  unfold invokeGetTable
  refine runsTo_state_step sm_startRead (runsTo_state_step state_get ?_)
  refine runsTo_state_lift runsTo_malloc fun ok hok => ?_
  rw [if_pos hok]
  refine runsTo_state_lift (runsTo_fillTableEntries _ hst []) fun entries _ => ?_
  cases entries with
  | none => exact runsTo_state_pure trivial
  | some entries =>
    refine runsTo_state_lift (runsTo_arrayPut _ entries none) fun _ _ => ?_
    refine runsTo_state_step sm_endRead ?_
    exact runsTo_state_step (sm_recordOperation clock) (runsTo_state_pure trivial)

theorem runsTo_invokeStats (msg : MessageT) (s : Server) (w : W) :
    RunsTo (invokeStats msg (s, w)) (ErrorUnchanged s) := by
  refine runsTo_reads (invokeStats_keeps msg) ?_
  unfold invokeStats
  refine runsTo_state_lift runsTo_malloc fun ok hok => ?_
  rw [if_pos hok]
  exact runsTo_state_step state_get (runsTo_state_pure trivial)

/-- Every request but a PUT without an entry. -/
theorem runsTo_invoke {s : Server} (h : s.table.WF)
    (next : Option (MessageT → W → Option MessageT × W)) (clock : Timeval × Timeval)
    {msg : MessageT} (hmsg : ¬ (msg.opcode = OP_PUT ∧ msg.entry = none)) (w : W) :
    RunsTo (invoke (next.map answering) clock msg (s, w)) (ErrorUnchanged s) := by
  by_cases hput : msg.opcode = OP_PUT
  · rw [invoke_put _ _ hput]
    exact runsTo_invokePut h next clock (fun hentry => hmsg ⟨hput, hentry⟩) w
  unfold invoke
  rw [if_neg hput]
  split
  next => exact runsTo_invokeGet h clock msg w
  split
  next => exact runsTo_invokeDel next clock msg s w
  split
  next => exact runsTo_invokeSize clock msg s w
  split
  next => exact runsTo_invokeGetKeys h clock msg w
  split
  next => exact runsTo_invokeGetTable h clock msg w
  split
  next => exact runsTo_invokeStats msg s w
  next => exact runsTo_state_pure fun _ => rfl

end Branches

/-! ## Safe requests -/

/-- With memory available `invoke` reads nothing through a NULL pointer, and answers
`OP_ERROR` only with the table as it was. -/
structure SafeRequest (next : Option (Remote W)) (clock : Timeval × Timeval) (msg : MessageT)
    (s : Server) (w : W) : Prop where
  no_null : invoke next clock msg (s, w) allocated ≠ .error .nullDeref
  unchanged : ∀ rc reply s' w' al',
    invoke next clock msg (s, w) allocated = .ok (((rc, reply), (s', w')), al') →
      reply.opcode = OP_ERROR → s'.table = s.table

/-- **A request from the wire is safe unless it is a PUT without an entry**, whatever bytes
it was unpacked from and however its opcode and its fields go together. -/
theorem invoke_safe_iff {n : Int} {s : Server} (hs : Served n s)
    (next : Option (MessageT → W → Option MessageT × W)) (clock : Timeval × Timeval)
    (m : WireMsg) (w : W) :
    SafeRequest (next.map answering) clock m.toMessageT s w
      ↔ ¬ (m.opcode = OP_PUT ∧ m.entry = none) := by
  have hopcode : m.toMessageT.opcode = m.opcode := rfl
  have hentry : m.toMessageT.entry = none ↔ m.entry = none := by
    rw [WireMsg.toMessageT, Option.map_eq_none_iff]
  constructor
  · intro hsafe hcond
    obtain ⟨hput, hnone⟩ := hcond
    refine hsafe.no_null ?_
    rw [invoke_put _ _ (hopcode.trans hput), invokePut_noEntry _ clock (hentry.mpr hnone)]
  · intro hmsg
    rw [← hopcode, ← hentry] at hmsg
    have hruns := runsTo_invoke hs.wf next clock hmsg w
    refine ⟨hruns.ne_nullDeref, fun rc reply s' w' al' hrun => ?_⟩
    exact hruns.post hrun

/-- What the requests of one client reach is among them. -/
theorem Reached.served {n : Int} {s : Server} (h : Reached n s) : Served n s := by
  induction h with
  | create hcreate => exact .create hcreate
  | request _ _ hrun ih => exact ih.request hrun

/-- Two entries, and requests whose fields do not go with their opcode: a GET with an entry, an
unknown opcode with a key, a PUT with an entry of which no field is set. -/
theorem invoke_safe_iff_stored :
    SafeRequest (W := Unit) none noTime
        { putWire keyB [3] with opcode := OP_GET, key := keyD }.toMessageT twoStored () ∧
    SafeRequest (W := Unit) none noTime (keyWire 77 keyA).toMessageT twoStored () ∧
    SafeRequest (W := Unit) none noTime (putWire emptyString []).toMessageT twoStored () := by
  have hs := reached_twoStored.served
  exact ⟨(invoke_safe_iff hs none noTime { putWire keyB [3] with opcode := OP_GET, key := keyD }
      ()).mpr (by decide),
    (invoke_safe_iff hs none noTime (keyWire 77 keyA) ()).mpr (by decide),
    (invoke_safe_iff hs none noTime (putWire emptyString []) ()).mpr (by decide)⟩

/-- Two bytes are a PUT without an entry, and `invoke` reads through NULL. -/
theorem put_without_entry_unsafe : ∃ m : WireMsg, protoCodec.unpack [8, 10] = some m ∧
    ¬ SafeRequest (W := Unit) none noTime m.toMessageT
      ⟨⟨List.replicate (1 : Int).toNat none, 1⟩, 0, 0, ⟨0, 0, 0⟩⟩ () := by
  refine ⟨{ WireMsg.init with opcode := OP_PUT }, by decide, fun hsafe => hsafe.no_null ?_⟩
  exact invokePut_noEntry none noTime rfl allocated ()

end KvStorage
