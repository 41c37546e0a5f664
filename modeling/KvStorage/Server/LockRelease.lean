import KvStorage.Client.Remote

/-!
# Leaving the monitor

Every branch of `invoke` that enters the monitor leaves it, with one exception: in the loop of
GETTABLE, the error return for an entry that could not be allocated stands before `end_read`.

What a branch does to the two counters is put together from what its steps do (`Acts`, `Keeps`), so
for six of the seven opcodes it is enough that an entry has its exit on every path. For GETTABLE the
two nested loops are one loop over the entries (`fillTableEntries_eq`), and it gives up exactly at
an entry whose structure cannot be allocated after all earlier ones could be and had room
(`EntryFails`). `invoke_releases_iff` says when that return is taken; afterwards the server counts a
reader for ever (`gettable_keeps_reader`).
-/

namespace KvStorage

open CLib Table

variable {W : Type}

/-- The counters of the monitor. -/
def counters (x : Server × W) : Int × Int := (x.1.nReaders, x.1.nWriters)

/-- When `invoke` returns, the counters are what they were. -/
def ReleasesLocks (next : Option (Remote W)) (clock : Timeval × Timeval) (msg : MessageT)
    (x : Server × W) (al : Allocs) : Prop :=
  ∀ rc reply x' al', invoke next clock msg x al = .ok (((rc, reply), x'), al') →
    counters x' = counters x

/-! ## The branches that leave it on every path -/

section Branches

variable (clock : Timeval × Timeval) (msg : MessageT)

/-- What the four functions of the monitor do to the counters. -/
theorem acts_startRead : Acts (counters (W := W)) (fun c => (c.1 + 1, c.2)) startRead :=
  acts_modify fun _ => rfl

theorem acts_endRead : Acts (counters (W := W)) (fun c => (c.1 - 1, c.2)) endRead :=
  acts_modify fun _ => rfl

theorem acts_startWrite : Acts (counters (W := W)) (fun c => (c.1, c.2 + 1)) startWrite :=
  acts_modify fun _ => rfl

theorem acts_endWrite : Acts (counters (W := W)) (fun c => (c.1, c.2 - 1)) endWrite :=
  acts_modify fun _ => rfl

/-- A read section, and what comes after it. -/
theorem keeps_readSection {α : Type} {r : Unit → SM W α}
    (hr : ∀ a, Acts (counters (W := W)) (fun c => (c.1 - 1, c.2)) (r a)) :
    Keeps (counters (W := W)) (startRead >>= r) := by
  refine keeps_of_acts acts_startRead hr fun c => ?_
  rw [Int.add_sub_cancel]

/-- A write section that leaves the counters alone inside, and `end_write` behind it. -/
theorem keeps_writeSection {α : Type} {r : Unit → SM W α}
    (hr : ∀ a, Acts (counters (W := W)) (fun c => (c.1, c.2 - 1)) (r a)) :
    Keeps (counters (W := W)) (startWrite >>= r) := by
  refine keeps_of_acts acts_startWrite hr fun c => ?_
  rw [Int.add_sub_cancel]

theorem keeps_setTable (t : Table) : Keeps (counters (W := W)) (setTable t) :=
  keeps_modify fun _ => rfl

/-- The statistics are no counters of the monitor. -/
theorem keeps_recordOperation : Keeps (counters (W := W)) (recordOperation clock) :=
  keeps_modify fun _ => rfl

/-- What the successor does is not done here. -/
theorem keeps_forward {α τ : Type} (f : Server → τ) (p : StateT W CM α) :
    Keeps (fun x : Server × W => f x.1) (discard (forward p)) := by
  intro x al a x' al' hrun
  rw [state_discard, bind_eq_ok] at hrun
  obtain ⟨⟨⟨b, y⟩, al₁⟩, hforward, heq⟩ := hrun
  rw [sm_forward, bind_eq_ok] at hforward
  obtain ⟨r, -, hr⟩ := hforward
  cases hr
  cases heq
  rfl

/-- Nor does the successor's answer change the server itself. -/
theorem keeps_forwardPut {τ : Type} (f : Server → τ) (next : Option (Remote W))
    (key : Option CStr) (dados : Option Block) :
    Keeps (fun x : Server × W => f x.1) (forwardPut next key dados) := by
  cases next with
  | none => exact keeps_pure _
  | some nextServer => exact keeps_bind (keeps_lift _) fun _ => keeps_forward f _

theorem keeps_forwardDel {τ : Type} (f : Server → τ) (next : Option (Remote W)) (key : CStr) :
    Keeps (fun x : Server × W => f x.1) (forwardDel next key) := by
  cases next with
  | none => exact keeps_pure _
  | some nextServer => exact keeps_forward f _

/-- `end_write` stands before the result is looked at. -/
theorem invokePut_releases (next : Option (Remote W)) :
    Keeps (counters (W := W)) (invokePut next clock msg) := by
  refine keeps_writeSection fun _ => ?_
  refine acts_of_keeps_bind (keeps_lift _) fun entry => acts_of_keeps_bind keeps_get fun x => ?_
  refine acts_of_keeps_bind (keeps_lift _) fun applied => ?_
  refine acts_of_keeps_bind (keeps_setTable _) fun _ => ?_
  refine acts_of_keeps_bind
    (keeps_forwardPut (fun s => (s.nReaders, s.nWriters)) next _ _) fun _ => ?_
  refine acts_of_bind_keeps acts_endWrite fun _ => keeps_ite (keeps_pure _) ?_
  exact keeps_bind (keeps_recordOperation clock) fun _ => keeps_pure _

/-- `end_read` stands right behind `table_get`. -/
theorem invokeGet_releases : Keeps (counters (W := W)) (invokeGet clock msg) := by
  refine keeps_readSection fun _ => ?_
  refine acts_of_keeps_bind keeps_get fun x => acts_of_keeps_bind (keeps_lift _) fun block => ?_
  refine acts_of_bind_keeps acts_endRead fun _ => ?_
  cases block with
  | none => exact keeps_pure _
  | some block =>
    refine keeps_bind (keeps_lift _) fun r => keeps_ite ?_ (keeps_pure _)
    exact keeps_bind (keeps_recordOperation clock) fun _ => keeps_pure _

theorem invokeDel_releases (next : Option (Remote W)) :
    Keeps (counters (W := W)) (invokeDel next clock msg) := by
  refine keeps_writeSection fun _ => ?_
  refine acts_of_keeps_bind keeps_get fun x => acts_of_keeps_bind (keeps_lift _) fun removed => ?_
  refine acts_of_keeps_bind (keeps_setTable _) fun _ => ?_
  refine acts_of_keeps_bind
    (keeps_forwardDel (fun s => (s.nReaders, s.nWriters)) next _) fun _ => ?_
  refine acts_of_bind_keeps acts_endWrite fun _ => keeps_ite (keeps_pure _) ?_
  exact keeps_bind (keeps_recordOperation clock) fun _ => keeps_pure _

theorem invokeSize_releases : Keeps (counters (W := W)) (invokeSize clock msg) := by
  refine keeps_readSection fun _ => ?_
  refine acts_of_keeps_bind keeps_get fun x => ?_
  refine acts_of_bind_keeps acts_endRead fun _ => keeps_ite (keeps_pure _) ?_
  exact keeps_bind (keeps_recordOperation clock) fun _ => keeps_pure _

/-- Both returns, with the keys and without them, are behind an `end_read`. -/
theorem invokeGetKeys_releases : Keeps (counters (W := W)) (invokeGetKeys clock msg) := by
  refine keeps_readSection fun _ => ?_
  refine acts_of_keeps_bind keeps_get fun x => acts_of_keeps_bind (keeps_lift _) fun keys => ?_
  cases keys with
  | none => exact acts_of_bind_keeps acts_endRead fun _ => keeps_pure _
  | some keys =>
    refine acts_of_bind_keeps acts_endRead fun _ => ?_
    exact keeps_bind (keeps_recordOperation clock) fun _ => keeps_pure _

theorem invokeStats_releases : Keeps (counters (W := W)) (invokeStats msg) := by
  refine keeps_bind (keeps_lift _) fun ok => keeps_ite ?_ (keeps_pure _)
  exact keeps_bind keeps_get fun _ => keeps_pure _

/-- Every branch but GETTABLE. -/
theorem invoke_releases (next : Option (Remote W)) (h : msg.opcode ≠ OP_GETTABLE) :
    Keeps (counters (W := W)) (invoke next clock msg) := by
  unfold invoke
  refine keeps_ite (invokePut_releases clock msg next) ?_
  refine keeps_ite (invokeGet_releases clock msg) ?_
  refine keeps_ite (invokeDel_releases clock msg next) ?_
  refine keeps_ite (invokeSize_releases clock msg) ?_
  refine keeps_ite (invokeGetKeys_releases clock msg) ?_
  rw [if_neg h]
  exact keeps_ite (invokeStats_releases msg) (keeps_pure _)

end Branches

/-! ## The loop of GETTABLE -/

/-- One turn of the loop over the nodes. -/
theorem fillListEntries_cons (cap : Int) (cur : Entry) (rest : List Entry)
    (entries : List (Option EntryT)) :
    fillListEntries cap (cur :: rest) entries = (do
      match ← entryReply cur with
      | none => pure none
      | some entrada =>
        let entries ← arrayPut cap entries (some entrada)
        fillListEntries cap rest entries) := rfl

/-- The nested loops run over the entries in position order. -/
theorem fillListEntries_append (cap : Int) (xs ys : List Entry) (entries : List (Option EntryT)) :
    fillListEntries cap (xs ++ ys) entries = (do
      match ← fillListEntries cap xs entries with
      | none => pure none
      | some entries => fillListEntries cap ys entries) := by
  induction xs generalizing entries with
  | nil => simp [fillListEntries]
  | cons x xs ih =>
    rw [List.cons_append, fillListEntries_cons, fillListEntries_cons, bind_assoc]
    refine bind_congr fun r => ?_
    cases r with
    | none => simp
    | some entrada =>
      dsimp only
      rw [bind_assoc]
      exact bind_congr fun entries => ih entries

/-- The two nested loops are one loop over all entries. -/
theorem fillTableEntries_eq (cap : Int) (lists : List (Option EntryList))
    (entries : List (Option EntryT)) :
    fillTableEntries cap lists entries
      = fillListEntries cap (lists.map nodesOf).flatten entries := by
  induction lists generalizing entries with
  | nil => rfl
  | cons pos lists ih =>
    rw [List.map_cons, List.flatten_cons]
    cases pos with
    | none => exact ih entries
    | some l =>
      rw [nodesOf, fillListEntries_append]
      unfold fillTableEntries
      refine bind_congr fun r => ?_
      cases r with
      | none => rfl
      | some entries => exact ih entries

/-- The loop ends at an entry that could not be allocated: the earlier ones were
allocated with their values and had a place in the array. -/
def EntryFails (cap : Int) (n filled : Nat) (al : Allocs) : Prop :=
  ∃ j < n, al (3 * j) = false ∧
    ∀ i < j, ((filled + i : Nat) : Int) < cap ∧ al (3 * i) = true ∧ al (3 * i + 2) = true

/-- Three allocations for each entry: the structure, the key and the value. A failed copy of the
key is not looked at, and one of the value is written to. -/
theorem entryReply_run {e : Entry} (h : Stored e) (al : Allocs) :
    entryReply e al
      = if al 0 = false then .ok (none, fun i => al (i + 1))
        else if al 2 = false then .error .nullDeref
        else .ok (some ⟨if al 1 then some e.key else none, e.bytes⟩, fun i => al (i + 3)) := by
  obtain ⟨v, -, hv⟩ := h
  have hpay : e.value.payload = pure e.bytes := by
    rw [Entry.bytes, hv, payload_ofBytes, Block.content_ofBytes]
  unfold entryReply
  by_cases h0 : al 0 <;> by_cases h1 : al 1 <;> by_cases h2 : al 2 <;>
    simp [h0, h1, h2, hpay, strdup]

/-- The first entry went well: the failure is among the others. -/
theorem entryFails_succ {cap : Int} {n filled : Nat} {al : Allocs} (h0 : al 0 = true)
    (h2 : al 2 = true) (hcap : (filled : Int) < cap) :
    EntryFails cap (n + 1) filled al ↔ EntryFails cap n (filled + 1) fun i => al (i + 3) := by
  constructor
  · intro ⟨j, hj, hfail, hok⟩
    cases j with
    | zero =>
      rw [Nat.mul_zero, h0] at hfail
      cases hfail
    | succ j =>
      refine ⟨j, by omega, hfail, fun i hi => ?_⟩
      obtain ⟨hc, ha, hb⟩ := hok (i + 1) (by omega)
      refine ⟨?_, ha, hb⟩
      rw [show filled + 1 + i = filled + (i + 1) by omega]
      exact hc
  · intro ⟨j, hj, hfail, hok⟩
    refine ⟨j + 1, by omega, hfail, fun i hi => ?_⟩
    cases i with
    | zero => exact ⟨hcap, h0, h2⟩
    | succ i =>
      obtain ⟨hc, ha, hb⟩ := hok i (by omega)
      refine ⟨?_, ha, hb⟩
      rw [show filled + (i + 1) = filled + 1 + i by omega]
      exact hc

/-- The loop gives up exactly there; at a full array or a failed copy of a value it does not get so
far. -/
theorem fillListEntries_none_iff {cap : Int} {nodes : List Entry} (hst : ∀ e ∈ nodes, Stored e)
    (entries : List (Option EntryT)) (al : Allocs) :
    (∃ al', fillListEntries cap nodes entries al = .ok (none, al'))
      ↔ EntryFails cap nodes.length entries.length al := by
  induction nodes generalizing entries al with
  | nil =>
    constructor
    · intro ⟨al', hrun⟩
      cases hrun
    · intro ⟨j, hj, _⟩
      cases hj
  | cons e nodes ih =>
    rw [fillListEntries_cons, run_bind, entryReply_run (hst e (List.mem_cons_self ..)),
      List.length_cons]
    by_cases h0 : al 0 = false
    · rw [if_pos h0]
      exact iff_of_true ⟨_, rfl⟩ ⟨0, by omega, h0, nofun⟩
    rw [if_neg h0]
    have h0' : al 0 = true := by simpa using h0
    by_cases h2 : al 2 = false
    · -- the value is copied through NULL
      rw [if_pos h2]
      refine iff_of_false (fun ⟨al', hrun⟩ => nomatch hrun) ?_
      intro ⟨j, hj, hfail, hok⟩
      cases j with
      | zero => exact h0 hfail
      | succ j =>
        rw [(hok 0 (by omega)).2.2] at h2
        cases h2
    rw [if_neg h2]
    have h2' : al 2 = true := by simpa using h2
    by_cases hcap : (entries.length : Int) < cap
    · rw [entryFails_succ h0' h2' hcap, ok_bind]
      dsimp only
      rw [arrayPut_of_lt hcap, pure_bind,
        ih (fun e' he' => hst e' (List.mem_cons_of_mem _ he')), List.length_append,
        List.length_singleton]
    · refine iff_of_false (fun ⟨al', hrun⟩ => ?_) ?_
      · rw [ok_bind] at hrun
        dsimp only at hrun
        rw [run_bind, arrayPut, if_neg hcap] at hrun
        cases hrun
      · intro ⟨j, hj, hfail, hok⟩
        cases j with
        | zero => exact h0 hfail
        | succ j => exact hcap (hok 0 (by omega)).1

/-- GETTABLE gets its array, and an entry of its loop cannot be allocated. -/
def EntryAllocationFails (t : Table) (al : Allocs) : Prop :=
  al 0 = true ∧
    EntryFails (ptrArrayCap (cint (tableSize t + 1))) t.entries.length 0 fun i => al (i + 1)

theorem fill_none_iff {t : Table} (h : t.WF) (al : Allocs) :
    (∃ al', fillTableEntries (ptrArrayCap (cint (tableSize t + 1))) t.lists [] al = .ok (none, al'))
      ↔ EntryFails (ptrArrayCap (cint (tableSize t + 1))) t.entries.length 0 al := by
  rw [fillTableEntries_eq]
  exact fillListEntries_none_iff h.stored [] al

/-- GETTABLE past its first allocation. -/
theorem invokeGetTable_run (clock : Timeval × Timeval) (msg : MessageT) (s : Server) (w : W)
    {al : Allocs} (h0 : al 0 = true) :
    invokeGetTable clock msg (s, w) al
      = ((fillTableEntries (ptrArrayCap (cint (tableSize s.table + 1))) s.table.lists []
          fun i => al (i + 1)).bind fun r =>
        (match r.1 with
          | none => pure (-1, msg.error)
          | some entries => do
            let entries ← arrayPut (ptrArrayCap (cint (tableSize s.table + 1))) entries none
            endRead
            recordOperation clock
            pure (0, { msg.answer OP_GETTABLE CT_TABLE with
              entries := some entries, nEntries := (tableSize s.table % 2 ^ 64).toNat }) :
          SM W (Int × MessageT)) ({ s with nReaders := s.nReaders + 1 }, w) r.2) := by
  unfold invokeGetTable
  rw [state_bind_ok sm_startRead, state_bind_ok state_get,
    state_bind_ok (state_lift_ok (@malloc_run al)), h0, if_pos rfl]
  dsimp only
  rw [state_bind, state_lift]
  cases fillTableEntries (ptrArrayCap (cint (tableSize s.table + 1))) s.table.lists []
      (fun i => al (i + 1)) with
  | error e => rfl
  | ok r => rfl

/-- Of the three returns of this branch, the one inside the loop does not pass `end_read`. -/
theorem invokeGetTable_releases_iff {s : Server} (h : s.table.WF) (clock : Timeval × Timeval)
    (msg : MessageT) (w : W) (al : Allocs) :
    (∀ rc reply x' al', invokeGetTable clock msg (s, w) al = .ok (((rc, reply), x'), al') →
      counters x' = counters (s, w)) ↔ ¬ EntryAllocationFails s.table al := by
  cases h0 : al 0 with
  | false =>
    -- the array is NULL: this return leaves the section
    refine iff_of_true (fun rc reply x' al' hrun => ?_) fun hfails => ?_
    · unfold invokeGetTable at hrun
      rw [state_bind_ok sm_startRead, state_bind_ok state_get,
        state_bind_ok (state_lift_ok (@malloc_run al)), h0, if_neg (by decide),
        state_bind_ok sm_endRead] at hrun
      cases hrun
      simp [counters]
    · rw [hfails.1] at h0
      cases h0
  | true =>
    have hnone := fill_none_iff h fun i => al (i + 1)
    constructor
    · intro hkept ⟨_, hfails⟩
      obtain ⟨al', hfill⟩ := hnone.mpr hfails
      have hrun := invokeGetTable_run clock msg s w h0
      rw [hfill, ok_bind] at hrun
      have hcounters := hkept _ _ _ _ hrun
      simp [counters] at hcounters
    · intro hnot rc reply x' al' hrun
      rw [invokeGetTable_run clock msg s w h0, bind_eq_ok] at hrun
      obtain ⟨⟨entries, al₁⟩, hfill, hrest⟩ := hrun
      cases entries with
      | none => exact absurd ⟨h0, hnone.mp ⟨al₁, hfill⟩⟩ hnot
      | some entries =>
        have hacts : Acts (counters (W := W)) (fun c => (c.1 - 1, c.2)) (do
            let entries ← arrayPut (ptrArrayCap (cint (tableSize s.table + 1))) entries none
            endRead
            recordOperation clock
            pure (0, { msg.answer OP_GETTABLE CT_TABLE with
              entries := some entries, nEntries := (tableSize s.table % 2 ^ 64).toNat } ) :
            SM W (Int × MessageT)) :=
          acts_of_keeps_bind (keeps_lift _) fun _ => acts_of_bind_keeps acts_endRead fun _ =>
            keeps_bind (keeps_recordOperation clock) fun _ => keeps_pure _
        rw [hacts _ _ _ _ _ hrest]
        simp [counters]

/-- **When `invoke` releases its locks.** On every table and for every message,
successor and pattern of allocations, the counters are unchanged when `invoke`
returns, exactly unless the request is a GETTABLE whose array was allocated and
the allocation of one of its entries fails. -/
theorem invoke_releases_iff {s : Server} (h : s.table.WF) (next : Option (Remote W))
    (clock : Timeval × Timeval) (msg : MessageT) (w : W) (al : Allocs) :
    ReleasesLocks next clock msg (s, w) al
      ↔ ¬ (msg.opcode = OP_GETTABLE ∧ EntryAllocationFails s.table al) := by
  unfold ReleasesLocks
  by_cases hop : msg.opcode = OP_GETTABLE
  · rw [invoke_getTable next clock hop, invokeGetTable_releases_iff h clock msg w al]
    simp [hop]
  · refine iff_of_true (fun rc reply x' al' hrun => ?_) fun hfails => hop hfails.1
    exact invoke_releases clock msg next hop _ _ _ _ _ hrun

/-- Two entries. GETTABLE leaves the section when both are listed, and when there is no memory for
the array; a PUT leaves it when there is none for the entry. -/
theorem invoke_releases_iff_stored :
    ReleasesLocks (W := Unit) none noTime (bareMessage OP_GETTABLE) (twoStored, ()) allocated ∧
    ReleasesLocks (W := Unit) none noTime (bareMessage OP_GETTABLE) (twoStored, ())
      (fun _ => false) ∧
    ReleasesLocks (W := Unit) none noTime (putMessage keyB [3]) (twoStored, ())
      (fun i => i != 2) := by
  have hwf := reached_twoStored.wf (by decide)
  refine ⟨(invoke_releases_iff hwf none noTime _ () _).mpr ?_,
    (invoke_releases_iff hwf none noTime _ () _).mpr ?_,
    (invoke_releases_iff hwf none noTime _ () _).mpr ?_⟩
  · rintro ⟨-, -, j, -, hfalse, -⟩
    cases hfalse
  · rintro ⟨-, hfalse, -⟩
    cases hfalse
  · rintro ⟨hop, -⟩
    exact absurd hop (by decide)

/-- Only the first allocation succeeds. -/
def firstOnly : Allocs := fun i => i == 0

/-- A table with one entry: the array is allocated, the entry is not. -/
theorem gettable_keeps_reader : ∃ t reply s' al',
    runOps emptyServer.table [.put keyA (Block.ofBytes [1])] allocated = .ok (t, allocated) ∧
    invoke (W := Unit) none noTime (bareMessage OP_GETTABLE) (⟨t, 0, 0, ⟨0, 0, 0⟩⟩, ()) firstOnly
      = .ok (((-1, reply), (s', ())), al') ∧
    s'.nReaders = 1 :=
  ⟨_, _, _, _, rfl, rfl, rfl⟩

end KvStorage
