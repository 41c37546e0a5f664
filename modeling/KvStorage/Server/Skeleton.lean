import KvStorage.Client.Stub
import KvStorage.Data.TableRuns

/-!
# The skeleton (`server_skeleton.c`)

`invoke` works on the process's table, on the two counters of the reader/writer
monitor and on the statistics, and on whatever lies behind the handle of the
successor. This module is one call from its entry to its return: `start_read`
and `start_write` stand for the moment their wait loop is left, and the clock
readings of `gettimeofday` are arguments.

Each branch is split where the source leaves or enters the monitor, so that the
models in which other threads run in between use the same pieces.
-/

namespace KvStorage

open CLib

/-- The process state `invoke` works on. -/
structure Server where
  table : Table
  nReaders : Int
  nWriters : Int
  stats : StatisticsT

/-- A `struct timeval`. -/
structure Timeval where
  sec : Int
  usec : Int

/-- The microseconds between two clock readings, as the `int` parameter of
`update_operations` receives them. -/
def interval (start stop : Timeval) : Int :=
  cint ((stop.sec - start.sec) * 1000000 + (stop.usec - start.usec))

/-- `update_operations`. -/
def updateOperations (s : StatisticsT) (time : Int) : StatisticsT :=
  { s with nOperations := s.nOperations + 1, totalTime := s.totalTime + Int64.ofInt time }

variable {W : Type}

/-- Code on the process state and on the world behind the successor's handle. -/
abbrev SM (W : Type) := StateT (Server × W) CM

/-! ## The reader/writer monitor -/

/-- `start_read`, from the moment its loop is left. -/
def startRead : SM W Unit := modify fun (s, w) => ({ s with nReaders := s.nReaders + 1 }, w)

def endRead : SM W Unit := modify fun (s, w) => ({ s with nReaders := s.nReaders - 1 }, w)

/-- `start_write`, from the moment its loop is left. -/
def startWrite : SM W Unit := modify fun (s, w) => ({ s with nWriters := s.nWriters + 1 }, w)

def endWrite : SM W Unit := modify fun (s, w) => ({ s with nWriters := s.nWriters - 1 }, w)

def setTable (t : Table) : SM W Unit := modify fun (s, w) => ({ s with table := t }, w)

def recordOperation (clock : Timeval × Timeval) : SM W Unit :=
  modify fun (s, w) => ({ s with stats := updateOperations s.stats (interval clock.1 clock.2) }, w)

/-- A call over the successor's handle. -/
def forward {α : Type} (p : StateT W CM α) : SM W α := fun (s, w) => do
  let (a, w) ← p w
  pure (a, (s, w))

/-! ## Replies -/

/-- `OP_ERROR` with `CT_NONE`, in the request's structure. -/
def MessageT.error (msg : MessageT) : MessageT := { msg with opcode := OP_ERROR, cType := CT_NONE }

/-- `opcode + 1` with a content type, in the request's structure. -/
def MessageT.answer (msg : MessageT) (opcode cType : Int32) : MessageT :=
  { msg with opcode := opcode + 1, cType := cType }

/-! ## The local part of the operations -/

/-- A PUT inside the write section: the block over the request's value, and
`table_put` of it. -/
def applyPut (table : Table) (e : EntryT) : CM (Option Block × Int × Table) := do
  let data := if e.value = [] then none else some e.value
  let dados ← blockCreate (cint e.value.length) data
  match e.key with
  | none => pure (dados, -1, table)
  | some key =>
    let (res, table) ← tablePut table key dados
    pure (dados, res, table)

/-- The reply of a GET that found the block. -/
def getReply (msg : MessageT) (block : Block) : CM (Int × MessageT) := do
  if ← malloc then
    let value ← block.payload
    pure (0, { msg.answer OP_GET CT_VALUE with value := value })
  else pure (-1, msg.error)

/-- One entry of the GETTABLE reply: `none` when its own `malloc` failed. -/
def entryReply (e : Entry) : CM (Option EntryT) := do
  if ← malloc then
    let key ← strdup (some e.key)
    if ← malloc then
      let value ← e.value.payload
      pure (some ⟨key, value⟩)
    else throw .nullDeref
  else pure none

/-- The inner loop of GETTABLE, over one list: the array filled so far, or
`none` where an entry could not be allocated. -/
def fillListEntries (cap : Int) : List Entry → List (Option EntryT) →
    CM (Option (List (Option EntryT)))
  | [], entries => pure (some entries)
  | cur :: rest, entries => do
    match ← entryReply cur with
    | none => pure none
    | some entrada =>
      let entries ← arrayPut cap entries (some entrada)
      fillListEntries cap rest entries

/-- The outer loop of GETTABLE. -/
def fillTableEntries (cap : Int) : List (Option EntryList) → List (Option EntryT) →
    CM (Option (List (Option EntryT)))
  | [], entries => pure (some entries)
  | none :: lists, entries => fillTableEntries cap lists entries
  | some listaAtual :: lists, entries => do
    match ← fillListEntries cap listaAtual.nodes entries with
    | none => pure none
    | some entries => fillTableEntries cap lists entries

/-! ## Forwarding to the successor

Both calls drop the answer. -/

/-- `rtable_put` on the successor's handle, if there is one, of an entry over the request's key and
the block that the table copied. -/
def forwardPut (next : Option (Remote W)) (key : Option CStr) (dados : Option Block) : SM W Unit :=
  match next with
  | none => pure ()
  | some nextServer => do
    let e ← entryCreate key dados
    discard (forward (rtablePut nextServer e))

/-- `rtable_del` on the successor's handle, if there is one. -/
def forwardDel (next : Option (Remote W)) (key : CStr) : SM W Unit :=
  match next with
  | none => pure ()
  | some nextServer => discard (forward (rtableDel nextServer (some key)))

/-! ## `invoke` -/

/-- OP_PUT. The lock is held while the successor works. -/
def invokePut (next : Option (Remote W)) (clock : Timeval × Timeval) (msg : MessageT) :
    SM W (Int × MessageT) := do
  startWrite
  let entry ← deref msg.entry
  let (dados, res, table) ← applyPut (← get).1.table entry
  setTable table
  forwardPut next entry.key dados
  endWrite
  if res = -1 then pure (-1, msg.error)
  else
    recordOperation clock
    pure (0, msg.answer OP_PUT CT_NONE)

/-- OP_GET. A key without a value is answered OP_ERROR, with the code 0. -/
def invokeGet (clock : Timeval × Timeval) (msg : MessageT) : SM W (Int × MessageT) := do
  startRead
  let block ← tableGet (← get).1.table msg.key
  endRead
  match block with
  | none => pure (0, msg.error)
  | some block =>
    let (rc, msg) ← getReply msg block
    if rc = 0 then recordOperation clock
    pure (rc, msg)

def invokeDel (next : Option (Remote W)) (clock : Timeval × Timeval) (msg : MessageT) :
    SM W (Int × MessageT) := do
  startWrite
  let (result, table) ← tableRemove (← get).1.table msg.key
  setTable table
  forwardDel next msg.key
  endWrite
  if result ≠ 0 then pure (0, msg.error)
  else
    recordOperation clock
    pure (0, msg.answer OP_DEL CT_NONE)

/-- OP_SIZE. A sum that wraps to -1 is taken for an error. -/
def invokeSize (clock : Timeval × Timeval) (msg : MessageT) : SM W (Int × MessageT) := do
  startRead
  let size := tableSize (← get).1.table
  endRead
  if size = -1 then pure (-1, msg.error)
  else
    recordOperation clock
    pure (0, { msg.answer OP_SIZE CT_RESULT with result := Int32.ofInt size })

def invokeGetKeys (clock : Timeval × Timeval) (msg : MessageT) : SM W (Int × MessageT) := do
  startRead
  let table := (← get).1.table
  match ← tableGetKeys table with
  | none =>
    endRead
    pure (-1, { msg with keys := none }.error)
  | some keys =>
    endRead
    recordOperation clock
    pure (0, { msg.answer OP_GETKEYS CT_KEYS with
      keys := some keys, nKeys := (tableSize table % 2 ^ 64).toNat })

def invokeGetTable (clock : Timeval × Timeval) (msg : MessageT) : SM W (Int × MessageT) := do
  startRead
  let table := (← get).1.table
  if ← malloc then
    let cap := ptrArrayCap (cint (tableSize table + 1))
    match ← fillTableEntries cap table.lists [] with
    -- the read section is not left here
    | none => pure (-1, msg.error)
    | some entries =>
      let entries ← arrayPut cap entries none
      endRead
      recordOperation clock
      pure (0, { msg.answer OP_GETTABLE CT_TABLE with
        entries := some entries, nEntries := (tableSize table % 2 ^ 64).toNat })
  else
    endRead
    pure (-1, { msg with entries := none }.error)

/-- OP_STATS, which takes no lock and is not counted itself. -/
def invokeStats (msg : MessageT) : SM W (Int × MessageT) := do
  if ← malloc then
    let stats := (← get).1.stats
    pure (0, { msg.answer OP_STATS CT_STATS with stats := some stats })
  else pure (-1, msg.error)

/-- `invoke`: the return code, and the reply in the request's structure. -/
def invoke (next : Option (Remote W)) (clock : Timeval × Timeval) (msg : MessageT) :
    SM W (Int × MessageT) :=
  if msg.opcode = OP_PUT then invokePut next clock msg
  else if msg.opcode = OP_GET then invokeGet clock msg
  else if msg.opcode = OP_DEL then invokeDel next clock msg
  else if msg.opcode = OP_SIZE then invokeSize clock msg
  else if msg.opcode = OP_GETKEYS then invokeGetKeys clock msg
  else if msg.opcode = OP_GETTABLE then invokeGetTable clock msg
  else if msg.opcode = OP_STATS then invokeStats msg
  else pure (-1, msg.error)

section Branches

variable (next : Option (Remote W)) (clock : Timeval × Timeval) {msg : MessageT}

/-- The opcodes are different numbers, so each reaches its own branch. -/
theorem invoke_put (h : msg.opcode = OP_PUT) : invoke next clock msg = invokePut next clock msg :=
  if_pos h

theorem invoke_get (h : msg.opcode = OP_GET) : invoke next clock msg = invokeGet clock msg := by
  unfold invoke
  rw [h]
  rfl

theorem invoke_del (h : msg.opcode = OP_DEL) :
    invoke next clock msg = invokeDel next clock msg := by
  unfold invoke
  rw [h]
  rfl

theorem invoke_size (h : msg.opcode = OP_SIZE) : invoke next clock msg = invokeSize clock msg := by
  unfold invoke
  rw [h]
  rfl

theorem invoke_getKeys (h : msg.opcode = OP_GETKEYS) :
    invoke next clock msg = invokeGetKeys clock msg := by
  unfold invoke
  rw [h]
  rfl

theorem invoke_getTable (h : msg.opcode = OP_GETTABLE) :
    invoke next clock msg = invokeGetTable clock msg := by
  unfold invoke
  rw [h]
  rfl

end Branches

/-! ## Running -/

section Run

variable {α β : Type} {s : Server} {w : W} {al : Allocs}

@[simp] theorem sm_forward (p : StateT W CM α) :
    forward p (s, w) al = (p w al).bind fun r => .ok ((r.1.1, (s, r.1.2)), r.2) := rfl

@[simp] theorem sm_startRead :
    startRead (s, w) al = .ok (((), ({ s with nReaders := s.nReaders + 1 }, w)), al) := rfl

@[simp] theorem sm_endRead :
    endRead (s, w) al = .ok (((), ({ s with nReaders := s.nReaders - 1 }, w)), al) := rfl

@[simp] theorem sm_startWrite :
    startWrite (s, w) al = .ok (((), ({ s with nWriters := s.nWriters + 1 }, w)), al) := rfl

@[simp] theorem sm_endWrite :
    endWrite (s, w) al = .ok (((), ({ s with nWriters := s.nWriters - 1 }, w)), al) := rfl

@[simp] theorem sm_setTable (t : Table) :
    setTable t (s, w) al = .ok (((), ({ s with table := t }, w)), al) := rfl

@[simp] theorem sm_recordOperation (clock : Timeval × Timeval) :
    recordOperation clock (s, w) al
      = .ok (((), ({ s with stats := updateOperations s.stats (interval clock.1 clock.2) }, w)),
          al) := rfl

end Run

end KvStorage
