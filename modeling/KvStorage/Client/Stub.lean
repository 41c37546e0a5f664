import KvStorage.Wire.Message

/-!
# The client stub (`client_stub.c`)

Each function builds a request, hands it to `network_send_receive` and reads the
reply. The connection behind an `rtable_t` is a parameter: a function from the
request to the reply, NULL for every error, over whatever state the other side
has. The same functions serve a client program and, inside `invoke`, a server
that forwards a write to its successor.
-/

namespace KvStorage

open CLib

/-- `network_send_receive` on the connection of an `rtable_t`, over a state `W`
of the world behind it. -/
abbrev Remote (W : Type) := MessageT → StateT W CM (Option MessageT)

variable {W : Type}

/-- The value a block passes to the message: `datasize` bytes of its data. -/
def Block.payload (b : Block) : CM (List Byte) := do
  let data ← deref b.data
  memcpy data b.datasize

/-! ## Requests -/

/-- The request of `rtable_put`. -/
def putMessage (key : CStr) (value : List Byte) : MessageT :=
  { MessageT.init with opcode := OP_PUT, cType := CT_ENTRY, entry := some ⟨some key, value⟩ }

/-- A request about one key. -/
def keyMessage (opcode : Int32) (key : CStr) : MessageT :=
  { MessageT.init with opcode := opcode, cType := CT_KEY, key := key }

/-- A request without contents. -/
def bareMessage (opcode : Int32) : MessageT :=
  { MessageT.init with opcode := opcode, cType := CT_NONE }

/-! What they look like on the wire, where they arrive as they were built. -/

def putWire (key : CStr) (value : List Byte) : WireMsg :=
  { WireMsg.init with opcode := OP_PUT, cType := CT_ENTRY, entry := some ⟨key, value⟩ }

def keyWire (opcode : Int32) (key : CStr) : WireMsg :=
  { WireMsg.init with opcode := opcode, cType := CT_KEY, key := key }

def bareWire (opcode : Int32) : WireMsg :=
  { WireMsg.init with opcode := opcode, cType := CT_NONE }

theorem content_putMessage (key : CStr) (value : List Byte) (al : Allocs) :
    (putMessage key value).content al = .ok (putWire key value, al) := rfl

theorem content_keyMessage (opcode : Int32) (key : CStr) (al : Allocs) :
    (keyMessage opcode key).content al = .ok (keyWire opcode key, al) := rfl

theorem content_bareMessage (opcode : Int32) (al : Allocs) :
    (bareMessage opcode).content al = .ok (bareWire opcode, al) := rfl

theorem toMessageT_putWire (key : CStr) (value : List Byte) :
    (putWire key value).toMessageT = putMessage key value := rfl

theorem toMessageT_keyWire (opcode : Int32) (key : CStr) :
    (keyWire opcode key).toMessageT = keyMessage opcode key := rfl

theorem toMessageT_bareWire (opcode : Int32) :
    (bareWire opcode).toMessageT = bareMessage opcode := rfl

/-- 0 for the opcode that answers `opcode`, -1 for another one and for no
reply. -/
def acknowledged (opcode : Int32) : Option MessageT → Int
  | none => -1
  | some receivedMsg => if receivedMsg.opcode ≠ opcode + 1 then -1 else 0

/-! ## Calls -/

/-- `rtable_put`. -/
def rtablePut (sendReceive : Remote W) (entry : Option Entry) : StateT W CM Int :=
  match entry with
  | none => pure (-1)
  | some entry => do
    let value ← entry.value.payload
    let receivedMsg ← sendReceive (putMessage entry.key value)
    pure (acknowledged OP_PUT receivedMsg)

/-- The block `rtable_get` builds around a copy of the received value. -/
def copyReceivedValue (value : List Byte) : CM (Option Block) := do
  let buf := if ← malloc then some value else none
  if 0 < value.length then discard (deref buf)
  blockCreate (cint value.length) buf

/-- `rtable_get`. -/
def rtableGet (sendReceive : Remote W) (key : Option CStr) : StateT W CM (Option Block) :=
  match key with
  | none => pure none
  | some key => do
    match ← sendReceive (keyMessage OP_GET key) with
    | none => pure none
    | some receivedMsg =>
      if receivedMsg.opcode ≠ OP_GET + 1 then pure none
      else copyReceivedValue receivedMsg.value

/-- `rtable_del`. -/
def rtableDel (sendReceive : Remote W) (key : Option CStr) : StateT W CM Int :=
  match key with
  | none => pure (-1)
  | some key => do
    let receivedMsg ← sendReceive (keyMessage OP_DEL key)
    pure (acknowledged OP_DEL receivedMsg)

/-- `rtable_size`. -/
def rtableSize (sendReceive : Remote W) : StateT W CM Int := do
  match ← sendReceive (bareMessage OP_SIZE) with
  | none => pure (-1)
  | some receivedMsg =>
    if receivedMsg.opcode ≠ OP_SIZE + 1 then pure (-1) else pure receivedMsg.result.toInt

/-- The copy `rtable_get_keys` makes of the received keys, with a final NULL. -/
def copyReceivedKeys (receivedMsg : MessageT) : CM (Option (List (Option CStr))) := do
  if ← malloc then
    let nKeys := cint receivedMsg.nKeys
    let cap := ptrArrayCap (cint (nKeys + 1))
    let keys ← copyListKeys cap receivedMsg.keys nKeys.toNat 0 []
    let keys ← arrayPut cap keys none
    pure (some keys)
  else pure none

/-- `rtable_get_keys`. -/
def rtableGetKeys (sendReceive : Remote W) : StateT W CM (Option (List (Option CStr))) := do
  match ← sendReceive (bareMessage OP_GETKEYS) with
  | none => pure none
  | some receivedMsg =>
    if receivedMsg.opcode ≠ OP_GETKEYS + 1 then pure none
    else copyReceivedKeys receivedMsg

/-- The loop of `rtable_get_table`: an entry is built around the received value
and duplicated. -/
def copyListEntries (cap : Int) (received : Option (List (Option EntryT))) :
    (n i : Nat) → List (Option Entry) → CM (List (Option Entry))
  | 0, _, table => pure table
  | n + 1, i, table => do
    let arr ← deref received
    let e ← deref (← arrayGet arr i)
    let data := if e.value = [] then none else some e.value
    let block ← blockCreate (cint e.value.length) data
    let entry ← entryCreate e.key block
    let copy ← entryDuplicate entry
    let table ← arrayPut cap table copy
    copyListEntries cap received n (i + 1) table

/-- The copy `rtable_get_table` makes of the received entries, with a final
NULL. -/
def copyReceivedEntries (receivedMsg : MessageT) : CM (Option (List (Option Entry))) := do
  if ← malloc then
    let cap := ptrArrayCap (receivedMsg.nEntries + 1)
    let table ← copyListEntries cap receivedMsg.entries (cint receivedMsg.nEntries).toNat 0 []
    let table ← arrayPut cap table none
    pure (some table)
  else pure none

/-- `rtable_get_table`. -/
def rtableGetTable (sendReceive : Remote W) : StateT W CM (Option (List (Option Entry))) := do
  match ← sendReceive (bareMessage OP_GETTABLE) with
  | none => pure none
  | some receivedMsg =>
    if receivedMsg.opcode ≠ OP_GETTABLE + 1 then pure none
    else copyReceivedEntries receivedMsg

/-- `rtable_stats`. -/
def rtableStats (sendReceive : Remote W) : StateT W CM (Option StatisticsT) := do
  match ← sendReceive (bareMessage OP_STATS) with
  | none => pure none
  | some receivedMsg =>
    if receivedMsg.opcode ≠ OP_STATS + 1 then pure none
    else
      let created ← malloc
      let received ← deref receivedMsg.stats
      -- the fields are stored through the result of `stats_create`
      if created then pure (some received) else throw .nullDeref

end KvStorage
