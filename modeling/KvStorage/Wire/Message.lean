import KvStorage.Wire.Network
import KvStorage.Data.Table
import KvStorage.Lib.ProtoWire
import Mathlib.Algebra.Order.BigOperators.Group.List
import Mathlib.Algebra.Order.Group.Nat

/-!
# Messages (`htmessages.proto`)

`MessageT` is the C structure as `invoke` and the stub fill it in: pointers may
be NULL, arrays go with a separate count. `WireMsg` is what a packed message
says: absent strings are empty, a repeated field is as long as its count.
`MessageT.content` is what `message_t__pack` reads out of the structure, and
`WireMsg.toMessageT` the structure `message_t__unpack` builds.

The packed size is the one documented for the proto3 wire format:
`messageSize` adds a one-byte tag for every field that is present, and a field
that has its default value is not.
-/

namespace KvStorage

open CLib ProtoWire

/-! ## Opcodes and content types -/

def OP_PUT : Int32 := 10
def OP_GET : Int32 := 20
def OP_DEL : Int32 := 30
def OP_SIZE : Int32 := 40
def OP_GETKEYS : Int32 := 50
def OP_GETTABLE : Int32 := 60
def OP_STATS : Int32 := 70
def OP_ERROR : Int32 := 99

def CT_ENTRY : Int32 := 10
def CT_KEY : Int32 := 20
def CT_VALUE : Int32 := 30
def CT_RESULT : Int32 := 40
def CT_KEYS : Int32 := 50
def CT_TABLE : Int32 := 60
def CT_NONE : Int32 := 70
def CT_STATS : Int32 := 80

/-! ## The structures -/

/-- The bytes of an absent string: `protobuf_c_empty_string`. -/
def emptyString : CStr := ⟨[], CStr.nul_notMem_nil⟩

/-- `EntryT`; the key is NULL only where a `strdup` failed. -/
structure EntryT where
  key : Option CStr
  value : List Byte

/-- `StatisticsT`. -/
structure StatisticsT where
  nOperations : Int32
  totalTime : Int64
  nClients : Int32
  deriving DecidableEq

/-- `MessageT`. -/
structure MessageT where
  opcode : Int32
  cType : Int32
  entry : Option EntryT
  key : CStr
  value : List Byte
  result : Int32
  keys : Option (List (Option CStr))
  nKeys : Nat
  entries : Option (List (Option EntryT))
  nEntries : Nat
  stats : Option StatisticsT

/-- `MESSAGE_T__INIT`. -/
def MessageT.init : MessageT where
  opcode := 0
  cType := 0
  entry := none
  key := emptyString
  value := []
  result := 0
  keys := none
  nKeys := 0
  entries := none
  nEntries := 0
  stats := none

/-- An entry as it travels. -/
structure WireEntry where
  key : CStr
  value : List Byte
  deriving DecidableEq

/-- A message as it travels. -/
structure WireMsg where
  opcode : Int32
  cType : Int32
  entry : Option WireEntry
  key : CStr
  value : List Byte
  result : Int32
  keys : List CStr
  entries : List WireEntry
  stats : Option StatisticsT
  deriving DecidableEq

/-- A message with nothing in it. -/
def WireMsg.init : WireMsg where
  opcode := 0
  cType := 0
  entry := none
  key := emptyString
  value := []
  result := 0
  keys := []
  entries := []
  stats := none

/-! ## Packing reads the structure, unpacking builds it -/

def EntryT.content (e : EntryT) : WireEntry := ⟨e.key.getD emptyString, e.value⟩

def WireEntry.toEntryT (e : WireEntry) : EntryT := ⟨some e.key, e.value⟩

/-- The first `n` elements of an array that may be NULL; a NULL element packs
like a default one. -/
def arrayContent {α β : Type} (f : Option α → β) (n : Nat) (arr : Option (List (Option α))) :
    CM (List β) :=
  if n = 0 then pure []
  else do
    let l ← deref arr
    if n ≤ l.length then pure ((l.take n).map f) else throw .outOfBounds

/-- What `message_t__pack` reads. -/
def MessageT.content (m : MessageT) : CM WireMsg := do
  let keys ← arrayContent (·.getD emptyString) m.nKeys m.keys
  let entries ← arrayContent (fun e => (e.map EntryT.content).getD ⟨emptyString, []⟩) m.nEntries
    m.entries
  pure ⟨m.opcode, m.cType, m.entry.map EntryT.content, m.key, m.value, m.result, keys, entries,
    m.stats⟩

/-- The structure `message_t__unpack` builds; the array of an empty repeated
field is NULL. -/
def WireMsg.toMessageT (m : WireMsg) : MessageT where
  opcode := m.opcode
  cType := m.cType
  entry := m.entry.map WireEntry.toEntryT
  key := m.key
  value := m.value
  result := m.result
  keys := if m.keys = [] then none else some (m.keys.map some)
  nKeys := m.keys.length
  entries := if m.entries = [] then none else some (m.entries.map fun e => some e.toEntryT)
  nEntries := m.entries.length
  stats := m.stats

@[simp] theorem EntryT.content_toEntryT (e : WireEntry) : e.toEntryT.content = e := rfl

theorem arrayContent_map {α β γ : Type} {f : Option α → β} {g : γ → α} {h : γ → β}
    (hf : ∀ c, f (some (g c)) = h c) (l : List γ) (tail : List (Option α)) (al : Allocs) :
    arrayContent f l.length (some (l.map (fun c => some (g c)) ++ tail)) al
      = .ok (l.map h, al) := by
  unfold arrayContent
  by_cases hnil : l = []
  · simp [hnil]
  · have hlen : l.length ≠ 0 := fun h0 => hnil (List.length_eq_zero_iff.mp h0)
    simp [hlen, hf, Function.comp_def]

/-- Packing an unpacked message gives its content back. -/
theorem MessageT.content_toMessageT (m : WireMsg) (al : Allocs) :
    m.toMessageT.content al = .ok (m, al) := by
  have hkeys : arrayContent (·.getD emptyString) m.keys.length m.toMessageT.keys al
      = .ok (m.keys, al) := by
    by_cases hnil : m.keys = []
    · simp [hnil, arrayContent]
    · have hmap := arrayContent_map (f := (·.getD emptyString)) (g := id) (h := id)
        (fun _ => rfl) m.keys [] al
      simpa [WireMsg.toMessageT, hnil] using hmap
  have hentries : arrayContent (fun e => (e.map EntryT.content).getD ⟨emptyString, []⟩)
      m.entries.length m.toMessageT.entries al = .ok (m.entries, al) := by
    by_cases hnil : m.entries = []
    · simp [hnil, arrayContent]
    · have hmap := arrayContent_map
        (f := fun e : Option EntryT => (e.map EntryT.content).getD ⟨emptyString, []⟩)
        (g := WireEntry.toEntryT) (h := id) (fun _ => rfl) m.entries [] al
      simpa [WireMsg.toMessageT, hnil] using hmap
  have hentry : (m.entry.map WireEntry.toEntryT).map EntryT.content = m.entry := by
    cases m.entry <;> rfl
  unfold MessageT.content
  simp only [run_bind, show m.toMessageT.nKeys = m.keys.length from rfl, hkeys, ok_bind,
    show m.toMessageT.nEntries = m.entries.length from rfl, hentries, run_pure]
  simp only [WireMsg.toMessageT, hentry]

/-! ## The packed size -/

/-- A negative `int32` or enumerator is sign-extended to 64 bits. -/
def int64Varint (x : Int) : Nat := (x % 2 ^ 64).toNat

/-- The zigzag encoding of a `sint32`. -/
def zigzag (x : Int) : Nat := if 0 ≤ x then (2 * x).toNat else (-2 * x - 1).toNat

/-- A length-delimited field: tag, length, payload. -/
def delimitedSize (len : Nat) : Nat := 1 + varintSize len + len

/-- A string or bytes field, left out when empty. -/
def bytesFieldSize (bs : List Byte) : Nat := if bs = [] then 0 else delimitedSize bs.length

/-- An integer field with the given varint, left out when it is 0. -/
def varintFieldSize (n : Nat) : Nat := if n = 0 then 0 else 1 + varintSize n

def entrySize (e : WireEntry) : Nat := bytesFieldSize e.key.bytes + bytesFieldSize e.value

def statisticsSize (s : StatisticsT) : Nat :=
  varintFieldSize (int64Varint s.nOperations.toInt)
    + varintFieldSize (int64Varint s.totalTime.toInt)
    + varintFieldSize (int64Varint s.nClients.toInt)

/-- `message_t__get_packed_size`. -/
def messageSize (m : WireMsg) : Nat :=
  varintFieldSize (int64Varint m.opcode.toInt)
    + varintFieldSize (int64Varint m.cType.toInt)
    + (m.entry.elim 0 fun e => delimitedSize (entrySize e))
    + bytesFieldSize m.key.bytes
    + bytesFieldSize m.value
    + varintFieldSize (zigzag m.result.toInt)
    + (m.keys.map fun k => delimitedSize k.bytes.length).sum
    + (m.entries.map fun e => delimitedSize (entrySize e)).sum
    + (m.stats.elim 0 fun s => delimitedSize (statisticsSize s))

/-- The codec of `htmessages.pb-c.c`. -/
structure MessageCodec extends Codec WireMsg where
  getPackedSize_eq : ∀ m, getPackedSize m = messageSize m

theorem le_bytesFieldSize (bs : List Byte) : bs.length ≤ bytesFieldSize bs := by
  unfold bytesFieldSize delimitedSize
  split
  next h => simp [h]
  next => omega

/-- A short payload has a one-byte length. -/
theorem delimitedSize_le {len : Nat} (h : len ≤ 127) : delimitedSize len ≤ 2 + len := by
  unfold delimitedSize varintSize
  have hlog : len.log2 < 7 := by
    by_cases h0 : len = 0
    · subst h0
      decide
    · exact (Nat.log2_lt h0).mpr (by omega)
  omega

theorem bytesFieldSize_le {bs : List Byte} (h : bs.length ≤ 127) :
    bytesFieldSize bs ≤ 2 + bs.length := by
  have hle := delimitedSize_le h
  unfold bytesFieldSize
  split
  next => omega
  next => exact hle

/-- A `sint32` takes five bytes at most, and its tag. -/
theorem varintFieldSize_zigzag (x : Int32) : varintFieldSize (zigzag x.toInt) ≤ 6 := by
  have hlt := x.toInt_lt
  have hle := x.le_toInt
  have hz : zigzag x.toInt < 2 ^ 32 := by
    unfold zigzag
    split
    next => omega
    next => omega
  unfold varintFieldSize varintSize
  split
  next => omega
  next hne =>
    have hlog := (Nat.log2_lt hne).mpr hz
    omega

theorem key_le_messageSize (m : WireMsg) : m.key.bytes.length ≤ messageSize m := by
  have hle := le_bytesFieldSize m.key.bytes
  unfold messageSize
  omega

theorem value_le_messageSize (m : WireMsg) : m.value.length ≤ messageSize m := by
  have hle := le_bytesFieldSize m.value
  unfold messageSize
  omega

theorem entry_le_messageSize {m : WireMsg} {e : WireEntry} (h : m.entry = some e) :
    e.key.bytes.length + e.value.length ≤ messageSize m := by
  have hkey := le_bytesFieldSize e.key.bytes
  have hvalue := le_bytesFieldSize e.value
  unfold messageSize
  rw [h, Option.elim_some]
  unfold delimitedSize entrySize
  omega

theorem length_le_sum_delimited {α : Type} (f : α → Nat) : ∀ l : List α,
    l.length ≤ (l.map fun a => delimitedSize (f a)).sum
  | [] => Nat.le_refl 0
  | a :: l => by
    have hrest := length_le_sum_delimited f l
    rw [List.length_cons, List.map_cons, List.sum_cons]
    unfold delimitedSize at hrest ⊢
    omega

theorem keys_length_le_messageSize (m : WireMsg) : m.keys.length ≤ messageSize m := by
  have hle := length_le_sum_delimited (fun k : CStr => k.bytes.length) m.keys
  unfold messageSize
  omega

theorem entries_length_le_messageSize (m : WireMsg) : m.entries.length ≤ messageSize m := by
  have hle := length_le_sum_delimited entrySize m.entries
  unfold messageSize
  omega

/-- Each entry of a repeated field is part of the message. -/
theorem mem_entries_le_messageSize {m : WireMsg} {e : WireEntry} (h : e ∈ m.entries) :
    e.key.bytes.length + e.value.length ≤ messageSize m := by
  have hkey := le_bytesFieldSize e.key.bytes
  have hvalue := le_bytesFieldSize e.value
  have hsum : delimitedSize (entrySize e)
      ≤ (m.entries.map fun e => delimitedSize (entrySize e)).sum :=
    List.single_le_sum (fun x _ => Nat.zero_le x) _ (List.mem_map.mpr ⟨e, h, rfl⟩)
  have hentry : e.key.bytes.length + e.value.length ≤ delimitedSize (entrySize e) := by
    unfold delimitedSize entrySize
    omega
  unfold messageSize
  omega

/-- A key that travels in a frame has a byte sum that fits an `int`. -/
theorem hashable_of_fits {m : WireMsg} (h7 : m.key.SevenBit) (hfit : messageSize m ≤ 65535) :
    Hashable m.key :=
  .of_length h7 ((key_le_messageSize m).trans hfit)

theorem hashable_of_fits_entry {m : WireMsg} {e : WireEntry} (he : m.entry = some e)
    (h7 : e.key.SevenBit) (hfit : messageSize m ≤ 65535) : Hashable e.key := by
  have hle := entry_le_messageSize he
  exact .of_length h7 (by omega)

end KvStorage
