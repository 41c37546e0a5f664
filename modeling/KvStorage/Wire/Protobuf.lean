import KvStorage.Wire.Message
import Mathlib.Data.List.TakeWhile

/-!
# A codec for the messages

`message_t__pack` and `message_t__unpack` as the proto3 wire format defines them on
`htmessages.proto`: the fields of each message with their numbers, in ascending order, and the
reader that takes the last value of a field.

A message is written field by field (`messageFields`), and for each kind of field the reader gives
back what was written: integers through their varints, strings up to their NUL, nested messages in
the bytes of a field. Put together, a packed message unpacks to itself (`readMessage_encode`), and
its length is the sum that `message_t__get_packed_size` computes (`length_messageFields`).

This is one `MessageCodec`; what is proved about the program holds for every codec that inverts and
has the documented sizes.
-/

namespace KvStorage

open CLib ProtoWire

/-! ## Fields -/

/-- The fields of `entry_t`. -/
def entryFields (e : WireEntry) : List Field := bytesField 1 e.key.bytes ++ bytesField 2 e.value

/-- The fields of `statistics_t`, all of them integers. -/
def statisticsFields (s : StatisticsT) : List Field :=
  varintField 1 (int64Varint s.nOperations.toInt) ++ varintField 2 (int64Varint s.totalTime.toInt)
    ++ varintField 3 (int64Varint s.nClients.toInt)

/-- The fields of `message_t` by their numbers; what has its default is left out, a repeated field
comes once for each of its elements. -/
def messageFields (m : WireMsg) : List Field :=
  varintField 1 (int64Varint m.opcode.toInt)
    ++ varintField 2 (int64Varint m.cType.toInt)
    ++ m.entry.toList.map (fun e => ⟨3, .bytes (encode (entryFields e))⟩)
    ++ bytesField 4 m.key.bytes
    ++ bytesField 5 m.value
    ++ varintField 6 (zigzag m.result.toInt)
    ++ m.keys.map (fun k => ⟨7, .bytes k.bytes⟩)
    ++ m.entries.map (fun e => ⟨8, .bytes (encode (entryFields e))⟩)
    ++ m.stats.toList.map (fun s => ⟨9, .bytes (encode (statisticsFields s))⟩)

/-! ## Reading them back -/

/-- The C string in a buffer: up to its first NUL. -/
def cstrOfBytes (bs : List Byte) : CStr where
  bytes := bs.takeWhile (· ≠ 0)
  nul_free := fun h => by simpa using List.mem_takeWhile_imp h

/-- A negative number was written with its 64 bits; the low 32 are the number again. -/
def int32OfVarint (n : Nat) : Int32 := Int32.ofInt n

def int64OfVarint (n : Nat) : Int64 := Int64.ofInt n

/-- The number that a zigzag varint stands for: the even ones were not negative. -/
def unzigzag (n : Nat) : Int := if n % 2 = 0 then (n / 2 : Nat) else -((n / 2 : Nat) : Int) - 1

/-- The entry in the bytes of a field, with the defaults for what is not there. -/
def readEntry (bs : List Byte) : Option WireEntry :=
  (decode bs).map fun fs => ⟨cstrOfBytes (lastBytes (values 1 fs)), lastBytes (values 2 fs)⟩

def readStatistics (bs : List Byte) : Option StatisticsT :=
  (decode bs).map fun fs => ⟨int32OfVarint (lastVarint (values 1 fs)),
    int64OfVarint (lastVarint (values 2 fs)), int32OfVarint (lastVarint (values 3 fs))⟩

/-- A sub-message that may be absent. -/
def readOptional {α : Type} (read : List Byte → Option α) (ps : List Payload) :
    Option (Option α) :=
  match lastBytes? ps with
  | none => some none
  | some bs => (read bs).map some

/-- The message in a packet. A field of an unknown number is skipped, and a nested message that
cannot be read makes the whole packet unreadable, for which `message_t__unpack` answers NULL. -/
def readMessage (bs : List Byte) : Option WireMsg := do
  let fs ← decode bs
  let entry ← readOptional readEntry (values 3 fs)
  let entries ← (allBytes (values 8 fs)).mapM readEntry
  let stats ← readOptional readStatistics (values 9 fs)
  some ⟨int32OfVarint (lastVarint (values 1 fs)), int32OfVarint (lastVarint (values 2 fs)), entry,
    cstrOfBytes (lastBytes (values 4 fs)), lastBytes (values 5 fs),
    Int32.ofInt (unzigzag (lastVarint (values 6 fs))),
    (allBytes (values 7 fs)).map cstrOfBytes, entries, stats⟩

/-- A C string has no NUL before its end, so it comes back whole. -/
@[simp] theorem cstrOfBytes_bytes (s : CStr) : cstrOfBytes s.bytes = s := by
  apply CStr.ext
  refine List.takeWhile_eq_self_iff.mpr fun b hb => ?_
  have hne : b ≠ 0 := fun h0 => s.nul_free (h0 ▸ hb)
  simpa using hne

/-- Sign extension to 64 bits and back. -/
@[simp] theorem int32OfVarint_int64Varint (x : Int32) :
    int32OfVarint (int64Varint x.toInt) = x := by
  have hlt := x.toInt_lt
  have hle := x.le_toInt
  apply Int32.toInt_inj.mp
  unfold int32OfVarint int64Varint
  rw [Int32.toInt_ofInt, Int.bmod_def, show Int32.size = 2 ^ 32 from rfl]
  omega

@[simp] theorem int64OfVarint_int64Varint (x : Int64) :
    int64OfVarint (int64Varint x.toInt) = x := by
  have hlt := x.toInt_lt
  have hle := x.le_toInt
  apply Int64.toInt_inj.mp
  unfold int64OfVarint int64Varint
  rw [Int64.toInt_ofInt, Int.bmod_def, show Int64.size = 2 ^ 64 from rfl]
  omega

@[simp] theorem unzigzag_zigzag (x : Int) : unzigzag (zigzag x) = x := by
  unfold unzigzag zigzag
  by_cases hx : 0 ≤ x
  · rw [if_pos hx]
    omega
  · rw [if_neg hx]
    omega

/-- What is read back from the fields of an entry is the entry. -/
theorem readEntry_encode (e : WireEntry) : readEntry (encode (entryFields e)) = some e := by
  unfold readEntry entryFields
  rw [decode_encode]
  simp [values_bytesField]

theorem readStatistics_encode (s : StatisticsT) :
    readStatistics (encode (statisticsFields s)) = some s := by
  unfold readStatistics statisticsFields
  rw [decode_encode]
  simp [values_varintField]

/-- A field that comes once at most, read back. -/
theorem readOptional_toList {α : Type} {read : List Byte → Option α} {write : α → List Byte}
    (h : ∀ a, read (write a) = some a) (o : Option α) :
    readOptional read (o.toList.map fun a => .bytes (write a)) = some o := by
  cases o with
  | none => rfl
  | some a => simp [readOptional, lastBytes?, h]

/-- A repeated field, read back element by element. -/
theorem mapM_read {α : Type} {read : List Byte → Option α} {write : α → List Byte}
    (h : ∀ a, read (write a) = some a) (l : List α) : (l.map write).mapM read = some l := by
  induction l with
  | nil => rfl
  | cons a l ih => simp [h, ih]

/-- What was packed is unpacked. -/
theorem readMessage_encode (m : WireMsg) : readMessage (encode (messageFields m)) = some m := by
  have hentry : readOptional readEntry (values 3 (messageFields m)) = some m.entry := by
    simp [messageFields, values_varintField, values_bytesField, values_map_ne, values_map_self,
      readOptional_toList readEntry_encode]
  have hentries : (allBytes (values 8 (messageFields m))).mapM readEntry = some m.entries := by
    have hall : allBytes (values 8 (messageFields m))
        = m.entries.map fun e => encode (entryFields e) := by
      simp [messageFields, values_varintField, values_bytesField, values_map_ne, values_map_self,
        allBytes, List.filterMap_map]
    rw [hall, mapM_read readEntry_encode]
  have hstats : readOptional readStatistics (values 9 (messageFields m)) = some m.stats := by
    simp [messageFields, values_varintField, values_bytesField, values_map_ne, values_map_self,
      readOptional_toList readStatistics_encode]
  have hkeys : (allBytes (values 7 (messageFields m))).map cstrOfBytes = m.keys := by
    simp [messageFields, values_varintField, values_bytesField, values_map_ne, values_map_self,
      allBytes, List.filterMap_map, Function.comp_def]
  unfold readMessage
  rw [decode_encode]
  simp only [Option.bind_eq_bind, Option.bind_some, hentry, hentries, hstats, hkeys]
  simp [messageFields, values_varintField, values_bytesField, values_map_ne]

/-! ## Sizes -/

/-- The sizes that `Wire.Message` defines are the lengths of what is written here. -/
theorem length_entryFields (e : WireEntry) : (encode (entryFields e)).length = entrySize e := by
  unfold entryFields entrySize
  rw [length_encode_append, length_encode_bytesField (by decide),
    length_encode_bytesField (by decide)]
  rfl

theorem length_statisticsFields (s : StatisticsT) :
    (encode (statisticsFields s)).length = statisticsSize s := by
  unfold statisticsFields statisticsSize
  rw [length_encode_append, length_encode_append, length_encode_varintField (by decide),
    length_encode_varintField (by decide), length_encode_varintField (by decide)]
  rfl

/-- A packed message has the documented size. -/
theorem length_messageFields (m : WireMsg) :
    (encode (messageFields m)).length = messageSize m := by
  unfold messageFields messageSize
  simp only [length_encode_append]
  rw [length_encode_varintField (by decide), length_encode_varintField (by decide),
    length_encode_varintField (by decide), length_encode_bytesField (by decide),
    length_encode_bytesField (by decide), length_encode_bytes (by decide),
    length_encode_bytes (by decide), length_encode_bytes (by decide),
    length_encode_bytes (by decide)]
  simp only [length_entryFields, length_statisticsFields]
  cases m.entry <;> cases m.stats <;>
    simp [varintFieldSize, bytesFieldSize, delimitedSize]

/-- The codec of the proto3 wire format. -/
def protoCodec : MessageCodec where
  getPackedSize := messageSize
  pack m := encode (messageFields m)
  unpack := readMessage
  pack_length := length_messageFields
  unpack_pack := readMessage_encode
  getPackedSize_eq _ := rfl

end KvStorage
