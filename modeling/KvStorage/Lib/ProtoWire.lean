import KvStorage.Lib.CString

/-!
# The proto3 wire format

A message is a sequence of fields, each a tag (number and wire type) and a payload, which is a
varint or a length-delimited byte string. `encode` writes a list of fields and `decode` reads one.

The round trip `decode_encode` goes up the same way: a varint is read back whatever follows it
(`readVarint_varint`), hence a field is (`decodeField_encodeField`), hence a list of fields. What
the fields of a particular message mean is left to the user: `values` collects the payloads of one
field number, and appending field lists appends them, so that a message is read back field by field.
The lengths add up in the same way.

Only the two wire types that scalar integers, strings and messages need are here.
-/

namespace ProtoWire

open CLib

/-- The payload of a field. -/
inductive Payload
  | varint (n : Nat)
  | bytes (bs : List Byte)
  deriving DecidableEq

/-- A field number with its payload. -/
structure Field where
  num : Nat
  payload : Payload
  deriving DecidableEq

/-! ## Varints -/

/-- Seven bits a byte, low bits first, the high bit set on all bytes but the
last. -/
def varint (n : Nat) : List Byte :=
  if n < 128 then [Fin.ofNat 256 n] else Fin.ofNat 256 (n % 128 + 128) :: varint (n / 128)

/-- The bytes a varint takes. -/
def varintSize (n : Nat) : Nat := n.log2 / 7 + 1

/-- Reads up to the first byte below 128. -/
def readVarint : List Byte → Option (Nat × List Byte)
  | [] => none
  | b :: rest =>
    if b.val < 128 then some (b.val, rest)
    else (readVarint rest).map fun r => (b.val - 128 + 128 * r.1, r.2)

theorem varint_of_lt {n : Nat} (h : n < 128) : varint n = [Fin.ofNat 256 n] := by
  rw [varint, if_pos h]

/-- The low seven bits come first, marked as not the last. -/
theorem varint_of_le {n : Nat} (h : 128 ≤ n) :
    varint n = Fin.ofNat 256 (n % 128 + 128) :: varint (n / 128) := by
  rw [varint, if_neg (by omega)]

/-- Varints need no delimiter: the reader stops behind the one that was written. -/
theorem readVarint_varint (n : Nat) (rest : List Byte) :
    readVarint (varint n ++ rest) = some (n, rest) := by
  induction n using Nat.strongRecOn with
  | ind n ih =>
    by_cases h : n < 128
    · have hval : (Fin.ofNat 256 n).val = n := Nat.mod_eq_of_lt (by omega)
      rw [varint_of_lt h, List.singleton_append, readVarint, hval, if_pos h]
    · have hval : (Fin.ofNat 256 (n % 128 + 128)).val = n % 128 + 128 :=
        Nat.mod_eq_of_lt (by omega)
      rw [varint_of_le (by omega), List.cons_append, readVarint, hval, if_neg (by omega),
        ih (n / 128) (by omega), Option.map_some, Option.some.injEq, Prod.mk.injEq]
      exact ⟨by omega, rfl⟩

/-- Dividing by 128 takes seven bits away. -/
theorem log2_div_128 {n : Nat} (h : 128 ≤ n) : n.log2 = (n / 128).log2 + 7 := by
  have hne : n / 128 ≠ 0 := by omega
  have hlo := Nat.log2_self_le hne
  have hhi := Nat.lt_log2_self (n := n / 128)
  have hpow : 2 ^ ((n / 128).log2 + 7) = 128 * 2 ^ (n / 128).log2 := by
    rw [Nat.pow_add]
    omega
  have hpow' : 2 ^ ((n / 128).log2 + 1 + 7) = 128 * 2 ^ ((n / 128).log2 + 1) := by
    rw [Nat.pow_add]
    omega
  have hle : (n / 128).log2 + 7 ≤ n.log2 := (Nat.le_log2 (by omega)).mpr (by omega)
  have hlt : n.log2 < (n / 128).log2 + 1 + 7 := (Nat.log2_lt (by omega)).mpr (by omega)
  omega

/-- The length, by recursion on the seven-bit groups. -/
theorem length_varint (n : Nat) : (varint n).length = varintSize n := by
  induction n using Nat.strongRecOn with
  | ind n ih =>
    unfold varintSize at ih ⊢
    by_cases h : n < 128
    · have hlog : n.log2 < 7 ∨ n = 0 := by
        by_cases h0 : n = 0
        · exact Or.inr h0
        · exact Or.inl ((Nat.log2_lt h0).mpr (by omega))
      rw [varint_of_lt h, List.length_singleton]
      rcases hlog with hlt | rfl
      · omega
      · rfl
    · rw [varint_of_le (by omega), List.length_cons, ih (n / 128) (by omega),
        log2_div_128 (n := n) (by omega)]
      omega

theorem varint_ne_nil (n : Nat) : varint n ≠ [] := by
  intro h
  have hlen := length_varint n
  rw [h, List.length_nil, varintSize] at hlen
  omega

/-! ## Fields -/

/-- The bytes of a field: its tag, and its payload. -/
def encodeField (f : Field) : List Byte :=
  match f.payload with
  | .varint n => varint (f.num * 8) ++ varint n
  | .bytes bs => varint (f.num * 8 + 2) ++ (varint bs.length ++ bs)

/-- The first field of a byte string. -/
def decodeField (bs : List Byte) : Option (Field × List Byte) := do
  let (tag, bs) ← readVarint bs
  if tag % 8 = 0 then
    let (n, bs) ← readVarint bs
    some (⟨tag / 8, .varint n⟩, bs)
  else if tag % 8 = 2 then
    let (len, bs) ← readVarint bs
    if len ≤ bs.length then some (⟨tag / 8, .bytes (bs.take len)⟩, bs.drop len) else none
  else none

/-- Fields one after the other, with nothing in between. -/
def encode (fs : List Field) : List Byte := (fs.map encodeField).flatten

/-- At most `fuel` fields; every field takes a byte. -/
def decodeFuel : Nat → List Byte → Option (List Field)
  | _, [] => some []
  | 0, _ :: _ => none
  | fuel + 1, b :: bs => do
    let (f, rest) ← decodeField (b :: bs)
    let fs ← decodeFuel fuel rest
    some (f :: fs)

/-- The fuel is the number of bytes: every field takes at least one. -/
def decode (bs : List Byte) : Option (List Field) := decodeFuel bs.length bs

/-- A field carries its own length, so it is read back with the rest untouched. -/
theorem decodeField_encodeField (f : Field) (rest : List Byte) :
    decodeField (encodeField f ++ rest) = some (f, rest) := by
  obtain ⟨num, payload⟩ := f
  unfold encodeField decodeField
  cases payload with
  | varint n =>
    dsimp only
    rw [List.append_assoc, readVarint_varint]
    simp only [Option.bind_eq_bind, Option.bind_some]
    rw [if_pos (by omega), readVarint_varint]
    simp only [Option.bind_some, Option.some.injEq, Prod.mk.injEq, Field.mk.injEq, and_true]
    omega
  | bytes bs =>
    dsimp only
    rw [List.append_assoc, readVarint_varint]
    simp only [Option.bind_eq_bind, Option.bind_some]
    rw [if_neg (by omega), if_pos (by omega), List.append_assoc, readVarint_varint]
    simp only [Option.bind_some]
    rw [if_pos (by rw [List.length_append]; omega), List.take_left' rfl, List.drop_left' rfl]
    simp only [Option.some.injEq, Prod.mk.injEq, Field.mk.injEq, and_true]
    omega

theorem encodeField_ne_nil (f : Field) : encodeField f ≠ [] := by
  unfold encodeField
  split
  · exact List.append_ne_nil_of_left_ne_nil (varint_ne_nil _) _
  · exact List.append_ne_nil_of_left_ne_nil (varint_ne_nil _) _

/-- By induction on the fields; each uses up at least one byte and one unit of fuel. -/
theorem decodeFuel_encode : ∀ (fs : List Field) {fuel : Nat}, (encode fs).length ≤ fuel →
    decodeFuel fuel (encode fs) = some fs
  | [], fuel, _ => by cases fuel <;> rfl
  | f :: fs, fuel, h => by
    have hsplit : encode (f :: fs) = encodeField f ++ encode fs := by simp [encode]
    have hpos := List.length_pos_of_ne_nil (encodeField_ne_nil f)
    rw [hsplit, List.length_append] at h
    have hfield := decodeField_encodeField f (encode fs)
    rw [hsplit]
    cases hbytes : encodeField f ++ encode fs with
    | nil =>
      rw [← List.length_eq_zero_iff, List.length_append] at hbytes
      omega
    | cons b bs =>
      cases fuel with
      | zero => omega
      | succ fuel =>
        rw [hbytes] at hfield
        have hrest := decodeFuel_encode fs (show (encode fs).length ≤ fuel by omega)
        simp [decodeFuel, hfield, hrest]

/-- What was encoded is decoded. -/
theorem decode_encode (fs : List Field) : decode (encode fs) = some fs :=
  decodeFuel_encode fs (Nat.le_refl _)

/-! ## Reading the fields -/

/-- The payloads of one field number, in order. -/
def values (num : Nat) (fs : List Field) : List Payload :=
  fs.filterMap fun f => if f.num = num then some f.payload else none

@[simp] theorem values_nil (num : Nat) : values num [] = [] := rfl

/-- Appending field lists appends the payloads of every field number. -/
@[simp] theorem values_append (num : Nat) (fs gs : List Field) :
    values num (fs ++ gs) = values num fs ++ values num gs := List.filterMap_append

/-- A repeated field has its payloads under its own number, and none under another one. -/
theorem values_map_self {α : Type} (num : Nat) (p : α → Payload) (l : List α) :
    values num (l.map fun a => ⟨num, p a⟩) = l.map p := by
  simp [values, List.filterMap_map]

theorem values_map_ne {α : Type} {num num' : Nat} (h : num' ≠ num) (p : α → Payload) (l : List α) :
    values num (l.map fun a => ⟨num', p a⟩) = [] := by
  simp [values, List.filterMap_map, h]

/-- The integer of a field: the last one, 0 without any. -/
def lastVarint (ps : List Payload) : Nat :=
  match ps.getLast? with
  | some (.varint n) => n
  | _ => 0

/-- The byte string of a field, if it is there. -/
def lastBytes? (ps : List Payload) : Option (List Byte) :=
  match ps.getLast? with
  | some (.bytes bs) => some bs
  | _ => none

/-- The empty string where the field is not there. -/
def lastBytes (ps : List Payload) : List Byte := (lastBytes? ps).getD []

/-- All byte strings of a repeated field. -/
def allBytes (ps : List Payload) : List (List Byte) :=
  ps.filterMap fun p =>
    match p with
    | .bytes bs => some bs
    | .varint _ => none

@[simp] theorem allBytes_map (l : List (List Byte)) : allBytes (l.map .bytes) = l := by
  simp [allBytes, List.filterMap_map]

/-! ## Fields that are left out when they have their default value -/

/-- Integers and strings are left out when they have their default. -/
def varintField (num n : Nat) : List Field := if n = 0 then [] else [⟨num, .varint n⟩]

def bytesField (num : Nat) (bs : List Byte) : List Field :=
  if bs = [] then [] else [⟨num, .bytes bs⟩]

/-- So such a field has one payload or none. -/
theorem values_varintField (num num' n : Nat) :
    values num (varintField num' n)
      = if num' = num then if n = 0 then [] else [.varint n] else [] := by
  unfold varintField values
  by_cases hn : n = 0 <;> by_cases h : num' = num <;> simp [hn, h]

theorem values_bytesField (num num' : Nat) (bs : List Byte) :
    values num (bytesField num' bs)
      = if num' = num then if bs = [] then [] else [.bytes bs] else [] := by
  unfold bytesField values
  by_cases hn : bs = [] <;> by_cases h : num' = num <;> simp [hn, h]

/-- What was left out reads as the default, which it was. -/
@[simp] theorem lastVarint_default (n : Nat) :
    lastVarint (if n = 0 then [] else [.varint n]) = n := by
  by_cases hn : n = 0 <;> simp [hn, lastVarint]

@[simp] theorem lastBytes_default (bs : List Byte) :
    lastBytes (if bs = [] then [] else [.bytes bs]) = bs := by
  by_cases hn : bs = [] <;> simp [hn, lastBytes, lastBytes?]

/-! ## Sizes, for field numbers whose tag is one byte -/

theorem varintSize_of_lt {n : Nat} (h : n < 128) : varintSize n = 1 := by
  rw [← length_varint, varint_of_lt h, List.length_singleton]

/-- The length of a message is the sum over its fields. -/
theorem length_encode_append (fs gs : List Field) :
    (encode (fs ++ gs)).length = (encode fs).length + (encode gs).length := by
  simp [encode]

/-- The length of a repeated field. A number below 15 makes a tag of one byte. -/
theorem length_encode_bytes {α : Type} {num : Nat} (h : num < 15) (p : α → List Byte) (l : List α) :
    (encode (l.map fun a => ⟨num, .bytes (p a)⟩)).length
      = (l.map fun a => 1 + varintSize (p a).length + (p a).length).sum := by
  induction l with
  | nil => rfl
  | cons a l ih =>
    unfold encode at ih ⊢
    rw [List.map_cons, List.map_cons, List.flatten_cons, List.length_append, ih, List.map_cons,
      List.sum_cons]
    simp only [encodeField, List.length_append, length_varint]
    rw [varintSize_of_lt (n := num * 8 + 2) (by omega)]
    omega

theorem length_encode_bytesField {num : Nat} (h : num < 15) (bs : List Byte) :
    (encode (bytesField num bs)).length
      = if bs = [] then 0 else 1 + varintSize bs.length + bs.length := by
  unfold bytesField
  split
  · rfl
  · simpa using length_encode_bytes h id [bs]

theorem length_encode_varintField {num : Nat} (h : num < 15) (n : Nat) :
    (encode (varintField num n)).length = if n = 0 then 0 else 1 + varintSize n := by
  unfold varintField
  split
  · rfl
  · simp only [encode, List.map_cons, List.map_nil, List.flatten_cons, List.flatten_nil,
      List.append_nil, encodeField, List.length_append, length_varint]
    rw [varintSize_of_lt (n := num * 8) (by omega)]

end ProtoWire
