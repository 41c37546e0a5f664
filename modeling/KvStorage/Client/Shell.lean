import KvStorage.Client.Console
import KvStorage.Client.Relay

/-!
# The whole service

A client with its handles on the first and on the last server of a chain, any number of servers,
and every connection between them. `Console.iteration` is one iteration of the loop of `main`, from
the text that `fgets` reads over the calls of the stub and the frames on the connections to the
tables of all servers, and back to what `main` prints.

What all of it is for is said by `Interpreter`: commands on one map, and the counters of the last
server. As long as the keys are seven-bit strings and the listings that are asked for fit their
frames, and nothing fails, every run of the loop is a run of the interpreter
(`shell_is_interpreter`).
-/

namespace KvStorage

open CLib Table Strtok Lines

/-! ## The system -/

/-- The two handles of the client, and the servers. -/
structure Cluster (n : Nat) where
  head : Hop
  tail : Hop
  chain : Chain n

namespace Cluster

variable {n : Nat} {α : Type}

/-- A call over `head`. -/
def viaHead (p : StateT (Hop × Chain n) CM α) : StateT (Cluster n) CM α := fun c => do
  let (a, (head, chain)) ← p (c.head, c.chain)
  pure (a, { c with head := head, chain := chain })

/-- A call over `tail`. -/
def viaTail (p : StateT (Hop × Chain n) CM α) : StateT (Cluster n) CM α := fun c => do
  let (a, (tail, chain)) ← p (c.tail, c.chain)
  pure (a, { c with tail := tail, chain := chain })

section Run

variable {p : StateT (Hop × Chain n) CM α} {c : Cluster n} {a : α} {l : Hop} {chain : Chain n}
  {al al' : Allocs}

theorem viaHead_run (h : p (c.head, c.chain) al = .ok ((a, (l, chain)), al')) :
    viaHead p c al = .ok ((a, { c with head := l, chain := chain }), al') := by
  unfold viaHead
  rw [run_bind_ok h]
  rfl

theorem viaTail_run (h : p (c.tail, c.chain) al = .ok ((a, (l, chain)), al')) :
    viaTail p c al = .ok ((a, { c with tail := l, chain := chain }), al') := by
  unfold viaTail
  rw [run_bind_ok h]
  rfl

end Run

end Cluster

variable (codec : MessageCodec) {n : Nat}

/-- The calls of `main` for a put. -/
def putCall (clocks : Nat → Timeval × Timeval) (key value : List Byte) :
    StateT (Hop × Chain n) CM Int := do
  let value := (cstrOfBytes value).bytes
  let block ← blockCreate (cint value.length) (some value)
  let entry ← entryCreate (some (cstrOfBytes key)) block
  rtablePut (chainCall codec clocks n) entry

/-- What `main` does for an operation, up to the result. What becomes of the connections at
`quit` is left out. -/
def perform (clocks : Nat → Timeval × Timeval) : (o : Operation) → StateT (Cluster n) CM o.Result
  | .put key value => Cluster.viaHead (putCall codec clocks key value)
  | .get key => Cluster.viaTail (rtableGet (lastCall codec clocks n) (some (cstrOfBytes key)))
  | .del key => Cluster.viaHead (rtableDel (chainCall codec clocks n) (some (cstrOfBytes key)))
  | .size => Cluster.viaTail (rtableSize (lastCall codec clocks n))
  | .getKeys => Cluster.viaTail (rtableGetKeys (lastCall codec clocks n))
  | .getTable => Cluster.viaTail (rtableGetTable (lastCall codec clocks n))
  | .stats => Cluster.viaTail (rtableStats (lastCall codec clocks n))
  | .quit => pure ()

/-- One iteration of the loop of `main`. -/
def Console.iteration (clocks : Nat → Timeval × Timeval) (c : Console) :
    StateT (Cluster n) CM Console :=
  if c.session.running then do
    let (read, _) := fgets newline maxRead c.session.stdin
    let printed ←
      if read = [] then pure printUsage
      else
        match command (inputString read) with
        | none => pure printUsage
        | some o => do
          let r ← perform codec clocks o
          pure (answer o r)
    pure ⟨c.session.step, c.output ++ .text "Comando: " :: printed⟩
  else pure c

/-- The first `k` iterations. -/
def shell (clocks : Nat → Nat → Timeval × Timeval) (c : Console) :
    Nat → StateT (Cluster n) CM Console
  | 0 => pure c
  | k + 1 => do
    let c ← shell clocks c k
    c.iteration codec (clocks k)

/-! ## Its purpose -/

/-- What is stored, and what the last server has counted. -/
structure Contents where
  map : KvMap
  stats : StatisticsT

namespace Contents

variable (d : Contents)

/-- The results an operation may have; a listing may come in any order. -/
def Answers : (o : Operation) → o.Result → Prop
  | .put .., r => r = (0 : Int)
  | .get key, r => r = (d.map.lookup (cstrOfBytes key)).map Block.ofBytes
  | .del key, r => r = if cstrOfBytes key ∈ d.map then (0 : Int) else -1
  | .size, r => r = (d.map.keys.card : Int)
  | .getKeys, r => ∃ keys : List CStr, r = some (keys.map some ++ [none]) ∧ keys.Nodup ∧
      ∀ key, key ∈ keys ↔ key ∈ d.map
  | .getTable, r => ∃ entries : List Entry, r = some (entries.map some ++ [none]) ∧
      (entries.map Entry.key).Nodup ∧
      ∀ key v, d.map.lookup key = some v ↔ ⟨key, Block.ofBytes v⟩ ∈ entries
  | .stats, r => r = some d.stats
  | .quit, _ => True

/-- The operations that count. -/
def Counts : Operation → Bool
  | .get key => cstrOfBytes key ∈ d.map
  | .del key => cstrOfBytes key ∈ d.map
  | .stats => false
  | .quit => false
  | _ => true

/-- The map after an operation. -/
def mapAfter : Operation → KvMap
  | .put key value => d.map.insert (cstrOfBytes key) (cstrOfBytes value).bytes
  | .del key => d.map.erase (cstrOfBytes key)
  | _ => d.map

def after (clock : Timeval × Timeval) (o : Operation) : Contents :=
  ⟨d.mapAfter o, statsAfter (d.Counts o) clock d.stats⟩

end Contents

/-- The operation of the next iteration, if there is one. -/
def Session.calling (s : Session) : Option Operation :=
  if s.running then
    let (read, _) := fgets newline maxRead s.stdin
    if read = [] then none else command (inputString read)
  else none

/-- Commands on a map. -/
structure Interpreter where
  session : Session
  stored : Contents
  output : List Output

namespace Interpreter

/-- An iteration without an operation: the prompt and the usage, or nothing after `quit`. -/
def idleOutput (i : Interpreter) : List Output :=
  if i.session.running then .text "Comando: " :: printUsage else []

inductive Step (clock : Timeval × Timeval) (i : Interpreter) : Interpreter → Prop
  | idle : i.session.calling = none →
      Step clock i ⟨i.session.step, i.stored, i.output ++ i.idleOutput⟩
  | perform {o : Operation} {r : o.Result} : i.session.calling = some o → i.stored.Answers o r →
      Step clock i ⟨i.session.step, i.stored.after clock o,
        i.output ++ .text "Comando: " :: answer o r⟩

/-- The first `k` iterations; the clock is the one of the last server. -/
inductive Runs (clock : Nat → Timeval × Timeval) (i : Interpreter) : Nat → Interpreter → Prop
  | start : Runs clock i 0 i
  | step {k : Nat} {j j' : Interpreter} : Runs clock i k j → Step (clock k) j j' →
      Runs clock i (k + 1) j'

/-- Nothing is read yet. -/
def start (stdin : List Byte) (d : Contents) : Interpreter := ⟨(Console.start stdin).session, d, []⟩

end Interpreter

/-! ## The arguments of a command -/

def Operation.args : Operation → List (List Byte)
  | .put key value => [key, value]
  | .get key => [key]
  | .del key => [key]
  | _ => []

section Tokens

variable {input key value : List Byte}

/-- What is behind the first word is a part of the line. -/
theorem sublist_behind {op : Option (List Byte)} {rest : List Byte}
    (hop : next [space] input = (op, rest)) : rest.Sublist input := by
  have hsub := sublist_rest [space] input
  rwa [hop] at hsub

theorem commandTokens_key (h : (commandTokens input).key = some key) :
    key ≠ [] ∧ key.Sublist input := by
  unfold commandTokens at h
  split at h
  next => cases h
  next op rest hop =>
    have hrest : rest.Sublist input := sublist_behind hop
    have hkey (hnext : (next [space] rest).1 = some key) : key ≠ [] ∧ key.Sublist input :=
      ⟨token_ne_nil (Prod.ext hnext rfl), (sublist_token (Prod.ext hnext rfl)).trans hrest⟩
    split at h
    next => exact hkey h
    next => exact hkey h
    next => exact hkey h
    next => cases h

theorem commandTokens_value (h : (commandTokens input).value = some value) :
    value ≠ [] ∧ value.Sublist input := by
  unfold commandTokens at h
  split at h
  next => cases h
  next op rest hop =>
    have hrest : rest.Sublist input := sublist_behind hop
    split at h
    next =>
      have hvalue : (next [] (next [space] rest).2).1 = some value := h
      exact ⟨token_ne_nil (Prod.ext hvalue rfl),
        ((sublist_token (Prod.ext hvalue rfl)).trans (sublist_rest ..)).trans hrest⟩
    all_goals cases h

/-- The arguments are tokens of the text. -/
theorem args_of_command {o : Operation} (h : command input = some o) :
    ∀ arg ∈ o.args, (commandTokens input).key = some arg ∨
      (commandTokens input).value = some arg := by
  unfold command at h
  dsimp only at h
  split at h
  case h_1 =>
    split at h
    next key value hkey hvalue =>
      cases h
      simp [Operation.args, hkey, hvalue]
    next => cases h
  case h_2 =>
    obtain ⟨key, hkey, rfl⟩ := Option.map_eq_some_iff.mp h
    simp [Operation.args, hkey]
  case h_3 =>
    obtain ⟨key, hkey, rfl⟩ := Option.map_eq_some_iff.mp h
    simp [Operation.args, hkey]
  all_goals
    cases h
    try exact fun _ harg => absurd harg List.not_mem_nil

end Tokens

/-- The arguments that `main` gets: neither empty nor longer than what `fgets` reads. -/
structure Operation.FromInput (o : Operation) : Prop where
  ne_nil : ∀ arg ∈ o.args, arg ≠ []
  nul_free : ∀ arg ∈ o.args, (0 : Byte) ∉ arg
  length : ∀ arg ∈ o.args, arg.length ≤ maxRead

theorem Session.calling_args {s : Session} {o : Operation} (h : s.calling = some o) :
    o.FromInput := by
  unfold Session.calling at h
  split at h
  case isFalse => cases h
  case isTrue =>
    have hread : (fgets newline maxRead s.stdin).1.length ≤ maxRead := length_fgets_le maxRead _
    dsimp only at h
    split at h
    case isTrue => cases h
    case isFalse =>
      have hargs : ∀ arg ∈ o.args, arg ≠ [] ∧ arg.Sublist _ := fun arg harg =>
        (args_of_command h arg harg).elim commandTokens_key commandTokens_value
      have hinput : (inputString (fgets newline maxRead s.stdin).1).Sublist
          (fgets newline maxRead s.stdin).1 := List.takeWhile_sublist _
      refine ⟨fun arg harg => (hargs arg harg).1, fun arg harg hzero => ?_, fun arg harg => ?_⟩
      · have hmem := (hargs arg harg).2.subset hzero
        have hkept := List.mem_takeWhile_imp hmem
        simp at hkept
      · exact (((hargs arg harg).2.trans hinput).length_le).trans hread

theorem bytes_cstrOfBytes {bytes : List Byte} (h : (0 : Byte) ∉ bytes) :
    (cstrOfBytes bytes).bytes = bytes := by
  refine List.takeWhile_eq_self_iff.mpr fun b hb => ?_
  simpa using fun h0 : b = 0 => h (h0 ▸ hb)

theorem Operation.FromInput.length_cstr {o : Operation} (h : o.FromInput) {arg : List Byte}
    (harg : arg ∈ o.args) : (cstrOfBytes arg).bytes.length ≤ maxRead :=
  (bytes_cstrOfBytes (h.nul_free arg harg)).symm ▸ h.length arg harg

/-! ## What fits a frame -/

/-- Three bytes announce a length below 2^21. -/
theorem delimitedSize_le_four {len : Nat} (h : len < 2 ^ 21) : delimitedSize len ≤ 4 + len := by
  unfold delimitedSize ProtoWire.varintSize
  by_cases h0 : len = 0
  · subst h0
    decide
  · have hlog := (Nat.log2_lt h0).mpr h
    omega

theorem bytesFieldSize_le_four {bs : List Byte} (h : bs.length ≤ maxRead) :
    bytesFieldSize bs ≤ 4 + maxRead := by
  unfold bytesFieldSize
  split
  next => exact Nat.zero_le _
  next =>
    unfold maxRead at h ⊢
    have hle := delimitedSize_le_four (show bs.length < 2 ^ 21 by omega)
    omega

section Sizes

variable {key : CStr} (hkey : key.bytes.length ≤ maxRead)

include hkey

/-- Every request of `main` fits its frame. -/
theorem putWire_fits {v : List Byte} (hv : v.length ≤ maxRead) :
    messageSize (putWire key v) ≤ 65535 := by
  have hkeySize := bytesFieldSize_le_four hkey
  have hvalueSize := bytesFieldSize_le_four hv
  unfold maxRead at hkeySize hvalueSize
  have hentry := delimitedSize_le_four
    (show bytesFieldSize key.bytes + bytesFieldSize v < 2 ^ 21 by omega)
  rw [messageSize_eq (putWire_short key v).1 (putWire_short key v).2, fieldsSize_putWire]
  omega

theorem getWire_fits : messageSize (keyWire OP_GET key) ≤ 65535 := by
  have hkeySize := bytesFieldSize_le_four hkey
  unfold maxRead at hkeySize
  rw [messageSize_eq (by decide : Short OP_GET) (by decide : Short CT_KEY), fieldsSize_keyWire]
  omega

theorem delWire_fits : messageSize (keyWire OP_DEL key) ≤ 65535 := by
  have hsame : fieldsSize (keyWire OP_DEL key) = fieldsSize (keyWire OP_GET key) := rfl
  have hget := getWire_fits hkey
  rw [messageSize_eq (by decide : Short OP_GET) (by decide : Short CT_KEY)] at hget
  rw [messageSize_eq (by decide : Short OP_DEL) (by decide : Short CT_KEY), hsame]
  exact hget

theorem getReply_fits {value : Option (List Byte)} (hv : ∀ v, value = some v → v.length ≤ maxRead) :
    messageSize (getReplyWire key value) ≤ 65535 := by
  have hget := getWire_fits hkey
  rw [messageSize_eq (by decide : Short OP_GET) (by decide : Short CT_KEY)] at hget
  cases value with
  | none =>
    have hsame : fieldsSize (getReplyWire key none) = fieldsSize (keyWire OP_GET key) := rfl
    rw [messageSize_eq (by decide : Short OP_ERROR) (by decide : Short CT_NONE), hsame]
    exact hget
  | some v =>
    have hkeySize := bytesFieldSize_le_four hkey
    have hvalueSize := bytesFieldSize_le_four (hv v rfl)
    unfold maxRead at hkeySize hvalueSize
    have hsame : getReplyWire key (some v) = valueWire key v := rfl
    rw [hsame, messageSize_eq (by decide : Short (OP_GET + 1)) (by decide : Short CT_VALUE),
      fieldsSize_valueWire]
    omega

end Sizes

/-- The bytes of the reply to GETKEYS. -/
def keysSize (M : KvMap) : Nat := 4 + ∑ key ∈ M.keys, delimitedSize key.bytes.length

/-- The bytes of the reply to GETTABLE. -/
def entriesSize (M : KvMap) : Nat :=
  4 + ∑ key ∈ M.keys, delimitedSize (entrySize ⟨key, (M.lookup key).getD []⟩)

section Listings

variable {t : Table}

theorem keys_eq_toFinset (t : Table) : t.map.keys = (t.entries.map Entry.key).toFinset := by
  ext key
  rw [List.mem_toFinset, mem_entries_keys, Finmap.mem_keys]

variable (h : t.WF)

include h

theorem messageSize_keysReply : messageSize (keysReply t) = keysSize t.map := by
  have hfields : fieldsSize (keysReply t)
      = ((t.entries.map Entry.key).map fun key => delimitedSize key.bytes.length).sum := by
    unfold fieldsSize
    simp [keysReply, bareWire, WireMsg.init, emptyString, bytesFieldSize, varintFieldSize, zigzag]
  rw [messageSize_eq (by decide : Short (OP_GETKEYS + 1)) (by decide : Short CT_KEYS), hfields,
    keysSize, keys_eq_toFinset, List.sum_toFinset _ h.nodup_keys]

theorem messageSize_tableReply : messageSize (tableReply t) = entriesSize t.map := by
  have hvalue : ∀ e ∈ t.entries, e.wire = ⟨e.key, (t.map.lookup e.key).getD []⟩ := by
    intro e he
    obtain ⟨v, -, hv⟩ := h.stored e he
    have hlookup : t.map.lookup e.key = some v := h.lookup_eq_some_iff.mpr (hv ▸ he)
    rw [hlookup, Entry.wire, Entry.bytes, hv, Block.content_ofBytes, Option.getD_some]
  have hwires : t.entries.map Entry.wire
      = (t.entries.map Entry.key).map fun key => ⟨key, (t.map.lookup key).getD []⟩ := by
    rw [List.map_map]
    exact List.map_congr_left hvalue
  have hfields : fieldsSize (tableReply t)
      = ((t.entries.map Entry.wire).map fun e => delimitedSize (entrySize e)).sum := by
    unfold fieldsSize
    simp [tableReply, bareWire, WireMsg.init, emptyString, bytesFieldSize, varintFieldSize, zigzag]
  rw [hwires, List.map_map] at hfields
  rw [messageSize_eq (by decide : Short (OP_GETTABLE + 1)) (by decide : Short CT_TABLE), hfields,
    entriesSize, keys_eq_toFinset, List.sum_toFinset _ h.nodup_keys]
  rfl

end Listings

/-! ## One operation -/

/-- What an operation needs: a key the hash takes, a size an `int` holds, a listing that fits its
frame. -/
def Operation.Fits (M : KvMap) : Operation → Prop
  | .put key _ => (cstrOfBytes key).SevenBit
  | .get key => (cstrOfBytes key).SevenBit
  | .del key => (cstrOfBytes key).SevenBit
  | .size => M.keys.card < 2 ^ 31
  | .getKeys => keysSize M ≤ 65535
  | .getTable => entriesSize M ≤ 65535
  | .stats => True
  | .quit => True

/-- Clients put no longer values. -/
def ShortValues (M : KvMap) : Prop := ∀ key v, M.lookup key = some v → v.length ≤ maxRead

theorem ShortValues.insert {M : KvMap} (h : ShortValues M) (key : CStr) {v : List Byte}
    (hv : v.length ≤ maxRead) : ShortValues (M.insert key v) := by
  intro key' v' hlookup
  by_cases hsame : key' = key
  · rw [hsame, Finmap.lookup_insert, Option.some.injEq] at hlookup
    exact hlookup ▸ hv
  · rw [Finmap.lookup_insert_of_ne _ hsame] at hlookup
    exact h key' v' hlookup

theorem ShortValues.erase {M : KvMap} (h : ShortValues M) (key : CStr) :
    ShortValues (M.erase key) := by
  intro key' v' hlookup
  by_cases hsame : key' = key
  · rw [hsame, Finmap.lookup_erase] at hlookup
    cases hlookup
  · rw [Finmap.lookup_erase_ne hsame] at hlookup
    exact h key' v' hlookup

/-- The service stores and has counted what the interpreter has, and nothing is on its way. -/
structure Cluster.Serves (c : Cluster n) (d : Contents) : Prop where
  head : c.head.Idle
  tail : c.tail.Idle
  chain : c.chain.Holds d.map n
  stats : (c.chain.last n).stats = d.stats
  short : ShortValues d.map

section Perform

variable (clocks : Nat → Timeval × Timeval) {c : Cluster n} {d : Contents} (hc : c.Serves d)

include hc

theorem perform_put {key value : List Byte} (ho : (Operation.put key value).FromInput)
    (hfits : (cstrOfBytes key).SevenBit) :
    ∃ c' : Cluster n, perform codec clocks (.put key value) c allocated
        = .ok (((0 : Int), c'), allocated) ∧ c'.Serves (d.after (clocks 0) (.put key value)) := by
  have hkeyArg : key ∈ (Operation.put key value).args := List.mem_cons_self ..
  have hvalueArg : value ∈ (Operation.put key value).args :=
    List.mem_cons_of_mem _ (List.mem_cons_self ..)
  have hkey := ho.length_cstr hkeyArg
  have hbytes := bytes_cstrOfBytes (ho.nul_free value hvalueArg)
  have hlength := ho.length value hvalueArg
  have hne := ho.ne_nil value hvalueArg
  have hreq := putWire_fits hkey hlength
  have hk : Hashable (cstrOfBytes key) :=
    hashable_of_fits_entry (m := putWire (cstrOfBytes key) value) rfl hfits hreq
  obtain ⟨l, chain, hl, hchain, hstats, hrun⟩ :=
    Chain.rtablePut_chain codec clocks hk hne hreq n hc.head hc.chain
  have hmap : (d.after (clocks 0) (.put key value)).map = d.map.insert (cstrOfBytes key) value :=
    congrArg (d.map.insert (cstrOfBytes key)) hbytes
  refine ⟨{ c with head := l, chain := chain }, ?_, hl, hc.tail, hmap ▸ hchain, ?_,
    hmap ▸ hc.short.insert _ hlength⟩
  · have hcint : cint value.length = value.length := by
      unfold maxRead at hlength
      exact cint_of_lt (by omega) (by omega)
    have hblock : blockCreate (cint value.length) (some value) allocated
        = .ok (some (Block.ofBytes value), allocated) := by
      rw [hcint, blockCreate_run hne]
      rfl
    have hentry : entryCreate (some (cstrOfBytes key)) (some (Block.ofBytes value)) allocated
        = .ok (some ⟨cstrOfBytes key, Block.ofBytes value⟩, allocated) := entryCreate_run _ _ _
    refine Cluster.viaHead_run ?_
    unfold putCall
    rw [hbytes, state_bind_ok (state_lift_ok hblock), state_bind_ok (state_lift_ok hentry)]
    exact hrun
  · rw [hstats, hc.stats]
    rfl

theorem perform_del {key : List Byte} (ho : (Operation.del key).FromInput)
    (hfits : (cstrOfBytes key).SevenBit) :
    ∃ c' : Cluster n, perform codec clocks (.del key) c allocated
        = .ok (((if cstrOfBytes key ∈ d.map then (0 : Int) else (-1 : Int)), c'), allocated) ∧
      c'.Serves (d.after (clocks 0) (.del key)) := by
  have hreq := delWire_fits (ho.length_cstr (List.mem_singleton_self _))
  have hk : Hashable (cstrOfBytes key) := hashable_of_fits (m := keyWire OP_DEL _) hfits hreq
  obtain ⟨l, chain, hl, hchain, hstats, hrun⟩ :=
    Chain.rtableDel_chain codec clocks hk hreq n hc.head hc.chain
  refine ⟨{ c with head := l, chain := chain }, Cluster.viaHead_run hrun, hl, hc.tail, hchain, ?_,
    hc.short.erase _⟩
  rw [hstats, hc.stats]
  simp [Contents.after, Contents.Counts, statsAfter]

/-- A call over `tail` leaves the map alone. -/
theorem serves_viaTail {α : Type} {p : StateT (Hop × Chain n) CM α} {a : α} {l : Hop}
    {chain : Chain n} {o : Operation} (hmap : d.mapAfter o = d.map) (hl : l.Idle)
    (hchain : chain.Holds d.map n)
    (hstats : (chain.last n).stats = statsAfter (d.Counts o) (clocks 0) (c.chain.last n).stats)
    (hrun : p (c.tail, c.chain) allocated = .ok ((a, (l, chain)), allocated)) :
    ∃ c' : Cluster n, Cluster.viaTail p c allocated = .ok ((a, c'), allocated) ∧
      c'.Serves (d.after (clocks 0) o) := by
  refine ⟨{ c with tail := l, chain := chain }, Cluster.viaTail_run hrun, hc.head, hl, ?_, ?_, ?_⟩
  · exact (show (d.after (clocks 0) o).map = d.map from hmap) ▸ hchain
  · rw [hstats, hc.stats]
    rfl
  · exact (show (d.after (clocks 0) o).map = d.map from hmap) ▸ hc.short

theorem perform_get {key : List Byte} (ho : (Operation.get key).FromInput)
    (hfits : (cstrOfBytes key).SevenBit) :
    ∃ c' : Cluster n, perform codec clocks (.get key) c allocated
        = .ok (((d.map.lookup (cstrOfBytes key)).map Block.ofBytes, c'), allocated) ∧
      c'.Serves (d.after (clocks 0) (.get key)) := by
  have hkey := ho.length_cstr (List.mem_singleton_self _)
  have hreq := getWire_fits hkey
  have hk : Hashable (cstrOfBytes key) := hashable_of_fits (m := keyWire OP_GET _) hfits hreq
  obtain ⟨l, chain, hl, hchain, hstats, hrun⟩ := rtableGet_last codec clocks hc.tail hc.chain hk
    hreq (getReply_fits hkey (hc.short (cstrOfBytes key)))
  exact serves_viaTail clocks hc rfl hl hchain
    (by simpa [Contents.Counts, statsAfter] using hstats) hrun

/-- **One operation.** The service answers what the interpreter may answer. -/
theorem perform_run {o : Operation} (ho : o.FromInput) (hfits : o.Fits d.map) :
    ∃ (r : o.Result) (c' : Cluster n), perform codec clocks o c allocated
        = .ok ((r, c'), allocated) ∧ d.Answers o r ∧ c'.Serves (d.after (clocks 0) o) := by
  obtain ⟨hwf, hmap⟩ := hc.chain.last
  cases o with
  | put key value =>
    obtain ⟨c', hrun, hserves⟩ := perform_put codec clocks hc ho hfits
    exact ⟨_, c', hrun, rfl, hserves⟩
  | get key =>
    obtain ⟨c', hrun, hserves⟩ := perform_get codec clocks hc ho hfits
    exact ⟨_, c', hrun, rfl, hserves⟩
  | del key =>
    obtain ⟨c', hrun, hserves⟩ := perform_del codec clocks hc ho hfits
    exact ⟨_, c', hrun, rfl, hserves⟩
  | size =>
    obtain ⟨l, chain, hl, hchain, hstats, hrun⟩ :=
      rtableSize_last codec clocks hc.tail hc.chain hfits
    obtain ⟨c', hrun', hserves⟩ := serves_viaTail clocks hc (o := .size) rfl hl hchain hstats hrun
    exact ⟨_, c', hrun', rfl, hserves⟩
  | getKeys =>
    obtain ⟨l, chain, hl, hchain, hstats, hrun⟩ := rtableGetKeys_last codec clocks hc.tail hc.chain
      (by rw [messageSize_keysReply hwf, hmap]; exact hfits)
    obtain ⟨c', hrun', hserves⟩ :=
      serves_viaTail clocks hc (o := .getKeys) rfl hl hchain hstats hrun
    exact ⟨_, c', hrun', ⟨_, rfl, hwf.nodup_keys, fun key => hmap ▸ mem_entries_keys⟩, hserves⟩
  | getTable =>
    obtain ⟨l, chain, hl, hchain, hstats, hrun⟩ := rtableGetTable_last codec clocks hc.tail hc.chain
      (by rw [messageSize_tableReply hwf, hmap]; exact hfits)
    obtain ⟨c', hrun', hserves⟩ :=
      serves_viaTail clocks hc (o := .getTable) rfl hl hchain hstats hrun
    exact ⟨_, c', hrun', ⟨_, rfl, hwf.nodup_keys, fun key v => hmap ▸ hwf.lookup_eq_some_iff⟩,
      hserves⟩
  | stats =>
    obtain ⟨l, chain, hl, hchain, hstats, hrun⟩ := rtableStats_last codec clocks hc.tail hc.chain
    obtain ⟨c', hrun', hserves⟩ := serves_viaTail clocks hc (o := .stats) rfl hl hchain hstats hrun
    exact ⟨_, c', hrun', congrArg some hc.stats, hserves⟩
  | quit => exact ⟨(), c, rfl, trivial, hc⟩

end Perform

/-! ## The loop -/

namespace Interpreter

variable {clock : Nat → Timeval × Timeval} {i j : Interpreter} {k : Nat}

theorem Runs.session (h : Runs clock i k j) : j.session = Session.step^[k] i.session := by
  induction h with
  | start => rfl
  | step _ hstep ih =>
    rw [Function.iterate_succ_apply', ← ih]
    cases hstep with
    | idle _ => rfl
    | perform _ _ => rfl

end Interpreter

section Loop

variable {c : Cluster n} {i : Interpreter}

/-- One iteration of the loop is a step of the interpreter. -/
theorem iteration_run (clocks : Nat → Timeval × Timeval) (hc : c.Serves i.stored)
    (hfits : ∀ o, i.session.calling = some o → o.Fits i.stored.map) :
    ∃ (i' : Interpreter) (c' : Cluster n), i.Step (clocks 0) i' ∧ c'.Serves i'.stored ∧
      Console.iteration codec clocks ⟨i.session, i.output⟩ c allocated
        = .ok ((⟨i'.session, i'.output⟩, c'), allocated) := by
  by_cases hrunning : i.session.running = true
  · cases hcalling : i.session.calling with
    | none =>
      refine ⟨_, c, .idle hcalling, hc, ?_⟩
      unfold Session.calling at hcalling
      rw [if_pos hrunning] at hcalling
      unfold Console.iteration Interpreter.idleOutput
      dsimp only at hcalling ⊢
      rw [if_pos hrunning, if_pos hrunning]
      split at hcalling
      next hread => rw [if_pos hread]; rfl
      next hread => rw [if_neg hread, hcalling]; rfl
    | some o =>
      obtain ⟨r, c', hrun, hanswer, hserves⟩ := perform_run codec clocks hc
        (Session.calling_args hcalling) (hfits o hcalling)
      refine ⟨_, c', .perform hcalling hanswer, hserves, ?_⟩
      unfold Session.calling at hcalling
      rw [if_pos hrunning] at hcalling
      unfold Console.iteration
      dsimp only at hcalling ⊢
      rw [if_pos hrunning]
      split at hcalling
      next => cases hcalling
      next hread => rw [if_neg hread, hcalling]; simp [hrun]
  · have hcalling : i.session.calling = none := if_neg hrunning
    refine ⟨_, c, .idle hcalling, hc, ?_⟩
    have hstopped : i.session.step = i.session :=
      Session.step_stopped (Bool.eq_false_of_not_eq_true hrunning)
    unfold Console.iteration Interpreter.idleOutput
    rw [if_neg hrunning, if_neg hrunning, hstopped, List.append_nil]
    rfl

/-- **The service is the interpreter.** However many servers there are and however the kernel
splits the transfers, every number of iterations of the loop of `main` ends without a fault, has
read, called and printed what the interpreter has on some run, and leaves its map in every table
of the chain. -/
theorem shell_is_interpreter (clocks : Nat → Nat → Timeval × Timeval) {stdin : List Byte}
    {d : Contents} (hc : c.Serves d)
    (hfits : ∀ k i, Interpreter.Runs (clocks · 0) (.start stdin d) k i →
      ∀ o, i.session.calling = some o → o.Fits i.stored.map) (k : Nat) :
    ∃ (i : Interpreter) (c' : Cluster n), Interpreter.Runs (clocks · 0) (.start stdin d) k i ∧
      c'.Serves i.stored ∧ shell codec clocks (Console.start stdin) k c allocated
        = .ok ((⟨i.session, i.output⟩, c'), allocated) := by
  induction k with
  | zero => exact ⟨.start stdin d, c, .start, hc, rfl⟩
  | succ k ih =>
    obtain ⟨i, c', hruns, hserves, hrun⟩ := ih
    obtain ⟨i', c'', hstep, hserves', hiteration⟩ :=
      iteration_run codec (clocks k) hserves (hfits k i hruns)
    refine ⟨i', c'', hruns.step hstep, hserves', ?_⟩
    unfold shell
    rw [state_bind_ok hrun]
    exact hiteration

end Loop

/-! ## A new service -/

def Hop.new : Hop := ⟨Conn.new [] [], Conn.new [] [], true⟩

theorem Hop.new_idle : Hop.new.Idle :=
  ⟨rfl, rfl, ⟨rfl, rfl⟩, ⟨rfl, rfl⟩, ⟨List.forall_mem_nil _, List.forall_mem_nil _⟩,
    List.forall_mem_nil _, List.forall_mem_nil _⟩

/-- Empty tables, each of a size of its own. -/
def Chain.new (sizes : Nat → Int) (stats : StatisticsT) : (n : Nat) → Chain n
  | 0 => (⟨⟨List.replicate (sizes 0).toNat none, sizes 0⟩, 0, 0, stats⟩, ())
  | n + 1 => (⟨⟨List.replicate (sizes (n + 1)).toNat none, sizes (n + 1)⟩, 0, 0, stats⟩,
      (Hop.new, Chain.new sizes stats n))

def Cluster.new (sizes : Nat → Int) (stats : StatisticsT) (n : Nat) : Cluster n :=
  ⟨Hop.new, Hop.new, Chain.new sizes stats n⟩

theorem Chain.new_holds {sizes : Nat → Int} (stats : StatisticsT) (hsizes : ∀ i, 0 < sizes i) :
    ∀ n, (Chain.new sizes stats n).Holds ∅ n ∧ ((Chain.new sizes stats n).last n).stats = stats
  | 0 => ⟨⟨wf_replicate (hsizes 0), map_replicate _ _⟩, rfl⟩
  | n + 1 =>
    have hrest := Chain.new_holds stats hsizes n
    ⟨⟨⟨wf_replicate (hsizes (n + 1)), map_replicate _ _⟩, Hop.new_idle, hrest.1⟩, hrest.2⟩

theorem Cluster.new_serves {sizes : Nat → Int} (stats : StatisticsT) (hsizes : ∀ i, 0 < sizes i)
    (n : Nat) : (Cluster.new sizes stats n).Serves ⟨∅, stats⟩ where
  head := Hop.new_idle
  tail := Hop.new_idle
  chain := (Chain.new_holds stats hsizes n).1
  stats := (Chain.new_holds stats hsizes n).2
  short key v hv := by
    rw [Finmap.lookup_empty] at hv
    cases hv

/-- `p a 1` and `g a`. -/
def twoLines : List Byte := [112, 32, 97, 32, 49, 10, 103, 32, 97, 10]

theorem calling_twoLines (k : Nat) {o : Operation}
    (h : (Session.step^[k] (Console.start twoLines).session).calling = some o) :
    o = .put [97] [49] ∨ o = .get [97] := by
  match k with
  | 0 =>
    have hfirst : (Console.start twoLines).session.calling = some (.put [97] [49]) := by decide
    exact Or.inl (Option.some.inj (h.symm.trans hfirst))
  | 1 =>
    have hsecond : (Session.step (Console.start twoLines).session).calling = some (.get [97]) := by
      decide
    exact Or.inr (Option.some.inj (h.symm.trans hsecond))
  | k + 2 =>
    have hended : (Session.step^[2] (Console.start twoLines).session).Ended := Or.inr (by decide)
    have hnone : (Session.step^[2] (Console.start twoLines).session).calling = none := by decide
    rw [Function.iterate_add_apply, Function.iterate_fixed (Session.step_ended hended)] at h
    cases hnone.symm.trans h

/-- Three servers with tables of one, two and three lists. -/
theorem shell_is_interpreter_twoLines :
    ∃ (i : Interpreter) (c' : Cluster 2),
      Interpreter.Runs (fun _ => noTime) (.start twoLines ⟨∅, ⟨0, 0, 1⟩⟩) 2 i ∧
      c'.Serves i.stored ∧ shell protoCodec (fun _ _ => noTime) (Console.start twoLines) 2
          (Cluster.new (fun i => (i : Int) + 1) ⟨0, 0, 1⟩ 2) allocated
        = .ok ((⟨i.session, i.output⟩, c'), allocated) := by
  have hsizes : ∀ i : Nat, 0 < (i : Int) + 1 := fun i => by omega
  refine shell_is_interpreter protoCodec (fun _ _ => noTime) (Cluster.new_serves _ hsizes 2) ?_ 2
  intro k i hruns o ho
  rw [hruns.session] at ho
  have hbytes : (cstrOfBytes [97]).bytes = [97] := bytes_cstrOfBytes (by decide)
  have hkey : (cstrOfBytes [97]).SevenBit := by simp [CStr.SevenBit, hbytes]
  rcases calling_twoLines k ho with rfl | rfl
  · exact hkey
  · exact hkey

end KvStorage
