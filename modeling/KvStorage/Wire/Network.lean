import KvStorage.Lib.Framing
import KvStorage.Wire.Io

/-!
# Frames on a connection (`server_network.c`, `client_network.c`)

A message travels as two bytes that hold its packed length, high byte first,
and the packed bytes. The length goes through an `unsigned int`, a signed
`short` filled by `htons`, and back through `ntohs`; `ntohs_roundtrip` says that
this loses nothing below 65536, signed `short` or not.

`message_t__pack` and `message_t__unpack` belong to protobuf-c. They are a
parameter (`Codec`) with the one fact the code relies on, that unpacking inverts
packing; the message type is a parameter too.

`received_exactly` is about one direction of one connection: whatever the short
transfers and wherever the stream is cut, the calls of `network_receive` return
the messages whose frames are complete, then NULL. With failing reads, failing
writes and failing allocations as well, the messages `thread_client` hands to
`invoke` are a beginning of that list (`threadClientLoop_handed`), so a partial
frame is never handed over.
-/

namespace KvStorage

open CLib Framing

/-- `message_t__get_packed_size`, `message_t__pack` and `message_t__unpack`. -/
structure Codec (M : Type) where
  getPackedSize : M → Nat
  pack : M → List Byte
  unpack : List Byte → Option M
  pack_length : ∀ m, (pack m).length = getPackedSize m
  unpack_pack : ∀ m, unpack (pack m) = some m

/-! ## The 16-bit length -/

/-- `htons` on a little-endian machine: the two bytes swapped. -/
def htons (x : Nat) : Nat := x % 256 * 256 + x / 256 % 256

/-- An unsigned 16-bit value stored in a `short`. -/
def toShort (x : Nat) : Int := Int.bmod x 65536

/-- The two bytes of a `short` in memory, low byte first. -/
def shortBytes (s : Int) : List Byte :=
  let u := (s % 65536).toNat
  [Fin.ofNat 256 u, Fin.ofNat 256 (u / 256)]

/-- The `short` two bytes in memory stand for. -/
def shortOfBytes (l : List Byte) : Int :=
  toShort ((l.getD 0 0).val + 256 * (l.getD 1 0).val)

/-- `ntohs` of a `short`. -/
def ntohs (s : Int) : Nat := htons (s % 65536).toNat

/-- The header of a frame: the length, high byte first. -/
def header (len : Nat) : List Byte := shortBytes (toShort (htons len))

theorem header_length (len : Nat) : (header len).length = 2 := rfl

theorem htons_htons {x : Nat} (h : x < 65536) : htons (htons x) = x := by
  obtain ⟨a, b, ha, hb, rfl⟩ : ∃ a b, a < 256 ∧ b < 256 ∧ x = 256 * a + b :=
    ⟨x / 256, x % 256, by omega, by omega, by omega⟩
  have hswap : htons (256 * a + b) = 256 * b + a := by
    unfold htons
    omega
  rw [hswap]
  unfold htons
  omega

theorem ntohs_roundtrip {len : Nat} (h : len < 65536) :
    ntohs (shortOfBytes (header len)) = len := by
  have hlt : htons len < 65536 := by
    unfold htons
    omega
  have hunsigned : ∀ x : Nat, x < 65536 → (toShort x % 65536).toNat = x := by
    intro x hx
    unfold toShort
    rw [Int.bmod_def]
    omega
  have hbytes : shortOfBytes (header len) = toShort (htons len) := by
    unfold header shortBytes shortOfBytes
    rw [hunsigned _ hlt]
    simp only [List.getD_cons_zero, List.getD_cons_succ, Fin.ofNat]
    congr 1
    omega
  unfold ntohs
  rw [hbytes, hunsigned _ hlt, htons_htons h]

/-! ## Sending and receiving -/

/-- One end of a connection: the bytes that will still arrive, those written so
far, the kernel's choices for both, and how often the descriptor was closed. -/
structure Conn where
  incoming : List Byte
  reads : List IoEvent
  written : List Byte
  writes : List IoEvent
  closes : Nat

/-- Code that works on a connection. -/
abbrev NM := StateT Conn CM

def connWrite (buf : List Byte) (len : Int) : NM Int := fun c =>
  let e := writeAll c.writes buf len
  pure (e.res, { c with written := c.written ++ e.written, writes := e.script })

def connRead (len : Nat) : NM (Int × List Byte) := fun c =>
  let e := readAll c.reads c.incoming len
  pure ((e.res, e.got), { c with incoming := e.incoming, reads := e.script })

def connClose : NM Unit := fun c => pure ((), { c with closes := c.closes + 1 })

variable {M : Type} (codec : Codec M)

/-- `message_t__pack` into a buffer of `len` bytes, which it does not look at. -/
def packInto (msg : M) (len : Nat) : CM (List Byte) :=
  if codec.getPackedSize msg ≤ len then pure (codec.pack msg) else throw .outOfBounds

/-- The sending code shared by `network_send` and `network_send_receive`:
whether the frame was written. -/
def sendFrame (msg : M) : NM Bool := do
  -- `unsigned int len`, of a `size_t`
  let len : Nat := codec.getPackedSize msg % 2 ^ 32
  if ← malloc then
    let buf ← packInto codec msg len
    let nbytes ← connWrite (header len) 2
    if nbytes ≠ 2 then
      connClose
      pure false
    else
      let nbytes ← connWrite buf (cint len)
      if nbytes ≠ cint len then
        connClose
        pure false
      else pure true
  else pure false

/-- `network_send`: 0, or -1 for an error. -/
def networkSend (msg : M) : NM Int := do
  if ← sendFrame codec msg then pure 0 else pure (-1)

/-- `network_receive`: the message, or NULL at the end of the stream and for
every error; only an error closes the descriptor. -/
def networkReceive : NM (Option M) := do
  let (nbytes, tamanhoBuffer) ← connRead 2
  if nbytes ≠ 2 then
    if nbytes ≠ 0 then connClose
    pure none
  else
    let len := ntohs (shortOfBytes tamanhoBuffer)
    if ← malloc then
      let (nbytes, buf) ← connRead len
      if nbytes ≠ len then
        if nbytes ≠ 0 then connClose
        pure none
      else pure (codec.unpack buf)
    else pure none

/-- `network_send_receive`: the reply, or NULL; the client closes the descriptor
when a transfer is not complete, also at the end of the stream. -/
def networkSendReceive (msg : M) : NM (Option M) := do
  if ← sendFrame codec msg then
    let (nbytes, tamanhoBuffer) ← connRead 2
    if nbytes ≠ 2 then
      connClose
      pure none
    else
      let len := ntohs (shortOfBytes tamanhoBuffer)
      if ← malloc then
        let (nbytes, readBuf) ← connRead len
        if nbytes ≠ len then
          connClose
          pure none
        else pure (codec.unpack readBuf)
      else pure none
  else pure none

/-- The request loop of `thread_client`, for `fuel` requests at most, on the state `invoke` works
on: the messages it hands to `invoke` with their answers, none where the result is -1, and the
state after. -/
def threadClientLoop {σ : Type} (invoke : M → StateT σ CM (Int × M)) :
    Nat → σ → NM (List (M × Option M) × σ)
  | 0, x => pure ([], x)
  | fuel + 1, x => do
    match ← networkReceive codec with
    | none => pure ([], x)
    | some message =>
      let ((rc, reply), x) ← invoke message x
      if rc = -1 then pure ([(message, none)], x)
      else
        let sent ← networkSend codec reply
        if sent = -1 then pure ([(message, some reply)], x)
        else
          let (rest, x) ← threadClientLoop invoke fuel x
          pure ((message, some reply) :: rest, x)

/-! ## Running -/

section Run

variable {α β : Type} {c : Conn} {al : Allocs}

@[simp] theorem nm_connWrite (buf : List Byte) (len : Int) :
    connWrite buf len c al = .ok (((writeAll c.writes buf len).res,
      { c with written := c.written ++ (writeAll c.writes buf len).written,
               writes := (writeAll c.writes buf len).script }), al) := rfl

@[simp] theorem nm_connRead (len : Nat) :
    connRead len c al = .ok ((((readAll c.reads c.incoming len).res,
        (readAll c.reads c.incoming len).got),
      { c with incoming := (readAll c.reads c.incoming len).incoming,
               reads := (readAll c.reads c.incoming len).script }), al) := rfl

@[simp] theorem nm_connClose :
    connClose c al = .ok (((), { c with closes := c.closes + 1 }), al) := rfl

end Run

/-! ## What one call does -/

/-- A message that fits a frame. -/
def FitsFrame (m : M) : Prop := 1 ≤ codec.getPackedSize m ∧ codec.getPackedSize m ≤ 65535

/-- The frame of a message. -/
def frame (m : M) : List Byte := header (codec.getPackedSize m) ++ codec.pack m

theorem frame_length (m : M) : (frame codec m).length = 2 + codec.getPackedSize m := by
  unfold frame
  rw [List.length_append, header_length, codec.pack_length]

/-- The two writes of `sendFrame`. -/
def writeFrame (hdr buf : List Byte) (len : Int) : NM Bool := do
  let nbytes ← connWrite hdr 2
  if nbytes ≠ 2 then
    connClose
    pure false
  else
    let nbytes ← connWrite buf len
    if nbytes ≠ len then
      connClose
      pure false
    else pure true

/-- Below 2^32 the buffer is large enough. -/
theorem sendFrame_of_lt {m : M} (hlt : codec.getPackedSize m < 2 ^ 32) :
    sendFrame codec m = (do
      if ← malloc then
        writeFrame (header (codec.getPackedSize m)) (codec.pack m) (cint (codec.getPackedSize m))
      else pure false) := by
  have hlen : codec.getPackedSize m % 2 ^ 32 = codec.getPackedSize m := Nat.mod_eq_of_lt hlt
  have hbuf : packInto codec m (codec.getPackedSize m) = pure (codec.pack m) := if_pos le_rfl
  unfold sendFrame
  simp only [hlen, hbuf, liftM_pure, pure_bind]
  rfl

/-- Below 2^16 the length also survives as an `int`. -/
theorem sendFrame_of_le {m : M} (hle : codec.getPackedSize m ≤ 65535) :
    sendFrame codec m = (do
      if ← malloc then
        writeFrame (header (codec.getPackedSize m)) (codec.pack m) (codec.pack m).length
      else pure false) := by
  have hcint : cint (codec.getPackedSize m) = (codec.pack m).length := by
    rw [codec.pack_length, cint_of_lt (by omega) (by omega)]
  rw [sendFrame_of_lt codec (by omega), hcint]

/-- Without failures the header is written, and what an `int` says of the body. -/
theorem writeFrame_run {hdr : List Byte} (htwo : hdr.length = 2) (buf : List Byte) (len : Int)
    {c : Conn} (hw : Unfailing c.writes) (al : Allocs) : ∃ script, Unfailing script ∧
      writeFrame hdr buf len c al
        = .ok ((true, { c with written := c.written ++ (hdr ++ buf.take len.toNat),
                               writes := script }), al) := by
  obtain ⟨s₁, hs₁, hhdr⟩ := writeAll_eq hw hdr
  obtain ⟨s₂, hs₂, hbody⟩ := writeLoop_eq len hs₁ (buf.take len.toNat) []
  rw [htwo] at hhdr
  have hhdr' : writeAll c.writes hdr 2 = ⟨2, hdr, s₁⟩ := hhdr
  have hbody' : writeAll s₁ buf len = ⟨len, buf.take len.toNat, s₂⟩ := hbody
  refine ⟨s₂, hs₂, ?_⟩
  unfold writeFrame
  simp [hhdr', hbody']

/-- A message that fits is written as its frame, whatever the splits. -/
theorem sendFrame_run {m : M} (hle : codec.getPackedSize m ≤ 65535) {c : Conn}
    (hw : Unfailing c.writes) {al : Allocs} (h0 : al 0 = true) : ∃ script, Unfailing script ∧
      sendFrame codec m c al
        = .ok ((true, { c with written := c.written ++ frame codec m, writes := script }),
            fun i => al (i + 1)) := by
  obtain ⟨script, hs, hrun⟩ := writeFrame_run (header_length (codec.getPackedSize m))
    (codec.pack m) (codec.pack m).length hw fun i => al (i + 1)
  rw [Int.toNat_natCast, List.take_length] at hrun
  refine ⟨script, hs, ?_⟩
  rw [sendFrame_of_le codec hle]
  simp [h0, hrun, frame]

theorem networkSend_run {m : M} (hle : codec.getPackedSize m ≤ 65535) {c : Conn}
    (hw : Unfailing c.writes) {al : Allocs} (h0 : al 0 = true) : ∃ script, Unfailing script ∧
      networkSend codec m c al
        = .ok ((0, { c with written := c.written ++ frame codec m, writes := script }),
            fun i => al (i + 1)) := by
  obtain ⟨script, hs, hrun⟩ := sendFrame_run codec hle hw h0
  exact ⟨script, hs, by simp [networkSend, hrun]⟩

/-- The two reads of a complete frame, whatever the splits. -/
theorem readFrame_eq {m : M} {incoming rest : List Byte}
    (hin : incoming = frame codec m ++ rest) {script : List IoEvent} (hr : Unfailing script) :
    ∃ s₁ s₂, Unfailing s₂ ∧
      readAll script incoming 2
        = ⟨2, header (codec.getPackedSize m), codec.pack m ++ rest, s₁⟩ ∧
      readAll s₁ (codec.pack m ++ rest) (codec.getPackedSize m)
        = ⟨codec.getPackedSize m, codec.pack m, rest, s₂⟩ := by
  obtain ⟨s₁, hs₁, hhdr⟩ := readAll_eq hr incoming 2
  obtain ⟨s₂, hs₂, hbody⟩ := readAll_eq hs₁ (codec.pack m ++ rest) (codec.getPackedSize m)
  have hsplit : incoming = header (codec.getPackedSize m) ++ (codec.pack m ++ rest) := by
    rw [hin, frame, List.append_assoc]
  have htake : incoming.take 2 = header (codec.getPackedSize m) := by
    rw [hsplit, List.take_left' (header_length _)]
  have hdrop : incoming.drop 2 = codec.pack m ++ rest := by
    rw [hsplit, List.drop_left' (header_length _)]
  have htwo : 2 ≤ incoming.length := by
    rw [hsplit, List.length_append, header_length]
    omega
  have hlen : codec.getPackedSize m ≤ (codec.pack m ++ rest).length := by
    rw [List.length_append, codec.pack_length]
    omega
  rw [if_pos htwo, htake, hdrop] at hhdr
  rw [if_pos hlen, List.take_left' (codec.pack_length m),
    List.drop_left' (codec.pack_length m)] at hbody
  exact ⟨s₁, s₂, hs₂, hhdr, hbody⟩

/-- A complete frame is received as its message, whatever the splits. -/
theorem networkReceive_frame {m : M} (hle : codec.getPackedSize m ≤ 65535) {rest : List Byte}
    {c : Conn} (hin : c.incoming = frame codec m ++ rest) (hr : Unfailing c.reads) {al : Allocs}
    (h0 : al 0 = true) : ∃ script, Unfailing script ∧
      networkReceive codec c al
        = .ok ((some m, { c with incoming := rest, reads := script }), fun i => al (i + 1)) := by
  obtain ⟨s₁, s₂, hs₂, hhdr, hbody⟩ := readFrame_eq codec hin hr
  refine ⟨s₂, hs₂, ?_⟩
  unfold networkReceive
  simp [hhdr, hbody, h0, ntohs_roundtrip (Nat.lt_succ_of_le hle), codec.unpack_pack]

/-- The reply to a request, when its frame arrives. -/
theorem networkSendReceive_frame {m r : M} (hm : codec.getPackedSize m ≤ 65535)
    (hr : codec.getPackedSize r ≤ 65535) {rest : List Byte} {c : Conn}
    (hin : c.incoming = frame codec r ++ rest) (hreads : Unfailing c.reads)
    (hwrites : Unfailing c.writes) :
    ∃ c', networkSendReceive codec m c allocated = .ok ((some r, c'), allocated) ∧
      c'.incoming = rest := by
  obtain ⟨script, -, hsend⟩ := sendFrame_run codec hm hwrites allocated_zero
  obtain ⟨s₁, s₂, -, hhdr, hbody⟩ := readFrame_eq codec hin hreads
  refine ⟨{ c with incoming := rest, reads := s₂, written := c.written ++ frame codec m,
                   writes := script }, ?_, rfl⟩
  unfold networkSendReceive
  simp [hsend, hhdr, hbody, ntohs_roundtrip (Nat.lt_succ_of_le hr), codec.unpack_pack,
    allocated_shift]

/-- No reply: the connection was closed instead. -/
theorem networkSendReceive_closed {m : M} (hm : codec.getPackedSize m ≤ 65535) {c : Conn}
    (hin : c.incoming = []) (hreads : Unfailing c.reads) (hwrites : Unfailing c.writes) :
    ∃ c', networkSendReceive codec m c allocated = .ok ((none, c'), allocated) := by
  obtain ⟨script, -, hsend⟩ := sendFrame_run codec hm hwrites allocated_zero
  obtain ⟨s₁, -, hhdr⟩ := readAll_eq hreads c.incoming 2
  rw [hin, if_neg (by simp)] at hhdr
  refine ⟨{ c with incoming := [], reads := s₁, written := c.written ++ frame codec m,
                   writes := script, closes := c.closes + 1 }, ?_⟩
  unfold networkSendReceive
  simp [hsend, hin, hhdr, allocated_shift]

/-- What is left of a cut frame is received as NULL, and the stream is over. -/
theorem networkReceive_leftover {ms : List M} (hms : ∀ m ∈ ms, FitsFrame codec m) {c : Conn}
    (hin : Leftover (frame codec) ms c.incoming) (hr : Unfailing c.reads) :
    ∃ script, Unfailing script ∧
      networkReceive codec c allocated
        = .ok ((none, { c with incoming := [], reads := script }), allocated) := by
  obtain ⟨s₁, hs₁, hhdr⟩ := readAll_eq hr c.incoming 2
  by_cases htwo : 2 ≤ c.incoming.length
  · -- the header is there: the body is cut
    rcases hin with hnil | ⟨m, hm, hlt, hpre⟩
    · rw [hnil] at htwo
      simp at htwo
    · have hfit := hms m hm
      rw [frame_length] at hlt
      have htake : c.incoming.take 2 = header (codec.getPackedSize m) := by
        have hframe : (frame codec m).take 2 = header (codec.getPackedSize m) :=
          List.take_left' (header_length _)
        obtain ⟨tail, htail⟩ := hpre
        rw [← hframe, ← htail, List.take_append_of_le_length htwo]
      obtain ⟨s₂, hs₂, hbody⟩ := readAll_eq hs₁ (c.incoming.drop 2) (codec.getPackedSize m)
      rw [if_pos htwo, htake] at hhdr
      rw [if_neg (by rw [List.length_drop]; omega)] at hbody
      have hpos : ¬ (0 : Int) = codec.getPackedSize m := by
        have := hfit.1
        omega
      refine ⟨s₂, hs₂, ?_⟩
      unfold networkReceive
      simp [hhdr, hbody, ntohs_roundtrip (Nat.lt_succ_of_le hfit.2), hpos, allocated_shift]
  · rw [if_neg htwo] at hhdr
    refine ⟨s₁, hs₁, ?_⟩
    unfold networkReceive
    simp [hhdr]

/-- A message that is received was read in full: its header, then its body. -/
theorem networkReceive_inv {c c' : Conn} {al al' : Allocs} {m : M}
    (hrun : networkReceive codec c al = .ok ((some m, c'), al')) :
    2 ≤ c.incoming.length ∧ ∃ script,
      let e := readAll script (c.incoming.drop 2) (ntohs (shortOfBytes (c.incoming.take 2)))
      e.res = ntohs (shortOfBytes (c.incoming.take 2)) ∧ codec.unpack e.got = some m ∧
        c'.incoming = e.incoming := by
  unfold networkReceive at hrun
  by_cases hhdr : (readAll c.reads c.incoming 2).res = 2
  · obtain ⟨htwo, hgot, hrest⟩ := readAll_complete (by omega) hhdr
    by_cases h0 : al 0 = true
    · refine ⟨htwo, (readAll c.reads c.incoming 2).script, ?_⟩
      simp only [state_bind, nm_connRead, ok_bind, hhdr, hgot, hrest, ne_eq, not_true_eq_false,
        if_false, state_lift, malloc_run, h0, if_true] at hrun
      split at hrun
      next hbody =>
        split at hrun <;> simp at hrun
      next hbody =>
        simp only [state_pure, Except.ok.injEq, Prod.mk.injEq] at hrun
        obtain ⟨⟨hm, rfl⟩, -⟩ := hrun
        exact ⟨not_not.mp hbody, hm, rfl⟩
    · simp [hhdr, h0] at hrun
  · simp only [state_bind, nm_connRead, ok_bind, ne_eq, hhdr, not_false_eq_true, if_true] at hrun
    split at hrun <;> simp at hrun

/-- On a cut stream that is the next message, also with failing reads and
allocations, and the stream of the others is left. -/
theorem networkReceive_some {ms : List M} (hms : ∀ m ∈ ms, FitsFrame codec m) {cut : Nat}
    {c c' : Conn} {al al' : Allocs} {m : M}
    (hin : c.incoming = (stream (frame codec) ms).take cut)
    (hrun : networkReceive codec c al = .ok ((some m, c'), al')) :
    ∃ tail, ms = m :: tail ∧ (frame codec m).length ≤ cut ∧
      c'.incoming = (stream (frame codec) tail).take (cut - (frame codec m).length) := by
  obtain ⟨htwo, script, hres, hunpack, hrest⟩ := networkReceive_inv codec hrun
  cases ms with
  | nil =>
    rw [hin] at htwo
    simp at htwo
  | cons m₀ rest =>
    obtain ⟨hpos, hle⟩ := hms m₀ (List.mem_cons_self ..)
    have hcut : 2 ≤ cut := by
      rw [hin, List.length_take] at htwo
      omega
    have hhdr : c.incoming.take 2 = header (codec.getPackedSize m₀) := by
      rw [hin, List.take_take, Nat.min_eq_left hcut, stream_cons, frame, List.append_assoc,
        List.take_left' (header_length _)]
    have hbody : c.incoming.drop 2
        = (codec.pack m₀ ++ stream (frame codec) rest).take (cut - 2) := by
      rw [hin, List.drop_take, stream_cons, frame, List.append_assoc,
        List.drop_left' (header_length _)]
    rw [hhdr, ntohs_roundtrip (Nat.lt_succ_of_le hle), hbody] at hres hunpack hrest
    obtain ⟨hlen, hgot, hleft⟩ := readAll_complete hpos hres
    have hfull : codec.getPackedSize m₀ ≤ cut - 2 := by
      rw [List.length_take] at hlen
      omega
    rw [hgot, List.take_take, Nat.min_eq_left hfull, List.take_left' (codec.pack_length m₀),
      codec.unpack_pack, Option.some.injEq] at hunpack
    rw [hleft, List.drop_take, List.drop_left' (codec.pack_length m₀), Nat.sub_sub,
      ← frame_length] at hrest
    refine ⟨rest, by rw [hunpack], ?_, by rw [← hunpack, hrest]⟩
    rw [← hunpack, frame_length]
    omega

/-- Sending takes nothing from the incoming direction. -/
theorem networkSend_keeps (m : M) : Keeps Conn.incoming (networkSend codec m) := by
  have hwrite : ∀ buf len, Keeps Conn.incoming (connWrite buf len) := by
    intro buf len c al b c' al' hrun
    cases hrun
    rfl
  have hclose : Keeps Conn.incoming connClose := by
    intro c al b c' al' hrun
    cases hrun
    rfl
  have hfail : Keeps Conn.incoming (do connClose; pure false) :=
    keeps_bind hclose fun _ => keeps_pure _
  have hsend : Keeps Conn.incoming (sendFrame codec m) := by
    refine keeps_bind (keeps_lift _) fun ok => keeps_ite ?_ (keeps_pure _)
    refine keeps_bind (keeps_lift _) fun buf => ?_
    refine keeps_bind (hwrite _ _) fun n => keeps_ite hfail ?_
    exact keeps_bind (hwrite _ _) fun n => keeps_ite hfail (keeps_pure _)
  exact keeps_bind hsend fun sent => keeps_ite (keeps_pure _) (keeps_pure _)

/-! ## One direction of a connection -/

/-- The two functions that write frames: `network_send` of the server and the
sending half of `network_send_receive`. -/
inductive Sender
  | server
  | client

def Sender.send : Sender → M → NM Bool
  | .server, m => do
    let rc ← networkSend codec m
    pure (rc = 0)
  | .client, m => sendFrame codec m

/-- The messages sent one after the other: whether every call succeeded. -/
def sendAll (sender : Sender) : List M → NM Bool
  | [] => pure true
  | m :: ms => do
    let sent ← sender.send codec m
    let rest ← sendAll sender ms
    pure (sent && rest)

/-- The results of `n` calls of `network_receive`. -/
def receiveCalls : Nat → NM (List (Option M))
  | 0 => pure []
  | n + 1 => do
    let m ← networkReceive codec
    let rest ← receiveCalls n
    pure (m :: rest)

theorem receiveCalls_succ (n : Nat) : receiveCalls codec (n + 1) = (do
    let m ← networkReceive codec
    let rest ← receiveCalls codec n
    pure (m :: rest)) := rfl

theorem sendAll_run (sender : Sender) : ∀ {ms : List M}, (∀ m ∈ ms, FitsFrame codec m) →
    ∀ {c : Conn}, Unfailing c.writes → ∃ script, Unfailing script ∧
      sendAll codec sender ms c allocated
        = .ok ((true, { c with written := c.written ++ stream (frame codec) ms,
                               writes := script }), allocated)
  | [], _, c, hw => ⟨c.writes, hw, by simp [sendAll]⟩
  | m :: ms, hms, c, hw => by
    have hfit := hms m (List.mem_cons_self ..)
    have hrest : ∀ m ∈ ms, FitsFrame codec m := fun x hx => hms x (List.mem_cons_of_mem _ hx)
    have hsend : ∃ script, Unfailing script ∧ sender.send codec m c allocated
        = .ok ((true, { c with written := c.written ++ frame codec m, writes := script }),
            allocated) := by
      cases sender with
      | server =>
        obtain ⟨script, hs, hrun⟩ := networkSend_run codec hfit.2 hw allocated_zero
        exact ⟨script, hs, by simp [Sender.send, hrun, allocated_shift]⟩
      | client =>
        obtain ⟨script, hs, hrun⟩ := sendFrame_run codec hfit.2 hw allocated_zero
        exact ⟨script, hs, by simp [Sender.send, hrun, allocated_shift]⟩
    obtain ⟨s₁, hs₁, h₁⟩ := hsend
    obtain ⟨s₂, hs₂, h₂⟩ := sendAll_run sender hrest
      (c := { c with written := c.written ++ frame codec m, writes := s₁ }) hs₁
    refine ⟨s₂, hs₂, ?_⟩
    simp [sendAll, h₁, h₂]

/-- After the end of the stream every call returns NULL. -/
theorem receiveCalls_end : ∀ (n : Nat) {c : Conn}, c.incoming = [] → Unfailing c.reads →
    ∃ script, receiveCalls codec n c allocated
      = .ok ((List.replicate n none, { c with reads := script }), allocated)
  | 0, c, hin, hr => ⟨c.reads, rfl⟩
  | n + 1, c, hin, hr => by
    obtain ⟨s₁, hs₁, h₁⟩ := networkReceive_leftover codec (List.forall_mem_nil _) (Or.inl hin) hr
    obtain ⟨s₂, h₂⟩ := receiveCalls_end n (c := { c with reads := s₁ }) hin hs₁
    refine ⟨s₂, ?_⟩
    have hsame : ({ c with incoming := [], reads := s₁ } : Conn) = { c with reads := s₁ } := by
      rw [← hin]
    simp [receiveCalls, h₁, hsame, h₂, List.replicate_succ]

/-- The complete messages one by one, then NULL. -/
theorem receiveCalls_run : ∀ {ms : List M}, (∀ m ∈ ms, FitsFrame codec m) →
    ∀ {cut : Nat} {c : Conn}, c.incoming = (stream (frame codec) ms).take cut →
      Unfailing c.reads → ∀ (j : Nat), ∃ c',
      receiveCalls codec ((complete (frame codec) cut ms).length + (j + 1)) c allocated
        = .ok (((complete (frame codec) cut ms).map some ++ List.replicate (j + 1) none, c'),
            allocated)
  | [], _, cut, c, hin, hr, j => by
    obtain ⟨script, hrun⟩ := receiveCalls_end codec (j + 1) (by simpa using hin) hr
    exact ⟨_, by simpa [complete] using hrun⟩
  | m :: ms, hms, cut, c, hin, hr, j => by
    have hrest : ∀ m ∈ ms, FitsFrame codec m := fun x hx => hms x (List.mem_cons_of_mem _ hx)
    unfold complete
    by_cases hle : (frame codec m).length ≤ cut
    · rw [if_pos hle]
      rw [stream_cons, List.take_append, List.take_of_length_le hle] at hin
      obtain ⟨s₁, hs₁, h₁⟩ := networkReceive_frame codec (hms m (List.mem_cons_self ..)).2 hin
        hr allocated_zero
      obtain ⟨c₂, h₂⟩ := receiveCalls_run hrest
        (c := { c with incoming := (stream (frame codec) ms).take (cut - (frame codec m).length),
                       reads := s₁ }) rfl hs₁ j
      refine ⟨c₂, ?_⟩
      rw [List.length_cons, Nat.add_right_comm, receiveCalls_succ]
      simp only [state_bind, h₁, ok_bind, allocated_shift, h₂, state_pure, List.map_cons,
        List.cons_append]
    · rw [if_neg hle]
      have hleft : Leftover (frame codec) (m :: ms) c.incoming := by
        rw [stream_cons, List.take_append_of_le_length (by omega)] at hin
        refine Or.inr ⟨m, List.mem_cons_self .., ?_, hin ▸ List.take_prefix ..⟩
        rw [hin, List.length_take]
        omega
      obtain ⟨s₁, hs₁, h₁⟩ := networkReceive_leftover codec hms hleft hr
      obtain ⟨s₂, h₂⟩ := receiveCalls_end codec j
        (c := { c with incoming := [], reads := s₁ }) rfl hs₁
      refine ⟨{ c with incoming := [], reads := s₂ }, ?_⟩
      rw [List.length_nil, Nat.zero_add, List.map_nil, List.nil_append, receiveCalls_succ]
      simp only [state_bind, h₁, ok_bind, h₂, state_pure, List.replicate_succ]

section Loop

variable {σ : Type} {invoke : M → StateT σ CM (Int × M)}

/-- How the loop goes on from its first turn: which messages were handed to `invoke` with which
answers, and what there is at its end. -/
inductive LoopTurn (codec : Codec M) (invoke : M → StateT σ CM (Int × M)) (fuel : Nat) (x : σ)
    (c : Conn) (al : Allocs) : List (M × Option M) → σ → Conn → Allocs → Prop
  | nothing {c' : Conn} {al' : Allocs} :
      networkReceive codec c al = .ok ((none, c'), al') →
      LoopTurn codec invoke fuel x c al [] x c' al'
  | failed {m r : M} {x' : σ} {c' : Conn} {al₁ al' : Allocs} :
      networkReceive codec c al = .ok ((some m, c'), al₁) →
      invoke m x al₁ = .ok (((-1, r), x'), al') →
      LoopTurn codec invoke fuel x c al [(m, none)] x' c' al'
  | unsent {m r : M} {rc : Int} {x' : σ} {c₁ c' : Conn} {al₁ al₂ al' : Allocs} :
      networkReceive codec c al = .ok ((some m, c₁), al₁) →
      invoke m x al₁ = .ok (((rc, r), x'), al₂) →
      networkSend codec r c₁ al₂ = .ok ((-1, c'), al') →
      LoopTurn codec invoke fuel x c al [(m, some r)] x' c' al'
  | answered {m r : M} {rc sent : Int} {x₁ x' : σ} {c₁ c₂ c' : Conn} {al₁ al₂ al₃ al' : Allocs}
      {rest : List (M × Option M)} : networkReceive codec c al = .ok ((some m, c₁), al₁) →
      invoke m x al₁ = .ok (((rc, r), x₁), al₂) →
      networkSend codec r c₁ al₂ = .ok ((sent, c₂), al₃) → sent ≠ -1 →
      threadClientLoop codec invoke fuel x₁ c₂ al₃ = .ok (((rest, x'), c'), al') →
      LoopTurn codec invoke fuel x c al ((m, some r) :: rest) x' c' al'

theorem threadClientLoop_cases {fuel : Nat} {x x' : σ} {c c' : Conn} {al al' : Allocs}
    {handed : List (M × Option M)}
    (hrun : threadClientLoop codec invoke (fuel + 1) x c al = .ok (((handed, x'), c'), al')) :
    LoopTurn codec invoke fuel x c al handed x' c' al' := by
  unfold threadClientLoop at hrun
  simp only [state_bind, bind_eq_ok] at hrun
  obtain ⟨⟨⟨got, c₁⟩, al₁⟩, hreceive, hrun⟩ := hrun
  cases got with
  | none =>
    cases hrun
    exact .nothing hreceive
  | some m =>
    simp only [state_bind, state_lift, bind_eq_ok] at hrun
    obtain ⟨⟨⟨⟨⟨rc, r⟩, x₁⟩, c₂⟩, al₂⟩, ⟨⟨q, al₃⟩, hinvoke, hq⟩, hrun⟩ := hrun
    cases hq
    split at hrun
    next hrc =>
      cases hrun
      cases hrc
      exact .failed hreceive hinvoke
    next =>
      simp only [state_bind, bind_eq_ok] at hrun
      obtain ⟨⟨⟨sent, c₃⟩, al₃⟩, hsend, hrun⟩ := hrun
      split at hrun
      next hsent =>
        cases hrun
        cases hsent
        exact .unsent hreceive hinvoke hsend
      next hsent =>
        simp only [state_bind, bind_eq_ok] at hrun
        obtain ⟨⟨⟨⟨rest, x₄⟩, c₄⟩, al₄⟩, hloop, hrun⟩ := hrun
        cases hrun
        exact .answered hreceive hinvoke hsend hsent hloop

/-- Whatever fails, what `thread_client` hands to `invoke` is a beginning of the
complete messages. -/
theorem threadClientLoop_handed :
    ∀ (fuel : Nat) {ms : List M}, (∀ m ∈ ms, FitsFrame codec m) → ∀ {cut : Nat} {c c' : Conn}
      {al al' : Allocs} {x x' : σ} {handed : List (M × Option M)},
      c.incoming = (stream (frame codec) ms).take cut →
      threadClientLoop codec invoke fuel x c al = .ok (((handed, x'), c'), al') →
      handed.map Prod.fst <+: complete (frame codec) cut ms
  | 0, ms, hms, cut, c, c', al, al', x, x', handed, hin, hrun => by
    cases hrun
    exact List.nil_prefix
  | fuel + 1, ms, hms, cut, c, c', al, al', x, x', handed, hin, hrun => by
    -- a message that was received is the first one, and its frame is complete
    have hfirst : ∀ {m : M} {c₁ : Conn} {al₁ : Allocs},
        networkReceive codec c al = .ok ((some m, c₁), al₁) → ∃ tail,
          (∀ m ∈ tail, FitsFrame codec m) ∧
          complete (frame codec) cut ms
            = m :: complete (frame codec) (cut - (frame codec m).length) tail ∧
          c₁.incoming = (stream (frame codec) tail).take (cut - (frame codec m).length) := by
      intro m c₁ al₁ hreceive
      obtain ⟨tail, rfl, hle, hin₁⟩ := networkReceive_some codec hms hin hreceive
      exact ⟨tail, fun y hy => hms y (List.mem_cons_of_mem _ hy), if_pos hle, hin₁⟩
    cases threadClientLoop_cases codec hrun with
    | nothing _ => exact List.nil_prefix
    | failed hreceive _ | unsent hreceive _ _ =>
      obtain ⟨tail, -, hcomplete, -⟩ := hfirst hreceive
      rw [hcomplete]
      exact (List.prefix_cons_inj _).mpr List.nil_prefix
    | answered hreceive _ hsend _ hloop =>
      obtain ⟨tail, htail, hcomplete, hin₁⟩ := hfirst hreceive
      rw [hcomplete]
      exact (List.prefix_cons_inj _).mpr (threadClientLoop_handed fuel htail
        ((networkSend_keeps codec _ _ _ _ _ _ hsend).trans hin₁) hloop)

end Loop

/-- Whatever the splits and wherever the stream is cut, the messages with a
complete frame are received, then NULL; with failures as well, `invoke` is
handed a beginning of them. -/
theorem received_exactly (sender : Sender) (ms : List M) (hms : ∀ m ∈ ms, FitsFrame codec m)
    {w r : Conn} (hw : Unfailing w.writes) (hnew : w.written = []) (hr : Unfailing r.reads)
    (cut : Nat) :
    ∃ w', sendAll codec sender ms w allocated = .ok ((true, w'), allocated) ∧
      w'.written = stream (frame codec) ms ∧
      (∀ j, ∃ r', receiveCalls codec ((complete (frame codec) cut ms).length + (j + 1))
          { r with incoming := w'.written.take cut } allocated
        = .ok (((complete (frame codec) cut ms).map some ++ List.replicate (j + 1) none, r'),
            allocated)) ∧
      ∀ (σ : Type) (reads : List IoEvent) (al : Allocs) (invoke : M → StateT σ CM (Int × M))
        (fuel : Nat) (x x' : σ) (handed : List (M × Option M)) (r' : Conn) (al' : Allocs),
        threadClientLoop codec invoke fuel x
            { r with incoming := w'.written.take cut, reads := reads } al
          = .ok (((handed, x'), r'), al') →
        handed.map Prod.fst <+: complete (frame codec) cut ms := by
  obtain ⟨script, -, hsend⟩ := sendAll_run codec sender hms hw
  rw [hnew, List.nil_append] at hsend
  refine ⟨_, hsend, rfl, fun j => ?_,
    fun σ reads al invoke fuel x x' handed r' al' hrun => ?_⟩
  · exact receiveCalls_run codec hms
      (c := { r with incoming := (stream (frame codec) ms).take cut }) rfl hr j
  · exact threadClientLoop_handed codec fuel hms
      (c := { r with incoming := (stream (frame codec) ms).take cut, reads := reads }) rfl hrun

/-! ## Two requests cut in the second -/

/-- Messages taken as their packed bytes. -/
def packedCodec : Codec (List Byte) where
  getPackedSize := List.length
  pack := id
  unpack := some
  pack_length _ := rfl
  unpack_pack _ := rfl

/-- A connection on which nothing was transferred yet. -/
def Conn.new (reads writes : List IoEvent) : Conn := ⟨[], reads, [], writes, 0⟩

/-- The packed requests for the size and for the keys. -/
def sizeThenKeys : List (List Byte) := [[8, 40, 16, 70], [8, 50, 16, 70]]

theorem received_exactly_sizeThenKeys :
    ∃ w' r', sendAll packedCodec .client sizeThenKeys (Conn.new [] [.piece 1, .eintr, .piece 3])
        allocated = .ok ((true, w'), allocated) ∧
      receiveCalls packedCodec 2
          { Conn.new [.eintr, .piece 1, .piece 1, .eintr, .piece 2] [] with
            incoming := w'.written.take 9 } allocated
        = .ok (([some [8, 40, 16, 70], none], r'), allocated) := by
  obtain ⟨w', hsend, -, hrecv, -⟩ := received_exactly packedCodec .client sizeThenKeys
    (by unfold FitsFrame; decide) (w := Conn.new [] [.piece 1, .eintr, .piece 3])
    (r := Conn.new [.eintr, .piece 1, .piece 1, .eintr, .piece 2] [])
    (by unfold Unfailing; decide) rfl (by unfold Unfailing; decide) 9
  obtain ⟨r', hr'⟩ := hrecv 0
  exact ⟨w', r', hsend, hr'⟩

end KvStorage
