import KvStorage.Client.Remote

/-!
# The length a frame announces

The header of a frame has 16 bits, and `htons` keeps the low 16 bits of whatever
length it is given. Neither `network_send` nor `network_send_receive` compares
the packed length with that limit: a message of up to 65535 bytes is announced
and delivered exactly, or the call reports the error, whichever writes and
allocations fail; a longer one is announced by its length modulo 65536 and sent
as if nothing were wrong.

No single request is that long. The reply to GETTABLE is, once a few entries
have been stored.
-/

namespace KvStorage

open CLib Table

/-! ## Any length in the header -/

theorem header_mod (len : Nat) : header (len % 65536) = header len := by
  have hswap : htons (len % 65536) = htons len := by
    unfold htons
    omega
  unfold header
  rw [hswap]

/-- The receiver reads the length modulo 2^16. -/
theorem ntohs_header (len : Nat) : ntohs (shortOfBytes (header len)) = len % 65536 := by
  rw [← header_mod]
  exact ntohs_roundtrip (Nat.mod_lt len (by omega))

/-! ## Sending with failures -/

/-- Whatever the kernel does, `write_all` writes a beginning of its buffer, and all
of it when it reports so. -/
theorem writeLoop_outcome {bufsize : Int} (hbuf : 0 ≤ bufsize) (script : List IoEvent) :
    ∀ rest written : List Byte, ∃ part, part <+: rest ∧
      (writeLoop bufsize script rest written).written = written ++ part ∧
      ((writeLoop bufsize script rest written).res = bufsize → part = rest) := by
  induction script with
  | nil =>
    intro rest written
    cases rest with
    | nil => exact ⟨[], List.prefix_rfl, by simp [writeLoop], fun _ => rfl⟩
    | cons b rest => exact ⟨b :: rest, List.prefix_rfl, rfl, fun _ => rfl⟩
  | cons e script ih =>
    intro rest written
    cases rest with
    | nil => exact ⟨[], List.prefix_rfl, by simp [writeLoop], fun _ => rfl⟩
    | cons b rest =>
      cases e with
      | eintr => exact ih (b :: rest) written
      | fail =>
        refine ⟨[], List.nil_prefix, (List.append_nil _).symm, ?_⟩
        intro hres
        have hfail : (-1 : Int) = bufsize := hres
        omega
      | piece n =>
        obtain ⟨part, hpre, hwritten, hall⟩ := ih ((b :: rest).drop (max n 1))
          (written ++ (b :: rest).take (max n 1))
        have hsplit := List.take_append_drop (max n 1) (b :: rest)
        refine ⟨(b :: rest).take (max n 1) ++ part, ?_, ?_, ?_⟩
        · have hjoin := (List.prefix_append_right_inj ((b :: rest).take (max n 1))).mpr hpre
          rwa [hsplit] at hjoin
        · rw [← List.append_assoc]
          exact hwritten
        · intro hres
          rw [hall hres, hsplit]

theorem writeAll_outcome (script : List IoEvent) (buf : List Byte) :
    ∃ part, part <+: buf ∧ (writeAll script buf buf.length).written = part ∧
      ((writeAll script buf buf.length).res = buf.length → part = buf) := by
  unfold writeAll
  rw [Int.toNat_natCast, List.take_length]
  exact writeLoop_outcome (Int.natCast_nonneg _) script buf []

/-- Whatever the kernel does, a beginning of the two buffers is written, and all of them
when no error is noticed. -/
theorem writeFrame_outcome {hdr : List Byte} (htwo : hdr.length = 2) (buf : List Byte) (c : Conn)
    (al : Allocs) : ∃ ok c' sent, writeFrame hdr buf buf.length c al = .ok ((ok, c'), al) ∧
      c'.written = c.written ++ sent ∧ sent <+: hdr ++ buf ∧ (ok = true → sent = hdr ++ buf) := by
  obtain ⟨part₁, hpre₁, hwritten₁, hall₁⟩ := writeAll_outcome c.writes hdr
  rw [htwo] at hwritten₁ hall₁
  generalize hw₁ : writeAll c.writes hdr (2 : Nat) = e₁ at hwritten₁ hall₁
  have hw₁' : writeAll c.writes hdr 2 = e₁ := hw₁
  obtain ⟨part₂, hpre₂, hwritten₂, hall₂⟩ := writeAll_outcome e₁.script buf
  generalize hw₂ : writeAll e₁.script buf buf.length = e₂ at hwritten₂ hall₂
  unfold writeFrame
  by_cases hres₁ : e₁.res = 2
  · have hwritten : c.written ++ e₁.written ++ e₂.written = c.written ++ (hdr ++ part₂) := by
      rw [hwritten₁, hwritten₂, hall₁ hres₁, List.append_assoc]
    by_cases hres₂ : e₂.res = buf.length
    · -- both writes are complete
      refine ⟨true, { c with written := c.written ++ e₁.written ++ e₂.written,
                             writes := e₂.script },
        hdr ++ buf, ?_, ?_, List.prefix_rfl, fun _ => rfl⟩
      · simp [hw₁', hres₁, hw₂, hres₂]
      · rw [hall₂ hres₂] at hwritten
        exact hwritten
    · refine ⟨false, { c with written := c.written ++ e₁.written ++ e₂.written,
                              writes := e₂.script, closes := c.closes + 1 }, hdr ++ part₂, ?_,
        hwritten, (List.prefix_append_right_inj hdr).mpr hpre₂, fun h => nomatch h⟩
      simp [hw₁', hres₁, hw₂, hres₂]
  · refine ⟨false, { c with written := c.written ++ e₁.written, writes := e₁.script,
                            closes := c.closes + 1 }, part₁, ?_, ?_,
      hpre₁.trans (List.prefix_append _ _), fun h => nomatch h⟩
    · simp [hw₁', hres₁]
    · exact congrArg (c.written ++ ·) hwritten₁

variable {M : Type} (codec : Codec M)

/-- A frame that can be announced is sent in full, or a beginning of it is sent and
the error is noticed. -/
theorem sendFrame_outcome {m : M} (hle : codec.getPackedSize m ≤ 65535) (c : Conn) (al : Allocs) :
    ∃ ok c' al' sent, sendFrame codec m c al = .ok ((ok, c'), al') ∧
      c'.written = c.written ++ sent ∧ sent <+: frame codec m ∧
      (ok = true → sent = frame codec m) := by
  obtain ⟨ok, c', sent, hrun, hwritten, hpre, hall⟩ :=
    writeFrame_outcome (header_length (codec.getPackedSize m)) (codec.pack m) c fun i => al (i + 1)
  rw [sendFrame_of_le codec hle]
  cases h0 : al 0 with
  | true =>
    refine ⟨ok, c', fun i => al (i + 1), sent, ?_, hwritten, hpre, hall⟩
    simp [h0, hrun]
  | false =>
    refine ⟨false, c, fun i => al (i + 1), [], ?_, (List.append_nil _).symm, List.nil_prefix,
      fun h => nomatch h⟩
    simp [h0]

/-- Without failures a message of any length overruns its buffer, or goes out under the
header made from its length. -/
theorem sendFrame_anyLength {m : M} {c : Conn} (hw : Unfailing c.writes) :
    sendFrame codec m c allocated = .error .outOfBounds ∨
    ∃ c' body, sendFrame codec m c allocated = .ok ((true, c'), allocated) ∧
      c'.written = c.written ++ (header (codec.getPackedSize m) ++ body) := by
  by_cases hbuf : codec.getPackedSize m < 2 ^ 32
  · right
    -- the length may be negative as an `int`: then no byte of the body is written
    obtain ⟨script, -, hrun⟩ := writeFrame_run (header_length (codec.getPackedSize m))
      (codec.pack m) (cint (codec.getPackedSize m)) hw allocated
    rw [sendFrame_of_lt codec hbuf, state_bind_ok (state_lift_ok malloc_allocated), if_pos rfl]
    exact ⟨_, _, hrun, rfl⟩
  · left
    have hsmall : ¬ codec.getPackedSize m ≤ codec.getPackedSize m % 2 ^ 32 := by omega
    unfold sendFrame packInto
    simp only [if_neg hsmall, state_bind, state_lift, malloc_allocated, ok_bind, if_true, run_throw,
      error_bind]

/-! ## Whole calls -/

/-- A whole call of `network_send` or `network_send_receive`: whether it reports
success. -/
def Sender.call : Sender → M → NM Bool
  | .server, m => do
    let rc ← networkSend codec m
    pure (rc = 0)
  | .client, m => do
    let reply ← networkSendReceive codec m
    pure reply.isSome

/-- What a call adds to the sending half: it writes nothing more, and reports success
only when the frame was written. -/
theorem call_of_sendFrame (sender : Sender) {m : M} {c c₁ : Conn} {al al₁ : Allocs} {ok : Bool}
    (hsend : sendFrame codec m c al = .ok ((ok, c₁), al₁)) :
    ∃ done c' al', sender.call codec m c al = .ok ((done, c'), al') ∧ c'.written = c₁.written ∧
      (done = true → ok = true) := by
  cases sender with
  | server =>
    cases ok with
    | false => exact ⟨false, c₁, al₁, by simp [Sender.call, networkSend, hsend], rfl, id⟩
    | true => exact ⟨true, c₁, al₁, by simp [Sender.call, networkSend, hsend], rfl, id⟩
  | client =>
    cases ok with
    | false => exact ⟨false, c₁, al₁, by simp [Sender.call, networkSendReceive, hsend], rfl, id⟩
    | true =>
      -- the reply is read, or the connection closed
      have hread : ∃ reply c' al', networkSendReceive codec m c al = .ok ((reply, c'), al') ∧
          c'.written = c₁.written := by
        unfold networkSendReceive
        simp only [state_bind, hsend, ok_bind, if_true, nm_connRead]
        split
        next => exact ⟨_, _, _, rfl, rfl⟩
        next =>
          simp only [state_bind, state_lift, malloc_run, ok_bind]
          split
          next =>
            simp only [state_bind, nm_connRead, ok_bind]
            split
            next => exact ⟨_, _, _, rfl, rfl⟩
            next => exact ⟨_, _, _, rfl, rfl⟩
          next => exact ⟨_, _, _, rfl, rfl⟩
      obtain ⟨reply, c', al', hrun, hwritten⟩ := hread
      exact ⟨reply.isSome, c', al', by simp [Sender.call, hrun], hwritten, fun _ => rfl⟩

theorem call_of_fault (sender : Sender) {m : M} {c : Conn} {al : Allocs} {e : Fault}
    (hsend : sendFrame codec m c al = .error e) : sender.call codec m c al = .error e := by
  cases sender with
  | server => simp [Sender.call, networkSend, hsend]
  | client => simp [Sender.call, networkSendReceive, hsend]

/-! ## Exact announcement -/

/-- A receiver at either end takes `m` from these bytes and leaves what follows them. -/
def ReceivedAs (sent : List Byte) (m : M) : Prop :=
  ∀ (r : Conn) (rest : List Byte), r.incoming = sent ++ rest → Unfailing r.reads →
    Unfailing r.writes →
    (∃ r', networkReceive codec r allocated = .ok ((some m, r'), allocated) ∧
      r'.incoming = rest) ∧
    ∀ request, codec.getPackedSize request ≤ 65535 →
      ∃ r', networkSendReceive codec request r allocated = .ok ((some m, r'), allocated) ∧
        r'.incoming = rest

/-- Whatever the writes and the allocations do, the call ends, a header it sent is the
packed length, and when it reports success that many bytes follow and the message is
received. -/
def SendsExactly (sender : Sender) (m : M) : Prop :=
  ∀ (c : Conn) (al : Allocs), ∃ done c' al' sent,
    sender.call codec m c al = .ok ((done, c'), al') ∧ c'.written = c.written ++ sent ∧
    (2 ≤ sent.length → ntohs (shortOfBytes (sent.take 2)) = codec.getPackedSize m) ∧
    (done = true → (sent.drop 2).length = codec.getPackedSize m ∧ ReceivedAs codec sent m)

theorem receivedAs_frame {m : M} (hle : codec.getPackedSize m ≤ 65535) :
    ReceivedAs codec (frame codec m) m := by
  intro r rest hin hreads hwrites
  constructor
  · obtain ⟨script, -, hrecv⟩ := networkReceive_frame codec hle hin hreads allocated_zero
    exact ⟨_, hrecv, rfl⟩
  · intro request hreq
    exact networkSendReceive_frame codec hreq hle hin hreads hwrites

theorem take_frame (m : M) : (frame codec m).take 2 = header (codec.getPackedSize m) :=
  List.take_left' (header_length _)

/-- A longer message is announced wrongly, or overruns the buffer it is packed into. -/
theorem le_of_sendsExactly {sender : Sender} {m : M} (h : SendsExactly codec sender m) :
    codec.getPackedSize m ≤ 65535 := by
  by_contra hlong
  obtain ⟨done, c', al', sent, hrun, hwritten, hheader, -⟩ := h (Conn.new [] []) allocated
  rcases sendFrame_anyLength codec (c := Conn.new [] []) (List.forall_mem_nil _) with
    hfault | ⟨c₁, body, hsend, hc₁⟩
  · rw [call_of_fault codec sender hfault] at hrun
    cases hrun
  · obtain ⟨done', c'', al'', hrun', hwritten', -⟩ := call_of_sendFrame codec sender hsend
    rw [hrun] at hrun'
    cases hrun'
    have hsent : sent = header (codec.getPackedSize m) ++ body := by
      rw [hc₁, hwritten] at hwritten'
      exact List.append_cancel_left hwritten'
    have hannounced := hheader (by rw [hsent, List.length_append, header_length]; omega)
    rw [hsent, List.take_left' (header_length _), ntohs_header] at hannounced
    omega

/-- **The length header.** A call announces exactly what it sends just when the packed
length fits 16 bits. -/
theorem sent_exactly_iff (sender : Sender) (m : M) :
    SendsExactly codec sender m ↔ codec.getPackedSize m ≤ 65535 := by
  refine ⟨le_of_sendsExactly codec, ?_⟩
  intro hle c al
  obtain ⟨ok, c₁, al₁, sent, hsend, hwritten, hpre, hfull⟩ := sendFrame_outcome codec hle c al
  obtain ⟨done, c', al', hrun, hsame, hok⟩ := call_of_sendFrame codec sender hsend
  refine ⟨done, c', al', sent, hrun, hsame.trans hwritten, ?_, ?_⟩
  · intro htwo
    obtain ⟨tail, htail⟩ := hpre
    have htake : sent.take 2 = header (codec.getPackedSize m) := by
      rw [← take_frame, ← htail, List.take_append_of_le_length htwo]
    rw [htake, ntohs_roundtrip (Nat.lt_succ_of_le hle)]
  · intro hdone
    rw [hfull (hok hdone)]
    refine ⟨?_, receivedAs_frame codec hle⟩
    rw [List.length_drop, frame_length]
    omega

/-! ## Two stored values of 40000 bytes -/

/-- Each of the two requests fits its frame. -/
theorem largePut_fits {key : CStr} (hkey : key.bytes.length = 1) {v : List Byte}
    (hv : v.length = 40000) : messageSize (putWire key v) ≤ 65535 := by
  have hop : varintFieldSize (int64Varint OP_PUT.toInt) = 2 := by decide
  have hct : varintFieldSize (int64Varint CT_ENTRY.toInt) = 2 := by decide
  have hzero : varintFieldSize (zigzag (0 : Int32).toInt) = 0 := by decide
  have hempty : bytesFieldSize [] = 0 := rfl
  have hsize : ∀ len, len < 2 ^ 21 → delimitedSize len ≤ 4 + len := by
    intro len hlen
    unfold delimitedSize ProtoWire.varintSize
    by_cases h0 : len = 0
    · subst h0
      decide
    · have hlog := (Nat.log2_lt h0).mpr hlen
      omega
  have hkeySize := bytesFieldSize_le (show key.bytes.length ≤ 127 by omega)
  have hvalueSize : bytesFieldSize v ≤ 4 + v.length := by
    unfold bytesFieldSize
    split
    next => omega
    next => exact hsize v.length (by omega)
  have hentry := hsize (bytesFieldSize key.bytes + bytesFieldSize v) (by omega)
  simp only [messageSize, putWire, WireMsg.init, entrySize, hop, hct, hzero, hempty,
    Option.elim_some, Option.elim_none, emptyString, List.map_nil, List.sum_nil]
  omega

/-- A listing is longer than any two of its values together. -/
theorem two_le_messageSize {t : Table} {e₁ e₂ : Entry} (h₁ : e₁ ∈ t.entries) (h₂ : e₂ ∈ t.entries)
    (hne : e₁ ≠ e₂) : e₁.bytes.length + e₂.bytes.length ≤ messageSize (tableReply t) := by
  have hvalue : ∀ e : Entry, e.bytes.length ≤ delimitedSize (entrySize e.wire) := by
    intro e
    have hle := le_bytesFieldSize e.wire.value
    unfold delimitedSize entrySize
    exact (show e.bytes.length ≤ _ from hle).trans (by omega)
  obtain ⟨front, back, hsplit⟩ := List.append_of_mem h₁
  have hother : e₂ ∈ front ++ back := by
    rw [hsplit] at h₂
    simp only [List.mem_append, List.mem_cons] at h₂ ⊢
    rcases h₂ with h | h | h
    · exact Or.inl h
    · exact absurd h.symm hne
    · exact Or.inr h
  have hrest : delimitedSize (entrySize e₂.wire)
      ≤ ((front ++ back).map fun e => delimitedSize (entrySize e.wire)).sum :=
    List.single_le_sum (fun x _ => Nat.zero_le x) _ (List.mem_map.mpr ⟨e₂, hother, rfl⟩)
  have hsum : ((tableReply t).entries.map fun e => delimitedSize (entrySize e)).sum
      = delimitedSize (entrySize e₁.wire)
        + ((front ++ back).map fun e => delimitedSize (entrySize e.wire)).sum := by
    simp only [tableReply, List.map_map, hsplit, Function.comp_def, List.map_append, List.map_cons,
      List.sum_append, List.sum_cons]
    omega
  have hv₁ := hvalue e₁
  have hv₂ := hvalue e₂
  unfold messageSize
  omega

/-- Two such requests, and then the listing. -/
theorem large_table {v : List Byte} (hv : v.length = 40000) :
    ∃ s₁ s₂ s₃ : Server, ∃ reply₁ reply₂ reply₃ listing,
      messageSize (putWire keyA v) ≤ 65535 ∧ messageSize (putWire keyB v) ≤ 65535 ∧
      invoke (W := Unit) none noTime (putMessage keyA v) (emptyServer, ()) allocated
        = .ok (((0, reply₁), (s₁, ())), allocated) ∧
      invoke (W := Unit) none noTime (putMessage keyB v) (s₁, ()) allocated
        = .ok (((0, reply₂), (s₂, ())), allocated) ∧
      invoke (W := Unit) none noTime (bareMessage OP_GETTABLE) (s₂, ()) allocated
        = .ok (((0, reply₃), (s₃, ())), allocated) ∧
      reply₃.content allocated = .ok (listing, allocated) ∧ 65535 < messageSize listing := by
  have hne : v ≠ [] := List.ne_nil_of_length_pos (by omega)
  obtain ⟨s₁, hrun₁, hwf₁, hmap₁⟩ :=
    invoke_put_allocated noTime emptyServer_wf hashable_keyA hne (by omega)
  obtain ⟨s₂, hrun₂, hwf₂, hmap₂⟩ := invoke_put_allocated noTime hwf₁ hashable_keyB hne (by omega)
  have hcard : s₂.table.map.keys.card < 2 ^ 31 := by
    have hkeys : s₂.table.map.keys ⊆ {keyA, keyB} := by
      intro key hkey
      rw [hmap₂, hmap₁, Finmap.mem_keys, Finmap.mem_insert, Finmap.mem_insert] at hkey
      rw [Finset.mem_insert, Finset.mem_singleton]
      rcases hkey with h | h | h
      · exact Or.inr h
      · exact Or.inl h
      · exact absurd h Finmap.notMem_empty
    have hle := (Finset.card_le_card hkeys).trans Finset.card_le_two
    omega
  have hrun₃ := @invokeGetTable_allocated _ s₂ hwf₂ noTime (bareMessage OP_GETTABLE) () hcard
  refine ⟨s₁, s₂, s₂.counted noTime, _, _, _, _, largePut_fits rfl hv, largePut_fits rfl hv, hrun₁,
    hrun₂, (congrFun (congrFun (invoke_getTable none noTime rfl) _) _).trans hrun₃,
    content_tableAnswer s₂.table, ?_⟩
  have hmemA : ⟨keyA, Block.ofBytes v⟩ ∈ s₂.table.entries := by
    refine hwf₂.lookup_eq_some_iff.mp ?_
    rw [hmap₂, Finmap.lookup_insert_of_ne _ (by decide), hmap₁, Finmap.lookup_insert]
  have hmemB : ⟨keyB, Block.ofBytes v⟩ ∈ s₂.table.entries := by
    refine hwf₂.lookup_eq_some_iff.mp ?_
    rw [hmap₂, Finmap.lookup_insert]
  have hbytes : ∀ key : CStr, Entry.bytes ⟨key, Block.ofBytes v⟩ = v :=
    fun _ => Block.content_ofBytes v
  have hkeys : keyA ≠ keyB := by decide
  have htwo := two_le_messageSize hmemA hmemB fun he => hkeys (congrArg Entry.key he)
  rw [hbytes, hbytes, hv] at htwo
  omega

/-- Two PUTs that fit their frames make a table whose listing does not. -/
theorem large_table_misannounced : ∃ s₁ s₂ s₃ : Server, ∃ reply₁ reply₂ reply₃ listing,
    messageSize (putWire keyA (List.replicate 40000 1)) ≤ 65535 ∧
    messageSize (putWire keyB (List.replicate 40000 1)) ≤ 65535 ∧
    invoke (W := Unit) none noTime (putMessage keyA (List.replicate 40000 1)) (emptyServer, ())
      allocated = .ok (((0, reply₁), (s₁, ())), allocated) ∧
    invoke (W := Unit) none noTime (putMessage keyB (List.replicate 40000 1)) (s₁, ())
      allocated = .ok (((0, reply₂), (s₂, ())), allocated) ∧
    invoke (W := Unit) none noTime (bareMessage OP_GETTABLE) (s₂, ()) allocated
      = .ok (((0, reply₃), (s₃, ())), allocated) ∧
    reply₃.content allocated = .ok (listing, allocated) ∧
    ¬ SendsExactly protoCodec.toCodec .server listing := by
  obtain ⟨s₁, s₂, s₃, reply₁, reply₂, reply₃, listing, hfit₁, hfit₂, hrun₁, hrun₂, hrun₃, hcontent,
    hlong⟩ := large_table (v := List.replicate 40000 1) List.length_replicate
  refine ⟨s₁, s₂, s₃, reply₁, reply₂, reply₃, listing, hfit₁, hfit₂, hrun₁, hrun₂, hrun₃, hcontent,
    ?_⟩
  intro hexact
  have hle := le_of_sendsExactly protoCodec.toCodec hexact
  rw [protoCodec.getPackedSize_eq] at hle
  omega

end KvStorage
