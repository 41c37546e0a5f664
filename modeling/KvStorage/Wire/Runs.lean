import KvStorage.Server.Connections

/-!
# The functions are runs of the steps

What `network_send_receive` and the loop of `thread_client` do as functions of the kernel's script,
each end of a connection can do step by step: every call of theirs is a run of the two ends in which
the other one does not move (`networkSendReceive_trace`, `threadClientLoop_trace`), with the same
bytes taken and left, the same result, and the same descriptor closed. The same
traces show what becomes of a forgotten reply (`forgotten_reply_misread`).

Both ends write alike and read alike, so the loops are followed once, over anything that can write
(`Writer`) or read (`Reader`) piece by piece.
-/

namespace KvStorage.Duplex

open CLib Framing

variable {M : Type} {codec : Codec M} {capacity : Nat}

/-! ## The loops -/

/-- An end of the connection as far as it writes. -/
structure Writer (codec : Codec M) (capacity : Nat) (put : Outgoing Byte → List Byte → Line M) :
    Prop where
  write : ∀ {out : Outgoing Byte} (sent : List Byte) {k : Nat}, out.bytes ≠ [] → 0 < k →
    k ≤ out.buffer.length → sent.length + k ≤ capacity →
    Line.Step codec capacity .tau (put out sent) (put (out.rest k) (sent ++ out.buffer.take k))

theorem writer_caller (id : Nat) (w : Worker M) (down : List Byte) :
    Writer codec capacity fun out up => ⟨.wrote id out, w, up, down⟩ where
  write := by
    intro out up k hne hpos hk hroom
    have hsending : Caller.wrote id out = .sending id out := if_neg hne
    rw [hsending]
    exact .write hpos hk hroom

theorem writer_worker (c : Caller) (up : List Byte) :
    Writer codec capacity fun out down => ⟨c, .sent out, up, down⟩ where
  write := by
    intro out down k hne hpos hk hroom
    have hsending : (Worker.sent out : Worker M) = .sending out := if_neg hne
    rw [hsending]
    exact .send hpos hk hroom

/-- One of the two buffers of a frame, with what follows it. -/
structure Buffer (o : List Byte → Outgoing Byte) : Prop where
  buffer : ∀ {rest : List Byte}, rest ≠ [] → (o rest).buffer = rest
  rest : ∀ {rest : List Byte} (k : Nat), rest ≠ [] → (o rest).rest k = o (rest.drop k)
  bytes : ∀ {rest : List Byte}, rest ≠ [] → (o rest).bytes ≠ []

theorem buffer_header (body : List Byte) : Buffer fun header => ⟨header, body⟩ where
  buffer := by
    intro rest hne
    obtain ⟨b, rest, rfl⟩ := List.exists_cons_of_ne_nil hne
    rfl
  rest := by
    intro rest k hne
    obtain ⟨b, rest, rfl⟩ := List.exists_cons_of_ne_nil hne
    rfl
  bytes := fun hne h => hne (List.append_eq_nil_iff.mp h).1

theorem buffer_body : Buffer fun body => ⟨[], body⟩ where
  buffer _ := rfl
  rest _ _ := rfl
  bytes hne := hne

/-- The loop of `write_all`: what it has written was written piece by piece. -/
theorem Writer.loop {put : Outgoing Byte → List Byte → Line M} (hput : Writer codec capacity put)
    {o : List Byte → Outgoing Byte} (ho : Buffer o) (bufsize : Int) :
    ∀ (script : List IoEvent) (rest written sent : List Byte),
      sent.length + rest.length ≤ capacity → ∃ done left, rest = done ++ left ∧
        (writeLoop bufsize script rest written).written = written ++ done ∧
        Relation.ReflTransGen (Line.Step codec capacity .tau) (put (o rest) sent)
          (put (o left) (sent ++ done)) ∧
        (left = [] ∧ (writeLoop bufsize script rest written).res = bufsize ∨
          left ≠ [] ∧ (writeLoop bufsize script rest written).res = -1)
  | script, [], written, sent, _ => by
    unfold writeLoop
    exact ⟨[], [], rfl, by rw [List.append_nil], by rw [List.append_nil], Or.inl ⟨rfl, rfl⟩⟩
  | [], b :: rest, written, sent, hroom => by
    have hne : b :: rest ≠ [] := List.cons_ne_nil _ _
    have hstep := hput.write sent (k := (b :: rest).length) (ho.bytes hne) (Nat.succ_pos _)
      (by rw [ho.buffer hne]) hroom
    rw [ho.buffer hne, ho.rest _ hne, List.drop_length, List.take_length] at hstep
    exact ⟨b :: rest, [], (List.append_nil _).symm, rfl, .single hstep, Or.inl ⟨rfl, rfl⟩⟩
  | .eintr :: script, b :: rest, written, sent, hroom => by
    unfold writeLoop
    exact hput.loop ho bufsize script (b :: rest) written sent hroom
  | .fail :: script, b :: rest, written, sent, _ => by
    unfold writeLoop
    exact ⟨[], b :: rest, rfl, by rw [List.append_nil], by rw [List.append_nil],
      Or.inr ⟨List.cons_ne_nil _ _, rfl⟩⟩
  | .piece n :: script, b :: rest, written, sent, hroom => by
    have hne : b :: rest ≠ [] := List.cons_ne_nil _ _
    -- the kernel takes no more than there is
    have htake : (b :: rest).take (min (max n 1) (b :: rest).length) = (b :: rest).take (max n 1) :=
      List.take_eq_take_min.symm
    have hdrop : (b :: rest).drop (min (max n 1) (b :: rest).length)
        = (b :: rest).drop (max n 1) := by
      rcases Nat.le_total (max n 1) (b :: rest).length with hle | hle
      · rw [Nat.min_eq_left hle]
      · rw [Nat.min_eq_right hle, List.drop_of_length_le hle, List.drop_length]
    have hstep := hput.write sent (k := min (max n 1) (b :: rest).length) (ho.bytes hne)
      (by rw [List.length_cons]; omega) (by rw [ho.buffer hne]; omega) (by omega)
    rw [ho.buffer hne, ho.rest _ hne, hdrop, htake] at hstep
    obtain ⟨done, left, hsplit, hwritten, hsteps, hres⟩ := hput.loop ho bufsize script
      ((b :: rest).drop (max n 1)) (written ++ (b :: rest).take (max n 1))
      (sent ++ (b :: rest).take (max n 1)) (by
        rw [List.length_append, List.length_take, List.length_drop]
        omega)
    unfold writeLoop
    refine ⟨(b :: rest).take (max n 1) ++ done, left, ?_, ?_, ?_, hres⟩
    · rw [List.append_assoc, ← hsplit, List.take_append_drop]
    · rw [hwritten, List.append_assoc]
    · rw [← List.append_assoc]
      exact .head hstep hsteps

/-- An end of the connection as far as it reads. -/
structure Reader (codec : Codec M) (capacity : Nat) (take : Incoming Byte → List Byte → Line M) :
    Prop where
  read : ∀ {inb inb' : Incoming Byte} {piece rest : List Byte}, inb.Takes codec.format piece →
    inb.next codec.format piece = .inl inb' →
    Line.Step codec capacity .tau (take inb (piece ++ rest)) (take inb' rest)

theorem reader_caller (capacity id : Nat) (w : Worker M) (up : List Byte) :
    Reader codec capacity fun inb down => ⟨.receiving id inb, w, up, down⟩ where
  read ht hnext := .read rfl ht hnext

theorem reader_worker (capacity : Nat) (c : Caller) (down : List Byte) :
    Reader codec capacity fun inb up => ⟨c, .receiving inb, up, down⟩ where
  read ht hnext := .receive rfl ht hnext

/-- One of the two parts of a frame, of length `n`. -/
structure Part (codec : Codec M) (i : List Byte → Incoming Byte) (n : Nat) : Prop where
  missing : ∀ got, (i got).missing codec.format = n - got.length
  next : ∀ {got piece : List Byte}, (got ++ piece).length < n →
    (i got).next codec.format piece = .inl (i (got ++ piece))

theorem part_length (codec : Codec M) : Part codec .length 2 where
  missing _ := rfl
  next := by
    intro got piece hlt
    exact congrArg Sum.inl (if_neg (Nat.not_le.mpr hlt))

theorem part_body (codec : Codec M) (len : Nat) : Part codec (.body len) len where
  missing _ := rfl
  next := by
    intro got piece hlt
    exact if_neg (Nat.not_le.mpr hlt)

section Reading

variable {take : Incoming Byte → List Byte → Line M}

/-- A piece of a part that is not complete with it. -/
theorem Reader.piece (htake : Reader codec capacity take) {i : List Byte → Incoming Byte} {n : Nat}
    (hi : Part codec i n) {got piece : List Byte} (rest : List Byte) (hne : piece ≠ [])
    (hlt : (got ++ piece).length < n) : Line.Step codec capacity .tau
      (take (i got) (piece ++ rest)) (take (i (got ++ piece)) rest) := by
  refine htake.read ⟨?_, Or.inl hne⟩ (hi.next hlt)
  rw [hi.missing]
  rw [List.length_append] at hlt
  omega

/-- What the loop of `read_all` has come to: a last piece completes the part, or the loop has given
up before. -/
inductive Read (codec : Codec M) (capacity : Nat) (take : Incoming Byte → List Byte → Line M)
    (i : List Byte → Incoming Byte) (n : Nat) (bufsize : Int) (l : Line M) : ReadEnd → Prop
  | complete {e : ReadEnd} (got piece : List Byte) : (got ++ piece).length = n →
      (i got).Takes codec.format piece →
      Relation.ReflTransGen (Line.Step codec capacity .tau) l (take (i got) (piece ++ e.incoming)) →
      e.res = bufsize → e.got = got ++ piece → Read codec capacity take i n bufsize l e
  | failed {e : ReadEnd} {got : List Byte} : 0 < n →
      Relation.ReflTransGen (Line.Step codec capacity .tau) l (take (i got) e.incoming) →
      e.res = -1 → Read codec capacity take i n bufsize l e
  | ended {e : ReadEnd} {got : List Byte} : 0 < n →
      Relation.ReflTransGen (Line.Step codec capacity .tau) l (take (i got) e.incoming) →
      e.res = 0 → e.incoming = [] → Read codec capacity take i n bufsize l e

theorem Read.head {i : List Byte → Incoming Byte} {n : Nat} {bufsize : Int} {l l' : Line M}
    {e : ReadEnd} (hstep : Line.Step codec capacity .tau l l')
    (h : Read codec capacity take i n bufsize l' e) : Read codec capacity take i n bufsize l e := by
  cases h with
  | complete got piece hlen ht hsteps hres hgot =>
    exact .complete got piece hlen ht (.head hstep hsteps) hres hgot
  | failed hpos hsteps hres => exact .failed hpos (.head hstep hsteps) hres
  | ended hpos hsteps hres hnil => exact .ended hpos (.head hstep hsteps) hres hnil

theorem readLoop_zero (bufsize : Int) (script : List IoEvent) (incoming got : List Byte) :
    readLoop bufsize script incoming 0 got = ⟨bufsize, got, incoming, script⟩ := by
  unfold readLoop
  rfl

/-- The piece that completes a part. -/
theorem Part.last {i : List Byte → Incoming Byte} {n : Nat} (hi : Part codec i n)
    (bufsize : Int) (script : List IoEvent) {incoming got : List Byte}
    {len : Nat} (hlen : got.length + (len + 1) = n) (hle : len + 1 ≤ incoming.length) :
    Read codec capacity take i n bufsize (take (i got) incoming)
      ⟨bufsize, got ++ incoming.take (len + 1), incoming.drop (len + 1), script⟩ := by
  have hpiece : (incoming.take (len + 1)).length = len + 1 := List.length_take_of_le hle
  refine .complete got (incoming.take (len + 1)) ?_ ⟨?_, Or.inl ?_⟩ ?_ rfl rfl
  · rw [List.length_append, hpiece]
    exact hlen
  · rw [hpiece, hi.missing]
    omega
  · exact List.ne_nil_of_length_eq_add_one hpiece
  · rw [List.take_append_drop]

/-- The loop of `read_all`: what it has got was read piece by piece. -/
theorem Reader.loop (htake : Reader codec capacity take) {i : List Byte → Incoming Byte} {n : Nat}
    (hi : Part codec i n) (bufsize : Int) :
    ∀ (script : List IoEvent) (incoming : List Byte) (len : Nat) (got : List Byte),
      got.length + len = n → Read codec capacity take i n bufsize (take (i got) incoming)
        (readLoop bufsize script incoming len got)
  | script, incoming, 0, got, hlen => by
    -- a part of length 0: nothing is read, and the empty piece completes it
    rw [readLoop_zero]
    refine .complete got [] ?_ ⟨Nat.zero_le _, Or.inr ?_⟩ .refl rfl ?_
    · rw [List.append_nil, ← hlen]
      rfl
    · rw [hi.missing]
      omega
    · exact (List.append_nil got).symm
  | [], incoming, len + 1, got, hlen => by
    rw [readLoop_end]
    by_cases hle : len + 1 ≤ incoming.length
    · rw [if_pos hle]
      exact hi.last bufsize [] hlen hle
    · rw [if_neg hle]
      by_cases hnil : incoming = []
      · subst hnil
        exact .ended (by omega) .refl rfl rfl
      · -- what there is comes with one read, the next one finds the end
        have hlt : (got ++ incoming).length < n := by
          rw [List.length_append]
          omega
        have hstep := htake.piece hi [] hnil hlt
        rw [List.append_nil] at hstep
        exact .ended (by omega) (.single hstep) rfl rfl
  | .eintr :: script, incoming, len + 1, got, hlen => by
    unfold readLoop
    exact htake.loop hi bufsize script incoming (len + 1) got hlen
  | .fail :: script, incoming, len + 1, got, hlen => by
    rw [readLoop_fail]
    exact .failed (by omega) .refl rfl
  | .piece k :: script, incoming, len + 1, got, hlen => by
    rw [readLoop_piece]
    by_cases hk : min (max k 1) (min (len + 1) incoming.length) = 0
    · rw [if_pos hk]
      have hnil : incoming = [] := List.length_eq_zero_iff.mp (by omega)
      exact .ended (by omega) .refl rfl hnil
    · rw [if_neg hk]
      generalize hkdef : min (max k 1) (min (len + 1) incoming.length) = k' at hk ⊢
      by_cases hfull : k' = len + 1
      · subst hfull
        rw [Nat.sub_self, readLoop_zero]
        exact hi.last bufsize script hlen (by omega)
      · have hpiece : (incoming.take k').length = k' := List.length_take_of_le (by omega)
        have hne : incoming.take k' ≠ [] := by
          intro hnil
          rw [hnil] at hpiece
          exact hk hpiece.symm
        have hlt : (got ++ incoming.take k').length < n := by
          rw [List.length_append, hpiece]
          omega
        have hstep := htake.piece hi (incoming.drop k') hne hlt
        rw [List.take_append_drop] at hstep
        refine .head hstep (htake.loop hi bufsize script (incoming.drop k') (len + 1 - k')
          (got ++ incoming.take k') ?_)
        rw [List.length_append, hpiece]
        omega

end Reading

/-! ## Frames -/

theorem writeAll_eq_loop (script : List IoEvent) {buf : List Byte} {len : Nat}
    (h : buf.length = len) : writeAll script buf len = writeLoop len script buf [] := by
  unfold writeAll
  rw [Int.toNat_natCast, ← h, List.take_length]

/-- What the sending code has come to: no memory, or a part of the frame that is written, all of it
or not. -/
inductive Sent (codec : Codec M) (capacity : Nat) (put : Outgoing Byte → List Byte → Line M) (m : M)
    (c : Conn) : Bool → Conn → Prop
  | refused : Sent codec capacity put m c false c
  | complete {c' : Conn} : Relation.ReflTransGen (Line.Step codec capacity .tau)
      (put (.ofMessage codec.format m) c.written) (put ⟨[], []⟩ c'.written) →
      c'.written = c.written ++ frame codec m → c'.incoming = c.incoming →
      c'.closes = c.closes → Sent codec capacity put m c true c'
  | failed {c' : Conn} {left : Outgoing Byte} : left.bytes ≠ [] →
      Relation.ReflTransGen (Line.Step codec capacity .tau)
        (put (.ofMessage codec.format m) c.written) (put left c'.written) →
      c'.incoming = c.incoming → c'.closes = c.closes + 1 → Sent codec capacity put m c false c'

theorem Writer.frame {put : Outgoing Byte → List Byte → Line M} (hput : Writer codec capacity put)
    {m : M} (hm : FitsFrame codec m) {c c' : Conn} {al al' : Allocs} {sent : Bool}
    (hroom : c.written.length + (frame codec m).length ≤ capacity)
    (hrun : sendFrame codec m c al = .ok ((sent, c'), al')) :
    Sent codec capacity put m c sent c' := by
  rw [frame_length] at hroom
  have hlen := codec.pack_length m
  have htwo := header_length (codec.getPackedSize m)
  rw [sendFrame_of_le codec hm.2] at hrun
  by_cases h0 : al 0 = true
  · -- the length is written with the body still behind it
    simp only [state_bind, state_lift, malloc_run, h0, ok_bind, if_true] at hrun
    unfold writeFrame at hrun
    simp only [state_bind, nm_connWrite, ok_bind] at hrun
    have hheader : writeAll c.writes (header (codec.getPackedSize m)) 2
        = writeLoop 2 c.writes (header (codec.getPackedSize m)) [] := writeAll_eq_loop _ htwo
    rw [hheader] at hrun
    obtain ⟨done, left, hsplit, hwritten, hsteps, hres⟩ :=
      hput.loop (buffer_header (codec.pack m)) 2 c.writes (header (codec.getPackedSize m)) []
        c.written (by omega)
    generalize writeLoop 2 c.writes (header (codec.getPackedSize m)) [] = e at hrun hwritten hres
    rw [List.nil_append] at hwritten
    rcases hres with ⟨rfl, hres⟩ | ⟨hne, hres⟩
    · -- all of it: the body
      rw [List.append_nil] at hsplit
      subst hsplit
      simp only [hres, ne_eq, not_true_eq_false, if_false, state_bind, nm_connWrite, ok_bind]
        at hrun
      rw [writeAll_eq_loop _ rfl] at hrun
      obtain ⟨done', left', hsplit', hwritten', hsteps', hres'⟩ :=
        hput.loop buffer_body (codec.pack m).length e.script (codec.pack m) []
          (c.written ++ header (codec.getPackedSize m)) (by
            rw [List.length_append]
            omega)
      generalize writeLoop (codec.pack m).length e.script (codec.pack m) [] = e'
        at hrun hwritten' hres'
      rw [List.nil_append] at hwritten'
      rcases hres' with ⟨rfl, hres'⟩ | ⟨hne', hres'⟩
      · simp only [hres', not_true_eq_false, if_false] at hrun
        cases hrun
        refine .complete ?_ ?_ rfl rfl
        · show Relation.ReflTransGen _ _ (put _ (c.written ++ e.written ++ e'.written))
          rw [hwritten, hwritten']
          exact hsteps.trans hsteps'
        · show c.written ++ e.written ++ e'.written
            = c.written ++ (header (codec.getPackedSize m) ++ codec.pack m)
          rw [hwritten, hwritten', hsplit', List.append_nil, List.append_assoc]
      · have hshort : ¬ (-1 : Int) = (codec.pack m).length := by omega
        simp only [hres', hshort, not_false_eq_true, if_true, state_bind, nm_connClose, ok_bind]
          at hrun
        cases hrun
        refine .failed (buffer_body.bytes hne') ?_ rfl rfl
        show Relation.ReflTransGen _ _ (put _ (c.written ++ e.written ++ e'.written))
        rw [hwritten, hwritten']
        exact hsteps.trans hsteps'
    · have hshort : ¬ (-1 : Int) = 2 := by omega
      simp only [hres, hshort, ne_eq, not_false_eq_true, if_true, state_bind, nm_connClose, ok_bind]
        at hrun
      cases hrun
      refine .failed ((buffer_header (codec.pack m)).bytes hne) ?_ rfl rfl
      show Relation.ReflTransGen _ _ (put _ (c.written ++ e.written))
      rw [hwritten]
      exact hsteps
  · simp only [state_bind, state_lift, malloc_run, h0, ok_bind] at hrun
    cases hrun
    exact .refused

/-- The reading code shared by `network_receive` and `network_send_receive`, which differ in when
they close the descriptor. -/
def readFrame (codec : Codec M) (closes : Int → Prop) [DecidablePred closes] : NM (Option M) := do
  let (nbytes, tamanhoBuffer) ← connRead 2
  if nbytes ≠ 2 then
    if closes nbytes then connClose
    pure none
  else
    let len := ntohs (shortOfBytes tamanhoBuffer)
    if ← malloc then
      let (nbytes, buf) ← connRead len
      if nbytes ≠ len then
        if closes nbytes then connClose
        pure none
      else pure (codec.unpack buf)
    else pure none

theorem networkReceive_eq_readFrame : networkReceive codec = readFrame codec (· ≠ 0) := rfl

theorem networkSendReceive_eq_readFrame (m : M) : networkSendReceive codec m = (do
    if ← sendFrame codec m then readFrame codec (fun _ => True) else pure none) := by
  unfold networkSendReceive readFrame
  simp only [if_true]

/-- What the reading code has come to. -/
inductive Got (codec : Codec M) (capacity : Nat) (take : Incoming Byte → List Byte → Line M)
    (closes : Int → Prop) [DecidablePred closes] (c : Conn) : Option M → Conn → Prop
  | complete {c' : Conn} {got piece : List Byte} {len : Nat} {res : Option M} :
      Relation.ReflTransGen (Line.Step codec capacity .tau) (take (.length []) c.incoming)
        (take (.body len got) (piece ++ c'.incoming)) →
      (Incoming.body len got).Takes codec.format piece →
      (Incoming.body len got).next codec.format piece = .inr res →
      c'.written = c.written → c'.closes = c.closes → Got codec capacity take closes c res c'
  | noMemory {c' : Conn} {got piece : List Byte} {len : Nat} :
      Relation.ReflTransGen (Line.Step codec capacity .tau) (take (.length []) c.incoming)
        (take (.length got) (piece ++ c'.incoming)) →
      (Incoming.length got).Takes codec.format piece →
      (Incoming.length got).next codec.format piece = .inl (.body len []) →
      c'.written = c.written → c'.closes = c.closes → Got codec capacity take closes c none c'
  | failed {c' : Conn} {inb : Incoming Byte} {n : Int} :
      Relation.ReflTransGen (Line.Step codec capacity .tau) (take (.length []) c.incoming)
        (take inb c'.incoming) →
      c'.written = c.written → c'.closes = c.closes + (if closes n then 1 else 0) →
      Got codec capacity take closes c none c'

/-- After a transfer that was not complete. -/
theorem closes_run {closes : Int → Prop} [DecidablePred closes] (n : Int) (c : Conn) (al : Allocs) :
    (do
      if closes n then connClose
      return none : NM (Option M)) c al
      = .ok ((none, { c with closes := c.closes + (if closes n then 1 else 0) }), al) := by
  by_cases hn : closes n
  · simp only [hn, if_true]
    rfl
  · simp only [hn, if_false]
    rfl

theorem Reader.frame {take : Incoming Byte → List Byte → Line M}
    (htake : Reader codec capacity take) {closes : Int → Prop} [DecidablePred closes]
    {c c' : Conn} {al al' : Allocs} {got : Option M}
    (hrun : readFrame codec closes c al = .ok ((got, c'), al')) :
    Got codec capacity take closes c got c' := by
  unfold readFrame at hrun
  simp only [state_bind, nm_connRead, ok_bind] at hrun
  have hlength := htake.loop (part_length codec) 2 c.reads c.incoming 2 [] rfl
  have hread : readAll c.reads c.incoming 2 = readLoop 2 c.reads c.incoming 2 [] := rfl
  rw [hread] at hrun
  generalize readLoop 2 c.reads c.incoming 2 [] = e at hrun hlength
  cases hlength with
  | complete header piece hn ht hsteps hres hgot =>
    have hnext : (Incoming.length header).next codec.format piece
        = .inl (.body (ntohs (shortOfBytes e.got)) []) := by
      rw [hgot]
      exact congrArg Sum.inl (if_pos hn.ge)
    generalize ntohs (shortOfBytes e.got) = len at hrun hnext
    simp only [hres, ne_eq, not_true_eq_false, if_false, state_bind, state_lift, malloc_run,
      ok_bind] at hrun
    by_cases h0 : al 0 = true
    · -- the last piece of the length was read, and the body begins
      simp only [h0, if_true, state_bind, nm_connRead, ok_bind] at hrun
      have hbody := htake.loop (part_body codec len) len e.script e.incoming len []
        (Nat.zero_add len)
      have hread' : readAll e.script e.incoming len = readLoop len e.script e.incoming len [] := rfl
      rw [hread'] at hrun
      generalize readLoop len e.script e.incoming len [] = e' at hrun hbody
      have hstart := hsteps.tail (htake.read ht hnext)
      cases hbody with
      | complete body piece' hn' ht' hsteps' hres' hgot' =>
        simp only [hres', not_true_eq_false, if_false] at hrun
        cases hrun
        refine .complete (hstart.trans hsteps') ht' ?_ rfl rfl
        rw [hgot']
        exact if_pos hn'.ge
      | failed hpos hsteps' hres' =>
        have hshort : ¬ (-1 : Int) = len := by omega
        simp only [hres', hshort, not_false_eq_true, if_true] at hrun
        rw [closes_run] at hrun
        cases hrun
        exact .failed (hstart.trans hsteps') rfl rfl
      | ended hpos hsteps' hres' hnil =>
        have hshort : ¬ (0 : Int) = len := by omega
        simp only [hres', hshort, not_false_eq_true, if_true] at hrun
        rw [closes_run] at hrun
        cases hrun
        exact .failed (hstart.trans hsteps') rfl rfl
    · simp only [h0] at hrun
      cases hrun
      exact .noMemory hsteps ht hnext rfl rfl
  | failed hpos hsteps hres =>
    have hshort : ¬ (-1 : Int) = 2 := by omega
    simp only [hres, ne_eq, hshort, not_false_eq_true, if_true] at hrun
    rw [closes_run] at hrun
    cases hrun
    exact .failed hsteps rfl rfl
  | ended hpos hsteps hres hnil =>
    have hshort : ¬ (0 : Int) = 2 := by omega
    simp only [hres, ne_eq, hshort, not_false_eq_true, if_true] at hrun
    rw [closes_run] at hrun
    cases hrun
    exact .failed hsteps rfl rfl

/-! ## The functions -/

/-- A run, with what can be seen of its steps. -/
inductive Trace (codec : Codec M) (capacity : Nat) : Line M → List (Label M) → Line M → Prop
  | nil {l : Line M} : Trace codec capacity l [] l
  | hidden {l l' l'' : Line M} {labs : List (Label M)} : Line.Step codec capacity .tau l l' →
      Trace codec capacity l' labs l'' → Trace codec capacity l labs l''
  | seen {lab : Label M} {l l' l'' : Line M} {labs : List (Label M)} : lab ≠ .tau →
      Line.Step codec capacity lab l l' → Trace codec capacity l' labs l'' →
      Trace codec capacity l (lab :: labs) l''

theorem Trace.after {l l' l'' : Line M} {labs : List (Label M)}
    (hsteps : Relation.ReflTransGen (Line.Step codec capacity .tau) l l')
    (h : Trace codec capacity l' labs l'') : Trace codec capacity l labs l'' := by
  induction hsteps using Relation.ReflTransGen.head_induction_on with
  | refl => exact h
  | head hstep _ ih => exact .hidden hstep ih

theorem Trace.append {l l' l'' : Line M} {labs labs' : List (Label M)}
    (h : Trace codec capacity l labs l') (h' : Trace codec capacity l' labs' l'') :
    Trace codec capacity l (labs ++ labs') l'' := by
  induction h with
  | nil => exact h'
  | hidden hstep _ ih => exact .hidden hstep (ih h')
  | seen hne hstep _ ih => exact .seen hne hstep (ih h')

/-- How a call of `network_send_receive` ends: what it returns, how often it closes the descriptor,
what is seen of it, and where it leaves the caller. -/
inductive CallEnds (id : Nat) (m : M) : Option M → Nat → List (Label M) → Caller → Prop
  | refused : CallEnds id m none 0 [.refuse id m] .idle
  | returned {r : M} : CallEnds id m (some r) 0 [.call id m, .ret id r] .idle
  | garbled : CallEnds id m none 0 [.call id m] .idle
  | forgotten : CallEnds id m none 0 [.call id m, .forget] .idle
  | failed : CallEnds id m none 1 [.call id m, .fault] .closed

/-- `network_send_receive` is a run of the caller. -/
theorem networkSendReceive_trace {m : M} (hm : FitsFrame codec m) {c c' : Conn} {al al' : Allocs}
    {res : Option M} (hroom : c.written.length + (frame codec m).length ≤ capacity)
    (hrun : networkSendReceive codec m c al = .ok ((res, c'), al')) (id : Nat) (w : Worker M) :
    ∃ n labs caller, CallEnds id m res n labs caller ∧ c'.closes = c.closes + n ∧
      Trace codec capacity ⟨.idle, w, c.written, c.incoming⟩ labs
        ⟨caller, w, c'.written, c'.incoming⟩ := by
  rw [networkSendReceive_eq_readFrame, state_bind, bind_eq_ok] at hrun
  obtain ⟨⟨⟨sent, c₁⟩, al₁⟩, hsend, hrun⟩ := hrun
  have hsending : Caller.wrote id (.ofMessage codec.format m)
      = .sending id (.ofMessage codec.format m) :=
    if_neg (Outgoing.bytes_ofMessage_ne_nil codec.format m)
  cases (writer_caller id w c.incoming).frame hm hroom hsend with
  | refused =>
    cases hrun
    exact ⟨_, _, _, .refused, rfl, .seen nofun .refused .nil⟩
  | @failed _ left hne hsteps hin hcloses =>
    cases hrun
    have hleft : Caller.wrote id left = .sending id left := if_neg hne
    rw [hsending, hleft] at hsteps
    refine ⟨_, _, _, .failed, hcloses, .seen nofun (.call hm) (.after hsteps ?_)⟩
    rw [hin]
    exact .seen nofun .writeFails .nil
  | complete hsteps _ hin hcloses =>
    have hwrote : Caller.wrote id (⟨[], []⟩ : Outgoing Byte) = .receiving id (.length []) :=
      if_pos rfl
    rw [hsending, hwrote, ← hin] at hsteps
    rw [← hin]
    have hreply : readFrame codec (fun _ => True) c₁ al₁ = .ok ((res, c'), al') := hrun
    cases (reader_caller capacity id w c₁.written).frame hreply with
    | complete hsteps' ht hnext hwritten hcloses' =>
      rw [hwritten]
      cases res with
      | none =>
        exact ⟨_, _, _, .garbled, hcloses'.trans hcloses, .seen nofun (.call hm)
          (.after (hsteps.trans hsteps') (.hidden (.garbled rfl ht hnext) .nil))⟩
      | some r =>
        exact ⟨_, _, _, .returned, hcloses'.trans hcloses, .seen nofun (.call hm)
          (.after (hsteps.trans hsteps') (.seen nofun (.reply rfl ht hnext) .nil))⟩
    | noMemory hsteps' ht hnext hwritten hcloses' =>
      rw [hwritten]
      exact ⟨_, _, _, .forgotten, hcloses'.trans hcloses, .seen nofun (.call hm)
        (.after (hsteps.trans hsteps') (.seen nofun (.forget rfl ht hnext) .nil))⟩
    | failed hsteps' hwritten hcloses' =>
      rw [hwritten]
      rw [if_pos trivial, hcloses] at hcloses'
      exact ⟨_, _, _, .failed, hcloses', .seen nofun (.call hm)
        (.after (hsteps.trans hsteps') (.seen nofun .readFails .nil))⟩

/-- A connection on which the kernel splits and interrupts what is read and written. -/
def inPieces (incoming : List Byte) : Conn :=
  ⟨incoming, [.piece 1, .eintr], [], [.piece 1, .eintr, .piece 1], 0⟩

theorem unfailing_inPieces (incoming : List Byte) :
    Unfailing (inPieces incoming).reads ∧ Unfailing (inPieces incoming).writes :=
  ⟨show Unfailing [.piece 1, .eintr] by unfold Unfailing; decide,
    show Unfailing [.piece 1, .eintr, .piece 1] by unfold Unfailing; decide⟩

/-- A GET, and its reply. -/
theorem networkSendReceive_trace_getA : ∃ c' n labs caller,
    networkSendReceive protoCodec.toCodec (keyWire OP_GET keyA)
        (inPieces (frame protoCodec.toCodec (getReplyWire keyA (some [1])))) allocated
      = .ok ((some (getReplyWire keyA (some [1])), c'), allocated) ∧
    CallEnds 4 (keyWire OP_GET keyA) (some (getReplyWire keyA (some [1]))) n labs caller ∧
    c'.closes = 0 + n ∧
    Trace protoCodec.toCodec 65537
      ⟨.idle, .left, [], frame protoCodec.toCodec (getReplyWire keyA (some [1]))⟩ labs
      ⟨caller, .left, c'.written, c'.incoming⟩ := by
  obtain ⟨hreads, hwrites⟩ :=
    unfailing_inPieces (frame protoCodec.toCodec (getReplyWire keyA (some [1])))
  obtain ⟨c', hrun, -⟩ := networkSendReceive_frame protoCodec.toCodec getA_request.2 getA_reply.2
    (List.append_nil _).symm hreads hwrites
  obtain ⟨n, labs, caller, hends, hcloses, htrace⟩ := networkSendReceive_trace getA_request
    (room_of_fits getA_request le_rfl) hrun 4 .left
  exact ⟨c', n, labs, caller, hrun, hends, hcloses, htrace⟩

/-- The request in a step of `invoke`, and its answer. -/
def Label.handled : Label M → Option (M × Option M)
  | .invoke m res => some (m, res)
  | .unsent m r => some (m, some r)
  | _ => none

/-- `network_receive` is a run of the thread. -/
theorem networkReceive_trace (capacity : Nat) {c c' : Conn} {al al' : Allocs} {res : Option M}
    (hrun : networkReceive codec c al = .ok ((res, c'), al')) (caller : Caller) :
    c'.written = c.written ∧ ∃ labs, labs.filterMap Label.handled = [] ∧
      Trace codec capacity ⟨caller, .receiving (.length []), c.incoming, c.written⟩ labs
        ⟨caller, .unpacked res, c'.incoming, c'.written⟩ := by
  rw [networkReceive_eq_readFrame] at hrun
  cases (reader_worker capacity caller c.written).frame hrun with
  | complete hsteps ht hnext hwritten _ =>
    rw [hwritten]
    exact ⟨rfl, [], rfl, .after hsteps (.hidden (.received rfl ht hnext) .nil)⟩
  | noMemory hsteps ht hnext hwritten _ =>
    rw [hwritten]
    exact ⟨rfl, [.fault], rfl, .after hsteps (.seen nofun (.noMemory rfl ht hnext) .nil)⟩
  | failed hsteps hwritten _ =>
    rw [hwritten]
    exact ⟨rfl, [.fault], rfl, .after hsteps (.seen nofun .receiveFails .nil)⟩

/-- `invoke` that returns -1. -/
theorem invoke_trace (caller : Caller) (m : M) (up down : List Byte) :
    Trace codec capacity ⟨caller, .invoking m, up, down⟩ [.invoke m none]
      ⟨caller, .left, up, down⟩ :=
  .seen nofun (.invoke nofun) .nil

/-- `invoke` with `network_send` is a run of the thread. -/
theorem networkSend_trace (m : M) {r : M} (hr : FitsFrame codec r) {c c' : Conn} {al al' : Allocs}
    {res : Int} (hroom : c.written.length + (frame codec r).length ≤ capacity)
    (hrun : networkSend codec r c al = .ok ((res, c'), al')) (caller : Caller) :
    ∃ labs w, labs.filterMap Label.handled = [(m, some r)] ∧
      Trace codec capacity ⟨caller, .invoking m, c.incoming, c.written⟩ labs
        ⟨caller, w, c'.incoming, c'.written⟩ ∧
      (res = -1 ∧ w = .left ∨
        res = 0 ∧ w = .receiving (.length []) ∧ c'.written = c.written ++ frame codec r) := by
  unfold networkSend at hrun
  rw [state_bind, bind_eq_ok] at hrun
  obtain ⟨⟨⟨sent, c₁⟩, al₁⟩, hsend, hrun⟩ := hrun
  have hsending : (Worker.sent (.ofMessage codec.format r) : Worker M)
      = .sending (.ofMessage codec.format r) :=
    if_neg (Outgoing.bytes_ofMessage_ne_nil codec.format r)
  have hinvoke : ∀ down, Line.Step codec capacity (.invoke m (some r))
      ⟨caller, .invoking m, c.incoming, down⟩
      ⟨caller, .sending (.ofMessage codec.format r), c.incoming, down⟩ :=
    fun _ => .invoke fun r' he => Option.some.inj he ▸ hr
  cases (writer_worker caller c.incoming).frame hr hroom hsend with
  | refused =>
    cases hrun
    exact ⟨[.unsent m r], _, rfl, .seen nofun .unsent .nil, Or.inl ⟨rfl, rfl⟩⟩
  | @failed _ left hne hsteps hin _ =>
    cases hrun
    have hleft : (Worker.sent left : Worker M) = .sending left := if_neg hne
    rw [hsending, hleft] at hsteps
    refine ⟨[.invoke m (some r), .fault], .left, rfl, ?_, Or.inl ⟨rfl, rfl⟩⟩
    rw [hin]
    exact .seen nofun (hinvoke _) (.after hsteps (.seen nofun .sendFails .nil))
  | complete hsteps hwritten hin _ =>
    cases hrun
    rw [hsending] at hsteps
    refine ⟨[.invoke m (some r)], .receiving (.length []), rfl, ?_,
      Or.inr ⟨rfl, rfl, hwritten⟩⟩
    rw [hin]
    exact .seen nofun (hinvoke _) (.after hsteps .nil)

/-- A turn that comes to `network_send` is a run of the thread. -/
theorem turn_trace {m r : M} (hr : FitsFrame codec r) {c c₁ c₂ : Conn} {al al₁ al₂ al₃ : Allocs}
    {sent : Int} (hroom : c.written.length + codec.format.most ≤ capacity)
    (hreceive : networkReceive codec c al = .ok ((some m, c₁), al₁))
    (hsend : networkSend codec r c₁ al₂ = .ok ((sent, c₂), al₃)) (caller : Caller) :
    ∃ labs w, labs.filterMap Label.handled = [(m, some r)] ∧
      Trace codec capacity ⟨caller, .receiving (.length []), c.incoming, c.written⟩ labs
        ⟨caller, w, c₂.incoming, c₂.written⟩ ∧
      (sent = -1 ∧ w = .left ∨ sent = 0 ∧ w = .receiving (.length []) ∧
        c₂.written = c.written ++ frame codec r) := by
  obtain ⟨hwritten, labs, hlabs, hreceived⟩ := networkReceive_trace capacity hreceive caller
  have hfits : (frame codec r).length ≤ codec.format.most :=
    Outgoing.length_ofMessage_le hr.carries
  have hroom₁ : c₁.written.length + (frame codec r).length ≤ capacity := by
    rw [hwritten]
    omega
  obtain ⟨labs', w, hlabs', hsent, hend⟩ := networkSend_trace m hr hroom₁ hsend caller
  rw [hwritten] at hend
  refine ⟨labs ++ labs', w, ?_, hreceived.append hsent, hend⟩
  rw [List.filterMap_append, hlabs, hlabs', List.nil_append]

/-- The loop of `thread_client` is a run of the thread, and what it hands to `invoke` and gets from
it is what `invoke` has and answers in that run, as long as the answers fit their frames. The other
end may read late: there is room for one frame for each request. -/
theorem threadClientLoop_trace {σ : Type} {invoke : M → StateT σ CM (Int × M)} (caller : Caller)
    {fuel : Nat} {x x' : σ} {c c' : Conn} {al al' : Allocs} {handed : List (M × Option M)}
    (hanswers : ∀ m r, (m, some r) ∈ handed → FitsFrame codec r)
    (hroom : c.written.length + fuel * codec.format.most ≤ capacity)
    (hrun : threadClientLoop codec invoke fuel x c al = .ok (((handed, x'), c'), al')) :
    ∃ labs w, labs.filterMap Label.handled = handed ∧
      Trace codec capacity ⟨caller, .receiving (.length []), c.incoming, c.written⟩ labs
        ⟨caller, w, c'.incoming, c'.written⟩ ∧
      (w = .left ∨ w = .receiving (.length []) ∧ handed.length = fuel) := by
  induction fuel generalizing x c al handed with
  | zero =>
    cases hrun
    exact ⟨[], _, rfl, .nil, Or.inr ⟨rfl, rfl⟩⟩
  | succ fuel ih =>
    -- the room for this turn's answer, and the room for the others
    rw [Nat.succ_mul] at hroom
    have hroom₁ : c.written.length + codec.format.most ≤ capacity := by omega
    cases threadClientLoop_cases codec hrun with
    | nothing hreceive =>
      obtain ⟨-, labs, hlabs, hreceived⟩ := networkReceive_trace capacity hreceive caller
      exact ⟨labs, .left, hlabs, hreceived, Or.inl rfl⟩
    | @failed m _ _ _ _ _ hreceive _ =>
      obtain ⟨-, labs, hlabs, hreceived⟩ := networkReceive_trace capacity hreceive caller
      refine ⟨labs ++ [.invoke m none], .left, ?_,
        hreceived.append (invoke_trace caller m _ _), Or.inl rfl⟩
      rw [List.filterMap_append, hlabs]
      rfl
    | unsent hreceive _ hsend =>
      have hr : FitsFrame codec _ := hanswers _ _ (List.mem_singleton_self _)
      obtain ⟨labs, w, hlabs, hturn, ⟨-, rfl⟩ | ⟨hsent, -⟩⟩ :=
        turn_trace hr hroom₁ hreceive hsend caller
      · exact ⟨labs, .left, hlabs, hturn, Or.inl rfl⟩
      · cases hsent
    | @answered _ r _ _ _ _ _ c₂ _ _ _ _ _ _ hreceive _ hsend hsent hloop =>
      have hr : FitsFrame codec r := hanswers _ r List.mem_cons_self
      obtain ⟨labs, w, hlabs, hturn, ⟨hfail, -⟩ | ⟨-, rfl, hframe⟩⟩ :=
        turn_trace hr hroom₁ hreceive hsend caller
      · exact absurd hfail hsent
      · have hfits : (frame codec r).length ≤ codec.format.most :=
          Outgoing.length_ofMessage_le hr.carries
        have hroom' : c₂.written.length + fuel * codec.format.most ≤ capacity := by
          rw [hframe, List.length_append]
          omega
        obtain ⟨labs', w, hlabs', hrest, hend⟩ :=
          ih (fun m' r' hin => hanswers m' r' (List.mem_cons_of_mem _ hin)) hroom' hloop
        refine ⟨labs ++ labs', w, ?_, hturn.append hrest, ?_⟩
        · rw [List.filterMap_append, hlabs, hlabs']
          rfl
        · exact hend.imp_right fun h => ⟨h.1, congrArg Nat.succ h.2⟩

/-- One turn of the loop. -/
theorem threadClientLoop_turn {σ : Type} {invoke : M → StateT σ CM (Int × M)} {fuel : Nat}
    {x x₁ : σ} {c c₁ c₂ : Conn} {al al₁ al₂ al₃ : Allocs} {m r : M} {rc : Int}
    (hreceive : networkReceive codec c al = .ok ((some m, c₁), al₁))
    (hinvoke : invoke m x al₁ = .ok (((rc, r), x₁), al₂)) (hrc : rc ≠ -1)
    (hsend : networkSend codec r c₁ al₂ = .ok ((0, c₂), al₃)) :
    threadClientLoop codec invoke (fuel + 1) x c al
      = (Prod.map (List.cons (m, some r)) id <$> threadClientLoop codec invoke fuel x₁) c₂ al₃ := by
  have hturn : (liftM (invoke m x) : NM ((Int × M) × σ)) c₁ al₁
      = .ok ((((rc, r), x₁), c₁), al₂) := state_lift_ok hinvoke
  rw [threadClientLoop, state_bind_ok hreceive]
  dsimp only
  rw [state_bind_ok hturn]
  dsimp only
  rw [if_neg hrc, state_bind_ok hsend]
  rfl

/-- A turn in which nothing fails, on what the kernel splits and interrupts. -/
theorem threadClientLoop_served {σ : Type} {invoke : M → StateT σ CM (Int × M)} (fuel : Nat)
    {x x₁ : σ} {c : Conn} {rest : List Byte} {m r : M} (hm : FitsFrame codec m)
    (hr : FitsFrame codec r) (hin : c.incoming = frame codec m ++ rest)
    (hreads : Unfailing c.reads) (hwrites : Unfailing c.writes)
    (hinvoke : invoke m x allocated = .ok (((0, r), x₁), allocated)) :
    ∃ c₁, c₁.incoming = rest ∧ Unfailing c₁.reads ∧ Unfailing c₁.writes ∧
      threadClientLoop codec invoke (fuel + 1) x c allocated
        = (Prod.map (List.cons (m, some r)) id <$> threadClientLoop codec invoke fuel x₁) c₁
            allocated := by
  obtain ⟨reads, hreads', hreceive⟩ :=
    networkReceive_frame codec hm.2 hin hreads allocated_zero
  obtain ⟨writes, hwrites', hsend⟩ := networkSend_run codec hr.2
    (show Unfailing ({ c with incoming := rest, reads := reads } : Conn).writes from hwrites)
    allocated_zero
  exact ⟨_, rfl, hreads', hwrites',
    threadClientLoop_turn hreceive hinvoke (show (0 : Int) ≠ -1 by decide) hsend⟩

/-- A PUT and a GET, with their answers. -/
def putGetHandled : List (WireMsg × Option WireMsg) :=
  [(putWire keyA [1], some (putReply keyA [1])),
    (keyWire OP_GET keyA, some (getReplyWire keyA (some [1])))]

/-- Both are answered, then the stream ends. -/
theorem threadClientLoop_trace_putGet : ∃ x' c' labs w,
    threadClientLoop protoCodec.toCodec (handle none noTime) 3 (emptyServer, ())
        (inPieces (frame protoCodec.toCodec (putWire keyA [1])
          ++ frame protoCodec.toCodec (keyWire OP_GET keyA))) allocated
      = .ok (((putGetHandled, x'), c'), allocated) ∧
    labs.filterMap Label.handled = putGetHandled ∧
    Trace protoCodec.toCodec 196611
      ⟨.closed, .receiving (.length []), frame protoCodec.toCodec (putWire keyA [1])
        ++ frame protoCodec.toCodec (keyWire OP_GET keyA), []⟩ labs
      ⟨.closed, w, c'.incoming, c'.written⟩ := by
  obtain ⟨x, hwf, hmap, -, hput⟩ := handle_put emptyServer_wf
  have hstored : x.table.map.lookup keyA = some [1] := by
    rw [hmap, Finmap.lookup_insert]
  obtain ⟨-, hget⟩ := handle_get hwf hstored
  obtain ⟨hreads, hwrites⟩ := unfailing_inPieces (frame protoCodec.toCodec (putWire keyA [1])
    ++ frame protoCodec.toCodec (keyWire OP_GET keyA))
  obtain ⟨c₁, hin₁, hreads₁, hwrites₁, h₁⟩ :=
    threadClientLoop_served 2 putA_request putA_reply rfl hreads hwrites hput
  obtain ⟨c₂, hin₂, hreads₂, hwrites₂, h₂⟩ := threadClientLoop_served 1 getA_request getA_reply
    (hin₁.trans (List.append_nil _).symm) hreads₁ hwrites₁ hget
  have hnone : ∀ m ∈ ([] : List WireMsg), FitsFrame protoCodec.toCodec m := nofun
  obtain ⟨reads, -, hleft⟩ :=
    networkReceive_leftover protoCodec.toCodec hnone (Or.inl hin₂) hreads₂
  have hend : threadClientLoop protoCodec.toCodec (handle none noTime) 1 (x.counted noTime, ()) c₂
      allocated = .ok ((([], (x.counted noTime, ())), { c₂ with incoming := [], reads := reads }),
        allocated) := by
    rw [threadClientLoop, state_bind_ok hleft]
    rfl
  rw [state_map, hend] at h₂
  rw [state_map, h₂] at h₁
  have hrun : threadClientLoop protoCodec.toCodec (handle none noTime) 3 (emptyServer, ())
      (inPieces (frame protoCodec.toCodec (putWire keyA [1])
        ++ frame protoCodec.toCodec (keyWire OP_GET keyA))) allocated
      = .ok (((putGetHandled, (x.counted noTime, ())),
          { c₂ with incoming := [], reads := reads }), allocated) := h₁
  have hanswers : ∀ m r, (m, some r) ∈ putGetHandled → FitsFrame protoCodec.toCodec r := by
    intro m r hin
    rcases List.mem_cons.mp hin with hput | hin
    · cases hput
      exact putA_reply
    · cases List.mem_singleton.mp hin
      exact getA_reply
  have hroom : (inPieces (frame protoCodec.toCodec (putWire keyA [1])
      ++ frame protoCodec.toCodec (keyWire OP_GET keyA))).written.length
      + 3 * protoCodec.toCodec.format.most ≤ 196611 := by
    rw [most_format]
    exact le_rfl
  obtain ⟨labs, w, hlabs, htrace, -⟩ := threadClientLoop_trace .closed hanswers hroom hrun
  exact ⟨_, _, labs, w, hrun, hlabs, htrace⟩

/-! ## A forgotten reply -/

/-- Where the body of a forgotten reply reads as a frame, the next call returns the message in it,
which nobody sent, while its own request still waits for the thread. -/
theorem forgotten_reply_misread {m m' r r' : M} (hm : FitsFrame codec m) (hm' : FitsFrame codec m')
    (hr : FitsFrame codec r) (hr' : FitsFrame codec r') (hbody : codec.pack r = frame codec r')
    (hcap : 65537 ≤ capacity) : Trace codec capacity ⟨.idle, .receiving (.length []), [], []⟩
      [.call 0 m, .invoke m (some r), .forget, .call 1 m', .ret 1 r']
      ⟨.idle, .receiving (.length []), frame codec m', []⟩ := by
  have hne := Outgoing.bytes_ofMessage_ne_nil codec.format (M := M)
  -- the first call comes as far as the length of its reply
  refine .seen nofun (.call hm) (.after (writes_all (hne m) (room_of_fits hm hcap)) ?_)
  refine .after (receives_all hm (Awaits.start _ m)) ?_
  refine .seen nofun (.invoke fun x he => Option.some.inj he ▸ hr) ?_
  refine .after (sends_all (hne r) (room_of_fits hr hcap)) ?_
  have htwo := header_length (codec.getPackedSize r)
  have htakes : (Incoming.length []).Takes codec.format (header (codec.getPackedSize r)) :=
    ⟨htwo.le, Or.inl (List.ne_nil_of_length_eq_add_one htwo)⟩
  have hnext : (Incoming.length []).next codec.format (header (codec.getPackedSize r))
      = .inl (.body (ntohs (shortOfBytes (header (codec.getPackedSize r)))) []) :=
    congrArg Sum.inl (if_pos htwo.ge)
  have hdown : [] ++ (Outgoing.ofMessage codec.format r).bytes
      = header (codec.getPackedSize r) ++ codec.pack r := rfl
  refine .seen nofun (.forget hdown htakes hnext) ?_
  rw [hbody]
  -- and the second one takes the rest for its own
  refine .seen nofun (.call hm') (.after (writes_all (hne m') (room_of_fits hm' hcap)) ?_)
  obtain ⟨l, hread, hreply⟩ := reads_all hr' (Awaits.start codec.format r')
  exact .after hread (.seen nofun hreply .nil)

/-! ### A GET reply that reads as a frame -/

/-- The reply to a GET without its opcode. -/
def noOpcode (v : List Byte) : WireMsg := { getReplyWire keyA (some v) with opcode := 0 }

/-- The opcode is what a reply begins with: the bytes 8 and 21. -/
theorem pack_getReply (v : List Byte) : protoCodec.pack (getReplyWire keyA (some v))
    = [8, 21] ++ protoCodec.pack (noOpcode v) := by
  have hfields : messageFields (getReplyWire keyA (some v))
      = ⟨1, .varint 21⟩ :: messageFields (noOpcode v) := rfl
  have hopcode : ProtoWire.encodeField ⟨1, .varint 21⟩ = [8, 21] := by
    show ProtoWire.varint 8 ++ ProtoWire.varint 21 = [8, 21]
    rw [ProtoWire.varint_of_lt (by decide), ProtoWire.varint_of_lt (by decide)]
    rfl
  show ProtoWire.encode (messageFields _) = [8, 21] ++ ProtoWire.encode (messageFields _)
  rw [hfields, ← hopcode]
  rfl

/-- What follows is a message of 2069 bytes if the value has 2061, and 8 and 21 announce it. -/
theorem size_noOpcode {v : List Byte} (hv : v.length = 2061) :
    protoCodec.getPackedSize (noOpcode v) = 2069 := by
  have hne : v ≠ [] := by
    intro hnil
    rw [hnil] at hv
    cases hv
  have hvalue : bytesFieldSize v = 2064 := by
    unfold bytesFieldSize
    rw [if_neg hne, hv]
    decide
  have hcType : varintFieldSize (int64Varint (CT_VALUE : Int32).toInt) = 2 := by decide
  have hkey : bytesFieldSize keyA.bytes = 3 := by decide
  have hsum : messageSize (noOpcode v) = 0 + varintFieldSize (int64Varint (CT_VALUE : Int32).toInt)
      + 0 + bytesFieldSize keyA.bytes + bytesFieldSize v + 0 + 0 + 0 + 0 := rfl
  rw [protoCodec.getPackedSize_eq, hsum, hvalue, hcType, hkey]

theorem getReply_eq_frame {v : List Byte} (hv : v.length = 2061) :
    protoCodec.pack (getReplyWire keyA (some v)) = frame protoCodec.toCodec (noOpcode v) := by
  show _ = header (protoCodec.getPackedSize (noOpcode v)) ++ protoCodec.pack (noOpcode v)
  rw [pack_getReply, size_noOpcode hv]
  rfl

/-- A value of 2061 bytes. -/
def longValue : List Byte := List.replicate 2061 1

/-- The client has no memory for the answer to its GET, and takes it for the answer to its SIZE. -/
theorem forgotten_reply_misread_getReply :
    Trace protoCodec.toCodec 65537 ⟨.idle, .receiving (.length []), [], []⟩
      [.call 0 (keyWire OP_GET keyA),
        .invoke (keyWire OP_GET keyA) (some (getReplyWire keyA (some longValue))), .forget,
        .call 1 (bareWire OP_SIZE), .ret 1 (noOpcode longValue)]
      ⟨.idle, .receiving (.length []), frame protoCodec.toCodec (bareWire OP_SIZE), []⟩ := by
  have hlen : longValue.length = 2061 := List.length_replicate
  have hsize := size_noOpcode hlen
  have hr : FitsFrame protoCodec.toCodec (getReplyWire keyA (some longValue)) := by
    unfold FitsFrame
    rw [← protoCodec.pack_length, pack_getReply, List.length_append, protoCodec.pack_length, hsize]
    decide
  have hr' : FitsFrame protoCodec.toCodec (noOpcode longValue) := by
    unfold FitsFrame
    rw [hsize]
    decide
  have hsizeRequest : FitsFrame protoCodec.toCodec (bareWire OP_SIZE) :=
    fitsFrame_of protoCodec rfl (show OP_SIZE ≠ 0 by decide) (by decide)
  exact forgotten_reply_misread getA_request hsizeRequest hr hr' (getReply_eq_frame hlen) le_rfl

end KvStorage.Duplex
