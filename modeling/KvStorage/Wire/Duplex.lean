import KvStorage.Lib.Transfer
import KvStorage.Wire.Network

/-!
# Both ends of a connection at once (`client_network.c`, `server_network.c`)

One connection with a process that calls `network_send_receive` at one end and a thread that runs
`thread_client` at the other. A step is one `write` or one `read` of one of them, with as many bytes
as there is room for or have arrived, or what happens between two of them; the steps of the two come
in any order. The numbers of the calls are there for the statements only.

A transfer may fail at any time, a `malloc` may, and either end may be gone. In all of this the two
ends stay in step (`Phase`): the bytes on the way are the rest of the one frame that is being read.
One behaviour breaks this. `network_send_receive` returns NULL when it has read the length of a
reply and gets no memory for it, and leaves the connection open with the reply on it (`forget`).
-/

namespace KvStorage

open CLib Framing

variable {M : Type}

/-- The frames of the code as a format. -/
def Codec.format (codec : Codec M) : Format M Byte where
  width := 2
  limit := 65535
  header m := header (codec.getPackedSize m)
  body := codec.pack
  announced l := ntohs (shortOfBytes l)
  parse := codec.unpack
  width_pos := by decide
  header_length _ := rfl
  announced_le l := by
    unfold ntohs htons
    omega

theorem FitsFrame.carries {codec : Codec M} {m : M} (h : FitsFrame codec m) :
    codec.format.Carries m where
  announced := by
    show ntohs (shortOfBytes (header (codec.getPackedSize m))) = (codec.pack m).length
    rw [ntohs_roundtrip (Nat.lt_succ_of_le h.2), codec.pack_length]
  parse := codec.unpack_pack m

namespace Duplex

/-! ## The two ends -/

/-- Where the calling process is: outside of a call, in the writes or in the reads of
`network_send_receive`, or left with a descriptor that was closed. -/
inductive Caller
  | idle
  | sending (id : Nat) (out : Outgoing Byte)
  | receiving (id : Nat) (inb : Incoming Byte)
  | closed

/-- Where the thread is: in `network_receive`, in `invoke`, in `network_send`, or behind its loop,
where it closes its end. -/
inductive Worker (M : Type)
  | receiving (inb : Incoming Byte)
  | invoking (m : M)
  | sending (out : Outgoing Byte)
  | left

/-- The two ends and the bytes on their way. -/
structure Line (M : Type) where
  caller : Caller
  worker : Worker M
  up : List Byte
  down : List Byte

/-- What a step is for those who do not see the bytes. A `refuse` is a call that returns NULL before
anything is written, `unsent` an answer of `invoke` of which nothing is written. -/
inductive Label (M : Type)
  | tau
  | fault
  | close
  | forget
  | call (id : Nat) (m : M)
  | refuse (id : Nat) (m : M)
  | invoke (m : M) (res : Option M)
  | unsent (m r : M)
  | ret (id : Nat) (r : M)

/-- A new call. -/
def Label.IsCall : Label M → Prop
  | .call _ _ | .refuse _ _ => True
  | _ => False

/-- After a `write_all`: the next one, or the reply. -/
def Caller.wrote (id : Nat) (out : Outgoing Byte) : Caller :=
  if out.bytes = [] then .receiving id (.length []) else .sending id out

/-- What `message_t__unpack` made of the request is handed to `invoke`; NULL ends the loop. -/
def Worker.unpacked : Option M → Worker M
  | some m => .invoking m
  | none => .left

/-- After `invoke`: its answer is sent; -1 ends the loop. -/
def Worker.invoked (codec : Codec M) : Option M → Worker M
  | some r => .sending (.ofMessage codec.format r)
  | none => .left

/-- After a `write_all`: the next one, or the next request. -/
def Worker.sent (out : Outgoing Byte) : Worker M :=
  if out.bytes = [] then .receiving (.length []) else .sending out

/-- One step of one end. A direction of the connection holds up to `capacity` bytes; a `write` waits
for room, a `read` for bytes or for the other end to be closed. -/
inductive Line.Step (codec : Codec M) (capacity : Nat) : Label M → Line M → Line M → Prop
  -- the first `malloc` of `network_send_receive`, with and without success
  | call {id : Nat} {m : M} {w : Worker M} {up down : List Byte} : FitsFrame codec m →
      Step codec capacity (.call id m) ⟨.idle, w, up, down⟩
        ⟨.sending id (.ofMessage codec.format m), w, up, down⟩
  | refused {id : Nat} {m : M} {w : Worker M} {up down : List Byte} :
      Step codec capacity (.refuse id m) ⟨.idle, w, up, down⟩ ⟨.idle, w, up, down⟩
  -- the first transfer on a closed descriptor fails
  | callClosed {id : Nat} {m : M} {w : Worker M} {up down : List Byte} :
      Step codec capacity (.refuse id m) ⟨.closed, w, up, down⟩ ⟨.closed, w, up, down⟩
  | write {id k : Nat} {out : Outgoing Byte} {w : Worker M} {up down : List Byte} :
      0 < k → k ≤ out.buffer.length → up.length + k ≤ capacity →
      Step codec capacity .tau ⟨.sending id out, w, up, down⟩
        ⟨.wrote id (out.rest k), w, up ++ out.buffer.take k, down⟩
  | read {id : Nat} {inb inb' : Incoming Byte} {piece rest : List Byte} {w : Worker M}
      {up down : List Byte} : down = piece ++ rest → inb.Takes codec.format piece →
      inb.next codec.format piece = .inl inb' →
      Step codec capacity .tau ⟨.receiving id inb, w, up, down⟩ ⟨.receiving id inb', w, up, rest⟩
  -- what `message_t__unpack` makes of the reply is returned, a message or NULL
  | reply {id : Nat} {inb : Incoming Byte} {r : M} {piece rest : List Byte} {w : Worker M}
      {up down : List Byte} : down = piece ++ rest → inb.Takes codec.format piece →
      inb.next codec.format piece = .inr (some r) →
      Step codec capacity (.ret id r) ⟨.receiving id inb, w, up, down⟩ ⟨.idle, w, up, rest⟩
  | garbled {id : Nat} {inb : Incoming Byte} {piece rest : List Byte} {w : Worker M}
      {up down : List Byte} : down = piece ++ rest → inb.Takes codec.format piece →
      inb.next codec.format piece = .inr none →
      Step codec capacity .tau ⟨.receiving id inb, w, up, down⟩ ⟨.idle, w, up, rest⟩
  -- no memory for the reply: NULL, and the descriptor stays open
  | forget {id len : Nat} {got piece rest : List Byte} {w : Worker M} {up down : List Byte} :
      down = piece ++ rest → (Incoming.length got).Takes codec.format piece →
      (Incoming.length got).next codec.format piece = .inl (.body len []) →
      Step codec capacity .forget ⟨.receiving id (.length got), w, up, down⟩ ⟨.idle, w, up, rest⟩
  | writeFails {id : Nat} {out : Outgoing Byte} {w : Worker M} {up down : List Byte} :
      Step codec capacity .fault ⟨.sending id out, w, up, down⟩ ⟨.closed, w, up, down⟩
  | readFails {id : Nat} {inb : Incoming Byte} {w : Worker M} {up down : List Byte} :
      Step codec capacity .fault ⟨.receiving id inb, w, up, down⟩ ⟨.closed, w, up, down⟩
  -- the other end is closed: `EPIPE`, or the end of the stream
  | writeEnds {id : Nat} {out : Outgoing Byte} {up down : List Byte} :
      Step codec capacity .tau ⟨.sending id out, .left, up, down⟩ ⟨.closed, .left, up, down⟩
  | readEnds {id : Nat} {inb : Incoming Byte} {up : List Byte} :
      Step codec capacity .tau ⟨.receiving id inb, .left, up, []⟩ ⟨.closed, .left, up, []⟩
  -- `network_close`
  | close {w : Worker M} {up down : List Byte} :
      Step codec capacity .close ⟨.idle, w, up, down⟩ ⟨.closed, w, up, down⟩
  -- `network_receive`
  | receive {inb inb' : Incoming Byte} {piece rest : List Byte} {c : Caller} {up down : List Byte} :
      up = piece ++ rest → inb.Takes codec.format piece →
      inb.next codec.format piece = .inl inb' →
      Step codec capacity .tau ⟨c, .receiving inb, up, down⟩ ⟨c, .receiving inb', rest, down⟩
  | received {inb : Incoming Byte} {res : Option M} {piece rest : List Byte} {c : Caller}
      {up down : List Byte} : up = piece ++ rest → inb.Takes codec.format piece →
      inb.next codec.format piece = .inr res →
      Step codec capacity .tau ⟨c, .receiving inb, up, down⟩ ⟨c, .unpacked res, rest, down⟩
  | noMemory {len : Nat} {got piece rest : List Byte} {c : Caller} {up down : List Byte} :
      up = piece ++ rest → (Incoming.length got).Takes codec.format piece →
      (Incoming.length got).next codec.format piece = .inl (.body len []) →
      Step codec capacity .fault ⟨c, .receiving (.length got), up, down⟩ ⟨c, .left, rest, down⟩
  | receiveFails {inb : Incoming Byte} {c : Caller} {up down : List Byte} :
      Step codec capacity .fault ⟨c, .receiving inb, up, down⟩ ⟨c, .left, up, down⟩
  | receiveEnds {inb : Incoming Byte} {down : List Byte} :
      Step codec capacity .tau ⟨.closed, .receiving inb, [], down⟩ ⟨.closed, .left, [], down⟩
  -- `invoke`, and the `malloc` of `network_send` with and without success
  | invoke {m : M} {res : Option M} {c : Caller} {up down : List Byte} :
      (∀ r, res = some r → FitsFrame codec r) →
      Step codec capacity (.invoke m res) ⟨c, .invoking m, up, down⟩
        ⟨c, .invoked codec res, up, down⟩
  | unsent {m r : M} {c : Caller} {up down : List Byte} :
      Step codec capacity (.unsent m r) ⟨c, .invoking m, up, down⟩ ⟨c, .left, up, down⟩
  -- `network_send`
  | send {k : Nat} {out : Outgoing Byte} {c : Caller} {up down : List Byte} :
      0 < k → k ≤ out.buffer.length → down.length + k ≤ capacity →
      Step codec capacity .tau ⟨c, .sending out, up, down⟩
        ⟨c, .sent (out.rest k), up, down ++ out.buffer.take k⟩
  | sendFails {out : Outgoing Byte} {c : Caller} {up down : List Byte} :
      Step codec capacity .fault ⟨c, .sending out, up, down⟩ ⟨c, .left, up, down⟩
  | sendEnds {out : Outgoing Byte} {up down : List Byte} :
      Step codec capacity .tau ⟨.closed, .sending out, up, down⟩ ⟨.closed, .left, up, down⟩

/-! ## The two ends stay in step -/

/-- What became of the last call on a connection: none is open, `invoke` has not had it, or
`invoke` has had it. -/
inductive Pending (M : Type)
  | none
  | called (id : Nat) (m : M)
  | done (id : Nat) (m : M) (res : Option M)

/-- What a step does to it. -/
inductive Moves : Label M → Pending M → Pending M → Prop
  | tau {p : Pending M} : Moves .tau p p
  | fault {p : Pending M} : Moves .fault p p
  | close {p : Pending M} : Moves .close p p
  | refuse {id : Nat} {m : M} {p : Pending M} : Moves (.refuse id m) p p
  | call {id : Nat} {m : M} : Moves (.call id m) .none (.called id m)
  | invoke {id : Nat} {m : M} {res : Option M} :
      Moves (.invoke m res) (.called id m) (.done id m res)
  | unsent {id : Nat} {m r : M} : Moves (.unsent m r) (.called id m) (.done id m (some r))
  | ret {id : Nat} {m r : M} : Moves (.ret id r) (.done id m (some r)) .none

/-- The states of a connection on which nothing was forgotten, and how many steps there are at most
until the next call. Where both ends are in a transfer, what is on the way and what is not written
yet are the rest of one frame; a `lost` part was not written when the sender gave up. -/
inductive Phase (codec : Codec M) : Pending M → Nat → Line M → Prop
  | ready : Phase codec .none 2 ⟨.idle, .receiving (.length []), [], []⟩
  | readyAlone {up : List Byte} : Phase codec .none 1 ⟨.idle, .left, up, []⟩
  | asking {id : Nat} {m : M} {out : Outgoing Byte} {inb : Incoming Byte} {up : List Byte} :
      FitsFrame codec m → out.bytes ≠ [] → Awaits codec.format m inb (up ++ out.bytes) →
      Phase codec (.called id m)
        (up.length + 2 * out.bytes.length + 2 * codec.format.most + 5)
        ⟨.sending id out, .receiving inb, up, []⟩
  | askingAlone {id : Nat} {m : M} {out : Outgoing Byte} {up : List Byte} :
      out.bytes.length ≤ codec.format.most →
      Phase codec (.called id m) (out.bytes.length + 3) ⟨.sending id out, .left, up, []⟩
  | asked {id : Nat} {m : M} {inb : Incoming Byte} {up : List Byte} : FitsFrame codec m →
      Awaits codec.format m inb up →
      Phase codec (.called id m) (up.length + 2 * codec.format.most + 5)
        ⟨.receiving id (.length []), .receiving inb, up, []⟩
  | invoking {id : Nat} {m : M} :
      Phase codec (.called id m) (2 * codec.format.most + 4)
        ⟨.receiving id (.length []), .invoking m, [], []⟩
  | answering {id : Nat} {m r : M} {out : Outgoing Byte} {inb : Incoming Byte} {down : List Byte} :
      FitsFrame codec r → out.bytes ≠ [] → Awaits codec.format r inb (down ++ out.bytes) →
      Phase codec (.done id m (some r)) (down.length + 2 * out.bytes.length + 3)
        ⟨.receiving id inb, .sending out, [], down⟩
  | answered {id : Nat} {m r : M} {inb : Incoming Byte} {down : List Byte} : FitsFrame codec r →
      Awaits codec.format r inb down →
      Phase codec (.done id m (some r)) (down.length + 3)
        ⟨.receiving id inb, .receiving (.length []), [], down⟩
  | cutOff {id : Nat} {m r : M} {inb : Incoming Byte} {up down lost : List Byte} :
      FitsFrame codec r → Awaits codec.format r inb (down ++ lost) →
      Phase codec (.done id m (some r)) (down.length + 2) ⟨.receiving id inb, .left, up, down⟩
  | unanswered {id : Nat} {p : Pending M} {up : List Byte} :
      Phase codec p 2 ⟨.receiving id (.length []), .left, up, []⟩
  | closedAsking {id : Nat} {m : M} {inb : Incoming Byte} {up down lost : List Byte} :
      FitsFrame codec m → Awaits codec.format m inb (up ++ lost) →
      Phase codec (.called id m) (up.length + codec.format.most + 3)
        ⟨.closed, .receiving inb, up, down⟩
  | closedInvoking {id : Nat} {m : M} {down : List Byte} :
      Phase codec (.called id m) (codec.format.most + 2) ⟨.closed, .invoking m, [], down⟩
  | closedAnswering {p : Pending M} {out : Outgoing Byte} {down : List Byte} :
      out.bytes.length ≤ codec.format.most →
      Phase codec p (out.bytes.length + 1) ⟨.closed, .sending out, [], down⟩
  | closedReady {p : Pending M} {down : List Byte} :
      Phase codec p 1 ⟨.closed, .receiving (.length []), [], down⟩
  | ended {p : Pending M} {up down : List Byte} : Phase codec p 0 ⟨.closed, .left, up, down⟩

/-- A step leads to a phase that is closer to the next call. -/
def Goes (codec : Codec M) (p : Pending M) (n : Nat) (lab : Label M) (l' : Line M) : Prop :=
  ∃ p' n', n' < n ∧ Moves lab p p' ∧ Phase codec p' n' l'

section Steps

variable {codec : Codec M} {capacity id : Nat} {m r : M} {p : Pending M} {lab : Label M}
  {l' : Line M} {out : Outgoing Byte} {inb : Incoming Byte} {up down lost : List Byte}

theorem goes_ready (hstep : Line.Step codec capacity lab
    ⟨.idle, .receiving (.length []), [], []⟩ l') (hcall : ¬ lab.IsCall) :
    Goes codec .none 2 lab l' := by
  cases hstep with
  | call => exact absurd trivial hcall
  | refused => exact absurd trivial hcall
  | close => exact ⟨_, _, Nat.one_lt_two, .close, .closedReady⟩
  | receive heq ht => exact absurd ht (Incoming.not_takes_start _ heq)
  | received heq ht => exact absurd ht (Incoming.not_takes_start _ heq)
  | noMemory heq ht => exact absurd ht (Incoming.not_takes_start _ heq)
  | receiveFails => exact ⟨_, _, Nat.one_lt_two, .fault, .readyAlone⟩

theorem goes_readyAlone (hstep : Line.Step codec capacity lab ⟨.idle, .left, up, []⟩ l')
    (hcall : ¬ lab.IsCall) : Goes codec .none 1 lab l' := by
  cases hstep with
  | call => exact absurd trivial hcall
  | refused => exact absurd trivial hcall
  | close => exact ⟨_, _, Nat.one_pos, .close, .ended⟩

/-- While the request is written the thread is reading it. -/
theorem goes_asking (hm : FitsFrame codec m) (hne : out.bytes ≠ [])
    (haw : Awaits codec.format m inb (up ++ out.bytes))
    (hstep : Line.Step codec capacity lab ⟨.sending id out, .receiving inb, up, []⟩ l') :
    Goes codec (.called id m) (up.length + 2 * out.bytes.length + 2 * codec.format.most + 5)
      lab l' := by
  have hmost := haw.length_le hm.carries
  rw [List.length_append] at hmost
  cases hstep with
  | @write _ k _ _ _ _ hpos hk hroom =>
    have hlen := Outgoing.length_rest hk
    have hup : (up ++ out.buffer.take k).length = up.length + k := by
      rw [List.length_append, List.length_take, Nat.min_eq_left hk]
    rw [← out.take_append_rest k, ← List.append_assoc] at haw
    unfold Caller.wrote
    by_cases hnil : (out.rest k).bytes = []
    · rw [if_pos hnil]
      rw [hnil, List.append_nil] at haw
      refine ⟨_, _, ?_, .tau, .asked hm haw⟩
      omega
    · rw [if_neg hnil]
      refine ⟨_, _, ?_, .tau, .asking hm hnil haw⟩
      omega
  | writeFails =>
    refine ⟨_, _, ?_, .fault, .closedAsking hm haw⟩
    omega
  | receive heq ht hnext =>
    rw [heq, List.append_assoc] at haw
    obtain ⟨haw', hpos⟩ := haw.of_inl hm.carries ht hnext
    refine ⟨_, _, ?_, .tau, .asking hm hne haw'⟩
    rw [heq, List.length_append]
    omega
  | received heq ht hnext =>
    -- the end of the request is not written yet
    rw [heq, List.append_assoc] at haw
    obtain ⟨-, hnil⟩ := haw.of_inr hm.carries ht hnext
    exact absurd (List.append_eq_nil_iff.mp hnil).2 hne
  | noMemory =>
    refine ⟨_, _, ?_, .fault, .askingAlone (by omega)⟩
    omega
  | receiveFails =>
    refine ⟨_, _, ?_, .fault, .askingAlone (by omega)⟩
    omega

theorem goes_askingAlone (hmost : out.bytes.length ≤ codec.format.most)
    (hstep : Line.Step codec capacity lab ⟨.sending id out, .left, up, []⟩ l') :
    Goes codec (.called id m) (out.bytes.length + 3) lab l' := by
  cases hstep with
  | @write _ k _ _ _ _ hpos hk hroom =>
    have hlen := Outgoing.length_rest hk
    unfold Caller.wrote
    by_cases hnil : (out.rest k).bytes = []
    · rw [if_pos hnil]
      refine ⟨_, _, ?_, .tau, .unanswered⟩
      omega
    · rw [if_neg hnil]
      refine ⟨_, _, ?_, .tau, .askingAlone (by omega)⟩
      omega
  | writeFails => exact ⟨_, _, Nat.succ_pos _, .fault, .ended⟩
  | writeEnds => exact ⟨_, _, Nat.succ_pos _, .tau, .ended⟩

theorem goes_asked (hm : FitsFrame codec m) (haw : Awaits codec.format m inb up)
    (hstep : Line.Step codec capacity lab ⟨.receiving id (.length []), .receiving inb, up, []⟩ l') :
    Goes codec (.called id m) (up.length + 2 * codec.format.most + 5) lab l' := by
  cases hstep with
  | read heq ht => exact absurd ht (Incoming.not_takes_start _ heq)
  | reply heq ht => exact absurd ht (Incoming.not_takes_start _ heq)
  | garbled heq ht => exact absurd ht (Incoming.not_takes_start _ heq)
  | forget heq ht => exact absurd ht (Incoming.not_takes_start _ heq)
  | readFails =>
    refine ⟨_, _, ?_, .fault, .closedAsking hm
      (show Awaits codec.format m inb (up ++ []) by rwa [List.append_nil])⟩
    omega
  | receive heq ht hnext =>
    rw [heq] at haw
    obtain ⟨haw', hpos⟩ := haw.of_inl hm.carries ht hnext
    refine ⟨_, _, ?_, .tau, .asked hm haw'⟩
    rw [heq, List.length_append]
    omega
  | received heq ht hnext =>
    rw [heq] at haw
    obtain ⟨rfl, rfl⟩ := haw.of_inr hm.carries ht hnext
    refine ⟨_, _, ?_, .tau, .invoking⟩
    omega
  | noMemory =>
    refine ⟨_, _, ?_, .fault, .unanswered⟩
    omega
  | receiveFails =>
    refine ⟨_, _, ?_, .fault, .unanswered⟩
    omega

theorem goes_invoking (hstep : Line.Step codec capacity lab
    ⟨.receiving id (.length []), .invoking m, [], []⟩ l') :
    Goes codec (.called id m) (2 * codec.format.most + 4) lab l' := by
  cases hstep with
  | read heq ht => exact absurd ht (Incoming.not_takes_start _ heq)
  | reply heq ht => exact absurd ht (Incoming.not_takes_start _ heq)
  | garbled heq ht => exact absurd ht (Incoming.not_takes_start _ heq)
  | forget heq ht => exact absurd ht (Incoming.not_takes_start _ heq)
  | readFails =>
    refine ⟨_, _, ?_, .fault, .closedInvoking⟩
    omega
  | @invoke _ res _ _ _ hfit =>
    cases res with
    | none =>
      refine ⟨_, _, ?_, .invoke, .unanswered⟩
      omega
    | some r =>
      have hr := hfit r rfl
      have hlen := Outgoing.length_ofMessage_le hr.carries
      refine ⟨_, _, ?_, .invoke, .answering hr (Outgoing.bytes_ofMessage_ne_nil _ r) (.start _ r)⟩
      rw [List.length_nil]
      omega
  | unsent =>
    refine ⟨_, _, ?_, .unsent, .unanswered⟩
    omega

/-- While the reply is read the thread is writing it. -/
theorem goes_answering (hr : FitsFrame codec r) (hne : out.bytes ≠ [])
    (haw : Awaits codec.format r inb (down ++ out.bytes))
    (hstep : Line.Step codec capacity lab ⟨.receiving id inb, .sending out, [], down⟩ l')
    (hforget : lab ≠ .forget) :
    Goes codec (.done id m (some r)) (down.length + 2 * out.bytes.length + 3) lab l' := by
  have hmost := haw.length_le hr.carries
  rw [List.length_append] at hmost
  cases hstep with
  | read heq ht hnext =>
    rw [heq, List.append_assoc] at haw
    obtain ⟨haw', hpos⟩ := haw.of_inl hr.carries ht hnext
    refine ⟨_, _, ?_, .tau, .answering hr hne haw'⟩
    rw [heq, List.length_append]
    omega
  | reply heq ht hnext =>
    -- the end of the reply is not written yet
    rw [heq, List.append_assoc] at haw
    obtain ⟨-, hnil⟩ := haw.of_inr hr.carries ht hnext
    exact absurd (List.append_eq_nil_iff.mp hnil).2 hne
  | garbled heq ht hnext =>
    rw [heq, List.append_assoc] at haw
    exact nomatch (haw.of_inr hr.carries ht hnext).1
  | forget => exact absurd rfl hforget
  | readFails =>
    refine ⟨_, _, ?_, .fault, .closedAnswering (by omega)⟩
    omega
  | @send k _ _ _ _ hpos hk hroom =>
    have hlen := Outgoing.length_rest hk
    have hdown : (down ++ out.buffer.take k).length = down.length + k := by
      rw [List.length_append, List.length_take, Nat.min_eq_left hk]
    rw [← out.take_append_rest k, ← List.append_assoc] at haw
    unfold Worker.sent
    by_cases hnil : (out.rest k).bytes = []
    · rw [if_pos hnil]
      rw [hnil, List.append_nil] at haw
      refine ⟨_, _, ?_, .tau, .answered hr haw⟩
      omega
    · rw [if_neg hnil]
      refine ⟨_, _, ?_, .tau, .answering hr hnil haw⟩
      omega
  | sendFails =>
    refine ⟨_, _, ?_, .fault, .cutOff hr haw⟩
    omega

theorem goes_answered (hr : FitsFrame codec r) (haw : Awaits codec.format r inb down)
    (hstep : Line.Step codec capacity lab ⟨.receiving id inb, .receiving (.length []), [], down⟩ l')
    (hforget : lab ≠ .forget) :
    Goes codec (.done id m (some r)) (down.length + 3) lab l' := by
  cases hstep with
  | read heq ht hnext =>
    rw [heq] at haw
    obtain ⟨haw', hpos⟩ := haw.of_inl hr.carries ht hnext
    refine ⟨_, _, ?_, .tau, .answered hr haw'⟩
    rw [heq, List.length_append]
    omega
  | reply heq ht hnext =>
    rw [heq] at haw
    obtain ⟨hres, rfl⟩ := haw.of_inr hr.carries ht hnext
    cases hres
    refine ⟨_, _, ?_, .ret, .ready⟩
    omega
  | garbled heq ht hnext =>
    rw [heq] at haw
    exact nomatch (haw.of_inr hr.carries ht hnext).1
  | forget => exact absurd rfl hforget
  | readFails =>
    refine ⟨_, _, ?_, .fault, .closedReady⟩
    omega
  | receive heq ht => exact absurd ht (Incoming.not_takes_start _ heq)
  | received heq ht => exact absurd ht (Incoming.not_takes_start _ heq)
  | noMemory heq ht => exact absurd ht (Incoming.not_takes_start _ heq)
  | receiveFails =>
    refine ⟨_, _, ?_, .fault, .cutOff hr
      (show Awaits codec.format r inb (down ++ []) by rwa [List.append_nil])⟩
    omega

/-- A reply that lacks its end is not returned. -/
theorem goes_cutOff (hr : FitsFrame codec r) (haw : Awaits codec.format r inb (down ++ lost))
    (hstep : Line.Step codec capacity lab ⟨.receiving id inb, .left, up, down⟩ l')
    (hforget : lab ≠ .forget) :
    Goes codec (.done id m (some r)) (down.length + 2) lab l' := by
  cases hstep with
  | read heq ht hnext =>
    rw [heq, List.append_assoc] at haw
    obtain ⟨haw', hpos⟩ := haw.of_inl hr.carries ht hnext
    refine ⟨_, _, ?_, .tau, .cutOff hr haw'⟩
    rw [heq, List.length_append]
    omega
  | reply heq ht hnext =>
    rw [heq, List.append_assoc] at haw
    obtain ⟨hres, hnil⟩ := haw.of_inr hr.carries ht hnext
    cases hres
    rw [(List.append_eq_nil_iff.mp hnil).1]
    refine ⟨_, _, ?_, .ret, .readyAlone⟩
    omega
  | garbled heq ht hnext =>
    rw [heq, List.append_assoc] at haw
    exact nomatch (haw.of_inr hr.carries ht hnext).1
  | forget => exact absurd rfl hforget
  | readFails => exact ⟨_, _, Nat.succ_pos _, .fault, .ended⟩
  | readEnds => exact ⟨_, _, Nat.succ_pos _, .tau, .ended⟩

theorem goes_unanswered
    (hstep : Line.Step codec capacity lab ⟨.receiving id (.length []), .left, up, []⟩ l') :
    Goes codec p 2 lab l' := by
  cases hstep with
  | read heq ht => exact absurd ht (Incoming.not_takes_start _ heq)
  | reply heq ht => exact absurd ht (Incoming.not_takes_start _ heq)
  | garbled heq ht => exact absurd ht (Incoming.not_takes_start _ heq)
  | forget heq ht => exact absurd ht (Incoming.not_takes_start _ heq)
  | readFails => exact ⟨_, _, Nat.two_pos, .fault, .ended⟩
  | readEnds => exact ⟨_, _, Nat.two_pos, .tau, .ended⟩

/-- A request may still be handled when its caller has gone. -/
theorem goes_closedAsking (hm : FitsFrame codec m)
    (haw : Awaits codec.format m inb (up ++ lost))
    (hstep : Line.Step codec capacity lab ⟨.closed, .receiving inb, up, down⟩ l')
    (hcall : ¬ lab.IsCall) :
    Goes codec (.called id m) (up.length + codec.format.most + 3) lab l' := by
  cases hstep with
  | callClosed => exact absurd trivial hcall
  | receive heq ht hnext =>
    rw [heq, List.append_assoc] at haw
    obtain ⟨haw', hpos⟩ := haw.of_inl hm.carries ht hnext
    refine ⟨_, _, ?_, .tau, .closedAsking hm haw'⟩
    rw [heq, List.length_append]
    omega
  | received heq ht hnext =>
    rw [heq, List.append_assoc] at haw
    obtain ⟨rfl, hnil⟩ := haw.of_inr hm.carries ht hnext
    rw [(List.append_eq_nil_iff.mp hnil).1]
    refine ⟨_, _, ?_, .tau, .closedInvoking⟩
    omega
  | noMemory => exact ⟨_, _, Nat.succ_pos _, .fault, .ended⟩
  | receiveFails => exact ⟨_, _, Nat.succ_pos _, .fault, .ended⟩
  | receiveEnds => exact ⟨_, _, Nat.succ_pos _, .tau, .ended⟩

theorem goes_closedInvoking
    (hstep : Line.Step codec capacity lab ⟨.closed, .invoking m, [], down⟩ l')
    (hcall : ¬ lab.IsCall) :
    Goes codec (.called id m) (codec.format.most + 2) lab l' := by
  cases hstep with
  | callClosed => exact absurd trivial hcall
  | @invoke _ res _ _ _ hfit =>
    cases res with
    | none => exact ⟨_, _, Nat.succ_pos _, .invoke, .ended⟩
    | some r =>
      have hlen := Outgoing.length_ofMessage_le (hfit r rfl).carries
      refine ⟨_, _, ?_, .invoke, .closedAnswering hlen⟩
      omega
  | unsent => exact ⟨_, _, Nat.succ_pos _, .unsent, .ended⟩

theorem goes_closedAnswering (hmost : out.bytes.length ≤ codec.format.most)
    (hstep : Line.Step codec capacity lab ⟨.closed, .sending out, [], down⟩ l')
    (hcall : ¬ lab.IsCall) : Goes codec p (out.bytes.length + 1) lab l' := by
  cases hstep with
  | callClosed => exact absurd trivial hcall
  | @send k _ _ _ _ hpos hk hroom =>
    have hlen := Outgoing.length_rest hk
    unfold Worker.sent
    by_cases hnil : (out.rest k).bytes = []
    · rw [if_pos hnil]
      refine ⟨_, _, ?_, .tau, .closedReady⟩
      omega
    · rw [if_neg hnil]
      refine ⟨_, _, ?_, .tau, .closedAnswering (by omega)⟩
      omega
  | sendFails => exact ⟨_, _, Nat.succ_pos _, .fault, .ended⟩
  | sendEnds => exact ⟨_, _, Nat.succ_pos _, .tau, .ended⟩

theorem goes_closedReady
    (hstep : Line.Step codec capacity lab ⟨.closed, .receiving (.length []), [], down⟩ l')
    (hcall : ¬ lab.IsCall) : Goes codec p 1 lab l' := by
  cases hstep with
  | callClosed => exact absurd trivial hcall
  | receive heq ht => exact absurd ht (Incoming.not_takes_start _ heq)
  | received heq ht => exact absurd ht (Incoming.not_takes_start _ heq)
  | noMemory heq ht => exact absurd ht (Incoming.not_takes_start _ heq)
  | receiveFails => exact ⟨_, _, Nat.one_pos, .fault, .ended⟩
  | receiveEnds => exact ⟨_, _, Nat.one_pos, .tau, .ended⟩

/-- What is not a call brings the next call closer. -/
theorem Phase.goes {n : Nat} {l : Line M} (h : Phase codec p n l)
    (hstep : Line.Step codec capacity lab l l') (hcall : ¬ lab.IsCall)
    (hforget : lab ≠ .forget) : Goes codec p n lab l' := by
  cases h with
  | ready => exact goes_ready hstep hcall
  | readyAlone => exact goes_readyAlone hstep hcall
  | asking hm hne haw => exact goes_asking hm hne haw hstep
  | askingAlone hmost => exact goes_askingAlone hmost hstep
  | asked hm haw => exact goes_asked hm haw hstep
  | invoking => exact goes_invoking hstep
  | answering hr hne haw => exact goes_answering hr hne haw hstep hforget
  | answered hr haw => exact goes_answered hr haw hstep hforget
  | cutOff hr haw => exact goes_cutOff hr haw hstep hforget
  | unanswered => exact goes_unanswered hstep
  | closedAsking hm haw => exact goes_closedAsking hm haw hstep hcall
  | closedInvoking => exact goes_closedInvoking hstep hcall
  | closedAnswering hmost => exact goes_closedAnswering hmost hstep hcall
  | closedReady => exact goes_closedReady hstep hcall
  | ended =>
    cases hstep with
    | callClosed => exact absurd trivial hcall

/-- A call starts from a state without one, or fails at once. -/
theorem Phase.call {n : Nat} {l : Line M} (h : Phase codec p n l)
    (hstep : Line.Step codec capacity lab l l') (hcall : lab.IsCall) :
    ∃ p' n', Moves lab p p' ∧ Phase codec p' n' l' := by
  cases hstep with
  | refused => exact ⟨_, _, .refuse, h⟩
  | callClosed => exact ⟨_, _, .refuse, h⟩
  | @call _ m _ _ _ hm =>
    cases h with
    | ready =>
      have hne := Outgoing.bytes_ofMessage_ne_nil codec.format m
      exact ⟨_, _, .call, .asking hm hne (.start _ m)⟩
    | readyAlone =>
      exact ⟨_, _, .call, .askingAlone (Outgoing.length_ofMessage_le hm.carries)⟩
  | _ => exact hcall.elim

/-- What a step does to the open call, and the phase it leads to. -/
theorem Phase.moves {n : Nat} {l : Line M} (h : Phase codec p n l)
    (hstep : Line.Step codec capacity lab l l') (hforget : lab ≠ .forget) :
    ∃ p' n', Moves lab p p' ∧ Phase codec p' n' l' := by
  by_cases hcall : lab.IsCall
  · exact h.call hstep hcall
  · obtain ⟨p', n', -, hmoves, hp⟩ := h.goes hstep hcall hforget
    exact ⟨p', n', hmoves, hp⟩

end Steps

/-! ## A call goes on -/

/-- In `network_send_receive`. -/
def Caller.InCall : Caller → Prop
  | .idle | .closed => False
  | .sending _ _ | .receiving _ _ => True

section Progress

variable {codec : Codec M} {capacity id k : Nat} {m r : M} {p : Pending M} {c : Caller}
  {w : Worker M} {out : Outgoing Byte} {inb : Incoming Byte} {up down piece rest : List Byte}

theorem exists_write (hcap : 0 < capacity) (hne : out.bytes ≠ []) :
    ∃ l', Line.Step codec capacity .tau ⟨.sending id out, w, [], down⟩ l' :=
  ⟨_, .write Nat.one_pos (List.length_pos_iff.mpr (Outgoing.buffer_ne_nil hne))
    (by rw [List.length_nil]; omega)⟩

theorem exists_send (hcap : 0 < capacity) (hne : out.bytes ≠ []) :
    ∃ l', Line.Step codec capacity .tau ⟨c, .sending out, up, []⟩ l' :=
  ⟨_, .send Nat.one_pos (List.length_pos_iff.mpr (Outgoing.buffer_ne_nil hne))
    (by rw [List.length_nil]; omega)⟩

theorem exists_read (hdown : down = piece ++ rest) (ht : inb.Takes codec.format piece) :
    ∃ lab l', Line.Step codec capacity lab ⟨.receiving id inb, w, up, down⟩ l' ∧
      (lab = .tau ∨ ∃ id r, lab = .ret id r) := by
  rcases hnext : inb.next codec.format piece with inb' | _ | r
  · exact ⟨_, _, .read hdown ht hnext, Or.inl rfl⟩
  · exact ⟨_, _, .garbled hdown ht hnext, Or.inl rfl⟩
  · exact ⟨_, _, .reply hdown ht hnext, Or.inr ⟨id, r, rfl⟩⟩

theorem exists_receive (hup : up = piece ++ rest) (ht : inb.Takes codec.format piece) :
    ∃ l', Line.Step codec capacity .tau ⟨c, .receiving inb, up, down⟩ l' := by
  rcases hnext : inb.next codec.format piece with inb' | res
  · exact ⟨_, .receive hup ht hnext⟩
  · exact ⟨_, .received hup ht hnext⟩

/-- The two ends never wait for each other: during a call one of them can take a step, or the thread
is in `invoke`. -/
theorem Phase.progress {n : Nat} {l : Line M} (h : Phase codec p n l) (hcap : 0 < capacity)
    (hcall : l.caller.InCall) : (∃ id m, p = .called id m ∧ l.worker = .invoking m) ∨
      ∃ lab l', Line.Step codec capacity lab l l' ∧ (lab = .tau ∨ ∃ id r, lab = .ret id r) := by
  cases h with
  | ready => exact hcall.elim
  | readyAlone => exact hcall.elim
  | @asking _ _ _ _ up _ hne haw =>
    right
    by_cases hup : up = []
    · -- there is room for the request
      subst hup
      obtain ⟨l', hstep⟩ := exists_write hcap hne
      exact ⟨_, l', hstep, Or.inl rfl⟩
    · obtain ⟨piece, left, heq, ht⟩ := haw.takes fun _ => hup
      obtain ⟨l', hstep⟩ := exists_receive heq ht
      exact ⟨_, l', hstep, Or.inl rfl⟩
  | askingAlone => exact Or.inr ⟨_, _, .writeEnds, Or.inl rfl⟩
  | asked _ haw =>
    obtain ⟨piece, left, heq, ht⟩ := haw.takes id
    obtain ⟨l', hstep⟩ := exists_receive heq ht
    exact Or.inr ⟨_, l', hstep, Or.inl rfl⟩
  | invoking => exact Or.inl ⟨_, _, rfl, rfl⟩
  | @answering _ _ _ _ _ down _ hne haw =>
    right
    by_cases hdown : down = []
    · subst hdown
      obtain ⟨l', hstep⟩ := exists_send hcap hne
      exact ⟨_, l', hstep, Or.inl rfl⟩
    · obtain ⟨piece, left, heq, ht⟩ := haw.takes fun _ => hdown
      exact exists_read heq ht
  | answered _ haw =>
    obtain ⟨piece, left, heq, ht⟩ := haw.takes id
    exact Or.inr (exists_read heq ht)
  | @cutOff _ _ _ _ _ down _ _ haw =>
    right
    by_cases hdown : down = []
    · subst hdown
      exact ⟨_, _, .readEnds, Or.inl rfl⟩
    · obtain ⟨piece, left, heq, ht⟩ := haw.takes fun _ => hdown
      exact exists_read heq ht
  | unanswered => exact Or.inr ⟨_, _, .readEnds, Or.inl rfl⟩
  | closedAsking => exact hcall.elim
  | closedInvoking => exact hcall.elim
  | closedAnswering => exact hcall.elim
  | closedReady => exact hcall.elim
  | ended => exact hcall.elim

/-! ## A call that nothing disturbs -/

/-- What is to be written is written, where there is room for it. -/
theorem writes_all (hne : out.bytes ≠ []) (hroom : up.length + out.bytes.length ≤ capacity) :
    Relation.ReflTransGen (Line.Step codec capacity .tau) ⟨.sending id out, w, up, down⟩
      ⟨.receiving id (.length []), w, up ++ out.bytes, down⟩ := by
  induction hn : out.bytes.length using Nat.strong_induction_on generalizing out up with
  | _ n ih =>
    have hpos := List.length_pos_iff.mpr (Outgoing.buffer_ne_nil hne)
    have hlen := Outgoing.length_rest (o := out) le_rfl
    have hsplit := out.take_append_rest out.buffer.length
    rw [List.take_length] at hsplit
    have hstep : Line.Step codec capacity .tau ⟨.sending id out, w, up, down⟩ _ :=
      .write hpos le_rfl (by omega)
    refine .head hstep ?_
    rw [List.take_length]
    unfold Caller.wrote
    by_cases hnil : (out.rest out.buffer.length).bytes = []
    · rw [if_pos hnil]
      rw [hnil, List.append_nil] at hsplit
      rw [hsplit]
    · rw [if_neg hnil, ← hsplit, ← List.append_assoc]
      refine ih _ (by omega) hnil ?_ rfl
      rw [List.length_append]
      omega

/-- A request that has arrived gets to `invoke`. -/
theorem receives_all (hm : FitsFrame codec m) (haw : Awaits codec.format m inb up) :
    Relation.ReflTransGen (Line.Step codec capacity .tau) ⟨c, .receiving inb, up, down⟩
      ⟨c, .invoking m, [], down⟩ := by
  induction hn : up.length using Nat.strong_induction_on generalizing inb up with
  | _ n ih =>
    obtain ⟨piece, left, rfl, ht⟩ := haw.takes id
    rcases hnext : inb.next codec.format piece with inb' | res
    · obtain ⟨haw', hpos⟩ := haw.of_inl hm.carries ht hnext
      refine .head (.receive rfl ht hnext) (ih left.length ?_ haw' rfl)
      rw [← hn, List.length_append]
      omega
    · obtain ⟨rfl, rfl⟩ := haw.of_inr hm.carries ht hnext
      exact .single (.received rfl ht hnext)

theorem sends_all (hne : out.bytes ≠ []) (hroom : down.length + out.bytes.length ≤ capacity) :
    Relation.ReflTransGen (Line.Step codec capacity .tau) ⟨c, .sending out, up, down⟩
      ⟨c, .receiving (.length []), up, down ++ out.bytes⟩ := by
  induction hn : out.bytes.length using Nat.strong_induction_on generalizing out down with
  | _ n ih =>
    have hpos := List.length_pos_iff.mpr (Outgoing.buffer_ne_nil hne)
    have hlen := Outgoing.length_rest (o := out) le_rfl
    have hsplit := out.take_append_rest out.buffer.length
    rw [List.take_length] at hsplit
    have hstep : Line.Step codec capacity .tau ⟨c, .sending out, up, down⟩ _ :=
      .send hpos le_rfl (by omega)
    refine .head hstep ?_
    rw [List.take_length]
    unfold Worker.sent
    by_cases hnil : (out.rest out.buffer.length).bytes = []
    · rw [if_pos hnil]
      rw [hnil, List.append_nil] at hsplit
      rw [hsplit]
    · rw [if_neg hnil, ← hsplit, ← List.append_assoc]
      refine ih _ (by omega) hnil ?_ rfl
      rw [List.length_append]
      omega

/-- A reply that has arrived is returned. -/
theorem reads_all (hr : FitsFrame codec r) (haw : Awaits codec.format r inb down) :
    ∃ l, Relation.ReflTransGen (Line.Step codec capacity .tau) ⟨.receiving id inb, w, up, down⟩ l ∧
      Line.Step codec capacity (.ret id r) l ⟨.idle, w, up, []⟩ := by
  induction hn : down.length using Nat.strong_induction_on generalizing inb down with
  | _ n ih =>
    obtain ⟨piece, left, rfl, ht⟩ := haw.takes fun hne => hne
    rcases hnext : inb.next codec.format piece with inb' | res
    · obtain ⟨haw', hpos⟩ := haw.of_inl hr.carries ht hnext
      obtain ⟨l, hsteps, hlast⟩ := ih left.length
        (by rw [← hn, List.length_append]; omega) haw' rfl
      exact ⟨l, .head (.read rfl ht hnext) hsteps, hlast⟩
    · obtain ⟨rfl, rfl⟩ := haw.of_inr hr.carries ht hnext
      exact ⟨_, .refl, .reply rfl ht hnext⟩

/-- Nobody has given up. -/
structure Line.Healthy (l : Line M) : Prop where
  caller : l.caller ≠ .closed
  worker : l.worker ≠ .left

/-- Nothing fails in such a step. -/
def Label.Good : Label M → Prop
  | .tau | .call _ _ | .invoke _ (some _) | .ret _ _ => True
  | _ => False

theorem wrote_ne_closed : Caller.wrote id out ≠ .closed := by
  unfold Caller.wrote
  split <;> nofun

theorem sent_ne_left : (Worker.sent out : Worker M) ≠ .left := by
  unfold Worker.sent
  split <;> nofun

/-- Where nothing fails nobody gives up. -/
theorem Phase.healthy {n : Nat} {l l' : Line M} {lab : Label M} (h : Phase codec p n l)
    (hl : l.Healthy) (hstep : Line.Step codec capacity lab l l') (hgood : lab.Good) :
    l'.Healthy := by
  cases hstep with
  | call => exact ⟨nofun, hl.worker⟩
  | write => exact ⟨wrote_ne_closed, hl.worker⟩
  | read => exact ⟨nofun, hl.worker⟩
  | reply => exact ⟨nofun, hl.worker⟩
  | garbled => exact ⟨nofun, hl.worker⟩
  | writeEnds => exact absurd rfl hl.worker
  | readEnds => exact absurd rfl hl.worker
  | receive => exact ⟨hl.caller, nofun⟩
  | @received _ res _ _ _ _ _ heq ht hnext =>
    -- what has arrived is the awaited request
    have hres : ∃ m, res = some m := by
      cases h with
      | ready => exact absurd ht (Incoming.not_takes_start _ heq)
      | asking hm _ haw =>
        rw [heq, List.append_assoc] at haw
        exact ⟨_, (haw.of_inr hm.carries ht hnext).1⟩
      | asked hm haw =>
        rw [heq] at haw
        exact ⟨_, (haw.of_inr hm.carries ht hnext).1⟩
      | answered => exact absurd ht (Incoming.not_takes_start _ heq)
      | closedAsking => exact absurd rfl hl.caller
      | closedReady => exact absurd rfl hl.caller
    obtain ⟨m, rfl⟩ := hres
    exact ⟨hl.caller, nofun⟩
  | receiveEnds => exact absurd rfl hl.caller
  | @invoke _ res =>
    cases res with
    | none => exact hgood.elim
    | some r => exact ⟨hl.caller, nofun⟩
  | send => exact ⟨hl.caller, sent_ne_left⟩
  | sendEnds => exact absurd rfl hl.caller
  | _ => exact hgood.elim

/-- Between two calls there is no open one. -/
theorem Phase.none_of_healthy {n : Nat} {l : Line M} (h : Phase codec p n l) (hl : l.Healthy)
    (hcall : ¬ l.caller.InCall) : p = .none := by
  cases h with
  | ready => rfl
  | readyAlone => rfl
  | asking => exact absurd trivial hcall
  | askingAlone => exact absurd trivial hcall
  | asked => exact absurd trivial hcall
  | invoking => exact absurd trivial hcall
  | answering => exact absurd trivial hcall
  | answered => exact absurd trivial hcall
  | cutOff => exact absurd trivial hcall
  | unanswered => exact absurd trivial hcall
  | closedAsking => exact absurd rfl hl.caller
  | closedInvoking => exact absurd rfl hl.caller
  | closedAnswering => exact absurd rfl hl.caller
  | closedReady => exact absurd rfl hl.caller
  | ended => exact absurd rfl hl.caller

end Progress

theorem most_format (codec : Codec M) : codec.format.most = 65537 := by
  show 2 + 65535 = 65537
  rfl

/-- Into an empty direction that holds 65537 bytes a frame goes as a whole. -/
theorem room_of_fits {codec : Codec M} {m : M} (hm : FitsFrame codec m) {capacity : Nat}
    (hcap : 65537 ≤ capacity) :
    ([] : List Byte).length + (Outgoing.ofMessage codec.format m).bytes.length ≤ capacity := by
  have hlen := Outgoing.length_ofMessage_le hm.carries
  rw [most_format] at hlen
  rw [List.length_nil]
  omega

/-- Until the next call there are never more steps than it takes to write and read two frames of
the greatest length byte by byte. -/
theorem Phase.le {codec : Codec M} {p : Pending M} {n : Nat} {l : Line M}
    (h : Phase codec p n l) : n ≤ 262153 := by
  have hmost := most_format codec
  cases h with
  | asking hm _ haw =>
    have hlen := haw.length_le hm.carries
    rw [List.length_append] at hlen
    omega
  | asked hm haw =>
    have hlen := haw.length_le hm.carries
    omega
  | answering hr _ haw =>
    have hlen := haw.length_le hr.carries
    rw [List.length_append] at hlen
    omega
  | answered hr haw =>
    have hlen := haw.length_le hr.carries
    omega
  | cutOff hr haw =>
    have hlen := haw.length_le hr.carries
    rw [List.length_append] at hlen
    omega
  | closedAsking hm haw =>
    have hlen := haw.length_le hm.carries
    rw [List.length_append] at hlen
    omega
  | _ => omega

end Duplex

end KvStorage
