import KvStorage.Chain.Agreement

/-!
# A chain is linearizable

A write takes effect when the tail applies it, a read when its server looks into
the table. The atomic object (`Linearizability.atomic`) with the tail's map as
its value simulates the chain:

* while a thread is in the read section of a server, no write that this server
  has applied is still on its way to the tail (`one_in_flight`), so the table it
  reads is the tail's;
* the answer of a PUT or DEL is computed at the head, on a map that is the
  tail's when the write reaches it, since the head holds its write lock
  meanwhile.
-/

namespace KvStorage

open CLib Linearizability Monitor Net Table

variable {m : Nat} {γ : Type}

/-! ## The finite map as a sequential object -/

/-- The replies to a read of the map. The listings may come in any order. -/
def Answers (M : KvMap) (q : Query) (reply : WireMsg) : Prop :=
  match q with
  | .get key => reply = getReplyWire key.val (M.lookup key.val)
  | .size => reply.opcode = OP_SIZE + 1 ∧ reply.result.toInt = cint M.keys.card
  | .getKeys => reply.opcode = OP_GETKEYS + 1 ∧ reply.keys.Nodup ∧ ∀ key, key ∈ reply.keys ↔ key ∈ M
  | .getTable => reply.opcode = OP_GETTABLE + 1 ∧ (reply.entries.map WireEntry.key).Nodup ∧
      ∀ key v, M.lookup key = some v ↔ ⟨key, v⟩ ∈ reply.entries

/-- One finite map: a PUT is acknowledged, a DEL says whether the key was there,
reads see the map. -/
def kvSpec (M : KvMap) : Spec KvMap Request WireMsg where
  init := M
  step M op reply M' :=
    match op with
    | .write w => reply = w.replyOn M ∧ M' = w.onMap M
    | .read q => Answers M q reply ∧ M' = M

theorem mem_wire_entries {t : Table} (h : t.WF) {key : CStr} {v : List Byte} :
    (⟨key, v⟩ : WireEntry) ∈ t.entries.map Entry.wire ↔ t.map.lookup key = some v := by
  rw [h.lookup_eq_some_iff, List.mem_map]
  constructor
  · intro ⟨e, he, heq⟩
    obtain ⟨v', -, hv'⟩ := h.stored e he
    cases e
    dsimp only at hv'
    subst hv'
    simp only [Entry.wire, Entry.bytes, Block.content_ofBytes, WireEntry.mk.injEq] at heq
    obtain ⟨rfl, rfl⟩ := heq
    exact he
  · intro he
    exact ⟨_, he, by simp [Entry.wire, Entry.bytes]⟩

/-- What a server answers is what its map says, when the listing fits its
frame. -/
theorem answer_spec {r : Replica} {q : Query} {reply : WireMsg} (h : r.answer q = some reply)
    (hkeys : q = .getKeys → messageSize (keysReply r.table) ≤ 65535)
    (htable : q = .getTable → messageSize (tableReply r.table) ≤ 65535) :
    Answers r.map q reply := by
  cases q with
  | get key =>
    rw [r.answer_get key] at h
    cases h
    rfl
  | size =>
    rw [r.answer_size] at h
    split at h
    · cases h
    · cases h
      refine ⟨rfl, ?_⟩
      have hsize : tableSize r.table = cint r.map.keys.card := by
        rw [tableSize_eq r.wf, Replica.map, r.wf.card_keys]
      rw [← hsize]
      exact toInt_ofInt_tableSize r.wf
  | getKeys =>
    rw [r.answer_getKeys (hkeys rfl)] at h
    cases h
    exact ⟨rfl, r.wf.nodup_keys, fun key => mem_entries_keys⟩
  | getTable =>
    rw [r.answer_getTable (htable rfl)] at h
    cases h
    refine ⟨rfl, ?_, fun key v => (mem_wire_entries r.wf).symm⟩
    show ((r.table.entries.map Entry.wire).map WireEntry.key).Nodup
    rw [List.map_map]
    exact r.wf.nodup_keys

/-- Every listing about to be read fits its frame. -/
def FramesFit (s : Net (Fin (m + 1)) γ) : Prop :=
  ∀ x id, (s.pc x = .reading id .getKeys →
      messageSize (keysReply (s.node x.1).replica.table) ≤ 65535) ∧
    (s.pc x = .reading id .getTable →
      messageSize (tableReply (s.node x.1).replica.table) ≤ 65535)

/-! ## One write at a time -/

section OneWrite

variable {M : KvMap} {s : Net (Fin (m + 1)) γ}

theorem Pc.awaits_eq {ι : Type} {pc : Pc ι} {k : ι} {id : Nat} {w : Write}
    (h : pc.awaits = some (k, ⟨id, .write w⟩)) : ∃ res, pc = .waiting id w res k := by
  cases pc <;> cases h
  exact ⟨_, rfl⟩

/-- A thread that works on a write behind the head does so for a thread of the
predecessor that waits. -/
theorem ChainInv.requester (h : ChainInv M s) (hst : s.Stable Follows (chainNext m))
    {i k : Fin (m + 1)} (hik : Follows i k) {o : Origin (Fin (m + 1)) γ} {id : Nat} {w : Write}
    (hpc : (s.pc (k, o)).call = some ⟨id, .write w⟩) :
    o = .peer i ∧ ∃ o' res, s.pc (i, o') = .waiting id w res k := by
  rcases h.origin hst hpc with ⟨rfl, -⟩ | ⟨j, hj, rfl⟩
  · exact absurd hik (not_follows_zero i)
  · obtain rfl := hj.injective hik
    obtain ⟨out, hstage, hout⟩ := hst.inv.peer k j (hst.steady.running k)
    obtain ⟨rfl, -, -⟩ := hstage.of_call hpc
    obtain ⟨o', ho'⟩ := (hout _).mp rfl
    exact ⟨rfl, o', Pc.awaits_eq ho'⟩

/-- Between a server and the tail there is at most the one write that the server
is forwarding. -/
theorem one_in_flight (h : ChainInv M s) (hst : s.Stable Follows (chainNext m)) :
    ∀ i : Fin (m + 1), (s.node i).log = (s.node (Fin.last m)).log ∨
      ∃ o k id w, (s.pc (i, o)).Forwards k id w ∧
        (s.node i).log = (s.node (Fin.last m)).log ++ [(id, w)] := by
  intro i
  induction i using Fin.reverseInduction with
  | last => exact Or.inl rfl
  | cast i ih =>
    have hik : Follows i.castSucc i.succ := rfl
    rcases h.sync _ _ hik with ⟨heq, -⟩ | ⟨id, w, hahead, heq⟩
    · rw [heq]
      rcases ih with ih | ⟨o, k, id, w, hf, ih⟩
      · exact Or.inl ih
      · obtain ⟨-, o', res, ho'⟩ := h.requester hst hik hf.call
        exact Or.inr ⟨o', i.succ, id, w, Or.inr ⟨res, ho'⟩, ih⟩
    · -- the successor has not applied this write, so it is not forwarding one
      have hidle : (s.node i.succ).log = (s.node (Fin.last m)).log := by
        rcases ih with ih | ⟨o, k, id', w', hf, -⟩
        · exact ih
        · obtain ⟨rfl, o', res, ho'⟩ := h.requester hst hik hf.call
          obtain ⟨o'', hap | ⟨-, hat⟩⟩ := hahead
          · obtain ⟨res', hap⟩ := hap
            have ho : o'' = o' := hst.inv.writer_unique (by rw [hap]; rfl) (by rw [ho']; rfl)
            rw [ho, ho'] at hap
            cases hap
          · rcases hat with hat | hat
            · have hstage := hst.inv.outstanding (hst.steady.running i.succ)
                (show (s.pc (i.castSucc, o')).awaits = some (i.succ, ⟨id', .write w'⟩) by
                  rw [ho']
                  rfl)
              obtain ⟨-, hrq, -⟩ := hstage.of_call hf.call
              rw [hrq] at hat
              cases hat
            · rcases hf with ⟨res', hf⟩ | ⟨res', hf⟩ <;> rw [hf] at hat <;> cases hat
      obtain ⟨o, ho⟩ := hahead.forwards
      exact Or.inr ⟨o, i.succ, id, w, ho, by rw [heq, hidle]; rfl⟩

/-- A server that is forwarding nothing has the tail's map. -/
theorem map_eq_tail (h : ChainInv M s) (hst : s.Stable Follows (chainNext m)) {i : Fin (m + 1)}
    (hidle : ∀ o k id w, ¬ (s.pc (i, o)).Forwards k id w) :
    (s.node i).replica.map = (s.node (Fin.last m)).replica.map := by
  rcases one_in_flight h hst i with heq | ⟨o, k, id, w, hf, -⟩
  · rw [h.maps, h.maps, heq]
  · exact absurd hf (hidle o k id w)

/-- A server about to apply a write has the tail's map. -/
theorem map_of_writing (h : ChainInv M s) (hst : s.Stable Follows (chainNext m))
    {x : Link (Fin (m + 1)) γ} {id : Nat} {w : Write} {next : Option (Fin (m + 1))}
    (hpc : s.pc x = .writing id w next) :
    (s.node x.1).replica.map = (s.node (Fin.last m)).replica.map := by
  refine map_eq_tail h hst fun o k id' w' hf => ?_
  have hside : (s.pc (x.1, x.2)).side = .write := by
    rw [show s.pc (x.1, x.2) = _ from hpc]
    rfl
  rw [hst.inv.writer_unique hf.side hside, show s.pc (x.1, x.2) = _ from hpc] at hf
  rcases hf with ⟨res, he⟩ | ⟨res, he⟩ <;> cases he

end OneWrite

/-! ## The simulation -/

/-- The reply a thread has settled on. -/
def Pc.outcome {ι : Type} : Pc ι → Option WireMsg
  | readDone _ _ reply | sending _ reply => reply
  | applied _ w res _ | waiting _ w res _ | leaving _ w res => w.reply res
  | _ => none

/-- The reply that is settled for the request outstanding on a connection. -/
def outcome {ι : Type} (s : Net ι γ) (y : Link ι γ) : Option WireMsg :=
  match s.replies y with
  | r :: _ => some r
  | [] => (s.pc y).outcome

/-- The numbers of the writes at the tail. -/
def tailIds (s : Net (Fin (m + 1)) γ) : List Nat := (s.node (Fin.last m)).log.map Prod.fst

/-- The tail has only writes of the head. -/
theorem mem_head_of_tail {M : KvMap} {s : Net (Fin (m + 1)) γ} (h : ChainInv M s) {id : Nat}
    (hid : id ∈ tailIds s) : id ∈ (s.node 0).log.map Prod.fst :=
  ((h.prefix_head (Fin.last m)).sublist.map Prod.fst).subset hid

/-- How far the atomic object is with a client's request: a read is performed
once its reply is settled, a write once the tail has it, and until then the
reply the head has settled on is the right one for the tail's map. -/
def Performed (s : Net (Fin (m + 1)) γ) (a : Atomic KvMap Request WireMsg)
    (y : Link (Fin (m + 1)) γ) (call : Call) : Prop :=
  match call.request with
  | .read q => a.status call.id = some ((outcome s y).elim (.called (.read q)) (.done (.read q)))
  | .write w =>
    (call.id ∈ tailIds s ∧
      ∃ r, outcome s y = some r ∧ a.status call.id = some (.done (.write w) r)) ∨
    (call.id ∉ tailIds s ∧ a.status call.id = some (.called (.write w)) ∧
      ∀ r, outcome s y = some r → r = w.replyOn (s.node (Fin.last m)).replica.map)

/-- The atomic object that performs what the chain has performed. -/
structure Linked (s : Net (Fin (m + 1)) γ) (a : Atomic KvMap Request WireMsg) : Prop where
  val : a.val = (s.node (Fin.last m)).replica.map
  history : a.history = s.history
  fresh : ∀ id, s.fresh ≤ id → a.status id = none
  performed : ∀ i c call, s.caller (i, c) = some call → Performed s a (i, .client c) call
  settled : ∀ c id w r, s.caller (0, c) = some ⟨id, .write w⟩ →
    outcome s (0, .client c) = some r → id ∈ (s.node 0).log.map Prod.fst

/-- Numbers that were not given out yet keep no status. -/
theorem Linked.fresh_update {s : Net (Fin (m + 1)) γ} {a : Atomic KvMap Request WireMsg}
    (hl : Linked s a) {id : Nat} (hlt : id < s.fresh) (st : Option (Status Request WireMsg)) :
    ∀ id', s.fresh ≤ id' → Function.update a.status id st id' = none := by
  intro id' hid'
  rw [Function.update_of_ne (Nat.ne_of_gt (Nat.lt_of_lt_of_le hlt hid'))]
  exact hl.fresh id' hid'

theorem Performed.congr {s s' : Net (Fin (m + 1)) γ} {a a' : Atomic KvMap Request WireMsg}
    {y : Link (Fin (m + 1)) γ} {call : Call} (h : Performed s a y call)
    (hout : outcome s' y = outcome s y) (hstatus : a'.status call.id = a.status call.id)
    (hids : tailIds s' = tailIds s)
    (hmap : (s'.node (Fin.last m)).replica.map = (s.node (Fin.last m)).replica.map) :
    Performed s' a' y call := by
  unfold Performed at h ⊢
  rw [hout, hstatus, hids, hmap]
  exact h

theorem Pc.awaits_write {ι : Type} {pc : Pc ι} {k : ι} {c : Call} (h : pc.awaits = some (k, c)) :
    ∃ w, c.request = .write w := by
  cases pc <;> cases h
  exact ⟨_, rfl⟩

/-- Before a thread has a reply for its client, nothing is settled. -/
theorem outcome_busy {s : Net (Fin (m + 1)) γ} {i : Fin (m + 1)} {c : γ}
    (hst : s.Stable Follows (chainNext m)) {call : Call}
    (hcall : (s.pc (i, .client c)).call = some call) :
    s.caller (i, c) = some call ∧ s.replies (i, .client c) = [] ∧
      outcome s (i, .client c) = (s.pc (i, .client c)).outcome := by
  obtain ⟨hcaller, -, hrp⟩ := (hst.inv.client i c (hst.steady.running i)).of_call hcall
  refine ⟨hcaller, hrp, ?_⟩
  unfold outcome
  rw [hrp]

/-- A reply that is on its way to a client has been performed. -/
theorem performed_of_reply {M : KvMap} {s : Net (Fin (m + 1)) γ}
    {a : Atomic KvMap Request WireMsg} (hl : Linked s a) (h : ChainInv M s)
    (hst : s.Stable Follows (chainNext m)) {i : Fin (m + 1)} {c : γ}
    {call : Call} (hcaller : s.caller (i, c) = some call) {r : WireMsg} {rest : List WireMsg}
    (hrp : s.replies (i, .client c) = r :: rest) :
    a.status call.id = some (.done call.request r) := by
  have hout : outcome s (i, .client c) = some r := by
    unfold outcome
    rw [hrp]
  have hold := hl.performed i c call hcaller
  obtain ⟨id, req⟩ := call
  cases req with
  | read q =>
    simp only [Performed, hout, Option.elim_some] at hold
    exact hold
  | write w =>
    obtain rfl := h.writers i c id w hcaller
    rcases hold with ⟨-, r', hr', hs⟩ | ⟨hnot, -, -⟩
    · rw [hout] at hr'
      cases hr'
      exact hs
    · -- the head has it; if the tail did not, its thread would still be forwarding
      have hmem := hl.settled c id w r hcaller hout
      rcases one_in_flight h hst 0 with heq | ⟨o, k, id', w', hf, heq⟩
      · rw [heq] at hmem
        exact absurd hmem hnot
      · rw [heq, List.map_append, List.mem_append] at hmem
        rcases hmem with hmem | hmem
        · exact absurd hmem hnot
        · obtain rfl : id = id' := List.mem_singleton.mp hmem
          rcases h.origin hst hf.call with ⟨-, c', rfl, hcaller'⟩ | ⟨j, hj, -⟩
          · have hy := hst.numbered.unique _ _ _ _ hcaller hcaller' rfl
            cases hy
            rw [(outcome_busy hst hf.call).2.1] at hrp
            cases hrp
          · exact absurd hj (not_follows_zero j)

section Steps

variable [DecidableEq γ] {M : KvMap} {s : Net (Fin (m + 1)) γ} {x : Link (Fin (m + 1)) γ}
  {n : Node (Fin (m + 1))} {pc : Pc (Fin (m + 1))} {io : Io (Fin (m + 1))}
  {rq : Link (Fin (m + 1)) γ → List Call} {rp : Link (Fin (m + 1)) γ → List WireMsg}

/-! ### Outcomes -/

theorem outcome_other {i : Fin (m + 1)} {c : γ} (hwire : Wire s x io rq rp)
    (hy : (i, .client c) ≠ x) :
    outcome (s.after x n pc rq rp) (i, .client c) = outcome s (i, .client c) := by
  have hrp : rp (i, .client c) = s.replies (i, .client c) := by
    cases hwire with
    | collect _ => exact Function.update_of_ne (by simp) ..
    | send => exact Function.update_of_ne hy ..
    | _ => rfl
  unfold outcome
  rw [after_replies, hrp, after_pc_of_ne hy]

/-- A reply is settled by the look into the table and by the write, and not
changed by anything later. -/
theorem outcome_self {i : Fin (m + 1)} {c : γ} (hst : s.Stable Follows (chainNext m))
    (hstep : ThreadStep (s.node i) (s.pc (i, .client c)) io n pc)
    (hwire : Wire s (i, .client c) io rq rp)
    (hreading : ∀ id q, s.pc (i, .client c) ≠ .reading id q)
    (hwriting : ∀ id w next, s.pc (i, .client c) ≠ .writing id w next) :
    outcome (s.after (i, .client c) n pc rq rp) (i, .client c) = outcome s (i, .client c) := by
  have hstage := hst.inv.client i c (hst.steady.running i)
  unfold outcome
  rw [after_replies, after_pc_self]
  cases hwire with
  | tau =>
    obtain ⟨⟨call, hcall, -⟩, -, -⟩ := hstep.tau_call
    rw [(outcome_busy hst hcall).2.1]
    generalize s.pc (i, .client c) = pc₀ at hstep hreading hwriting ⊢
    cases hstep with
    | read => exact absurd rfl (hreading _ _)
    | apply => exact absurd rfl (hwriting _ _ _)
    | _ => rfl
  | accept hrq =>
    obtain ⟨hpc, rfl, -⟩ := hstep.accept_inv
    obtain ⟨-, -, hrp⟩ := hstage.of_requests hrq hpc
    rw [hrp, hpc]
    rfl
  | forward =>
    obtain ⟨id, w, res, -, hpc, rfl, -⟩ := hstep.forward_inv
    rw [hpc]
    rfl
  | collect _ =>
    obtain ⟨id, w, res, hpc, rfl, -⟩ := hstep.collect_inv
    rw [Function.update_of_ne (by simp), hpc]
    rfl
  | lost _ =>
    obtain ⟨id, w, res, hpc, rfl, -⟩ := hstep.lost_inv
    rw [hpc]
    rfl
  | send =>
    obtain ⟨call, hpc, rfl, -⟩ := hstep.send_inv
    obtain ⟨-, -, hrp⟩ := hstage.of_call (show _ = some call by rw [hpc]; rfl)
    rw [Function.update_self, hrp, hpc]
    rfl

/-- The outcome of a thread that has just got its reply. -/
theorem outcome_settled {i : Fin (m + 1)} {c : γ} (hst : s.Stable Follows (chainNext m))
    {call : Call} (hcall : (s.pc (i, .client c)).call = some call) :
    outcome (s.after (i, .client c) n pc s.requests s.replies) (i, .client c) = pc.outcome := by
  unfold outcome
  rw [after_replies, after_pc_self, (outcome_busy hst hcall).2.1]

/-- The clients of other requests have the replies they had. -/
theorem outcome_other_call (hst : s.Stable Follows (chainNext m)) (hwire : Wire s x io rq rp)
    {own : Call} (hcall : (s.pc x).call = some own) {i : Fin (m + 1)} {c : γ} {call : Call}
    (hc : s.caller (i, c) = some call) (hid : call.id ≠ own.id) :
    outcome (s.after x n pc rq rp) (i, .client c) = outcome s (i, .client c) := by
  refine outcome_other hwire fun hy => hid ?_
  subst hy
  have hcaller := (outcome_busy hst hcall).1
  rw [hc] at hcaller
  cases hcaller
  rfl

/-! ### Steps that perform nothing -/

theorem Linked.stutter {a : Atomic KvMap Request WireMsg} (hl : Linked s a)
    (hlog : ∀ i, ((s.after x n pc rq rp).node i).log = (s.node i).log)
    (hmap : ((s.after x n pc rq rp).node (Fin.last m)).replica.map
      = (s.node (Fin.last m)).replica.map)
    (hout : ∀ i c call, s.caller (i, c) = some call →
      outcome (s.after x n pc rq rp) (i, .client c) = outcome s (i, .client c)) :
    Linked (s.after x n pc rq rp) a where
  val := by
    rw [hmap]
    exact hl.val
  history := hl.history
  fresh := hl.fresh
  performed := by
    intro i c call hcaller
    refine (hl.performed i c call hcaller).congr (hout i c call hcaller) rfl ?_ hmap
    unfold tailIds
    rw [hlog]
  settled := by
    intro c id w r hcaller hr
    rw [hout 0 c _ hcaller] at hr
    rw [hlog]
    exact hl.settled c id w r hcaller hr

/-! ### Reads -/

omit [DecidableEq γ] in
/-- Nobody writes on a server where a client reads, so it has what the tail has. -/
theorem map_of_reading (h : ChainInv M s) (hst : s.Stable Follows (chainNext m))
    {i : Fin (m + 1)} {c : γ} {id : Nat} {q : Query} (hpc : s.pc (i, .client c) = .reading id q) :
    (s.node i).replica.map = (s.node (Fin.last m)).replica.map := by
  refine map_eq_tail h hst fun o k id' w hf => ?_
  exact (hst.inv.locks i).exclusion o (.client c) hf.side (by rw [hpc]; rfl)

omit [DecidableEq γ] in
/-- What the thread finds in its table is right for the tail's map. -/
theorem answers_of_reading (h : ChainInv M s) (hst : s.Stable Follows (chainNext m))
    (hfit : FramesFit s) {i : Fin (m + 1)} {c : γ} {id : Nat} {q : Query}
    (hpc : s.pc (i, .client c) = .reading id q) {r : WireMsg}
    (hreply : (s.node i).replica.answer q = some r) :
    Answers (s.node (Fin.last m)).replica.map q r := by
  rw [← map_of_reading h hst hpc]
  refine answer_spec hreply (fun hq => ?_) fun hq => ?_
  · subst hq
    exact (hfit (i, .client c) id).1 hpc
  · subst hq
    exact (hfit (i, .client c) id).2 hpc

/-- With a reply to give, the thread has performed its read. -/
theorem Linked.perform_read {a : Atomic KvMap Request WireMsg} (hl : Linked s a)
    (hst : s.Stable Follows (chainNext m)) {i : Fin (m + 1)} {c : γ} {id : Nat} {q : Query}
    (hcall : (s.pc (i, .client c)).call = some ⟨id, .read q⟩) (r : WireMsg) :
    Linked (s.after (i, .client c) (s.node i) (.readDone id q (some r)) s.requests s.replies)
      { a with status := Function.update a.status id (some (.done (.read q) r)) } := by
  have hcaller := (outcome_busy hst hcall).1
  have hnode : (s.after (i, .client c) (s.node i) (.readDone id q (some r)) s.requests
      s.replies).node = s.node := after_node_same
  constructor
  case val =>
    rw [hnode]
    exact hl.val
  case history => exact hl.history
  case fresh => exact hl.fresh_update (hst.numbered.fresh _ _ hcaller) _
  case performed =>
    intro j c' call hc'
    rw [after_caller] at hc'
    by_cases hid : call.id = id
    · have hy := hst.numbered.unique _ _ _ _ hc' hcaller hid
      cases hy
      rw [hcaller] at hc'
      cases hc'
      show Function.update a.status id _ id = _
      rw [Function.update_self, outcome_settled hst hcall]
      rfl
    · refine (hl.performed j c' call hc').congr (outcome_other_call hst .tau hcall hc' hid)
        (Function.update_of_ne hid ..) ?_ ?_
      · unfold tailIds
        rw [hnode]
      · rw [hnode]
  case settled =>
    -- a write is settled where it was: this thread has a read
    intro c' id' w r' hc' hr'
    rw [after_caller] at hc'
    rw [hnode]
    refine hl.settled c' id' w r' hc' ?_
    rw [← hr']
    refine (outcome_other .tau fun hy => ?_).symm
    cases hy
    rw [hcaller] at hc'
    cases hc'

/-- A read that `invoke` answers takes effect when the thread looks into the
table. -/
theorem Linked.look {a : Atomic KvMap Request WireMsg} (hl : Linked s a) (h : ChainInv M s)
    (hst : s.Stable Follows (chainNext m)) (hfit : FramesFit s) {id : Nat} {q : Query}
    (hpc : s.pc x = .reading id q) : ∃ a',
      Relation.ReflTransGen (Atomic.Step (kvSpec M)) a a' ∧
      Linked (s.after x (s.node x.1) (.readDone id q ((s.node x.1).replica.answer q)) s.requests
        s.replies) a' := by
  obtain ⟨i, o⟩ := x
  have hcall : (s.pc (i, o)).call = some ⟨id, .read q⟩ := by
    rw [hpc]
    rfl
  cases o with
  | peer j =>
    -- a handle carries no reads
    obtain ⟨out, hstage, hout⟩ := hst.inv.peer i j (hst.steady.running i)
    obtain ⟨rfl, -, -⟩ := hstage.of_call hcall
    obtain ⟨o', ho'⟩ := (hout _).mp rfl
    obtain ⟨w, hw⟩ := Pc.awaits_write ho'
    cases hw
  | client c =>
    obtain ⟨hcaller, -, hnone⟩ := outcome_busy hst hcall
    rw [hpc] at hnone
    have hstatus := hl.performed i c _ hcaller
    simp only [Performed, hnone] at hstatus
    cases hreply : (s.node i).replica.answer q with
    | none =>
      refine ⟨a, .refl, hl.stutter (fun j => ?_) ?_ fun j c' call hc' => ?_⟩
      · rw [after_node_same]
      · rw [after_node_same]
      · by_cases hy : (j, .client c') = ((i, .client c) : Link (Fin (m + 1)) γ)
        · cases hy
          rw [outcome_settled hst hcall, hnone]
          rfl
        · exact outcome_other .tau hy
    | some r =>
      have hspec : Answers a.val q r := by
        rw [hl.val]
        exact answers_of_reading h hst hfit hpc hreply
      exact ⟨_, .single (.act hstatus ⟨hspec, rfl⟩), hl.perform_read hst hcall r⟩

/-! ### Writes -/

/-- The state after a write section's body. -/
def afterApply (s : Net (Fin (m + 1)) γ) (x : Link (Fin (m + 1)) γ) (id : Nat) (w : Write)
    (next : Option (Fin (m + 1))) : Net (Fin (m + 1)) γ :=
  s.after x
    { s.node x.1 with
      replica := ((s.node x.1).replica.write w).2
      log := (s.node x.1).log ++ [(id, w)] }
    (.applied id w ((s.node x.1).replica.write w).1 next) s.requests s.replies

/-- A client's own write settles its reply, on the map it finds. -/
theorem outcome_apply {i : Fin (m + 1)} {c : γ} (hst : s.Stable Follows (chainNext m)) {id : Nat}
    {w : Write} {next : Option (Fin (m + 1))} (hpc : s.pc (i, .client c) = .writing id w next) :
    outcome (afterApply s (i, .client c) id w next) (i, .client c)
      = some (w.replyOn (s.node i).replica.map) := by
  have hcall : (s.pc (i, .client c)).call = some ⟨id, .write w⟩ := by
    rw [hpc]
    rfl
  unfold afterApply
  rw [outcome_settled hst hcall]
  exact Replica.reply_write _ _

/-- The head's log only grows. -/
theorem mem_head_afterApply {id id' : Nat} {w : Write} {next : Option (Fin (m + 1))}
    (hid' : id' ∈ (s.node 0).log.map Prod.fst) :
    id' ∈ ((afterApply s x id w next).node 0).log.map Prod.fst := by
  unfold afterApply
  by_cases h0 : 0 = x.1
  · rw [h0] at hid' ⊢
    rw [after_node_self, List.map_append]
    exact List.mem_append_left _ hid'
  · rw [after_node_of_ne h0]
    exact hid'

/-- The tail applies the write. -/
theorem tail_afterApply (hx : x.1 = Fin.last m) {id : Nat} {w : Write}
    {next : Option (Fin (m + 1))} : (afterApply s x id w next).node (Fin.last m)
      = { s.node (Fin.last m) with
          replica := ((s.node (Fin.last m)).replica.write w).2
          log := (s.node (Fin.last m)).log ++ [(id, w)] } := by
  unfold afterApply
  rw [hx, ← hx]
  exact after_node_self

theorem mem_tailIds_afterApply (hx : x.1 = Fin.last m) {id id' : Nat} {w : Write}
    {next : Option (Fin (m + 1))} :
    id' ∈ tailIds (afterApply s x id w next) ↔ id' ∈ tailIds s ∨ id' = id := by
  unfold tailIds
  rw [tail_afterApply hx, List.map_append, List.mem_append]
  simp

/-- A write applied before the tail settles the reply at the head and performs
nothing. -/
theorem Linked.apply_before {a : Atomic KvMap Request WireMsg} (hl : Linked s a)
    (h : ChainInv M s) (hst : s.Stable Follows (chainNext m)) {id : Nat} {w : Write}
    {next : Option (Fin (m + 1))} (hpc : s.pc x = .writing id w next) (hx : x.1 ≠ Fin.last m) :
    Linked (afterApply s x id w next) a := by
  have hlast : (afterApply s x id w next).node (Fin.last m) = s.node (Fin.last m) :=
    after_node_of_ne (Ne.symm hx)
  have hids : tailIds (afterApply s x id w next) = tailIds s := by
    unfold tailIds
    rw [hlast]
  refine ⟨?_, hl.history, hl.fresh, fun i c call hcaller => ?_, fun c id' w' r hcaller hr => ?_⟩
  · rw [hlast]
    exact hl.val
  · have hcaller' : s.caller (i, c) = some call := hcaller
    by_cases hy : (i, .client c) = x
    · subst hy
      have hcall : (s.pc (i, .client c)).call = some ⟨id, .write w⟩ := by
        rw [hpc]
        rfl
      have hthis := (outcome_busy hst hcall).1
      rw [hcaller'] at hthis
      cases hthis
      obtain rfl := h.writers i c id w hcaller'
      have hnew : id ∉ tailIds s := fun hin =>
        h.unapplied c id w hcaller' (Or.inr (by rw [hpc]; exact Option.some_ne_none _))
          (mem_head_of_tail h hin)
      rcases hl.performed 0 c _ hcaller' with ⟨hin, -⟩ | ⟨-, hstatus, -⟩
      · exact absurd hin hnew
      · refine Or.inr ⟨?_, hstatus, fun r hr => ?_⟩
        · rw [hids]
          exact hnew
        · rw [outcome_apply hst hpc] at hr
          cases hr
          rw [hlast, map_of_writing h hst hpc]
    · exact (hl.performed i c call hcaller').congr (outcome_other .tau hy) rfl hids (by rw [hlast])
  · have hcaller' : s.caller (0, c) = some ⟨id', .write w'⟩ := hcaller
    by_cases hy : (0, .client c) = x
    · subst hy
      have hthis := (outcome_busy hst
        (show (s.pc (0, .client c)).call = some ⟨id, .write w⟩ by rw [hpc]; rfl)).1
      rw [hcaller'] at hthis
      cases hthis
      unfold afterApply
      rw [after_node_self, List.map_append]
      exact List.mem_append_right _ (List.mem_singleton.mpr rfl)
    · unfold afterApply at hr
      rw [outcome_other .tau hy] at hr
      exact mem_head_afterApply (hl.settled c id' w' r hcaller' hr)

omit [DecidableEq γ] in
/-- A thread that forwards a write has settled its reply. -/
theorem outcome_of_forwards (hst : s.Stable Follows (chainNext m)) {k : Fin (m + 1)} {id : Nat}
    {w : Write} (hf : (s.pc x).Forwards k id w) : ∃ r, (s.pc x).outcome = some r := by
  refine Option.ne_none_iff_exists'.mp ?_
  have hacked := hst.answers.acked x
  rcases hf with ⟨res, hf⟩ | ⟨res, hf⟩
  · rw [hf] at hacked ⊢
    exact hacked
  · rw [hf] at hacked ⊢
    exact hacked

/-- Whose write the tail applies: a client of the head waits for it, its reply
is settled and is the right one, and the head has nothing further. -/
theorem tail_apply {a : Atomic KvMap Request WireMsg} (hl : Linked s a) (h : ChainInv M s)
    (hst : s.Stable Follows (chainNext m)) {id : Nat} {w : Write} {next : Option (Fin (m + 1))}
    (hpc : s.pc x = .writing id w next) (hx : x.1 = Fin.last m) (hafter : ChainInv M
      (afterApply s x id w next)) :
    ∃ c, s.caller (0, c) = some ⟨id, .write w⟩ ∧ id ∉ tailIds s ∧
      outcome (afterApply s x id w next) (0, .client c)
        = some (w.replyOn (s.node (Fin.last m)).replica.map) ∧
      ((afterApply s x id w next).node 0).log
        = ((afterApply s x id w next).node (Fin.last m)).log := by
  have htail : ((afterApply s x id w next).node (Fin.last m)).log
      = (s.node (Fin.last m)).log ++ [(id, w)] := by
    rw [tail_afterApply hx]
  by_cases hx0 : x.1 = 0
  · obtain ⟨i, o⟩ := x
    dsimp only at hx hx0
    subst hx0
    rcases h.origin hst (show (s.pc (0, o)).call = some ⟨id, .write w⟩ by rw [hpc]; rfl) with
      ⟨-, c, rfl, hcaller⟩ | ⟨i, hi, -⟩
    · refine ⟨c, hcaller, fun hin => ?_, ?_, by rw [← hx]⟩
      · exact h.unapplied c id w hcaller (Or.inr (by rw [hpc]; exact Option.some_ne_none _))
          (mem_head_of_tail h hin)
      · rw [outcome_apply hst hpc, ← hx]
    · exact absurd hi (not_follows_zero i)
  · have hnode : (afterApply s x id w next).node 0 = s.node 0 := after_node_of_ne (Ne.symm hx0)
    -- the head's log extends the tail's, which now ends with this write
    have hpre := hafter.prefix_head (Fin.last m)
    rw [htail, hnode] at hpre
    have hlen := hpre.length_le
    rw [List.length_append, List.length_singleton] at hlen
    rcases one_in_flight h hst 0 with heq | ⟨o, k, id', w', hf, heq⟩
    · rw [heq] at hlen
      omega
    · rw [heq] at hpre
      have hlast : [(id, w)] = [(id', w')] := by
        have hsame := hpre.eq_of_length (by simp)
        exact List.append_cancel_left hsame
      cases hlast
      rcases h.origin hst hf.call with ⟨-, c, rfl, hcaller⟩ | ⟨i, hi, -⟩
      · have hnew : id ∉ tailIds s := by
          have hnd := h.nodup
          rw [heq, List.map_append] at hnd
          intro hin
          exact (List.nodup_append.mp hnd).2.2 id hin id (List.mem_singleton.mpr rfl) rfl
        refine ⟨c, hcaller, hnew, ?_, by rw [hnode, htail, heq]⟩
        have hne : (0, .client c) ≠ x := fun he => hx0 (congrArg Prod.fst he).symm
        unfold afterApply
        rw [outcome_other .tau hne, (outcome_busy hst hf.call).2.2]
        obtain ⟨r, hr⟩ := outcome_of_forwards hst hf
        rcases hl.performed 0 c _ hcaller with ⟨hin, -⟩ | ⟨-, -, hright⟩
        · exact absurd hin hnew
        · rw [hr, hright r (by rw [(outcome_busy hst hf.call).2.2, hr])]
      · exact absurd hi (not_follows_zero i)

/-- A write takes effect when the tail applies it. -/
theorem Linked.apply_tail {a : Atomic KvMap Request WireMsg} (hl : Linked s a)
    (h : ChainInv M s) (hst : s.Stable Follows (chainNext m)) {id : Nat} {w : Write}
    {next : Option (Fin (m + 1))} (hpc : s.pc x = .writing id w next) (hx : x.1 = Fin.last m)
    (hafter : ChainInv M (afterApply s x id w next)) : ∃ a',
      Relation.ReflTransGen (Atomic.Step (kvSpec M)) a a' ∧
      Linked (afterApply s x id w next) a' := by
  obtain ⟨c, hcaller, hnew, hout, hlogs⟩ := tail_apply hl h hst hpc hx hafter
  have hmap : ((afterApply s x id w next).node (Fin.last m)).replica.map
      = w.onMap (s.node (Fin.last m)).replica.map := by
    rw [tail_afterApply hx]
    exact Replica.write_map _ _
  have hids {id' : Nat} :
      id' ∈ tailIds (afterApply s x id w next) ↔ id' ∈ tailIds s ∨ id' = id :=
    mem_tailIds_afterApply hx
  have hcall : (s.pc x).call = some ⟨id, .write w⟩ := by
    rw [hpc]
    rfl
  have hother {i : Fin (m + 1)} {c' : γ} {call : Call} (hc : s.caller (i, c') = some call)
      (hid : call.id ≠ id) :
      outcome (afterApply s x id w next) (i, .client c') = outcome s (i, .client c') :=
    outcome_other_call hst .tau hcall hc hid
  have hstatus : a.status id = some (.called (.write w)) := by
    rcases hl.performed 0 c _ hcaller with ⟨hin, -⟩ | ⟨-, hstatus, -⟩
    · exact absurd hin hnew
    · exact hstatus
  refine ⟨_, .single (.act hstatus ⟨rfl, rfl⟩), ?_, hl.history,
    hl.fresh_update (hst.numbered.fresh _ _ hcaller) _,
    fun i c' call hc' => ?_, fun c' id' w' r hc' hr => ?_⟩
  · rw [hmap, hl.val]
  · have hc : s.caller (i, c') = some call := hc'
    by_cases hid : call.id = id
    · have hy := hst.numbered.unique _ _ _ _ hc hcaller hid
      cases hy
      rw [hcaller] at hc
      cases hc
      refine Or.inl ⟨hids.mpr (Or.inr rfl), _, hout, ?_⟩
      show Function.update a.status id _ id = _
      rw [Function.update_self, hl.val]
    · have hold := hl.performed i c' call hc
      obtain ⟨cid, req⟩ := call
      cases req with
      | read q =>
        show Function.update a.status id _ cid = _
        rw [Function.update_of_ne hid, hother hc hid]
        exact hold
      | write w' =>
        rcases hold with ⟨hin, r, hr, hs⟩ | ⟨hnot, hs, -⟩
        · refine Or.inl ⟨hids.mpr (Or.inl hin), r, ?_, ?_⟩
          · rw [hother hc hid]
            exact hr
          · show Function.update a.status id _ cid = _
            rw [Function.update_of_ne hid]
            exact hs
        · refine Or.inr ⟨fun hin => (hids.mp hin).elim hnot hid, ?_, fun r hr => ?_⟩
          · show Function.update a.status id _ cid = _
            rw [Function.update_of_ne hid]
            exact hs
          · obtain rfl := h.writers i c' cid w' hc
            rw [hother hc hid] at hr
            have hin : cid ∈ tailIds (afterApply s x id w next) := by
              unfold tailIds
              rw [← hlogs]
              exact mem_head_afterApply (hl.settled c' cid w' r hc hr)
            exact absurd hin fun hin => (hids.mp hin).elim hnot hid
  · have hc : s.caller (0, c') = some ⟨id', .write w'⟩ := hc'
    rw [hlogs]
    by_cases hid : id' = id
    · exact hids.mpr (Or.inr hid)
    · rw [hother hc hid] at hr
      rw [← hlogs]
      exact mem_head_afterApply (hl.settled c' id' w' r hc hr)

/-! ### Clients -/

theorem Linked.ret {a : Atomic KvMap Request WireMsg} (hl : Linked s a) (h : ChainInv M s)
    (hst : s.Stable Follows (chainNext m)) {i : Fin (m + 1)} {c : γ} {call : Call}
    (hcaller : s.caller (i, c) = some call) {r : WireMsg} {rest : List WireMsg}
    (hrp : s.replies (i, .client c) = r :: rest) : ∃ a',
      Relation.ReflTransGen (Atomic.Step (kvSpec M)) a a' ∧
      Linked (s.deliver i c call r rest) a' := by
  have hstatus := performed_of_reply hl h hst hcaller hrp
  have hother : ∀ j c' call', (s.deliver i c call r rest).caller (j, c') = some call' →
      s.caller (j, c') = some call' ∧ call'.id ≠ call.id ∧ (j, c') ≠ (i, c) := by
    intro j c' call' hc'
    obtain ⟨hy, hold⟩ := caller_deliver hc'
    exact ⟨hold, fun hid => hy (hst.numbered.unique _ _ _ _ hold hcaller hid), hy⟩
  have hout : ∀ j c', (j, c') ≠ (i, c) →
      outcome (s.deliver i c call r rest) (j, .client c') = outcome s (j, .client c') := by
    intro j c' hne
    have hy : ((j, .client c') : Link (Fin (m + 1)) γ) ≠ (i, .client c) := by
      intro he
      cases he
      exact hne rfl
    unfold outcome
    dsimp only [Net.deliver]
    rw [Function.update_of_ne hy]
  have hhistory : a.history ++ [.ret call.id r] = (s.deliver i c call r rest).history := by
    rw [hl.history]
    rfl
  refine ⟨_, .single (.ret hstatus), hl.val, hhistory,
    hl.fresh_update (hst.numbered.fresh _ _ hcaller) _,
    fun j c' call' hc' => ?_, fun c' id w r' hc' hr' => ?_⟩
  · obtain ⟨hold, hid, hne⟩ := hother j c' call' hc'
    exact (hl.performed j c' call' hold).congr (hout j c' hne) (Function.update_of_ne hid ..)
      rfl rfl
  · obtain ⟨hold, hid, hne⟩ := hother 0 c' _ hc'
    rw [hout 0 c' hne] at hr'
    exact hl.settled c' id w r' hold hr'

theorem Linked.submit {a : Atomic KvMap Request WireMsg} (hl : Linked s a) (h : ChainInv M s)
    (hst : s.Stable Follows (chainNext m)) {s' : Net (Fin (m + 1)) γ}
    (hs : Submit headWrites s s') : ∃ a',
      Relation.ReflTransGen (Atomic.Step (kvSpec M)) a a' ∧ Linked s' a' := by
  cases hs with
  | @call i c req hadmits hcaller =>
    have hstatus : a.status s.fresh = none := hl.fresh s.fresh (Nat.le_refl _)
    have hidle : outcome s (i, .client c) = none := by
      have hstage := hst.inv.client i c (hst.steady.running i)
      rw [hcaller] at hstage
      unfold outcome
      generalize s.replies (i, .client c) = rp₀ at hstage ⊢
      generalize s.requests (i, .client c) = rq₀ at hstage
      generalize s.pc (i, .client c) = pc₀ at hstage ⊢
      cases hstage with
      | quiet => rfl
      | closed => rfl
    have hhistory : a.history ++ [.call s.fresh req] = (s.submit i c req).history := by
      rw [hl.history]
      rfl
    refine ⟨_, .single (@Atomic.Step.call _ _ _ _ a s.fresh req hstatus), hl.val, hhistory,
      fun id hid => ?_, fun j c' call' hc' => ?_, fun c' id w r hc' hr => ?_⟩
    · have hne : id ≠ s.fresh := by
        intro he
        rw [he] at hid
        exact absurd (Nat.lt_succ_self _) (not_lt.mpr hid)
      show Function.update a.status s.fresh _ id = none
      rw [Function.update_of_ne hne]
      exact hl.fresh id (Nat.le_of_succ_le hid)
    · rcases caller_submit hc' with ⟨hy, rfl⟩ | ⟨-, hold⟩
      · cases hy
        cases req with
        | read q =>
          show Function.update a.status s.fresh _ s.fresh
            = some ((outcome s (i, .client c)).elim (.called (.read q)) (.done (.read q)))
          rw [Function.update_self, hidle]
          rfl
        | write w =>
          refine Or.inr ⟨fun hin => ?_, ?_, fun r hr => ?_⟩
          · obtain ⟨e, he, hid⟩ := List.mem_map.mp (mem_head_of_tail h hin)
            have hlt := h.fresh e he
            dsimp only at hid
            omega
          · show Function.update a.status s.fresh _ s.fresh = _
            rw [Function.update_self]
          · have hr' : outcome s (i, .client c) = some r := hr
            rw [hidle] at hr'
            cases hr'
      · have hid : call'.id ≠ s.fresh := Nat.ne_of_lt (hst.numbered.fresh _ _ hold)
        exact (hl.performed j c' call' hold).congr rfl (Function.update_of_ne hid ..) rfl rfl
    · rcases caller_submit hc' with ⟨hy, -⟩ | ⟨-, hold⟩
      · cases hy
        have hr' : outcome s (0, .client c) = some r := hr
        rw [hidle] at hr'
        cases hr'
      · exact hl.settled c' id w r hold hr

/-- A step of a thread is the atomic step it performs, or none. -/
theorem Linked.thread {a : Atomic KvMap Request WireMsg} (hl : Linked s a) (h : ChainInv M s)
    (hst : s.Stable Follows (chainNext m)) (hfit : FramesFit s)
    (hstep : ThreadStep (s.node x.1) (s.pc x) io n pc) (hwire : Wire s x io rq rp)
    (hafter : ChainInv M (s.after x n pc rq rp)) : ∃ a',
      Relation.ReflTransGen (Atomic.Step (kvSpec M)) a a' ∧ Linked (s.after x n pc rq rp) a' := by
  by_cases hwriting : ∃ id w next, s.pc x = .writing id w next
  · obtain ⟨id, w, next, hpc⟩ := hwriting
    have hstep' := hstep
    rw [hpc] at hstep'
    obtain ⟨rfl, rfl, rfl⟩ := hstep'.writing_inv
    cases hwire
    by_cases hx : x.1 = Fin.last m
    · exact hl.apply_tail h hst hpc hx hafter
    · exact ⟨a, .refl, hl.apply_before h hst hpc hx⟩
  · have hnotw : ∀ id w next, s.pc x ≠ .writing id w next := fun id w next he =>
      hwriting ⟨id, w, next, he⟩
    by_cases hreading : ∃ id q, s.pc x = .reading id q
    · obtain ⟨id, q, hpc⟩ := hreading
      rw [hpc] at hstep
      cases hstep with
      | read =>
        cases hwire
        exact hl.look h hst hfit hpc
    · refine ⟨a, .refl, hl.stutter (fun i => (after_data hstep hnotw i).2) ?_
        fun i c call hcaller => ?_⟩
      · rw [(after_data hstep hnotw (Fin.last m)).1]
      · by_cases hy : (i, .client c) = x
        · subst hy
          exact outcome_self hst hstep hwire (fun id q he => hreading ⟨id, q, he⟩) hnotw
        · exact outcome_other hwire hy

end Steps

/-! ## Linearizability -/

/-- Nobody is about to list the table. -/
def NoListing (s : Net (Fin (m + 1)) γ) : Prop :=
  ∀ x id, s.pc x ≠ .reading id .getKeys ∧ s.pc x ≠ .reading id .getTable

theorem NoListing.framesFit {s : Net (Fin (m + 1)) γ} (h : NoListing s) : FramesFit s :=
  fun x id => ⟨fun he => absurd he (h x id).1, fun he => absurd he (h x id).2⟩

section Answered

variable [DecidableEq γ] {replica : Fin (m + 1) → Replica} {s : Net (Fin (m + 1)) γ}

theorem NoListing.submit (h : NoListing s) (i : Fin (m + 1)) (c : γ) (r : Request) :
    NoListing (s.submit i c r) := h

theorem NoListing.deliver (h : NoListing s) (i : Fin (m + 1)) (c : γ) (call : Call) (r : WireMsg)
    (rest : List WireMsg) : NoListing (s.deliver i c call r rest) := h

/-- Reached in a run without listings. -/
def Unlisted (replica : Fin (m + 1) → Replica) (s : Net (Fin (m + 1)) γ) : Prop :=
  ((chain γ replica).restrict fun s _ => FramesFit s).Reachable s ∧ NoListing s

/-- A thread's step in a run without listings. -/
theorem step_noListing (h : Unlisted replica s) (x : Link (Fin (m + 1)) γ) {n : Node (Fin (m + 1))}
    {pc : Pc (Fin (m + 1))} {io : Io (Fin (m + 1))} {rq : Link (Fin (m + 1)) γ → List Call}
    {rp : Link (Fin (m + 1)) γ → List WireMsg} (hup : (s.node x.1).running = true)
    (hstep : ThreadStep (s.node x.1) (s.pc x) io n pc) (hwire : Wire s x io rq rp)
    (hpc : ∀ id, pc ≠ .reading id .getKeys ∧ pc ≠ .reading id .getTable) :
    Unlisted replica (s.after x n pc rq rp) := by
  refine ⟨h.1.step ⟨Or.inr (.thread hup hstep hwire), h.2.framesFit⟩, fun y id => ?_⟩
  by_cases hy : y = x
  · rw [hy, after_pc_self]
    exact hpc id
  · rw [after_pc_of_ne hy]
    exact h.2 y id

/-- Client `c` of server `i` waits for `call`, and its thread is at `pc`. -/
structure Serves (s : Net (Fin (m + 1)) γ) (i : Fin (m + 1)) (c : γ) (call : Call)
    (history : List (Event Request WireMsg)) (n : Node (Fin (m + 1))) (pc : Pc (Fin (m + 1))) :
    Prop where
  caller : s.caller (i, c) = some call
  replies : s.replies (i, .client c) = []
  history : s.history = history
  node : s.node i = n
  pc : s.pc (i, .client c) = pc

variable {i : Fin (m + 1)} {c : γ} {call : Call} {history : List (Event Request WireMsg)}
  {n n' : Node (Fin (m + 1))} {pc pc' : Pc (Fin (m + 1))}

theorem Serves.after (h : Serves s i c call history n pc) (n' : Node (Fin (m + 1)))
    (pc' : Pc (Fin (m + 1))) (rq : Link (Fin (m + 1)) γ → List Call) :
    Serves (s.after (i, .client c) n' pc' rq s.replies) i c call history n' pc' :=
  ⟨h.caller, h.replies, h.history, Function.update_self .., Function.update_self ..⟩

/-- A step inside the thread. -/
theorem Serves.tau (hs : Unlisted replica s) (h : Serves s i c call history n pc)
    (hup : n.running = true) (hstep : ThreadStep n pc .tau n' pc')
    (hpc : ∀ id, pc' ≠ .reading id .getKeys ∧ pc' ≠ .reading id .getTable) :
    ∃ s' : Net (Fin (m + 1)) γ, Unlisted replica s' ∧ Serves s' i c call history n' pc' := by
  have hstep' : ThreadStep (s.node i) (s.pc (i, .client c)) .tau n' pc' := by
    rw [h.node, h.pc]
    exact hstep
  exact ⟨_, step_noListing hs (i, .client c) (h.node ▸ hup) hstep' .tau hpc, h.after n' pc' _⟩

end Answered

end KvStorage
