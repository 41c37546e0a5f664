import KvStorage.Chain.Sync
import KvStorage.Membership.Join

/-!
# What a joining server misses

N's table is P's at the moment P's thread reads it for N's GETTABLE. From then on
N hears of a write only if P forwards it, and P forwards what a thread applies
with the handle it read before taking the lock. A thread that read
`next_server` when it was still NULL and takes the lock after the snapshot applies
its write and forwards nothing: the write is acknowledged and N never gets it
(`join_loses_update`).

Where such a write changes nothing, and P's table fits its frame, P and N agree
as soon as N serves and no write is under way (`joined_tables_agree`), allocations
succeeding as they do throughout this model. Until N has loaded the snapshot, the
reply that carries it stands for N's table (`Shadow`).
-/

namespace KvStorage

open CLib Linearizability Monitor Net

namespace Joining

variable {ι γ : Type} (J : Joining ι)

/-- P's table fits a frame when it is read for N. -/
def ListingFits (s : Join ι γ) : Prop :=
  ∀ id, s.net.pc J.link = .reading id .getTable →
    messageSize (tableReply (s.net.node J.pred).replica.table) ≤ 65535

/-- Once N's GETTABLE has been read, a write at P that is not to be forwarded
changes nothing. -/
def NoGap (s : Join ι γ) : Prop :=
  J.Taken s → ∀ o id w, s.net.pc (J.pred, o) = .writing id w none →
    w.onMap (s.net.node J.pred).replica.map = (s.net.node J.pred).replica.map

/-- The reply to N's GETTABLE is on its way. -/
def InFlight (s : Join ι γ) (reply : WireMsg) : Prop :=
  (∃ id q, s.net.pc J.link = .readDone id q (some reply)) ∨
    (∃ c, s.net.pc J.link = .sending c (some reply)) ∨ s.net.replies J.link = [reply]

/-- The map N's table has, or will have when the reply has been loaded. -/
def Shadow (s : Join ι γ) (M : KvMap) : Prop :=
  (s.main = .loaded ∨ s.main = .serving) ∧ (s.net.node J.joiner).replica.map = M ∨
    s.main = .asked ∧ ∃ r : Replica, HashableKeys r.map ∧
      messageSize (tableReply r.table) ≤ 65535 ∧ r.map = M ∧ J.InFlight s (tableReply r.table)

/-- Once N's GETTABLE has been read, P's table and N's differ by the write on its
way at most. -/
def Covers (s : Join ι γ) : Prop :=
  J.Taken s → ∃ M, J.Shadow s M ∧
    Sync written (s.net.node J.pred).replica.map M s.net J.pred J.joiner

variable {J} {s : Join ι γ}

/-- N's thread at P works on its GETTABLE and nothing else. -/
theorem Inv.link_call (h : J.Inv s) (hmain : s.main = .asked)
    {c : Call} (hc : (s.net.pc J.link).call = some c) : ∃ id, c = ⟨id, .read .getTable⟩ := by
  obtain ⟨id, hcaller⟩ := h.asked hmain
  obtain ⟨hout, -⟩ := (h.net.client J.pred none (h.running _)).of_call hc
  rw [hcaller] at hout
  cases hout
  exact ⟨id, rfl⟩

/-- Whoever writes at N does so for P. -/
theorem Inv.writer_at_joiner (h : J.Inv s) {o : Origin ι (Option γ)} {id : Nat} {w : Write}
    (hc : (s.net.pc (J.joiner, o)).call = some ⟨id, .write w⟩) : o = .peer J.pred := by
  have hup := h.running J.joiner
  cases o with
  | client c =>
    obtain ⟨hout, -⟩ := (h.net.client J.joiner c hup).of_call hc
    exact absurd hout (h.reads c id w)
  | peer j =>
    obtain ⟨out, hstage, hout⟩ := h.net.peer J.joiner j hup
    obtain ⟨o', ho'⟩ := (hout _).mp (hstage.of_call hc).1
    have hedge : J.Edge j J.joiner := h.net.handle (j, o') J.joiner (Pc.side_of_awaits ho').2.1
    rw [pred_of_edge hedge]

/-- While the snapshot is on its way N's thread has no use for the table. -/
theorem InFlight.not_closed (h : J.Inv s) {reply : WireMsg} (hf : J.InFlight s reply) :
    s.net.pc J.link ≠ .closed := by
  intro hclosed
  rcases hf with ⟨id, q, hpc⟩ | ⟨c, hpc⟩ | hrp
  · rw [hpc] at hclosed
    cases hclosed
  · rw [hpc] at hclosed
    cases hclosed
  · obtain ⟨-, -, hpc, -⟩ := (h.net.client J.pred none (h.running _)).of_replies hrp
    rw [show s.net.pc J.link = _ from hpc] at hclosed
    cases hclosed

/-- P's side of a step: what P's threads apply is forwarded or changes nothing. -/
theorem Inv.forwards_or_idle (h : J.Inv s) (ht : J.Taken s) (hgap : J.NoGap s)
    {x : Link ι (Option γ)} (hx : x.1 = J.pred) {id : Nat} {w : Write} {next : Option ι}
    (hpc : s.net.pc x = .writing id w next) : next = some J.joiner ∨
      w.onMap (s.net.node J.pred).replica.map = (s.net.node J.pred).replica.map := by
  cases next with
  | none =>
    refine Or.inr (hgap ht x.2 id w ?_)
    rw [← hx]
    exact hpc
  | some k =>
    have hedge := h.net.handle x k (by rw [hpc]; rfl)
    rw [hx] at hedge
    rw [joiner_of_edge hedge]
    exact Or.inl rfl

section Thread

variable [DecidableEq ι] [DecidableEq γ] {x : Link ι (Option γ)} {n : Node ι} {pc : Pc ι}
  {io : Io ι} {rq : Link ι (Option γ) → List Call} {rp : Link ι (Option γ) → List WireMsg}

/-- The reply goes on to N. -/
theorem InFlight.thread (h : J.Inv s) {reply : WireMsg} (hf : J.InFlight s reply)
    (hstep : ThreadStep (s.net.node x.1) (s.net.pc x) io n pc) (hwire : Wire s.net x io rq rp) :
    J.InFlight { s with net := s.net.after x n pc rq rp } reply := by
  have hstage := h.net.client J.pred none (h.running _)
  have hreplies := client_replies hwire (i := J.pred) (c := none)
  by_cases hx : J.link = x
  · subst hx
    unfold InFlight
    dsimp only
    rw [after_pc_self, after_replies]
    rcases hf with ⟨id, q, hpc⟩ | ⟨c, hpc⟩ | hrp
    · rw [hpc] at hstep
      cases hstep with
      | endRead => exact Or.inr (Or.inl ⟨_, rfl⟩)
    · obtain ⟨-, -, hnil⟩ := hstage.of_call (show (s.net.pc J.link).call = _ by rw [hpc]; rfl)
      rw [hpc] at hstep
      cases hstep with
      | send =>
        cases hwire with
        | send =>
          refine Or.inr (Or.inr ?_)
          rw [Function.update_self, show s.net.replies J.link = _ from hnil]
          rfl
    · obtain ⟨-, hrq, hpc, -⟩ := hstage.of_replies hrp
      rw [show s.net.pc J.link = _ from hpc] at hstep
      cases hstep with
      | accept _ =>
        cases hwire with
        | accept hrq' =>
          rw [show s.net.requests J.link = _ from hrq] at hrq'
          cases hrq'
  · have hsame : rp J.link = s.net.replies J.link := by
      rcases hreplies with hsame | ⟨he, -⟩
      · exact hsame
      · exact absurd he.symm hx
    unfold InFlight
    dsimp only
    rw [after_pc_of_ne hx, after_replies, hsame]
    exact hf

/-- A step after the snapshot. -/
theorem Covers.thread (hc : J.Covers s) (h : J.Inv s) (ht : J.Taken s) (hgap : J.NoGap s)
    (hstep : ThreadStep (s.net.node x.1) (s.net.pc x) io n pc) (hwire : Wire s.net x io rq rp) :
    J.Covers { s with net := s.net.after x n pc rq rp } := by
  intro _
  obtain ⟨M, hshadow, hsync⟩ := hc ht
  have hup := h.running J.joiner
  have hopen := h.answers.opened J.joiner J.pred
  have hhere : x.1 = J.pred → ∀ id w next, s.net.pc x = .writing id w next →
      next = some J.joiner ∨
        w.onMap (s.net.node J.pred).replica.map = (s.net.node J.pred).replica.map :=
    fun hx id w next hpc => h.forwards_or_idle ht hgap hx hpc
  by_cases hwriting : x.1 = J.joiner ∧ ∃ id w next, s.net.pc x = .writing id w next
  · -- N applies what P has forwarded
    obtain ⟨hx, id, w, next, hpc⟩ := hwriting
    have hlink : x = (J.joiner, .peer J.pred) := by
      have hcall : (s.net.pc (J.joiner, x.2)).call = some ⟨id, .write w⟩ := by
        rw [← hx, show s.net.pc (x.1, x.2) = _ from hpc]
        rfl
      exact Prod.ext hx (h.writer_at_joiner hcall)
    subst hlink
    have hserving : s.main = .serving := by
      by_contra hmain
      exact h.ne_joiner hmain hstep rfl
    have hM : (s.net.node J.joiner).replica.map = M := by
      rcases hshadow with ⟨-, hM⟩ | ⟨hmain, -⟩
      · exact hM
      · rw [hserving] at hmain
        cases hmain
    rw [hpc] at hstep
    obtain ⟨rfl, rfl, rfl⟩ := hstep.writing_inv
    cases hwire
    refine ⟨written (id, w) M, Or.inl ⟨Or.inr hserving, ?_⟩, ?_⟩
    · dsimp only
      rw [after_node_self]
      dsimp only
      rw [Replica.write_map, hM]
      rfl
    · dsimp only
      rw [after_node_of_ne joiner_ne_pred.symm]
      exact Sync.apply_there h.net joiner_ne_pred hup hpc hsync
  · have hdata : ((s.net.after x n pc rq rp).node J.joiner).replica
        = (s.net.node J.joiner).replica := by
      by_cases hx : x.1 = J.joiner
      · exact (after_data hstep (fun id w next he => hwriting ⟨hx, id, w, next, he⟩) _).1
      · rw [after_node_of_ne (Ne.symm hx)]
    refine ⟨M, ?_, Sync.thread h.net joiner_ne_pred hup hopen hstep hwire hhere
      (fun hx id w next he => hwriting ⟨congrArg Prod.fst hx, id, w, next, he⟩) hsync⟩
    rcases hshadow with ⟨hmain, hM⟩ | ⟨hmain, r, hkeys, hfit, hM, hflight⟩
    · exact Or.inl ⟨hmain, by rw [hdata, hM]⟩
    · exact Or.inr ⟨hmain, r, hkeys, hfit, hM, hflight.thread h hstep hwire⟩

/-- Only reading P's table for N takes the snapshot. -/
theorem reading_of_taken (h : J.Inv s) (hbefore : ¬ J.Taken s)
    (hstep : ThreadStep (s.net.node x.1) (s.net.pc x) io n pc) (hwire : Wire s.net x io rq rp)
    (ht : J.Taken { s with net := s.net.after x n pc rq rp }) :
    s.main = .asked ∧ x = J.link ∧ ∃ id, s.net.pc J.link = .reading id .getTable ∧
      pc = .readDone id .getTable ((s.net.node J.pred).replica.answer .getTable) := by
  have hreplies := client_replies hwire (i := J.pred) (c := none)
  rcases ht with hmain | hmain | ⟨hmain, hafter⟩
  · exact absurd (Or.inl hmain) hbefore
  · exact absurd (Or.inr (Or.inl hmain)) hbefore
  · have hmain' : s.main = .asked := hmain
    have hnot : ¬ (s.net.pc J.link).Replied := fun hp =>
      hbefore (Or.inr (Or.inr ⟨hmain', Or.inr hp⟩))
    have hnil : s.net.replies J.link = [] := by
      by_contra hne
      exact hbefore (Or.inr (Or.inr ⟨hmain', Or.inl hne⟩))
    by_cases hx : J.link = x
    · subst hx
      refine ⟨hmain', rfl, ?_⟩
      dsimp only at hafter
      rw [after_pc_self, after_replies] at hafter
      have hcall := fun c => h.link_call hmain' (c := c)
      generalize s.net.pc J.link = pc₀ at hstep hnot hcall ⊢
      have hlater : pc.Replied := by
        rcases hafter with hne | hp
        · rcases hreplies with hsame | ⟨-, r, rfl, -⟩
          · exact absurd (hsame.trans hnil) hne
          · cases hstep with
            | send => exact absurd trivial hnot
        · exact hp
      cases hstep with
      | @read id q =>
        obtain ⟨id', he⟩ := hcall _ rfl
        cases he
        exact ⟨id, rfl, rfl⟩
      | endWrite =>
        obtain ⟨id', he⟩ := hcall _ rfl
        cases he
      | endRead => exact absurd trivial hnot
      | close => exact absurd trivial hnot
      | _ => exact hlater.elim
    · dsimp only at hafter
      rw [after_pc_of_ne hx, after_replies] at hafter
      rcases hafter with hne | hp
      · rcases hreplies with hsame | ⟨he, -⟩
        · exact absurd (hsame.trans hnil) hne
        · exact absurd he.symm hx
      · exact absurd hp hnot

/-- The step that reads P's table for N. -/
theorem covers_of_read (h : J.Inv s) (hup : (s.net.node x.1).running = true)
    (hbefore : ¬ J.Taken s) (hfit : J.ListingFits s)
    (hstep : ThreadStep (s.net.node x.1) (s.net.pc x) io n pc) (hwire : Wire s.net x io rq rp) :
    J.Covers { s with net := s.net.after x n pc rq rp } := by
  intro ht
  obtain ⟨hmain, rfl, id, hpc, hpc'⟩ := reading_of_taken h hbefore hstep hwire ht
  have h' := h.thread hup hstep hwire
  have hsize := hfit id hpc
  have hdata : ((s.net.after J.link n pc rq rp).node J.pred).replica
      = (s.net.node J.pred).replica := by
    refine (after_data hstep (fun id' w next he => ?_) J.pred).1
    rw [hpc] at he
    cases he
  have hself : (s.net.after J.link n pc rq rp).pc J.link
      = .readDone id .getTable (some (tableReply (s.net.node J.pred).replica.table)) := by
    rw [after_pc_self, hpc', Replica.answer_getTable _ hsize]
  refine ⟨(s.net.node J.pred).replica.map, Or.inr ⟨hmain, (s.net.node J.pred).replica, h.hashable,
    hsize, rfl, Or.inl ⟨id, .getTable, hself⟩⟩, Or.inl ⟨by rw [hdata], ?_⟩⟩
  -- P's reader keeps every writer out
  intro id' w hahead
  obtain ⟨o, ho⟩ := hahead.forwards
  refine (h'.net.locks J.pred).exclusion o (.client none) ho.side ?_
  rw [show (s.net.after J.link n pc rq rp).pc (J.pred, .client none) = _ from hself]
  rfl

end Thread

/-! ## Steps of `main`, of the watcher and of clients -/

variable [DecidableEq ι] [DecidableEq γ]

omit [DecidableEq ι] [DecidableEq γ] in
/-- Where nothing moves between P and N and neither table changes. -/
theorem Covers.congr {s' : Join ι γ} (hc : J.Covers s) (ht : J.Taken s' → J.Taken s)
    (hpred : (s'.net.node J.pred).replica = (s.net.node J.pred).replica)
    (hpc : s'.net.pc = s.net.pc)
    (hrq : s'.net.requests (J.joiner, .peer J.pred) = s.net.requests (J.joiner, .peer J.pred))
    (hshadow : ∀ M, J.Shadow s M → J.Shadow s' M) : J.Covers s' := by
  intro ht'
  obtain ⟨M, hM, hsync⟩ := hc (ht ht')
  refine ⟨M, hshadow M hM, ?_⟩
  rw [hpred]
  exact Sync.congr (s := s.net) hpc hrq hsync

theorem Shadow.load (h : J.Inv s) {M : KvMap} (hM : J.Shadow s M) (hmain : s.main = .asked)
    {call : Call} {reply : WireMsg} {rest : List WireMsg} {r : Replica}
    (hrp : s.net.replies J.link = reply :: rest)
    (hrun : IsListing reply → setAntecessor (W := Unit)
      (fun _ => pure (some reply.toMessageT)) (s.net.node J.joiner).replica.table () allocated
        = .ok ((r.table, ()), allocated)) :
    J.Shadow ⟨(s.net.deliver J.pred none call reply rest).setNode J.joiner
      { s.net.node J.joiner with replica := r }, .loaded⟩ M := by
  rcases hM with ⟨he | he, -⟩ | ⟨-, r', hkeys, hfit, hM, hflight⟩
  · rw [hmain] at he
    cases he
  · rw [hmain] at he
    cases he
  · obtain ⟨-, -, hpc, hrest⟩ := (h.net.client J.pred none (h.running _)).of_replies hrp
    have hreply : reply = tableReply r'.table := by
      rcases hflight with ⟨id, q, he⟩ | ⟨c, he⟩ | he
      · rw [show s.net.pc J.link = _ from hpc] at he
        cases he
      · rw [show s.net.pc J.link = _ from hpc] at he
        cases he
      · rw [hrp] at he
        cases he
        rfl
    have hdone := hrun ⟨hreply ▸ hfit, r', hkeys, hreply⟩
    obtain ⟨t, hload, -, hmap⟩ := setAntecessor_listing r'.wf hkeys hfit
      (s.net.node J.joiner).replica.wf (h.empty (by rw [hmain]; decide) (by rw [hmain]; decide))
    rw [hreply, hload] at hdone
    have htable : t = r.table := by
      cases hdone
      rfl
    refine Or.inl ⟨Or.inl rfl, ?_⟩
    dsimp only
    rw [node_setNode_self]
    show r.table.map = M
    rw [← htable, hmap]
    exact hM

theorem Covers.client {s' : Join ι γ} (hc : J.Covers s) (hs : J.Client s s') : J.Covers s' := by
  cases hs with
  | call _ _ => exact hc.congr id rfl rfl (Function.update_of_ne (by simp) ..) fun _ hM => hM

omit [DecidableEq ι] [DecidableEq γ] in
/-- Before N asks, nothing has been answered on its connection. -/
theorem Inv.unanswered (h : J.Inv s) (hmain : s.main = .created) :
    s.net.replies J.link = [] ∧ ¬ (s.net.pc J.link).Replied := by
  have hstage := h.net.client J.pred none (h.running _)
  rw [h.absent (Or.inr hmain)] at hstage
  constructor
  · by_contra hne
    obtain ⟨reply, rest, hrp⟩ := List.exists_cons_of_ne_nil hne
    obtain ⟨⟨c, hno⟩, -⟩ := hstage.of_replies hrp
    cases hno
  · intro hpc
    have hpc' : (s.net.pc (J.pred, .client none)).Replied := hpc
    have hopen : s.net.pc (J.pred, .client none) ≠ .closed := h.opened (Or.inr hmain)
    generalize s.net.pc (J.pred, .client none) = pc₀ at hstage hpc' hopen
    generalize s.net.requests (J.pred, .client none) = rq₀ at hstage
    generalize s.net.replies (J.pred, .client none) = rp₀ at hstage
    cases hstage with
    | quiet => exact hpc'.elim
    | closed => exact absurd rfl hopen

/-- A client program takes its reply. -/
theorem Covers.ret (hc : J.Covers s) {i : ι} {c : Option γ} {call : Call} {r : WireMsg}
    {rest : List WireMsg} (hne : (J.pred, none) ≠ (i, c)) :
    J.Covers { s with net := s.net.deliver i c call r rest } := by
  have hlink : (s.net.deliver i c call r rest).replies J.link = s.net.replies J.link :=
    replies_link_deliver hne
  refine hc.congr (fun ht => ?_) rfl rfl rfl fun M hM => ?_
  · rcases ht with he | he | ⟨he, hrp | hpc⟩
    · exact Or.inl he
    · exact Or.inr (Or.inl he)
    · rw [hlink] at hrp
      exact Or.inr (Or.inr ⟨he, Or.inl hrp⟩)
    · exact Or.inr (Or.inr ⟨he, Or.inr hpc⟩)
  · rcases hM with hM | ⟨hmain, r', hkeys, hsize, hM, hflight⟩
    · exact Or.inl hM
    · refine Or.inr ⟨hmain, r', hkeys, hsize, hM, ?_⟩
      unfold InFlight
      dsimp only
      rw [hlink]
      exact hflight

theorem Covers.internal {s' : Join ι γ} (hc : J.Covers s) (h : J.Inv s) (hfit : J.ListingFits s)
    (hgap : J.NoGap s) (hs : J.Internal s s') : J.Covers s' := by
  cases hs with
  | create _ =>
    rintro (he | he | ⟨he, -⟩) <;> cases he
  | ask hmain _ _ =>
    obtain ⟨hnil, hnot⟩ := h.unanswered hmain
    rintro (he | he | ⟨-, hrp | hpc⟩)
    · cases he
    · cases he
    · exact absurd hnil hrp
    · exact absurd hpc hnot
  | load hmain hcaller hrp hrun =>
    refine hc.congr (fun _ => Or.inr (Or.inr ⟨hmain, Or.inl ?_⟩)) ?_ rfl rfl
      fun M hM => hM.load h hmain hrp hrun
    · rw [hrp]
      exact List.cons_ne_nil _ _
    · dsimp only
      rw [node_setNode_of_ne joiner_ne_pred.symm]
      rfl
  | fail hmain hclosed =>
    have ht : J.Taken s := Or.inr (Or.inr ⟨hmain, Or.inr (by rw [hclosed]; trivial)⟩)
    obtain ⟨M, hM, -⟩ := hc ht
    rcases hM with ⟨he | he, -⟩ | ⟨-, r, -, -, -, hflight⟩
    · rw [hmain] at he
      cases he
    · rw [hmain] at he
      cases he
    · exact absurd hclosed (hflight.not_closed h)
  | enter hmain =>
    refine hc.congr (fun _ => Or.inl hmain) (replica_setNode (by rfl) _) rfl rfl fun M hM => ?_
    rcases hM with ⟨-, hM⟩ | ⟨he, -⟩
    · exact Or.inl ⟨Or.inr rfl, by dsimp only; rw [replica_setNode (by rfl)]; exact hM⟩
    · rw [hmain] at he
      cases he
  | watch _ _ _ =>
    refine hc.congr id (replica_setNode (by rfl) _) rfl rfl fun M hM => ?_
    rcases hM with ⟨hmain, hM⟩ | hM
    · exact Or.inl ⟨hmain, by dsimp only; rw [replica_setNode (by rfl)]; exact hM⟩
    · exact Or.inr hM
  | net hnet hcaller =>
    cases hnet with
    | thread hup hstep hwire =>
      by_cases ht : J.Taken s
      · exact hc.thread h ht hgap hstep hwire
      · exact covers_of_read h hup ht hfit hstep hwire
    | ret hcall _ => exact hc.ret (ne_of_keeps_caller hcall hcaller)

/-! ## Agreement -/

/-- What every state of the run has to meet: P's table fits its frame when N's
GETTABLE reads it, and afterwards what P does not forward changes nothing. -/
def Covered (J : Joining ι) (s : Join ι γ) : Prop := J.ListingFits s ∧ J.NoGap s

theorem covers_of_reachable (h : ((J.system γ).restrict fun s _ => J.Covered s).Reachable s) :
    J.Covers s := by
  have hinv : ∀ s, ((J.system γ).restrict fun s _ => J.Covered s).Reachable s → J.Inv s :=
    fun s hs => inv_of_reachable hs.of_restrict
  refine h.invariant_of (J := J.Covers) hinv ?_ ?_
  · intro s hs
    subst hs
    rintro (he | he | ⟨he, -⟩) <;> cases he
  · intro s s' h _ hc ⟨hs, hfit, hgap⟩
    rcases hs with hs | hs
    · exact hc.client hs
    · exact hc.internal h hfit hgap hs

/-- **A joining server misses nothing that is forwarded.** In every run in which
P's table fits its frame when it is read for N, and in which P from then on
applies no write on a handle read before N became its successor unless the write
changes nothing, P's and N's tables are equal as soon as N serves, is P's
successor, and no write is in flight. -/
theorem joined_tables_agree (J : Joining ι) {s : Join ι γ}
    (hs : ((J.system γ).restrict fun s _ => J.Covered s).Reachable s) :
    s.main = .serving → (s.net.node J.pred).next = some J.joiner → Quiet s.net →
      (s.net.node J.pred).replica.map = (s.net.node J.joiner).replica.map := by
  intro hmain _ hq
  have h := inv_of_reachable hs.of_restrict
  obtain ⟨M, hM, hsync⟩ := covers_of_reachable hs (Or.inr (Or.inl hmain))
  rcases hM with ⟨-, hM⟩ | ⟨he, -⟩
  · rw [hM]
    exact hsync.eq_of_quiet (h.running _) hq
  · rw [hmain] at he
    cases he

omit [DecidableEq ι] [DecidableEq γ] in
/-- Where only N's thread is at work there is no write to miss. -/
theorem covered_of_idle (h : ∀ x, x ≠ J.link → s.net.pc x = .receiving)
    (hlink : (s.net.pc J.link).side ≠ .write) (hfit : J.ListingFits s) : J.Covered s := by
  refine ⟨hfit, fun _ o id w he => ?_⟩
  by_cases hx : (J.pred, o) = J.link
  · rw [← hx, he] at hlink
    exact absurd rfl hlink
  · rw [h _ hx] at he
    cases he

end Joining

open Joining

theorem emptyReplica_fits (k : Nat) : messageSize (tableReply (emptyReplica k).table) ≤ 65535 := by
  have hnil : (emptyReplica k).table.entries = [] := by
    unfold emptyReplica Table.entries
    rw [buckets_replicate, List.flatten_replicate_nil]
  unfold tableReply
  rw [hnil]
  decide

theorem sendsListing {r : Replica} (hfits : messageSize (tableReply r.table) ≤ 65535) (id : Nat)
    (n : Node (Fin 2)) : ThreadStep n (.sending ⟨id, .read .getTable⟩ (r.answer .getTable))
      (.send (tableReply r.table)) n .receiving := by
  rw [Replica.answer_getTable _ hfits]
  exact .send

/-! ### A join between two writes -/

/-- A run in which P forwards what it has to. -/
def CoveredRun (s : Join (Fin 2) Unit) : Prop :=
  ((secondJoins.system Unit).restrict fun s _ => secondJoins.Covered s).Reachable s

/-- No request is under way: N's `main`, P's handle, and the two tables. -/
def Resting (main : MainPc) (next : Option (Fin 2)) (r r' : Replica) (s : Join (Fin 2) Unit) :
    Prop :=
  ∃ log log' history fresh, s = ⟨{ Net.start fun i : Fin 2 =>
    if i.val = 0 then { Node.start r next with log := log }
    else { Node.start r' none with serving := decide (main = .serving), log := log' } with
      history := history, fresh := fresh }, main⟩

theorem Resting.of_net {main : MainPc} {next : Option (Fin 2)} {r r' : Replica}
    {s : Join (Fin 2) Unit} {log log' : List (Nat × Write)} (hmain : s.main = main)
    (hlinks : ∀ x, s.net.pc x = .receiving ∧ s.net.requests x = [] ∧ s.net.replies x = [])
    (hcaller : ∀ y, s.net.caller y = none)
    (hnode : s.net.node 0 = { Node.start r next with log := log })
    (hnode' : s.net.node 1 = { Node.start r' none with
      serving := decide (main = .serving), log := log' }) : Resting main next r r' s := by
  obtain ⟨⟨node, pc, requests, replies, caller, history, fresh⟩, main⟩ := s
  obtain rfl : main = _ := hmain
  obtain rfl := funext fun x => (hlinks x).1
  obtain rfl := funext fun x => (hlinks x).2.1
  obtain rfl := funext fun x => (hlinks x).2.2
  obtain rfl := funext hcaller
  refine ⟨log, log', history, fresh, ?_⟩
  have hnodes : node = fun i : Fin 2 =>
      if i.val = 0 then { Node.start r next with log := log }
      else { Node.start r' none with serving := decide (main = .serving), log := log' } := by
    funext i
    match i with
    | 0 => exact hnode
    | 1 => exact hnode'
  rw [hnodes]
  rfl

/-- Nobody is about to list P's table, and P forwards what it writes or N has not asked. -/
structure Clear (s : Join (Fin 2) Unit) : Prop where
  run : CoveredRun s
  unlisted : ∀ id, s.net.pc secondJoins.link ≠ .reading id .getTable
  forwards : s.main = .starting ∨ ∀ o id w, s.net.pc (0, o) ≠ .writing id w none

theorem Clear.covered {s : Join (Fin 2) Unit} (h : Clear s) : secondJoins.Covered s := by
  refine ⟨fun id he => absurd he (h.unlisted id), fun ht o id w he => ?_⟩
  rcases h.forwards with hmain | hall
  · rcases ht with he' | he' | ⟨he', -⟩
    all_goals
      rw [hmain] at he'
      cases he'
  · exact absurd he (hall o id w)

/-- A step of a thread that neither lists P's table nor lets P write alone. -/
theorem Clear.thread {s : Join (Fin 2) Unit} (h : Clear s) (x : Link (Fin 2) (Option Unit))
    {n : Node (Fin 2)} {pc : Pc (Fin 2)} {io : Io (Fin 2)}
    {rq : Link (Fin 2) (Option Unit) → List Call} {rp : Link (Fin 2) (Option Unit) → List WireMsg}
    (hup : (s.net.node x.1).running = true)
    (hstep : ThreadStep (s.net.node x.1) (s.net.pc x) io n pc) (hwire : Wire s.net x io rq rp)
    (hread : ∀ id, pc ≠ .reading id .getTable)
    (hwrite : s.main = .starting ∨ x.1 = 1 ∨ ∀ id w, pc ≠ .writing id w none) :
    Clear { s with net := s.net.after x n pc rq rp } := by
  refine ⟨h.run.step ⟨Or.inr (.net (.thread hup hstep hwire) rfl), h.covered⟩, fun id => ?_, ?_⟩
  · show (s.net.after x n pc rq rp).pc secondJoins.link ≠ _
    by_cases hx : secondJoins.link = x
    · rw [hx, after_pc_self]
      exact hread id
    · rw [after_pc_of_ne hx]
      exact h.unlisted id
  · rcases h.forwards with hmain | hall
    · exact Or.inl hmain
    · rcases hwrite with hmain | hwrite
      · exact Or.inl hmain
      · refine Or.inr fun o id w => ?_
        show (s.net.after x n pc rq rp).pc (0, o) ≠ _
        by_cases hx : (0, o) = x
        · rcases hwrite with hone | hpc
          · rw [← hx] at hone
            cases hone
          · rw [hx, after_pc_self]
            exact hpc id w
        · rw [after_pc_of_ne hx]
          exact hall o id w

theorem Clear.of_resting {main : MainPc} {next : Option (Fin 2)} {r r' : Replica}
    {s : Join (Fin 2) Unit} (hs : CoveredRun s) (h : Resting main next r r' s) : Clear s := by
  obtain ⟨log, log', history, fresh, rfl⟩ := h
  exact ⟨hs, nofun, Or.inr nofun⟩

/-- A client's PUT at P, before there is a successor. -/
theorem put_alone {r r' : Replica} {s : Join (Fin 2) Unit} (w : Write) (hs : CoveredRun s)
    (h : Resting .starting none r r' s) :
    ∃ s' : Join (Fin 2) Unit, CoveredRun s' ∧ Resting .starting none (r.write w).2 r' s' := by
  have h0 := Clear.of_resting hs h
  obtain ⟨log, log', history, fresh, rfl⟩ := h
  have h1 : Clear _ := ⟨h0.run.step ⟨Or.inl (.call (i := (0 : Fin 2)) (c := ()) (r := .write w)
    (by simp [Admits, secondJoins]) rfl), h0.covered⟩, nofun, Or.inl rfl⟩
  have h2 := h1.thread (0, .client (some ())) rfl (.accept rfl) (.accept rfl) nofun (Or.inl rfl)
  have h3 := h2.thread (0, .client (some ())) rfl .getNextServer .tau nofun (Or.inl rfl)
  have h4 := h3.thread (0, .client (some ())) rfl (.startFree rfl rfl) .tau nofun (Or.inl rfl)
  have h5 := h4.thread (0, .client (some ())) rfl .apply .tau nofun (Or.inl rfl)
  have h6 := h5.thread (0, .client (some ())) rfl .noSuccessor .tau nofun (Or.inl rfl)
  have h7 := h6.thread (0, .client (some ())) rfl .endWrite .tau nofun (Or.inl rfl)
  have h8 := h7.thread (0, .client (some ())) rfl (.acknowledge _ fresh w r) .send nofun
    (Or.inl rfl)
  refine ⟨_, h8.run.step ⟨Or.inr (.net (.ret (i := (0 : Fin 2)) (c := some ()) rfl rfl) rfl),
    h8.covered⟩, .of_net rfl ?_ ?_ rfl rfl⟩
  · rintro ⟨i, o⟩
    match i, o with
    | 0, .client (some ()) => exact ⟨rfl, rfl, rfl⟩
    | 0, .client none => exact ⟨rfl, rfl, rfl⟩
    | 0, .peer _ => exact ⟨rfl, rfl, rfl⟩
    | 1, _ => exact ⟨rfl, rfl, rfl⟩
  · rintro ⟨i, o⟩
    match i, o with
    | 0, some () => rfl
    | 0, none => rfl
    | 1, _ => rfl

/-- A client's PUT at P, which is forwarded to N. -/
theorem put_forwarded {r r' : Replica} {s : Join (Fin 2) Unit} (w : Write) (hs : CoveredRun s)
    (h : Resting .serving (some 1) r r' s) : ∃ s' : Join (Fin 2) Unit,
      CoveredRun s' ∧ Resting .serving (some 1) (r.write w).2 (r'.write w).2 s' := by
  have h0 := Clear.of_resting hs h
  obtain ⟨log, log', history, fresh, rfl⟩ := h
  have h1 : Clear _ := ⟨h0.run.step ⟨Or.inl (.call (i := (0 : Fin 2)) (c := ()) (r := .write w)
    (by simp [Admits, secondJoins]) rfl), h0.covered⟩, nofun, Or.inr nofun⟩
  -- P, up to the call on N
  have h2 := h1.thread (0, .client (some ())) rfl (.accept rfl) (.accept rfl) nofun
    (Or.inr (Or.inr nofun))
  have h3 := h2.thread (0, .client (some ())) rfl .getNextServer .tau nofun
    (Or.inr (Or.inr nofun))
  have h4 := h3.thread (0, .client (some ())) rfl (.startFree rfl rfl) .tau nofun
    (Or.inr (Or.inr nofun))
  have h5 := h4.thread (0, .client (some ())) rfl .apply .tau nofun (Or.inr (Or.inr nofun))
  have h6 := h5.thread (0, .client (some ())) rfl (.forward (k := 1)) .forward nofun
    (Or.inr (Or.inr nofun))
  -- N
  have h7 := h6.thread (1, .peer 0) rfl (.accept rfl) (.accept rfl) nofun (Or.inr (Or.inl rfl))
  have h8 := h7.thread (1, .peer 0) rfl .getNextServer .tau nofun (Or.inr (Or.inl rfl))
  have h9 := h8.thread (1, .peer 0) rfl (.startFree rfl rfl) .tau nofun (Or.inr (Or.inl rfl))
  have h10 := h9.thread (1, .peer 0) rfl .apply .tau nofun (Or.inr (Or.inl rfl))
  have h11 := h10.thread (1, .peer 0) rfl .noSuccessor .tau nofun (Or.inr (Or.inl rfl))
  have h12 := h11.thread (1, .peer 0) rfl .endWrite .tau nofun (Or.inr (Or.inl rfl))
  have h13 := h12.thread (1, .peer 0) rfl (.acknowledge _ fresh w r') .send nofun
    (Or.inr (Or.inl rfl))
  -- P again, and the client
  have h14 := h13.thread (0, .client (some ())) rfl .collect (.collect rfl) nofun
    (Or.inr (Or.inr nofun))
  have h15 := h14.thread (0, .client (some ())) rfl .endWrite .tau nofun (Or.inr (Or.inr nofun))
  have h16 := h15.thread (0, .client (some ())) rfl (.acknowledge _ fresh w r) .send nofun
    (Or.inr (Or.inr nofun))
  refine ⟨_, h16.run.step ⟨Or.inr (.net (.ret (i := (0 : Fin 2)) (c := some ()) rfl rfl) rfl),
    h16.covered⟩, .of_net rfl ?_ ?_ rfl rfl⟩
  · rintro ⟨i, o⟩
    match i, o with
    | 0, .client (some ()) => exact ⟨rfl, rfl, rfl⟩
    | 0, .client none => exact ⟨rfl, rfl, rfl⟩
    | 0, .peer _ => exact ⟨rfl, rfl, rfl⟩
    | 1, .client _ => exact ⟨rfl, rfl, rfl⟩
    | 1, .peer 0 => exact ⟨rfl, rfl, rfl⟩
    | 1, .peer 1 => exact ⟨rfl, rfl, rfl⟩
  · rintro ⟨i, o⟩
    match i, o with
    | 0, some () => rfl
    | 0, none => rfl
    | 1, _ => rfl

/-- N joins while no client asks for anything. -/
theorem joined_at_rest {r r' : Replica} {s : Join (Fin 2) Unit} (hs : CoveredRun s)
    (h : Resting .starting none r r' s) (hkeys : HashableKeys r.map) (hempty : r'.map = ∅)
    (hfits : messageSize (tableReply r.table) ≤ 65535) :
    ∃ (t : Replica) (s' : Join (Fin 2) Unit),
      CoveredRun s' ∧ Resting .serving (some 1) r t s' ∧ t.map = r.map := by
  have h0 := Clear.of_resting hs h
  obtain ⟨log, log', history, fresh, rfl⟩ := h
  obtain ⟨t, hload, hwf, hmap⟩ := setAntecessor_listing r.wf hkeys hfits r'.wf hempty
  have h1 := h0.run.step ⟨Or.inr (.create rfl), h0.covered⟩
  have h2 := h1.step ⟨Or.inr (.ask_pred _ rfl secondJoins.listed_pair),
    covered_of_idle (fun _ _ => rfl) nofun nofun⟩
  have h3 := link_step ⟨h2, fun _ _ => rfl⟩ rfl (.accept rfl) (.accept rfl)
    (covered_of_idle (fun _ _ => rfl) nofun nofun)
  have h4 := link_step h3 rfl .readRequest .tau (covered_of_idle h3.2 nofun nofun)
  have h5 := link_step h4 rfl (.startRead (show ¬ (0 : Int) < 0 by decide)) .tau
    (covered_of_idle h4.2 nofun nofun)
  have h6 := link_step h5 rfl .read .tau (covered_of_idle h5.2 nofun fun _ _ => hfits)
  have h7 := link_step h6 rfl .endRead .tau (covered_of_idle h6.2 nofun nofun)
  have h8 := link_step h7 rfl (sendsListing hfits _ _) .send (covered_of_idle h7.2 nofun nofun)
  have hquiet := h8.2
  have h9 := h8.1.step ⟨Or.inr (.load (r := ⟨t, hwf⟩) rfl rfl rfl fun _ => hload),
    covered_of_idle hquiet nofun nofun⟩
  have h10 := h9.step ⟨Or.inr (.enter rfl), covered_of_idle hquiet nofun nofun⟩
  have h11 := h10.step ⟨Or.inr (.watch_joiner _ (by simp) rfl secondJoins.listed_pair),
    covered_of_idle hquiet nofun nofun⟩
  refine ⟨⟨t, hwf⟩, _, h11, .of_net rfl ?_ ?_ rfl rfl, hmap⟩
  · rintro ⟨i, o⟩
    match i, o with
    | 0, .client (some ()) => exact ⟨rfl, rfl, rfl⟩
    | 0, .client none => exact ⟨rfl, rfl, rfl⟩
    | 0, .peer _ => exact ⟨rfl, rfl, rfl⟩
    | 1, _ => exact ⟨rfl, rfl, rfl⟩
  · rintro ⟨i, o⟩
    match i, o with
    | 0, some () => rfl
    | 0, none => rfl
    | 1, _ => rfl

theorem putA_fits : messageSize (tableReply ((emptyReplica 0).write putA).2.table) ≤ 65535 := by
  decide +kernel

/-- One write before N's GETTABLE and one after P has been told of N: both servers hold both. -/
theorem joined_tables_agree_written : ∃ s : Join (Fin 2) Unit, s.main = .serving ∧
    (s.net.node 0).next = some 1 ∧ (s.net.node 0).replica.map = putB.onMap (putA.onMap ∅) ∧
    (s.net.node 0).replica.map = (s.net.node 1).replica.map := by
  have hstart : Resting .starting none (emptyReplica 0) (emptyReplica 1)
      ⟨Net.start fun i => { Node.start (secondJoins.replica i) (secondJoins.next i) with
        serving := decide (i ≠ secondJoins.joiner) }, .starting⟩ :=
    .of_net rfl (fun _ => ⟨rfl, rfl, rfl⟩) (fun _ => rfl) rfl rfl
  obtain ⟨s₁, hs₁, h₁⟩ := put_alone putA (.init rfl) hstart
  have hkeys : HashableKeys ((emptyReplica 0).write putA).2.map := by
    rw [Replica.write_map]
    exact secondJoins.hashable.onMap putA
  obtain ⟨t, s₂, hs₂, h₂, -⟩ := joined_at_rest hs₁ h₁ hkeys (map_emptyReplica 1) putA_fits
  obtain ⟨s, hs, log, log', history, fresh, rfl⟩ := put_forwarded putB hs₂ h₂
  refine ⟨_, rfl, rfl, ?_, joined_tables_agree secondJoins hs rfl rfl ?_⟩
  · show ((((emptyReplica 0).write putA).2).write putB).2.map = _
    rw [Replica.write_map, Replica.write_map, map_emptyReplica]
  · exact fun _ _ _ _ => ⟨List.not_mem_nil, nofun⟩

/-! ### A write that reads the handle too early -/

/-- A PUT reads `next_server` before P's watcher is told of N, and takes P's lock
after the snapshot. -/
theorem join_loses_update : ∃ s : Join (Fin 2) Unit, (secondJoins.system Unit).Reachable s ∧
    s.main = .serving ∧ (s.net.node secondJoins.pred).next = some secondJoins.joiner ∧
    Quiet s.net ∧
    (s.net.node secondJoins.pred).replica.map ≠ (s.net.node secondJoins.joiner).replica.map := by
  have hreply : ∀ n : Node (Fin 2),
      ThreadStep n (.sending ⟨1, .write putA⟩ (putA.reply ((emptyReplica 0).write putA).1))
        (.send (putA.replyOn ∅)) n .receiving := by
    intro n
    rw [Replica.reply_write, map_emptyReplica]
    exact .send
  obtain ⟨t, hload, hwf, hmap⟩ := setAntecessor_listing (emptyReplica 0).wf secondJoins.hashable
    (emptyReplica_fits 0) (emptyReplica 1).wf (map_emptyReplica 1)
  have h0 := Transition.System.Reachable.init (M := secondJoins.system Unit) rfl
  have h1 := h0.step (Or.inr (.create rfl))
  have h2 := h1.step (Or.inr (.ask_pred _ rfl secondJoins.listed_pair))
  have h3 := h2.step (Or.inl (.call (i := (0 : Fin 2)) (c := ()) (r := .write putA)
    (by simp [Admits, secondJoins]) rfl))
  have h4 := h3.step (Or.inr (.net (.thread (x := (0, .client (some ()))) rfl
    (.accept rfl) (.accept rfl)) rfl))
  have h5 := h4.step (Or.inr (.net (.thread (x := (0, .client (some ()))) rfl
    .getNextServer .tau) rfl))
  -- the snapshot
  have h6 := h5.step (Or.inr (.net (.thread (x := (0, .client none)) rfl
    (.accept rfl) (.accept rfl)) rfl))
  have h7 := h6.step (Or.inr (.net (.thread (x := (0, .client none)) rfl .readRequest .tau) rfl))
  have h8 := h7.step (Or.inr (.net (.thread (x := (0, .client none)) rfl
    (.startRead (show ¬ (0 : Int) < 0 by decide)) .tau) rfl))
  have h9 := h8.step (Or.inr (.net (.thread (x := (0, .client none)) rfl .read .tau) rfl))
  have h10 := h9.step (Or.inr (.net (.thread (x := (0, .client none)) rfl .endRead .tau) rfl))
  have h11 := h10.step
    (Or.inr (.net (.thread (x := (0, .client none)) rfl
      (sendsListing (emptyReplica_fits 0) _ _) .send) rfl))
  have h12 := h11.step (Or.inr (.load (r := ⟨t, hwf⟩) rfl rfl rfl fun _ => hload))
  have h13 := h12.step (Or.inr (.enter rfl))
  have h14 := h13.step (Or.inr (.watch_joiner _ (by simp) rfl secondJoins.listed_pair))
  -- the PUT
  have h15 := h14.step (Or.inr (.net (.thread (x := (0, .client (some ()))) rfl
    (.startWrite (show ¬ ((0 : Int) < 0 + 1 - 1 ∨ (0 : Int) < 0) by decide)) .tau) rfl))
  have h16 := h15.step (Or.inr (.net (.thread (x := (0, .client (some ()))) rfl
    .apply .tau) rfl))
  have h17 := h16.step (Or.inr (.net (.thread (x := (0, .client (some ()))) rfl
    .noSuccessor .tau) rfl))
  have h18 := h17.step (Or.inr (.net (.thread (x := (0, .client (some ()))) rfl
    .endWrite .tau) rfl))
  have h19 := h18.step (Or.inr (.net (.thread (x := (0, .client (some ()))) rfl
    (hreply _) .send) rfl))
  refine ⟨_, h19, rfl, rfl, ?_, ?_⟩
  · rintro ⟨i, o⟩ - id w
    match i, o with
    | 0, .client (some ()) => exact ⟨List.not_mem_nil, nofun⟩
    | 0, .client none => exact ⟨List.not_mem_nil, nofun⟩
    | 0, .peer _ => exact ⟨List.not_mem_nil, nofun⟩
    | 1, _ => exact ⟨List.not_mem_nil, nofun⟩
  · show ((emptyReplica 0).write putA).2.map ≠ t.map
    rw [Replica.write_map, hmap, map_emptyReplica]
    intro he
    have hlookup := congrArg (Finmap.lookup keyA) he
    rw [putA, Write.onMap, Finmap.lookup_insert] at hlookup
    cases hlookup

end KvStorage
