import KvStorage.Chain.Sync
import KvStorage.Membership.Failover

/-!
# What a failure loses

P forwards a write once, to the successor it read before taking the lock, and
answers its client whatever becomes of it. So what X had taken from P and not yet
sent to N is gone with X, and so is what P forwards to X afterwards; nothing in P
repeats it for N (`failover_loses_update`). And where X's last write reaches N
late, N may take it after a write that P made later.

Where neither changes a table, P and N agree as soon as N is P's successor and no
write is under way (`survivors_agree`). Before the failure the tables are in step
along both handles. Afterwards P is in step with the map N will have when it has
taken what X had sent (`Settled`).
-/

namespace KvStorage

open CLib Linearizability Monitor Net

/-! ## The successor's end -/

section Successor

variable {ι γ : Type} {Edge : ι → ι → Prop} {s : Net ι γ} {i k : ι}

theorem Pc.call_of_pending {pc : Pc ι} {id : Nat} {w : Write} (h : pc.pending = some (id, w)) :
    pc.call = some ⟨id, .write w⟩ := by
  cases pc with
  | received c =>
    obtain ⟨id', r⟩ := c
    cases r <;> cases h
    rfl
  | wantWrite id' w' next =>
    cases h
    rfl
  | writing id' w' next =>
    cases h
    rfl
  | _ => cases h

/-- A write at the successor's end is the one that is outstanding. -/
theorem AtSuccessor.outstanding {out : Option Call} {id : Nat} {w : Write}
    (h : AtSuccessor s i k id w) (hopen : s.pc (k, .peer i) ≠ .closed)
    (hstage : Stage out (s.requests (k, .peer i)) (s.pc (k, .peer i)) (s.replies (k, .peer i))) :
    out = some ⟨id, .write w⟩ := by
  rcases h with hrq | hpc
  · rw [hrq] at hstage
    generalize s.pc (k, .peer i) = pc₀ at hstage hopen
    generalize s.replies (k, .peer i) = rp₀ at hstage
    cases hstage with
    | sent => rfl
    | closed => exact absurd rfl hopen
  · exact (hstage.of_call (Pc.call_of_pending hpc)).1

theorem AtSuccessor.unique {id id' : Nat} {w w' : Write} (h : s.Inv Edge)
    (hup : (s.node k).running = true) (hopen : s.pc (k, .peer i) ≠ .closed)
    (hat : AtSuccessor s i k id w) (hat' : AtSuccessor s i k id' w') : id = id' ∧ w = w' := by
  obtain ⟨out, hstage, -⟩ := h.peer k i hup
  have hout := hat.outstanding hopen hstage
  rw [hat'.outstanding hopen hstage] at hout
  cases hout
  exact ⟨rfl, rfl⟩

/-- Some thread of the server waits for it. -/
theorem AtSuccessor.awaited {id : Nat} {w : Write} (h : s.Inv Edge)
    (hup : (s.node k).running = true) (hopen : s.pc (k, .peer i) ≠ .closed)
    (hat : AtSuccessor s i k id w) : ∃ o res, s.pc (i, o) = .waiting id w res k := by
  obtain ⟨out, hstage, hout⟩ := h.peer k i hup
  obtain ⟨o, ho⟩ := (hout _).mp (hat.outstanding hopen hstage)
  refine ⟨o, ?_⟩
  generalize s.pc (i, o) = pc₀ at ho
  cases pc₀ <;> cases ho
  exact ⟨_, rfl⟩

end Successor

namespace Failing

variable {ι γ : Type} (F : Failing ι)

/-! ## Where nothing is lost -/

/-- A write that X had taken on and not passed on changes nothing for the servers
that do not have it. -/
def CrashLosesNothing (s : Net ι γ) : Prop :=
  (∀ id w, Ahead s F.pred F.gone id w →
    w.onMap (s.node F.gone).replica.map = (s.node F.gone).replica.map) ∧
  ∀ o id w res, s.pc (F.gone, o) = .applied id w res (some F.succ) →
    w.onMap (s.node F.succ).replica.map = (s.node F.succ).replica.map

/-- After X's end, a write that P forwards to X changes nothing, and what X had
sent to N may come after what P sends to N. -/
def AfterCrash (s : Net ι γ) : Prop :=
  (s.node F.gone).running = false →
    (∀ o id w, s.pc (F.pred, o) = .writing id w (some F.gone) →
      w.onMap (s.node F.pred).replica.map = (s.node F.pred).replica.map) ∧
    ∀ id w next id' v, s.pc (F.succ, .peer F.pred) = .writing id w next →
      AtSuccessor s F.gone F.succ id' v →
      w.onMap (v.onMap (s.node F.succ).replica.map)
        = v.onMap (w.onMap (s.node F.succ).replica.map)

/-- What every step of the run has to meet. -/
def Lossless (s s' : Net ι γ) : Prop :=
  ((s.node F.gone).running = true → (s'.node F.gone).running = false → F.CrashLosesNothing s) ∧
    F.AfterCrash s

/-! ## The tables in step -/

/-- The map N's table will have when it has taken what X had sent. -/
def Settled (s : Net ι γ) (M : KvMap) : Prop :=
  (M = (s.node F.succ).replica.map ∧ ∀ id w, ¬ AtSuccessor s F.gone F.succ id w) ∨
    ∃ id w, AtSuccessor s F.gone F.succ id w ∧ M = w.onMap (s.node F.succ).replica.map

/-- The tables along the chain. -/
structure InStep (s : Net ι γ) : Prop where
  before : (s.node F.gone).running = true →
    Sync written (s.node F.pred).replica.map (s.node F.gone).replica.map s F.pred F.gone ∧
      Sync written (s.node F.gone).replica.map (s.node F.succ).replica.map s F.gone F.succ
  after : (s.node F.gone).running = false →
    ∃ M, F.Settled s M ∧ Sync written (s.node F.pred).replica.map M s F.pred F.succ

variable {F} {s : Net ι γ}

/-- Where neither the messages between X and N nor N's table change. -/
theorem Settled.congr {s' : Net ι γ} {M : KvMap} (hM : F.Settled s M)
    (hdata : (s'.node F.succ).replica = (s.node F.succ).replica)
    (hat : ∀ id w, AtSuccessor s' F.gone F.succ id w ↔ AtSuccessor s F.gone F.succ id w) :
    F.Settled s' M := by
  unfold Settled
  simp only [hdata, hat]
  exact hM

/-- Who writes at a server does so for one that has a handle on it. -/
theorem Inv.writer_origin (h : F.Inv s) {k : ι} (hup : (s.node k).running = true)
    (hk : k = F.gone ∨ k = F.succ) {o : Origin ι γ} {id : Nat} {w : Write}
    (hc : (s.pc (k, o)).call = some ⟨id, .write w⟩) :
    ∃ j o', o = .peer j ∧ (s.pc (j, o')).nextServer = some (some k) ∧ F.Edge j k := by
  cases o with
  | client c =>
    obtain ⟨hout, -⟩ := (h.net.client k c hup).of_call hc
    have hcaller := h.callers k c id w hout
    rcases hk with rfl | rfl
    · exact absurd rfl hcaller.1
    · exact absurd rfl hcaller.2
  | peer j =>
    obtain ⟨out, hstage, hout⟩ := h.net.peer k j hup
    obtain ⟨o', ho'⟩ := (hout _).mp (hstage.of_call hc).1
    have hedge : F.Edge j k := h.net.handle (j, o') k (Pc.side_of_awaits ho').2.1
    refine ⟨j, o', rfl, ?_, hedge⟩
    generalize s.pc (j, o') = pc₀ at ho'
    cases pc₀ <;> cases ho'
    rfl

/-- Nobody but X has a handle on N before X ends. -/
theorem Inv.writer_at_succ (h : F.Inv s) (hup : (s.node F.gone).running = true) {o : Origin ι γ}
    {id : Nat} {w : Write} (hc : (s.pc (F.succ, o)).call = some ⟨id, .write w⟩) :
    o = .peer F.gone := by
  obtain ⟨j, o', rfl, hnext, hedge⟩ := h.writer_origin (h.running _ succ_ne_gone) (Or.inr rfl) hc
  rcases gone_or_pred_of_edge hedge with rfl | rfl
  · rfl
  · rcases h.handle_pred o' _ hnext with he | ⟨-, hdown⟩
    · exact absurd (Option.some.inj he) succ_ne_gone
    · rw [hup] at hdown
      cases hdown

/-- Before X ends P is ahead of nobody but X. -/
theorem Inv.not_ahead_succ (h : F.Inv s) (hup : (s.node F.gone).running = true) (id : Nat)
    (w : Write) : ¬ Ahead s F.pred F.succ id w := by
  intro hahead
  obtain ⟨o, ho⟩ := hahead.forwards
  have hnext : (s.pc (F.pred, o)).nextServer = some (some F.succ) := by
    rcases ho with ⟨res, he⟩ | ⟨res, he⟩ <;> rw [he] <;> rfl
  rcases h.handle_pred o _ hnext with he | ⟨-, hdown⟩
  · exact absurd (Option.some.inj he) succ_ne_gone
  · rw [hup] at hdown
    cases hdown

/-! ## X ends -/

/-- N's end of the connection from X when the two were in step. -/
theorem settled_of_sync (h : F.Inv s)
    (hlost : ∀ o id w res, s.pc (F.gone, o) = .applied id w res (some F.succ) →
      w.onMap (s.node F.succ).replica.map = (s.node F.succ).replica.map)
    (hsync : Sync written (s.node F.gone).replica.map (s.node F.succ).replica.map s F.gone F.succ) :
    F.Settled s (s.node F.gone).replica.map := by
  have hup := h.running F.succ succ_ne_gone
  have hopen := h.answers.opened F.succ F.gone
  rcases hsync with ⟨hmap, hnone⟩ | ⟨id, w, ⟨o, ⟨res, ho⟩ | ⟨-, hat⟩⟩, hmap⟩
  · refine Or.inl ⟨hmap, fun id w hat => ?_⟩
    obtain ⟨o, hres⟩ := hat.awaited h.net hup hopen
    exact hnone id w ⟨o, Or.inr ⟨hres, hat⟩⟩
  · -- the thread that has the write has sent nothing, and no other thread is inside
    refine Or.inl ⟨hmap.trans (hlost o id w res ho), fun id' w' hat => ?_⟩
    obtain ⟨o', res', ho'⟩ := hat.awaited h.net hup hopen
    have heq : o' = o := h.net.writer_unique (by rw [ho']; rfl) (by rw [ho]; rfl)
    rw [heq, ho] at ho'
    cases ho'
  · exact Or.inr ⟨id, w, hat, hmap⟩

theorem InStep.crash [DecidableEq ι] (hstep : F.InStep s) (h : F.Inv s)
    (hup : (s.node F.gone).running = true) (hlost : F.CrashLosesNothing s) :
    ∃ M, F.Settled s M ∧ Sync written (s.node F.pred).replica.map M s F.pred F.succ := by
  obtain ⟨hpred, hgone⟩ := hstep.before hup
  refine ⟨_, settled_of_sync h hlost.2 hgone, Or.inl ⟨?_, h.not_ahead_succ hup⟩⟩
  rcases hpred with ⟨hmap, -⟩ | ⟨id, w, hahead, hmap⟩
  · exact hmap
  · exact hmap.trans (hlost.1 id w hahead)

/-! ## Steps of threads -/

section Thread

variable [DecidableEq ι] [DecidableEq γ] {x : Link ι γ} {n : Node ι} {pc : Pc ι} {io : Io ι}
  {rq : Link ι γ → List Call} {rp : Link ι γ → List WireMsg}

/-- While X runs, P and X forward what they apply. -/
theorem InStep.thread_before (h : F.InStep s) (hinv : F.Inv s)
    (hup : (s.node F.gone).running = true)
    (hstep : ThreadStep (s.node x.1) (s.pc x) io n pc) (hwire : Wire s x io rq rp) :
    Sync written ((s.after x n pc rq rp).node F.pred).replica.map
        ((s.after x n pc rq rp).node F.gone).replica.map (s.after x n pc rq rp) F.pred F.gone ∧
      Sync written ((s.after x n pc rq rp).node F.gone).replica.map
        ((s.after x n pc rq rp).node F.succ).replica.map (s.after x n pc rq rp) F.gone F.succ := by
  obtain ⟨hpred, hgone⟩ := h.before hup
  constructor
  · refine Sync.thread_both hinv.net gone_ne_pred hup (hinv.answers.opened _ _) hstep hwire ?_ ?_
      hpred
    · intro hx id w next hpc
      have hnext : (s.pc (F.pred, x.2)).nextServer = some next := by
        rw [← hx, show s.pc (x.1, x.2) = _ from hpc]
        rfl
      rcases hinv.handle_pred x.2 next hnext with he | ⟨-, hdown⟩
      · exact Or.inl he
      · rw [hup] at hdown
        cases hdown
    · intro hx id w next hpc
      have hcall : (s.pc (F.gone, x.2)).call = some ⟨id, .write w⟩ := by
        rw [← hx, show s.pc (x.1, x.2) = _ from hpc]
        rfl
      obtain ⟨j, o', ho, -, hedge⟩ := hinv.writer_origin hup (Or.inl rfl) hcall
      rw [pred_of_edge hedge] at ho
      exact Prod.ext hx ho
  · refine Sync.thread_both hinv.net succ_ne_gone (hinv.running _ succ_ne_gone)
      (hinv.answers.opened _ _) hstep hwire ?_ ?_ hgone
    · intro hx id w next hpc
      have hnext : (s.pc (F.gone, x.2)).nextServer = some next := by
        rw [← hx, show s.pc (x.1, x.2) = _ from hpc]
        rfl
      exact Or.inl (hinv.handle_gone x.2 next hnext)
    · intro hx id w next hpc
      have hcall : (s.pc (F.succ, x.2)).call = some ⟨id, .write w⟩ := by
        rw [← hx, show s.pc (x.1, x.2) = _ from hpc]
        rfl
      exact Prod.ext hx (hinv.writer_at_succ hup hcall)

omit [DecidableEq ι] [DecidableEq γ] in
/-- What P applies after X's end is forwarded to N or changes nothing. -/
theorem Inv.forwards_or_idle (h : F.Inv s) (hdown : (s.node F.gone).running = false)
    (hafter : F.AfterCrash s) (hx : x.1 = F.pred) {id : Nat} {w : Write} {next : Option ι}
    (hpc : s.pc x = .writing id w next) : next = some F.succ ∨
      w.onMap (s.node F.pred).replica.map = (s.node F.pred).replica.map := by
  have hpc' : s.pc (F.pred, x.2) = .writing id w next := by
    rw [← hx]
    exact hpc
  rcases h.handle_pred x.2 next (by rw [hpc']; rfl) with rfl | ⟨he, -⟩
  · exact Or.inr ((hafter hdown).1 x.2 id w hpc')
  · exact Or.inl he

/-- N takes what X had sent. -/
theorem Settled.take {M : KvMap} (hM : F.Settled s M) (h : F.Inv s) {id : Nat} {w : Write}
    {next : Option ι} (hpc : s.pc (F.succ, .peer F.gone) = .writing id w next)
    (hstep : ThreadStep (s.node F.succ) (s.pc (F.succ, .peer F.gone)) io n pc)
    (hwire : Wire s (F.succ, .peer F.gone) io rq rp) :
    F.Settled (s.after (F.succ, .peer F.gone) n pc rq rp) M := by
  have hup := h.running F.succ succ_ne_gone
  have hat : AtSuccessor s F.gone F.succ id w := Or.inr (by rw [hpc]; rfl)
  obtain ⟨out, hstage, -⟩ := h.net.peer F.succ F.gone hup
  obtain ⟨-, hrq, -⟩ := hstage.of_call
    (show (s.pc (F.succ, .peer F.gone)).call = some ⟨id, .write w⟩ by rw [hpc]; rfl)
  rw [hpc] at hstep
  obtain ⟨rfl, rfl, rfl⟩ := hstep.writing_inv
  cases hwire
  have hmap : M = w.onMap (s.node F.succ).replica.map := by
    rcases hM with ⟨-, hnone⟩ | ⟨id', w', hat', hM⟩
    · exact absurd hat (hnone id w)
    · rw [hM, (hat.unique h.net hup (h.answers.opened _ _) hat').2]
  refine Or.inl ⟨?_, ?_⟩
  · rw [after_node_self, hmap]
    dsimp only
    rw [Replica.write_map]
  · rintro id' w' (hrq' | hpc')
    · rw [after_requests, hrq] at hrq'
      cases hrq'
    · rw [after_pc_self] at hpc'
      cases hpc'

/-- N applies a write of P's, past the one of X's that may still come. -/
theorem Settled.overtake {M : KvMap} (hM : F.Settled s M) {id : Nat} {w : Write}
    {next : Option ι} (hpc : s.pc (F.succ, .peer F.pred) = .writing id w next)
    (hcomm : ∀ id' v, AtSuccessor s F.gone F.succ id' v →
      w.onMap (v.onMap (s.node F.succ).replica.map)
        = v.onMap (w.onMap (s.node F.succ).replica.map))
    (hstep : ThreadStep (s.node F.succ) (s.pc (F.succ, .peer F.pred)) io n pc)
    (hwire : Wire s (F.succ, .peer F.pred) io rq rp) :
    F.Settled (s.after (F.succ, .peer F.pred) n pc rq rp) (written (id, w) M) := by
  have hat : ∀ id' v, AtSuccessor (s.after (F.succ, .peer F.pred) n pc rq rp) F.gone F.succ id' v ↔
      AtSuccessor s F.gone F.succ id' v :=
    atSuccessor_elsewhere hwire succ_ne_gone (by simp [gone_ne_pred.symm])
  rw [hpc] at hstep
  obtain ⟨rfl, rfl, rfl⟩ := hstep.writing_inv
  cases hwire
  have hmap : ((s.after (F.succ, .peer F.pred) { s.node F.succ with
      replica := ((s.node F.succ).replica.write w).2, log := (s.node F.succ).log ++ [(id, w)] }
      (.applied id w ((s.node F.succ).replica.write w).1 next) s.requests s.replies).node
        F.succ).replica.map = w.onMap (s.node F.succ).replica.map := by
    rw [after_node_self]
    exact Replica.write_map ..
  unfold Settled
  simp only [hat]
  rw [hmap]
  rcases hM with ⟨rfl, hnone⟩ | ⟨id', v, hat', rfl⟩
  · exact Or.inl ⟨rfl, hnone⟩
  · exact Or.inr ⟨id', v, hat', hcomm id' v hat'⟩

/-- After X's end a thread elsewhere than at N's end of the handles leaves what N
will hold as it is. -/
theorem Settled.elsewhere {M : KvMap} (hM : F.Settled s M) (h : F.Inv s)
    (hdown : (s.node F.gone).running = false) (hup : (s.node x.1).running = true)
    (hwriting : x.1 = F.succ → ∀ id w next, s.pc x ≠ .writing id w next)
    (hstep : ThreadStep (s.node x.1) (s.pc x) io n pc) (hwire : Wire s x io rq rp) :
    F.Settled (s.after x n pc rq rp) M := by
  have hgone : x.1 ≠ F.gone := by
    intro hx
    rw [hx, hdown] at hup
    cases hup
  refine hM.congr ?_ fun id w => ?_
  · by_cases hx : x.1 = F.succ
    · exact (after_data hstep (hwriting hx) _).1
    · rw [after_node_of_ne (Ne.symm hx)]
  · by_cases hx : x = (F.succ, .peer F.gone)
    · subst hx
      obtain ⟨out, hstage, -⟩ := h.net.peer F.succ F.gone hup
      exact atSuccessor_there succ_ne_gone hstage hstep hwire (hwriting rfl) id w
    · exact atSuccessor_elsewhere hwire hgone hx id w

/-- A step of a thread after X's end. -/
theorem InStep.thread_after (h : F.InStep s) (hinv : F.Inv s)
    (hdown : (s.node F.gone).running = false) (hafter : F.AfterCrash s)
    (hup : (s.node x.1).running = true)
    (hstep : ThreadStep (s.node x.1) (s.pc x) io n pc) (hwire : Wire s x io rq rp) :
    ∃ M, F.Settled (s.after x n pc rq rp) M ∧
      Sync written ((s.after x n pc rq rp).node F.pred).replica.map M (s.after x n pc rq rp)
        F.pred F.succ := by
  obtain ⟨M, hM, hsync⟩ := h.after hdown
  have hsucc := hinv.running F.succ succ_ne_gone
  have hopen := hinv.answers.opened F.succ F.pred
  have hhere : x.1 = F.pred → ∀ id w next, s.pc x = .writing id w next → next = some F.succ ∨
      w.onMap (s.node F.pred).replica.map = (s.node F.pred).replica.map :=
    fun hx id w next hpc => hinv.forwards_or_idle hdown hafter hx hpc
  by_cases hwriting : x.1 = F.succ ∧ ∃ id w next, s.pc x = .writing id w next
  · obtain ⟨hx, id, w, next, hpc⟩ := hwriting
    have hcall : (s.pc (F.succ, x.2)).call = some ⟨id, .write w⟩ := by
      rw [← hx, show s.pc (x.1, x.2) = _ from hpc]
      rfl
    obtain ⟨j, o', ho, -, hedge⟩ := hinv.writer_origin hsucc (Or.inr rfl) hcall
    obtain rfl : x = (F.succ, .peer j) := Prod.ext hx ho
    rcases gone_or_pred_of_edge hedge with rfl | rfl
    · -- what X had sent arrives
      refine ⟨M, hM.take hinv hpc hstep hwire, Sync.thread hinv.net succ_ne_pred hsucc hopen hstep
        hwire hhere (fun he => ?_) hsync⟩
      have hpeer := congrArg Prod.snd he
      exact absurd (Origin.peer.inj hpeer) gone_ne_pred
    · -- what P forwards arrives
      refine ⟨written (id, w) M, hM.overtake hpc ((hafter hdown).2 id w next · · hpc) hstep hwire,
        ?_⟩
      rw [hpc] at hstep
      obtain ⟨rfl, rfl, rfl⟩ := hstep.writing_inv
      cases hwire
      rw [after_node_of_ne succ_ne_pred.symm]
      exact Sync.apply_there hinv.net succ_ne_pred hsucc hpc hsync
  · have hnot : x.1 = F.succ → ∀ id w next, s.pc x ≠ .writing id w next :=
      fun hx id w next hpc => hwriting ⟨hx, id, w, next, hpc⟩
    exact ⟨M, hM.elsewhere hinv hdown hup hnot hstep hwire,
      Sync.thread hinv.net succ_ne_pred hsucc hopen hstep hwire hhere
        (fun he => hnot (congrArg Prod.fst he)) hsync⟩

end Thread

/-! ## Whole runs -/

/-- Steps of clients and of P's watcher. -/
theorem InStep.congr {s' : Net ι γ} (h : F.InStep s)
    (hrun : (s'.node F.gone).running = (s.node F.gone).running)
    (hdata : ∀ i, (s'.node i).replica = (s.node i).replica) (hpc : s'.pc = s.pc)
    (hrq : ∀ i j, s'.requests (i, .peer j) = s.requests (i, .peer j)) : F.InStep s' where
  before hup := by
    rw [hrun] at hup
    obtain ⟨hpred, hgone⟩ := h.before hup
    rw [hdata, hdata, hdata]
    exact ⟨.congr hpc (hrq _ _) hpred, .congr hpc (hrq _ _) hgone⟩
  after hdown := by
    rw [hrun] at hdown
    obtain ⟨M, hM, hsync⟩ := h.after hdown
    rw [hdata]
    refine ⟨M, hM.congr (hdata _) fun id w => ?_, .congr hpc (hrq _ _) hsync⟩
    unfold AtSuccessor
    rw [hpc, hrq]

variable [DecidableEq ι] [DecidableEq γ]

theorem InStep.submit {s' : Net ι γ} (h : F.InStep s) (hs : Submit F.Admits s s') :
    F.InStep s' := by
  cases hs with
  | call _ _ => exact h.congr rfl (fun _ => rfl) rfl fun i j => Function.update_of_ne (by simp) ..

theorem InStep.internal {s' : Net ι γ} (h : F.InStep s) (hinv : F.Inv s) (hl : F.Lossless s s')
    (hs : F.Internal s s') : F.InStep s' := by
  cases hs with
  | net hs =>
    cases hs with
    | thread hup hstep hwire =>
      refine ⟨fun hrun => ?_, fun hrun => ?_⟩
      · rw [(after_membership hstep F.gone).2.1] at hrun
        exact h.thread_before hinv hrun hstep hwire
      · rw [(after_membership hstep F.gone).2.1] at hrun
        exact h.thread_after hinv hrun hl.2 hup hstep hwire
    | ret _ _ => exact h.congr rfl (fun _ => rfl) rfl fun _ _ => rfl
  | crash hup =>
    have hdown : ((s.setNode F.gone { s.node F.gone with running := false }).node F.gone).running
        = false := by
      rw [node_setNode_self]
    have hdata := replica_setNode (s := s) (i := F.gone)
      (n := { s.node F.gone with running := false }) rfl
    refine ⟨fun hrun => ?_, fun _ => ?_⟩
    · rw [hdown] at hrun
      cases hrun
    · obtain ⟨M, hM, hsync⟩ := h.crash hinv hup (hl.1 hup hdown)
      rw [hdata]
      exact ⟨M, hM.congr (hdata _) fun _ _ => Iff.rfl, .congr (s := s) rfl rfl hsync⟩
  | watch _ _ _ =>
    refine h.congr ?_ (replica_setNode (by rfl)) rfl fun _ _ => rfl
    rw [node_setNode_of_ne gone_ne_pred]

end Failing

open Failing

/-! ## Three servers -/

/-- Three servers with empty tables. -/
def threeServers : Failing (Fin 3) where
  pred := 0
  gone := 1
  succ := 2
  next := fun i => if i = 0 then some 1 else if i = 1 then some 2 else none
  replica := fun i => emptyReplica i.val
  nodeId := fun i => digitId i.val
  reach := fun child => if child = digitId 2 then some 2 else none
  climbs := by
    intro i k h
    refine strcmp_neg.mp ?_
    revert i k
    decide
  next_pred := rfl
  next_gone := rfl
  to_gone := by decide
  to_succ := by decide
  reach_succ := rfl
  equal_gone := (map_emptyReplica _).trans (map_emptyReplica _).symm
  equal_succ := (map_emptyReplica _).trans (map_emptyReplica _).symm

/-- A run in which nothing is lost. -/
def LosslessRun (s : Net (Fin 3) Unit) : Prop :=
  ((threeServers.system Unit).restrict threeServers.Lossless).Reachable s

/-- No request is under way: P's handle, whether X runs, and the tables. -/
def AtRest (next : Fin 3) (up : Bool) (r : Fin 3 → Replica) (s : Net (Fin 3) Unit) : Prop :=
  ∃ (log : Fin 3 → List (Nat × Write)) (history : List (Event Request WireMsg)) (fresh : Nat),
    s = { Net.start fun i : Fin 3 =>
    { Node.start (r i) (if i = 0 then some next else threeServers.next i) with
      running := decide (i ≠ 1) || up, log := log i } with history := history, fresh := fresh }

theorem AtRest.of_net {next : Fin 3} {up : Bool} {r : Fin 3 → Replica} {s : Net (Fin 3) Unit}
    (log : Fin 3 → List (Nat × Write))
    (hlinks : ∀ x, s.pc x = .receiving ∧ s.requests x = [] ∧ s.replies x = [])
    (hcaller : ∀ y, s.caller y = none)
    (hnode : ∀ i, s.node i =
      { Node.start (r i) (if i = 0 then some next else threeServers.next i) with
        running := decide (i ≠ 1) || up, log := log i }) : AtRest next up r s := by
  obtain ⟨node, pc, requests, replies, caller, history, fresh⟩ := s
  obtain rfl := funext fun x => (hlinks x).1
  obtain rfl := funext fun x => (hlinks x).2.1
  obtain rfl := funext fun x => (hlinks x).2.2
  obtain rfl := funext hcaller
  obtain rfl := funext hnode
  exact ⟨log, history, fresh, rfl⟩

/-- While X runs nothing can be lost. -/
theorem lossless_of_running {s s' : Net (Fin 3) Unit} (h : (s.node 1).running = true)
    (h' : (s'.node 1).running = true) : threeServers.Lossless s s' := by
  refine ⟨fun _ hdown => ?_, fun hdown => ?_⟩
  · rw [show (s'.node threeServers.gone).running = _ from h'] at hdown
    cases hdown
  · rw [show (s.node threeServers.gone).running = _ from h] at hdown
    cases hdown

/-- A step of a thread while X runs. -/
theorem LosslessRun.thread {s : Net (Fin 3) Unit} (h : LosslessRun s)
    (hrun : (s.node 1).running = true) (x : Link (Fin 3) Unit) {n : Node (Fin 3)}
    {pc : Pc (Fin 3)} {io : Io (Fin 3)} {rq : Link (Fin 3) Unit → List Call}
    {rp : Link (Fin 3) Unit → List WireMsg} (hup : (s.node x.1).running = true)
    (hstep : ThreadStep (s.node x.1) (s.pc x) io n pc) (hwire : Wire s x io rq rp) :
    LosslessRun (s.after x n pc rq rp) :=
  h.step ⟨Or.inr (.net (.thread hup hstep hwire)),
    lossless_of_running hrun ((after_membership hstep 1).2.1.trans hrun)⟩

/-- X is gone, P forwards to N, and X has left nothing on its way. -/
structure Survives (s : Net (Fin 3) Unit) : Prop where
  run : LosslessRun s
  down : (s.node 1).running = false
  forwards : ∀ o id w, s.pc (0, o) ≠ .writing id w (some 1)
  taken : ∀ id w, ¬ AtSuccessor s 1 2 id w

theorem Survives.lossless {s : Net (Fin 3) Unit} (h : Survives s) (s' : Net (Fin 3) Unit) :
    threeServers.Lossless s s' := by
  refine ⟨fun hrun _ => ?_, fun _ => ⟨fun o id w he => absurd he (h.forwards o id w),
    fun id w next id' v _ hat => absurd hat (h.taken id' v)⟩⟩
  rw [show (s.node threeServers.gone).running = _ from h.down] at hrun
  cases hrun

/-- A step of a thread that leaves X alone. -/
theorem Survives.thread {s : Net (Fin 3) Unit} (h : Survives s) (x : Link (Fin 3) Unit)
    {n : Node (Fin 3)} {pc : Pc (Fin 3)} {io : Io (Fin 3)} {rq : Link (Fin 3) Unit → List Call}
    {rp : Link (Fin 3) Unit → List WireMsg} (hup : (s.node x.1).running = true)
    (hstep : ThreadStep (s.node x.1) (s.pc x) io n pc) (hwire : Wire s x io rq rp)
    (hx : x ≠ (2, .peer 1)) (hpc : ∀ id w, pc ≠ .writing id w (some 1)) :
    Survives (s.after x n pc rq rp) := by
  have hgone : x.1 ≠ 1 := by
    intro he
    rw [he, h.down] at hup
    cases hup
  refine ⟨h.run.step ⟨Or.inr (.net (.thread hup hstep hwire)), h.lossless _⟩,
    (after_membership hstep 1).2.1.trans h.down, fun o id w => ?_, fun id w hat => ?_⟩
  · by_cases he : (0, o) = x
    · rw [he, after_pc_self]
      exact hpc id w
    · rw [after_pc_of_ne he]
      exact h.forwards o id w
  · exact h.taken id w ((atSuccessor_elsewhere hwire hgone hx id w).mp hat)

end KvStorage
