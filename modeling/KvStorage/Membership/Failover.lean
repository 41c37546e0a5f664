import KvStorage.Chain.Stable
import KvStorage.Membership.Select

/-!
# A server fails

Three servers P → X → N of a chain. X's process ends at any moment; what it had
already sent to N can still arrive. Its znode goes with it, and P's watcher is told
of that once: it chooses N as the successor (`set_next_server` on a child list
without X). Nobody else comes or goes, so there is no further event, and the handle
on N stays. Client requests go on meanwhile, and a thread of P that read the handle
on X keeps it: it gets no reply any more (`ThreadStep.lost`) and goes on.
Allocations succeed.
-/

namespace KvStorage

open CLib Linearizability Monitor Net

/-- A piece of a chain: `pred`, its successor `gone`, and the one after, `succ`. -/
structure Failing (ι : Type) where
  pred : ι
  gone : ι
  succ : ι
  /-- The handles before. -/
  next : ι → Option ι
  /-- The tables before. -/
  replica : ι → Replica
  nodeId : ι → CStr
  /-- The server behind the address that a child's data gives. -/
  reach : CStr → Option ι
  climbs : ∀ i k, next i = some k → nodeId i < nodeId k
  next_pred : next pred = some gone
  next_gone : next gone = some succ
  to_gone : ∀ i, next i = some gone → i = pred
  to_succ : ∀ i, next i = some succ → i = gone
  reach_succ : reach (nodeId succ) = some succ
  equal_gone : (replica pred).map = (replica gone).map
  equal_succ : (replica gone).map = (replica succ).map

namespace Failing

variable {ι : Type} (F : Failing ι)

/-- The handles there can be. -/
def Edge (i k : ι) : Prop := F.next i = some k ∨ i = F.pred ∧ k = F.succ

/-- A child list without X: the first znode behind P's is N's. -/
def Listed (children : List CStr) : Prop :=
  F.nodeId F.succ ∈ children ∧
    ∀ child ∈ children, child ≤ F.nodeId F.pred ∨ F.nodeId F.succ ≤ child

variable {F}

theorem pred_lt_gone : F.nodeId F.pred < F.nodeId F.gone := F.climbs _ _ F.next_pred

theorem gone_lt_succ : F.nodeId F.gone < F.nodeId F.succ := F.climbs _ _ F.next_gone

/-- Handles lead from smaller names to greater ones, the new one too. -/
theorem climbs_of_edge {i k : ι} (h : F.Edge i k) : F.nodeId i < F.nodeId k := by
  rcases h with hnext | ⟨rfl, rfl⟩
  · exact F.climbs i k hnext
  · exact pred_lt_gone.trans gone_lt_succ

theorem not_edge_self (i : ι) : ¬ F.Edge i i := fun h => lt_irrefl _ (climbs_of_edge h)

theorem gone_ne_pred : F.gone ≠ F.pred := fun h => (h ▸ pred_lt_gone (F := F)).ne rfl

theorem succ_ne_gone : F.succ ≠ F.gone := fun h => (h ▸ gone_lt_succ (F := F)).ne rfl

theorem succ_ne_pred : F.succ ≠ F.pred :=
  fun h => (h ▸ (pred_lt_gone (F := F)).trans gone_lt_succ).ne rfl

/-- X had one predecessor. -/
theorem pred_of_edge {i : ι} (h : F.Edge i F.gone) : i = F.pred := by
  rcases h with hnext | ⟨-, hk⟩
  · exact F.to_gone i hnext
  · exact absurd hk.symm succ_ne_gone

/-- N had X before it, and has P after the event. -/
theorem gone_or_pred_of_edge {i : ι} (h : F.Edge i F.succ) : i = F.gone ∨ i = F.pred := by
  rcases h with hnext | ⟨hi, -⟩
  · exact Or.inl (F.to_succ i hnext)
  · exact Or.inr hi

/-- P's watcher finds N. -/
theorem setNextServer_pred {children : List CStr} (h : F.Listed children) :
    setNextServer (F.nodeId F.pred) F.reach children = some F.succ := by
  obtain ⟨hsucc, hall⟩ := h
  have hlt : F.nodeId F.pred < F.nodeId F.succ := pred_lt_gone.trans gone_lt_succ
  have hchosen : novoSucessor (F.nodeId F.pred) none children = some (F.nodeId F.succ) := by
    refine (novoSucessor_eq_some (by simp)).mpr ⟨Or.inr ⟨hsucc, hlt⟩, by simp, ?_⟩
    intro d hd hgt
    rcases hall d hd with hle | hge
    · exact absurd hgt (not_lt.mpr hle)
    · exact hge
  rw [setNextServer, hchosen, Option.bind_some, F.reach_succ]

end Failing

/-! ## Runs -/

namespace Failing

variable {ι γ : Type} [DecidableEq ι] [DecidableEq γ] (F : Failing ι)

/-- Clients write at P or further up. -/
def Admits (i : ι) : Request → Prop
  | .write _ => i ≠ F.gone ∧ i ≠ F.succ
  | .read _ => True

/-- A step of the system, of X's process or of P's watcher. -/
inductive Internal : Net ι γ → Net ι γ → Prop
  | net {s s' : Net ι γ} : Net.Internal s s' → Internal s s'
  | crash {s : Net ι γ} : (s.node F.gone).running = true →
      Internal s (s.setNode F.gone { s.node F.gone with running := false })
  -- `child_watcher` at P: the znode of X is gone and the handle is the one on X
  | watch {s : Net ι γ} {children : List CStr} : (s.node F.gone).running = false →
      (s.node F.pred).next = some F.gone → F.Listed children →
      Internal s (s.setNode F.pred { s.node F.pred with
        next := setNextServer (F.nodeId F.pred) F.reach children })

/-- All runs around the failure. -/
def system (γ : Type) [DecidableEq γ] : Transition.System (Net ι γ) where
  init s := s = Net.start fun i => Node.start (F.replica i) (F.next i)
  step s s' := Submit F.Admits s s' ∨ F.Internal s s'

/-! ## What holds in every run -/

variable {F}

/-- The invariant of every run around the failure. -/
structure Inv (F : Failing ι) (s : Net ι γ) : Prop where
  net : s.Inv F.Edge
  answers : s.Answers
  running : ∀ i, i ≠ F.gone → (s.node i).running = true
  callers : ∀ i c id w, s.caller (i, c) = some ⟨id, .write w⟩ → i ≠ F.gone ∧ i ≠ F.succ
  next_pred : (s.node F.pred).next = some F.gone ∨
    (s.node F.pred).next = some F.succ ∧ (s.node F.gone).running = false
  next_gone : (s.node F.gone).next = some F.succ
  handle_pred : ∀ o next, (s.pc (F.pred, o)).nextServer = some next →
    next = some F.gone ∨ next = some F.succ ∧ (s.node F.gone).running = false
  handle_gone : ∀ o next, (s.pc (F.gone, o)).nextServer = some next → next = some F.succ

/-- A thread works on its own server and its own links. -/
theorem Inv.thread {s : Net ι γ} (h : F.Inv s) {x : Link ι γ} {n : Node ι} {pc : Pc ι} {io : Io ι}
    {rq : Link ι γ → List Call} {rp : Link ι γ → List WireMsg} (hup : (s.node x.1).running = true)
    (hstep : ThreadStep (s.node x.1) (s.pc x) io n pc) (hwire : Wire s x io rq rp) :
    F.Inv (s.after x n pc rq rp) where
  net := h.net.thread not_edge_self hstep hwire
  answers := h.answers.internal h.net (.thread hup hstep hwire)
  running i hi := (after_membership hstep i).2.1.trans (h.running i hi)
  callers := h.callers
  next_pred := by
    rw [(after_membership hstep F.pred).1, (after_membership hstep F.gone).2.1]
    exact h.next_pred
  next_gone := (after_membership hstep F.gone).1.trans h.next_gone
  handle_pred o next ho := by
    rw [(after_membership hstep F.gone).2.1]
    by_cases hx : (F.pred, o) = x
    · subst hx
      rw [after_pc_self] at ho
      rcases hstep.nextServer_of ho with hold | rfl
      · exact h.handle_pred o next hold
      · exact h.next_pred
    · rw [after_pc_of_ne hx] at ho
      exact h.handle_pred o next ho
  handle_gone o next ho := by
    by_cases hx : (F.gone, o) = x
    · subst hx
      rw [after_pc_self] at ho
      rcases hstep.nextServer_of ho with hold | rfl
      · exact h.handle_gone o next hold
      · exact h.next_gone
    · rw [after_pc_of_ne hx] at ho
      exact h.handle_gone o next ho

theorem Inv.submit {s s' : Net ι γ} (h : F.Inv s) (hs : Submit F.Admits s s') : F.Inv s' := by
  have hnet := h.net.submit hs
  have hans := h.answers.submit hs
  cases hs with
  | @call i c r hadmits _ =>
    refine { h with net := hnet, answers := hans, callers := fun i' c' id w hc => ?_ }
    by_cases hy : (i', c') = (i, c)
    · cases hy
      dsimp only [Net.submit] at hc
      rw [Function.update_self] at hc
      cases hc
      exact hadmits
    · dsimp only [Net.submit] at hc
      rw [Function.update_of_ne hy] at hc
      exact h.callers i' c' id w hc

/-- The crash, the event at P and the steps of the threads. -/
theorem Inv.internal {s s' : Net ι γ} (h : F.Inv s) (hs : F.Internal s s') : F.Inv s' := by
  cases hs with
  | net hs =>
    have hnet := h.net.internal not_edge_self hs
    have hans := h.answers.internal h.net hs
    cases hs with
    | thread hup hstep hwire => exact h.thread hup hstep hwire
    | @ret i c call r rest _ _ =>
      refine { h with net := hnet, answers := hans, callers := fun i' c' id w hc => ?_ }
      by_cases hy : (i', c') = (i, c)
      · dsimp only [Net.deliver] at hc
        rw [hy, Function.update_self] at hc
        cases hc
      · dsimp only [Net.deliver] at hc
        rw [Function.update_of_ne hy] at hc
        exact h.callers i' c' id w hc
  | crash hrun =>
    have hdown : ((s.setNode F.gone { s.node F.gone with running := false }).node F.gone).running
        = false := by
      rw [node_setNode_self]
    have hpred : (s.setNode F.gone { s.node F.gone with running := false }).node F.pred
        = s.node F.pred := node_setNode_of_ne gone_ne_pred.symm
    refine { h with
      net := h.net.setNode rfl rfl (fun k hk => h.net.next _ k hk) nofun
      answers := ⟨h.answers.acked, h.answers.opened⟩
      running := fun i hi => ?_
      next_pred := ?_
      next_gone := ?_
      handle_pred := fun o next ho => ?_ }
    · rw [node_setNode_of_ne hi]
      exact h.running i hi
    · rw [hdown, hpred]
      exact h.next_pred.imp_right fun hn => ⟨hn.1, rfl⟩
    · rw [node_setNode_self]
      exact h.next_gone
    · rw [hdown]
      exact (h.handle_pred o next ho).imp_right fun hn => ⟨hn.1, rfl⟩
  | @watch children hdown _ hlisted =>
    rw [setNextServer_pred hlisted]
    have hgone : (s.setNode F.pred { s.node F.pred with next := some F.succ }).node F.gone
        = s.node F.gone := node_setNode_of_ne gone_ne_pred
    refine { h with
      net := h.net.setNode rfl rfl (fun k hk => ?_) id
      answers := ⟨h.answers.acked, h.answers.opened⟩
      running := fun i hi => ?_
      next_pred := ?_
      next_gone := ?_
      handle_pred := fun o next ho => ?_ }
    · cases hk
      exact Or.inr ⟨rfl, rfl⟩
    · by_cases hp : i = F.pred
      · subst hp
        rw [node_setNode_self]
        exact h.running _ hi
      · rw [node_setNode_of_ne hp]
        exact h.running i hi
    · rw [node_setNode_self, hgone]
      exact Or.inr ⟨rfl, hdown⟩
    · rw [hgone]
      exact h.next_gone
    · rw [hgone]
      exact h.handle_pred o next ho

theorem inv_of_reachable {s : Net ι γ} (h : (F.system γ).Reachable s) : F.Inv s := by
  refine h.invariant (I := F.Inv) ?_ ?_
  · intro s hs
    subst hs
    exact
      { net := .start (fun _ => rfl) (fun _ => rfl) fun i k hk => Or.inl hk
        answers := ⟨fun _ => trivial, nofun⟩
        running := fun _ _ => rfl
        callers := nofun
        next_pred := Or.inl F.next_pred
        next_gone := F.next_gone
        handle_pred := nofun
        handle_gone := nofun }
  · intro s s' h hs
    rcases hs with hs | hs
    · exact h.submit hs
    · exact h.internal hs

end Failing

end KvStorage
