import KvStorage.Chain.Stable
import KvStorage.Chain.Sync

/-!
# Replica agreement along a chain

`m + 1` servers in a row, each with the following one as its successor; clients
write at the head. Every server applies the writes its predecessor has applied,
in that order, and is behind by one at most: the predecessor holds its write lock
until the reply to the forwarded write is back, so it cannot apply another one
meanwhile (`Sync` on the logs).

The tables follow the logs, so they are equal whenever no write is under way.
-/

namespace KvStorage

open CLib Linearizability Monitor Net

variable {m : Nat} {γ : Type}

/-! ## The chain -/

/-- `k` follows `i`. -/
def Follows (i k : Fin (m + 1)) : Prop := i.val + 1 = k.val

/-- The handles along the chain. -/
def chainNext (m : Nat) (i : Fin (m + 1)) : Option (Fin (m + 1)) :=
  if h : i.val + 1 < m + 1 then some ⟨i.val + 1, h⟩ else none

/-- Clients send PUT and DEL to the head and reads to any server. -/
def headWrites (i : Fin (m + 1)) : Request → Prop
  | .write _ => i = 0
  | .read _ => True

/-- The runs of a chain. -/
def chain (γ : Type) [DecidableEq γ] (replica : Fin (m + 1) → Replica) :
    Transition.System (Net (Fin (m + 1)) γ) :=
  stable γ headWrites replica (chainNext m)

theorem not_follows_self (i : Fin (m + 1)) : ¬ Follows i i := by
  unfold Follows
  omega

theorem not_follows_zero (i : Fin (m + 1)) : ¬ Follows i 0 := by
  show ¬ i.val + 1 = 0
  omega

/-- Every server but the head has one predecessor. -/
theorem Follows.injective {i j k : Fin (m + 1)} (hi : Follows i k) (hj : Follows j k) : i = j := by
  unfold Follows at hi hj
  exact Fin.ext (by omega)

theorem Follows.next {i k : Fin (m + 1)} (h : Follows i k) : chainNext m i = some k := by
  have hk := k.isLt
  unfold Follows at h
  unfold chainNext
  rw [dif_pos (by omega)]
  exact congrArg some (Fin.ext h)

theorem follows_of_next {i k : Fin (m + 1)} (h : chainNext m i = some k) : Follows i k := by
  unfold chainNext at h
  split at h
  · cases h
    rfl
  · cases h

/-- The tables that a log of writes leads to. -/
def replay (M : KvMap) (log : List (Nat × Write)) : KvMap := log.foldl (fun M e => e.2.onMap M) M

/-- The last entry is applied last. -/
theorem replay_append (M : KvMap) (log : List (Nat × Write)) (e : Nat × Write) :
    replay M (log ++ [e]) = e.2.onMap (replay M log) := by
  unfold replay
  rw [List.foldl_append]
  rfl

/-- The end of a log. -/
def logged (e : Nat × Write) (log : List (Nat × Write)) : List (Nat × Write) := log ++ [e]

/-! ## The invariant of a chain -/

/-- The client's write has not been applied at the head. -/
def Unapplied (s : Net (Fin (m + 1)) γ) (c : γ) : Prop :=
  s.requests (0, .client c) ≠ [] ∨ (s.pc (0, .client c)).pending ≠ none

structure ChainInv (M : KvMap) (s : Net (Fin (m + 1)) γ) : Prop where
  handles : ∀ x next, (s.pc x).nextServer = some next → next = chainNext m x.1
  writers : ∀ i c id w, s.caller (i, c) = some ⟨id, .write w⟩ → i = 0
  sync : ∀ i k, Follows i k → Sync logged (s.node i).log (s.node k).log s i k
  maps : ∀ i, (s.node i).replica.map = replay M (s.node i).log
  fresh : ∀ e ∈ (s.node 0).log, e.1 < s.fresh
  called : ∀ e ∈ (s.node 0).log, .call e.1 (.write e.2) ∈ s.history
  nodup : ((s.node 0).log.map Prod.fst).Nodup
  unapplied : ∀ c id w, s.caller (0, c) = some ⟨id, .write w⟩ → Unapplied s c →
    id ∉ (s.node 0).log.map Prod.fst

section Step

variable {M : KvMap} {s : Net (Fin (m + 1)) γ}

/-- Who applies writes where: at the head a client's thread, elsewhere the one
of the predecessor's handle. -/
theorem ChainInv.origin (h : ChainInv M s) (hst : s.Stable Follows (chainNext m))
    {k : Fin (m + 1)} {o : Origin (Fin (m + 1)) γ} {id : Nat} {w : Write}
    (hpc : (s.pc (k, o)).call = some ⟨id, .write w⟩) :
    (k = 0 ∧ ∃ c, o = .client c ∧ s.caller (0, c) = some ⟨id, .write w⟩) ∨
      ∃ i, Follows i k ∧ o = .peer i := by
  have hup := hst.steady.running k
  cases o with
  | client c =>
    obtain ⟨hcaller, -, -⟩ := (hst.inv.client k c hup).of_call hpc
    obtain rfl := h.writers k c id w hcaller
    exact Or.inl ⟨rfl, c, rfl, hcaller⟩
  | peer j =>
    obtain ⟨out, hstage, hout⟩ := hst.inv.peer k j hup
    obtain ⟨rfl, -, -⟩ := hstage.of_call hpc
    obtain ⟨o', ho'⟩ := (hout _).mp rfl
    exact Or.inr ⟨j, hst.inv.handle (j, o') k (Pc.side_of_awaits ho').2.1, rfl⟩

variable [DecidableEq γ] {x : Link (Fin (m + 1)) γ} {n : Node (Fin (m + 1))}
  {pc : Pc (Fin (m + 1))} {io : Io (Fin (m + 1))} {rq : Link (Fin (m + 1)) γ → List Call}
  {rp : Link (Fin (m + 1)) γ → List WireMsg}

/-- A thread of one of the two servers, or of neither. -/
theorem sync_after (h : ChainInv M s) (hst : s.Stable Follows (chainNext m))
    (hstep : ThreadStep (s.node x.1) (s.pc x) io n pc) (hwire : Wire s x io rq rp)
    {i k : Fin (m + 1)} (hik : Follows i k) :
    Sync logged ((s.after x n pc rq rp).node i).log ((s.after x n pc rq rp).node k).log
      (s.after x n pc rq rp) i k := by
  have hki : k ≠ i := by
    rintro rfl
    exact not_follows_self k hik
  have hup := hst.steady.running k
  have hopen := hst.answers.opened k i
  have hsync := h.sync i k hik
  by_cases hwriting : ∃ id w next, s.pc x = .writing id w next
  · obtain ⟨id, w, next, hpc⟩ := hwriting
    rw [hpc] at hstep
    obtain ⟨rfl, rfl, rfl⟩ := hstep.writing_inv
    cases hwire
    by_cases hi : x.1 = i
    · subst hi
      have hnext : next = some k := by
        rw [h.handles x next (by rw [hpc]; rfl)]
        exact hik.next
      subst hnext
      rw [after_node_self, after_node_of_ne hki]
      exact Sync.apply_here hst.inv hpc hsync
    · by_cases hk : x.1 = k
      · have hx : x = (k, .peer i) := by
          rcases h.origin hst (k := x.1) (o := x.2) (by
            rw [show s.pc (x.1, x.2) = _ from hpc]
            rfl) with ⟨h0, -⟩ | ⟨i', hi', ho⟩
          · rw [hk] at h0
            subst h0
            exact absurd hik (not_follows_zero i)
          · rw [hk] at hi'
            rw [hi'.injective hik] at ho
            exact Prod.ext hk ho
        subst hx
        rw [after_node_self, after_node_of_ne hki.symm]
        exact Sync.apply_there hst.inv hki hup hpc hsync
      · rw [after_node_of_ne (Ne.symm hi), after_node_of_ne (Ne.symm hk)]
        refine Sync.frame hst.inv hki hup hopen (hpc ▸ .apply) .tau (fun he => absurd he hi)
          (fun he => ?_) hsync
        rw [he] at hk
        exact absurd rfl hk
  · have hnot : ∀ id w next, s.pc x ≠ .writing id w next := fun id w next he =>
      hwriting ⟨id, w, next, he⟩
    rw [(after_data hstep hnot i).2, (after_data hstep hnot k).2]
    exact Sync.frame hst.inv hki hup hopen hstep hwire (fun _ id w => hnot id w _)
      (fun _ => hnot) hsync

/-- The step that adds to the log is the one that applies the write. -/
theorem maps_after (h : ChainInv M s) (hstep : ThreadStep (s.node x.1) (s.pc x) io n pc)
    (i : Fin (m + 1)) : ((s.after x n pc rq rp).node i).replica.map
      = replay M ((s.after x n pc rq rp).node i).log := by
  by_cases hwriting : ∃ id w next, s.pc x = .writing id w next
  · obtain ⟨id, w, next, hpc⟩ := hwriting
    rw [hpc] at hstep
    obtain ⟨rfl, rfl, rfl⟩ := hstep.writing_inv
    by_cases hi : i = x.1
    · subst hi
      rw [after_node_self]
      dsimp only
      rw [Replica.write_map, replay_append, h.maps]
    · rw [after_node_of_ne hi]
      exact h.maps i
  · have hnot : ∀ id w next, s.pc x ≠ .writing id w next := fun id w next he =>
      hwriting ⟨id, w, next, he⟩
    rw [(after_data hstep hnot i).1, (after_data hstep hnot i).2]
    exact h.maps i

/-- A write that is not applied after the step was not applied before it. -/
theorem unapplied_of_after (hst : s.Stable Follows (chainNext m))
    (hstep : ThreadStep (s.node x.1) (s.pc x) io n pc) (hwire : Wire s x io rq rp) {c : γ}
    (hun : Unapplied (s.after x n pc rq rp) c) :
    Unapplied s c ∧ (x = (0, .client c) → ∀ id w next, s.pc x ≠ .writing id w next) := by
  unfold Unapplied at hun ⊢
  rw [after_requests] at hun
  by_cases hx : x = (0, .client c)
  · subst hx
    rw [after_pc_self] at hun
    have hstage := hst.inv.client 0 c (hst.steady.running 0)
    cases hwire with
    | tau =>
      obtain ⟨⟨call, hcall, -⟩, -, -⟩ := hstep.tau_call
      obtain ⟨-, hrq, -⟩ := hstage.of_call hcall
      rcases hun with hun | hun
      · exact absurd hrq hun
      · generalize s.pc (0, .client c) = pc₀ at hstep ⊢
        cases hstep with
        | getNextServer => exact ⟨Or.inr (by simp [Pc.pending]), fun _ _ _ _ he => by cases he⟩
        | startWrite _ => exact ⟨Or.inr (by simp [Pc.pending]), fun _ _ _ _ he => by cases he⟩
        | _ => exact absurd rfl hun
    | accept hrq =>
      obtain ⟨hpc, -⟩ := hstep.accept_inv
      exact ⟨Or.inl (by simp [hrq]), fun _ _ _ _ he => by rw [hpc] at he; cases he⟩
    | forward =>
      obtain ⟨id, w, res, -, hpc, rfl, -⟩ := hstep.forward_inv
      obtain ⟨-, hrq, -⟩ := hstage.of_call (show _ = some ⟨id, .write w⟩ by rw [hpc]; rfl)
      rw [Function.update_of_ne (by simp)] at hun
      rcases hun with hun | hun
      · exact absurd hrq hun
      · exact absurd rfl hun
    | collect _ =>
      obtain ⟨id, w, res, hpc, rfl, -⟩ := hstep.collect_inv
      obtain ⟨-, hrq, -⟩ := hstage.of_call (show _ = some ⟨id, .write w⟩ by rw [hpc]; rfl)
      rcases hun with hun | hun
      · exact absurd hrq hun
      · exact absurd rfl hun
    | lost _ =>
      obtain ⟨id, w, res, hpc, rfl, -⟩ := hstep.lost_inv
      obtain ⟨-, hrq, -⟩ := hstage.of_call (show _ = some ⟨id, .write w⟩ by rw [hpc]; rfl)
      rcases hun with hun | hun
      · exact absurd hrq hun
      · exact absurd rfl hun
    | send =>
      obtain ⟨call, hpc, rfl, -⟩ := hstep.send_inv
      obtain ⟨-, hrq, -⟩ := hstage.of_call (show _ = some call by rw [hpc]; rfl)
      rcases hun with hun | hun
      · exact absurd hrq hun
      · exact absurd rfl hun
  · refine ⟨?_, fun he => absurd he hx⟩
    rw [after_pc_of_ne (Ne.symm hx)] at hun
    have hrq : rq (0, .client c) = s.requests (0, .client c) := by
      cases hwire with
      | accept _ => exact Function.update_of_ne (Ne.symm hx) ..
      | forward => exact Function.update_of_ne (by simp) ..
      | _ => rfl
    rwa [hrq] at hun

/-- The log of the head grows by the write of a client that waits for it, or not
at all. -/
theorem head_log_after (h : ChainInv M s) (hst : s.Stable Follows (chainNext m))
    (hstep : ThreadStep (s.node x.1) (s.pc x) io n pc) :
    ((s.after x n pc rq rp).node 0).log = (s.node 0).log ∨
      ∃ c id w next, x = (0, .client c) ∧ s.pc x = .writing id w next ∧
        s.caller (0, c) = some ⟨id, .write w⟩ ∧
        ((s.after x n pc rq rp).node 0).log = (s.node 0).log ++ [(id, w)] := by
  by_cases hwriting : ∃ id w next, s.pc x = .writing id w next
  · obtain ⟨id, w, next, hpc⟩ := hwriting
    by_cases hx : x.1 = 0
    · right
      rcases h.origin hst (k := x.1) (o := x.2) (by
        rw [show s.pc (x.1, x.2) = _ from hpc]
        rfl) with ⟨-, c, ho, hcaller⟩ | ⟨i, hi, -⟩
      · refine ⟨c, id, w, next, Prod.ext hx ho, hpc, hcaller, ?_⟩
        rw [hpc] at hstep
        obtain ⟨-, -, rfl⟩ := hstep.writing_inv
        rw [← hx, after_node_self]
      · rw [hx] at hi
        exact absurd hi (not_follows_zero i)
    · left
      rw [after_node_of_ne (Ne.symm hx)]
  · left
    exact (after_data hstep (fun id w next he => hwriting ⟨id, w, next, he⟩) 0).2

theorem ChainInv.thread (h : ChainInv M s) (hst : s.Stable Follows (chainNext m))
    (hstep : ThreadStep (s.node x.1) (s.pc x) io n pc) (hwire : Wire s x io rq rp) :
    ChainInv M (s.after x n pc rq rp) where
  handles := by
    intro y next hy
    by_cases hyx : y = x
    · subst hyx
      rw [after_pc_self] at hy
      rcases hstep.nextServer_of hy with hold | hnew
      · exact h.handles y next hold
      · rw [hnew, hst.steady.next]
    · rw [after_pc_of_ne hyx] at hy
      exact h.handles y next hy
  writers := h.writers
  sync i k hik := sync_after h hst hstep hwire hik
  maps i := maps_after h hstep i
  fresh := by
    intro e he
    rcases head_log_after h hst hstep with heq | ⟨c, id, w, next, -, -, hcaller, heq⟩
    · rw [heq] at he
      exact h.fresh e he
    · rw [heq] at he
      rcases List.mem_append.mp he with hold | hnew
      · exact h.fresh e hold
      · rw [List.mem_singleton.mp hnew]
        exact hst.numbered.fresh _ _ hcaller
  called := by
    intro e he
    rcases head_log_after h hst hstep with heq | ⟨c, id, w, next, -, -, hcaller, heq⟩
    · rw [heq] at he
      exact h.called e he
    · rw [heq] at he
      rcases List.mem_append.mp he with hold | hnew
      · exact h.called e hold
      · rw [List.mem_singleton.mp hnew]
        exact hst.numbered.called _ _ hcaller
  nodup := by
    rcases head_log_after h hst hstep with heq | ⟨c, id, w, next, hx, hpc, hcaller, heq⟩
    · rw [heq]
      exact h.nodup
    · have hnew : id ∉ (s.node 0).log.map Prod.fst := by
        refine h.unapplied c id w hcaller (Or.inr ?_)
        rw [← hx, hpc]
        exact Option.some_ne_none _
      rw [heq, List.map_append, List.map_singleton]
      refine List.nodup_append.mpr ⟨h.nodup, List.nodup_singleton _, fun a ha b hb hab => ?_⟩
      rw [hab, List.mem_singleton.mp hb] at ha
      exact hnew ha
  unapplied := by
    intro c id w hcaller hun
    obtain ⟨hold, hnot⟩ := unapplied_of_after hst hstep hwire hun
    have hfresh := h.unapplied c id w hcaller hold
    rcases head_log_after h hst hstep with heq | ⟨c', id', w', next, hx, hpc, hcaller', heq⟩
    · rw [heq]
      exact hfresh
    · rw [heq, List.map_append, List.map_singleton]
      intro hmem
      rcases List.mem_append.mp hmem with hin | hin
      · exact hfresh hin
      · -- the number is the one of the write just applied, so it is the same client
        have hid : id = id' := List.mem_singleton.mp hin
        have hc := hst.numbered.unique _ _ _ _ hcaller hcaller' hid
        cases hc
        exact hnot hx id' w' next hpc

theorem ChainInv.internal (h : ChainInv M s) (hst : s.Stable Follows (chainNext m))
    {s' : Net (Fin (m + 1)) γ} (hs : Internal s s') : ChainInv M s' := by
  cases hs with
  | thread _ hstep hwire => exact h.thread hst hstep hwire
  | @ret i c call r rest hcaller _ =>
    exact { h with
      writers := fun i' c' id w hc => h.writers i' c' id w (caller_deliver hc).2
      sync := fun i' k hik => Sync.congr (s := s) rfl rfl (h.sync i' k hik)
      called := fun e he => List.mem_append_left _ (h.called e he)
      unapplied := fun c' id w hc => h.unapplied c' id w (caller_deliver hc).2 }

/-- A request that has just arrived is in no log. -/
theorem ChainInv.submit (h : ChainInv M s) {s' : Net (Fin (m + 1)) γ}
    (hs : Submit headWrites s s') : ChainInv M s' := by
  cases hs with
  | @call i c r hadmits _ =>
    refine { h with
      writers := fun i' c' id w hc => ?_
      sync := fun i' k hik => ?_
      fresh := fun e he => Nat.lt_succ_of_lt (h.fresh e he)
      called := fun e he => List.mem_append_left _ (h.called e he)
      unapplied := fun c' id w hc hun => ?_ }
    · rcases caller_submit hc with ⟨hy, hcall⟩ | ⟨-, hold⟩
      · cases hy
        cases hcall
        exact hadmits
      · exact h.writers i' c' id w hold
    · refine Sync.congr (s := s) rfl ?_ (h.sync i' k hik)
      exact Function.update_of_ne (by simp) ..
    · rcases caller_submit hc with ⟨-, hcall⟩ | ⟨hy, hold⟩
      · intro hmem
        obtain ⟨e, he, hid⟩ := List.mem_map.mp hmem
        have hlt := h.fresh e he
        cases hcall
        omega
      · refine h.unapplied c' id w hold ?_
        have hne : ((0, .client c') : Link (Fin (m + 1)) γ) ≠ (i, .client c) := by
          intro he
          cases he
          exact hy rfl
        unfold Unapplied at hun ⊢
        dsimp only [Net.submit] at hun
        rwa [Function.update_of_ne hne] at hun

end Step

theorem chain_inv [DecidableEq γ] {replica : Fin (m + 1) → Replica}
    (heq : ∀ i, (replica i).map = (replica 0).map) {s : Net (Fin (m + 1)) γ}
    (h : (chain γ replica).Reachable s) :
    s.Stable Follows (chainNext m) ∧ ChainInv (replica 0).map s := by
  have hstable : ∀ s, (chain γ replica).Reachable s → s.Stable Follows (chainNext m) :=
    fun s hs => stable_inv not_follows_self (fun _ _ => follows_of_next) hs
  refine ⟨hstable s h, h.invariant_of hstable ?_ ?_⟩
  · intro s hs
    subst hs
    exact
      { handles := fun _ _ he => by cases he
        writers := fun _ _ _ _ he => by cases he
        sync := fun i k _ => Or.inl ⟨rfl, fun id w ⟨o, ho⟩ => by
          rcases ho with ⟨res, ho⟩ | ⟨⟨res, ho⟩, -⟩ <;> cases ho⟩
        maps := heq
        fresh := fun e he => by cases he
        called := fun e he => by cases he
        nodup := List.nodup_nil
        unapplied := fun _ _ _ he => by cases he }
  · intro s s' hst _ hinv hs
    rcases hs with hs | hs
    · exact hinv.submit hs
    · exact hinv.internal hst hs

/-! ## Agreement -/

theorem ChainInv.prefix_log {M : KvMap} {s : Net (Fin (m + 1)) γ} (h : ChainInv M s)
    {i k : Fin (m + 1)} (hik : Follows i k) :
    (s.node k).log <+: (s.node i).log ∧ (s.node i).log.length ≤ (s.node k).log.length + 1 := by
  rcases h.sync i k hik with ⟨heq, -⟩ | ⟨id, w, -, heq⟩
  · rw [heq]
    exact ⟨List.prefix_refl _, Nat.le_succ _⟩
  · rw [heq]
    exact ⟨List.prefix_append _ _, by simp [logged]⟩

/-- Along the row, one pair at a time. -/
theorem ChainInv.prefix_head {M : KvMap} {s : Net (Fin (m + 1)) γ} (h : ChainInv M s) :
    ∀ i : Fin (m + 1), (s.node i).log <+: (s.node 0).log := by
  intro i
  induction i using Fin.induction with
  | zero => exact List.prefix_refl _
  | succ i ih =>
    have hik : Follows i.castSucc i.succ := rfl
    exact (h.prefix_log hik).1.trans ih

/-- A pair that is out of step has a write under way. -/
theorem ChainInv.quiet_log {M : KvMap} {s : Net (Fin (m + 1)) γ} (h : ChainInv M s)
    (hst : s.Stable Follows (chainNext m)) (hq : Quiet s) :
    ∀ i : Fin (m + 1), (s.node i).log = (s.node 0).log := by
  intro i
  induction i using Fin.induction with
  | zero => rfl
  | succ i ih =>
    have hik : Follows i.castSucc i.succ := rfl
    rw [← (h.sync _ _ hik).eq_of_quiet (hst.steady.running _) hq, ih]

/-- **Replicas agree.** In every state a chain with stable membership reaches,
each server has applied what its predecessor has, but for the last write at
most; no number occurs twice in a log, and every logged write was requested; the
tables are what the logs make of the common initial map; and where no write is
under way they are all equal. -/
theorem replicas_agree {γ : Type} [DecidableEq γ] {m : Nat} (replica : Fin (m + 1) → Replica)
    (heq : ∀ i, (replica i).map = (replica 0).map) {s : Net (Fin (m + 1)) γ}
    (hs : (chain γ replica).Reachable s) :
    (∀ i k, Follows i k → (s.node k).log <+: (s.node i).log ∧
      (s.node i).log.length ≤ (s.node k).log.length + 1) ∧
    (∀ i, ((s.node i).log.map Prod.fst).Nodup) ∧
    (∀ i, ∀ e ∈ (s.node i).log, .call e.1 (.write e.2) ∈ s.history) ∧
    (∀ i, (s.node i).replica.map = replay (replica 0).map (s.node i).log) ∧
    (Quiet s → ∀ i k, (s.node i).replica.map = (s.node k).replica.map) := by
  obtain ⟨hst, h⟩ := chain_inv heq hs
  refine ⟨fun i k hik => h.prefix_log hik, fun i => ?_, fun i e he => ?_, h.maps,
    fun hq i k => ?_⟩
  · exact h.nodup.sublist ((h.prefix_head i).sublist.map Prod.fst)
  · exact h.called e ((h.prefix_head i).subset he)
  · rw [h.maps i, h.maps k, h.quiet_log hst hq i, h.quiet_log hst hq k]

/-- Two servers with one and two lists; the head has applied a PUT. -/
theorem reachable_putA : ∃ s : Net (Fin 2) Unit,
    (chain Unit fun i : Fin 2 => emptyReplica i.val).Reachable s ∧
      (s.node 0).log = [(0, putA)] := by
  have h0 := Transition.System.Reachable.init (M := chain Unit fun i : Fin 2 => emptyReplica i.val)
    rfl
  have h1 := h0.step (Or.inl (.call (c := ()) (r := .write putA) (i := 0) rfl rfl))
  have h2 := h1.step (Or.inr (.thread (x := (0, .client ())) rfl (.accept rfl) (.accept rfl)))
  have h3 := h2.step (Or.inr (.thread (x := (0, .client ())) rfl .getNextServer .tau))
  have h4 := h3.step (Or.inr (.thread (x := (0, .client ())) rfl (.startFree rfl rfl) .tau))
  have h5 := h4.step (Or.inr (.thread (x := (0, .client ())) rfl .apply .tau))
  exact ⟨_, h5, rfl⟩

theorem replicas_agree_putA : ∃ s : Net (Fin 2) Unit, (s.node 0).log = [(0, putA)] ∧
    (s.node 1).log <+: (s.node 0).log ∧ (s.node 0).log.length ≤ (s.node 1).log.length + 1 := by
  obtain ⟨s, hs, hlog⟩ := reachable_putA
  refine ⟨s, hlog, ?_⟩
  exact (replicas_agree _ (fun i => by rw [map_emptyReplica, map_emptyReplica]) hs).1 0 1 rfl

end KvStorage
