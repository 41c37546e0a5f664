import KvStorage.Chain.Stable
import KvStorage.Membership.Select
import KvStorage.Membership.Transfer

/-!
# A server joins

A new server N joins behind the tail P of a running chain. Two things happen
independently: N's `main` creates its znode, fetches P's table (`set_antecessor`)
and enters `network_main_loop`; P's watcher is told of the new child and makes N
the successor (`set_next_server`). Client requests go on meanwhile.

N's `main` reaches P over a connection of its own, on which it behaves like a
client with one GETTABLE request: the client `none` of the model, the client
programs being `some c`. N's socket listens from the start, so P can connect to it
and send a request before N serves.

Allocations succeed and connections hold. Listings that do not fit a frame do not
arrive as they were sent; of those nothing is assumed but that N goes on.
-/

namespace KvStorage

open CLib Linearizability Monitor Net

/-! ## The servers and their names -/

/-- A chain about to grow: the tail `pred`, the new server `joiner`, and what the
coordination service knows of them. -/
structure Joining (ι : Type) where
  pred : ι
  joiner : ι
  /-- The handles before. -/
  next : ι → Option ι
  /-- The tables before. -/
  replica : ι → Replica
  nodeId : ι → CStr
  /-- The server behind the address that a child's data gives. -/
  reach : CStr → Option ι
  climbs : ∀ i k, next i = some k → nodeId i < nodeId k
  last : nodeId pred < nodeId joiner
  tail : next pred = none
  to_joiner : ∀ i, next i ≠ some joiner
  from_joiner : next joiner = none
  reach_pred : reach (nodeId pred) = some pred
  reach_joiner : reach (nodeId joiner) = some joiner
  fresh : (replica joiner).map = ∅
  hashable : HashableKeys (replica pred).map

namespace Joining

variable {ι : Type} (J : Joining ι)

/-- The handles there can be. -/
def Edge (i k : ι) : Prop := J.next i = some k ∨ i = J.pred ∧ k = J.joiner

/-- A child list that holds the new znode: P's is the greatest of the others. -/
def Listed (children : List CStr) : Prop :=
  J.nodeId J.pred ∈ children ∧ J.nodeId J.joiner ∈ children ∧
    ∀ child ∈ children, child ≤ J.nodeId J.pred ∨ child = J.nodeId J.joiner

/-- The two of them, as a child list. -/
theorem listed_pair : J.Listed [J.nodeId J.pred, J.nodeId J.joiner] := by
  refine ⟨by simp, by simp, ?_⟩
  intro child hchild
  simp only [List.mem_cons, List.not_mem_nil, or_false] at hchild
  exact hchild.imp_left le_of_eq

variable {J}

theorem climbs_of_edge {i k : ι} (h : J.Edge i k) : J.nodeId i < J.nodeId k := by
  rcases h with hnext | ⟨rfl, rfl⟩
  · exact J.climbs i k hnext
  · exact J.last

theorem not_edge_self (i : ι) : ¬ J.Edge i i := fun h => lt_irrefl _ (climbs_of_edge h)

theorem joiner_ne_pred : J.joiner ≠ J.pred := fun h => not_edge_self J.joiner (Or.inr ⟨h, rfl⟩)

theorem pred_of_edge {i : ι} (h : J.Edge i J.joiner) : i = J.pred := by
  rcases h with hnext | ⟨hi, -⟩
  · exact absurd hnext (J.to_joiner i)
  · exact hi

theorem joiner_of_edge {k : ι} (h : J.Edge J.pred k) : k = J.joiner := by
  rcases h with hnext | ⟨-, hk⟩
  · rw [J.tail] at hnext
    cases hnext
  · exact hk

/-- P's watcher finds N. -/
theorem setNextServer_pred {children : List CStr} (h : J.Listed children) :
    setNextServer (J.nodeId J.pred) J.reach children = some J.joiner := by
  obtain ⟨-, hjoiner, hall⟩ := h
  have hchosen : novoSucessor (J.nodeId J.pred) none children = some (J.nodeId J.joiner) := by
    refine (novoSucessor_eq_some (by simp)).mpr ⟨Or.inr ⟨hjoiner, J.last⟩, by simp, ?_⟩
    intro d hd hlt
    rcases hall d hd with hle | rfl
    · exact absurd hlt (not_lt.mpr hle)
    · exact le_rfl
  rw [setNextServer, hchosen, Option.bind_some, J.reach_joiner]

/-- N has nobody behind it. -/
theorem setNextServer_joiner {children : List CStr} (h : J.Listed children) :
    setNextServer (J.nodeId J.joiner) J.reach children = none := by
  have hnone : novoSucessor (J.nodeId J.joiner) none children = none := by
    by_contra hsome
    obtain ⟨c, hc⟩ := Option.ne_none_iff_exists'.mp hsome
    obtain ⟨hfound, -⟩ := (novoSucessor_eq_some (by simp)).mp hc
    rcases hfound with hno | ⟨hmem, hlt⟩
    · cases hno
    · rcases h.2.2 c hmem with hle | rfl
      · exact lt_irrefl _ (hlt.trans (lt_of_le_of_lt hle J.last))
      · exact lt_irrefl _ hlt
  rw [setNextServer, hnone, Option.bind_none]

/-- N finds P. -/
theorem antecessor_joiner {children : List CStr} (h : J.Listed children) :
    (antecessor (J.nodeId J.joiner) none children).bind J.reach = some J.pred := by
  obtain ⟨hpred, -, hall⟩ := h
  have hchosen : antecessor (J.nodeId J.joiner) none children = some (J.nodeId J.pred) := by
    refine (antecessor_eq_some (by simp)).mpr ⟨Or.inr ⟨hpred, J.last⟩, by simp, ?_⟩
    intro d hd hlt
    rcases hall d hd with hle | rfl
    · exact hle
    · exact absurd hlt (lt_irrefl _)
  rw [hchosen, Option.bind_some, J.reach_pred]

end Joining

/-! ## Runs -/

/-- Where the `main` of the joining server is. -/
inductive MainPc
  /-- the socket listens, the znode does not exist -/
  | starting
  /-- past `zoo_create` -/
  | created
  /-- in `rtable_get_table` -/
  | asked
  /-- past `set_antecessor` -/
  | loaded
  /-- in `network_main_loop` -/
  | serving
  deriving DecidableEq

/-- The servers and connections, and N's `main`. -/
structure Join (ι γ : Type) where
  net : Net ι (Option γ)
  main : MainPc

theorem HashableKeys.onMap {M : KvMap} (h : HashableKeys M) (w : Write) :
    HashableKeys (w.onMap M) := by
  intro key hkey
  cases w with
  | put k value =>
    rcases Finmap.mem_insert.mp hkey with rfl | hold
    · exact k.property
    · exact h key hold
  | del k => exact h key (Finmap.mem_erase.mp hkey).2

/-- A thread past the read section of its request. -/
def Pc.Replied {ι : Type} : Pc ι → Prop
  | readDone _ _ _ | sending _ _ | closed => True
  | _ => False

/-- A whole listing, as it arrives. -/
def IsListing (reply : WireMsg) : Prop :=
  messageSize reply ≤ 65535 ∧ ∃ r : Replica, HashableKeys r.map ∧ reply = tableReply r.table

namespace Joining

variable {ι γ : Type} [DecidableEq ι] [DecidableEq γ] (J : Joining ι)

/-- The connection of N's `main` at P. -/
def link : Link ι (Option γ) := (J.pred, .client none)

/-- Clients write anywhere but at N. -/
def Admits (i : ι) : Request → Prop
  | .write _ => i ≠ J.joiner
  | .read _ => True

/-- A step the system takes by itself. -/
inductive Internal : Join ι γ → Join ι γ → Prop
  | create {s : Join ι γ} : s.main = .starting → Internal s { s with main := .created }
  -- `set_next_server`, then `set_antecessor` up to the request
  | ask {s : Join ι γ} {children : List CStr} {i : ι} : s.main = .created → J.Listed children →
      (antecessor (J.nodeId J.joiner) none children).bind J.reach = some i →
      Internal s
        ⟨(s.net.setNode J.joiner { s.net.node J.joiner with
            next := setNextServer (J.nodeId J.joiner) J.reach children }).submit
          i none (.read .getTable), .asked⟩
  | load {s : Join ι γ} {call : Call} {reply : WireMsg} {rest : List WireMsg} {r : Replica} :
      s.main = .asked → s.net.caller (J.pred, none) = some call →
      s.net.replies J.link = reply :: rest →
      (IsListing reply → setAntecessor (W := Unit) (fun _ => pure (some reply.toMessageT))
        (s.net.node J.joiner).replica.table () allocated = .ok ((r.table, ()), allocated)) →
      Internal s
        ⟨(s.net.deliver J.pred none call reply rest).setNode J.joiner
          { s.net.node J.joiner with replica := r }, .loaded⟩
  -- P has closed the connection: no entries, and N goes on
  | fail {s : Join ι γ} : s.main = .asked → s.net.pc J.link = .closed →
      Internal s { s with main := .loaded }
  | enter {s : Join ι γ} : s.main = .loaded →
      Internal s
        ⟨s.net.setNode J.joiner { s.net.node J.joiner with serving := true }, .serving⟩
  -- `child_watcher` at P
  | watch {s : Join ι γ} {children : List CStr} : s.main ≠ .starting →
      (s.net.node J.pred).next = none → J.Listed children →
      Internal s
        ⟨s.net.setNode J.pred { s.net.node J.pred with
          next := setNextServer (J.nodeId J.pred) J.reach children }, s.main⟩
  -- the reply to N's `main` is not for a client program
  | net {s : Join ι γ} {net : Net ι (Option γ)} : Net.Internal s.net net →
      net.caller (J.pred, none) = s.net.caller (J.pred, none) → Internal s { s with net := net }

/-- `ask` with what the two loops find. -/
theorem Internal.ask_pred {s : Join ι γ} (hmain : s.main = .created) {children : List CStr}
    (h : J.Listed children) :
    J.Internal s ⟨(s.net.setNode J.joiner { s.net.node J.joiner with next := none }).submit
      J.pred none (.read .getTable), .asked⟩ := by
  have hstep := Internal.ask hmain h (antecessor_joiner h)
  rwa [setNextServer_joiner h] at hstep

/-- `watch` with what the loop finds. -/
theorem Internal.watch_joiner {s : Join ι γ} (hmain : s.main ≠ .starting)
    (hnext : (s.net.node J.pred).next = none) {children : List CStr} (h : J.Listed children) :
    J.Internal s ⟨s.net.setNode J.pred { s.net.node J.pred with next := some J.joiner },
      s.main⟩ := by
  have hstep := Internal.watch hmain hnext h
  rwa [setNextServer_pred h] at hstep

/-- A client program sends a request. -/
inductive Client : Join ι γ → Join ι γ → Prop
  | call {s : Join ι γ} {i : ι} {c : γ} {r : Request} : J.Admits i r →
      s.net.caller (i, some c) = none → Client s { s with net := s.net.submit i (some c) r }

/-- All runs of the joining. -/
def system (γ : Type) [DecidableEq γ] : Transition.System (Join ι γ) where
  init s := s = ⟨Net.start fun i =>
    { Node.start (J.replica i) (J.next i) with serving := decide (i ≠ J.joiner) }, .starting⟩
  step s s' := J.Client s s' ∨ J.Internal s s'

/-! ## What holds in every run -/

variable {J}

/-- The invariant of every run of the joining. -/
structure Inv (J : Joining ι) (s : Join ι γ) : Prop where
  net : s.net.Inv J.Edge
  answers : s.net.Answers
  running : ∀ i, (s.net.node i).running = true
  serving : ∀ i, (s.net.node i).serving = true ↔ i ≠ J.joiner ∨ s.main = .serving
  idle : s.main ≠ .serving → ∀ o, s.net.pc (J.joiner, o) = .receiving
  absent : s.main = .starting ∨ s.main = .created → s.net.caller (J.pred, none) = none
  opened : s.main = .starting ∨ s.main = .created → s.net.pc J.link ≠ .closed
  asked : s.main = .asked → ∃ id, s.net.caller (J.pred, none) = some ⟨id, .read .getTable⟩
  done : s.main = .loaded ∨ s.main = .serving →
    s.net.caller (J.pred, none) = none ∨ s.net.pc J.link = .closed
  empty : s.main ≠ .loaded → s.main ≠ .serving → (s.net.node J.joiner).replica.map = ∅
  reads : ∀ c id w, s.net.caller (J.joiner, c) ≠ some ⟨id, .write w⟩
  hashable : HashableKeys (s.net.node J.pred).replica.map

/-- The keys of a table stay 7-bit keys whatever a thread does. -/
theorem hashable_after {s : Net ι γ} {x : Link ι γ} {n : Node ι} {pc : Pc ι} {io : Io ι}
    {rq : Link ι γ → List Call} {rp : Link ι γ → List WireMsg}
    (hstep : ThreadStep (s.node x.1) (s.pc x) io n pc) {i : ι}
    (h : HashableKeys (s.node i).replica.map) :
    HashableKeys ((s.after x n pc rq rp).node i).replica.map := by
  by_cases hi : i = x.1
  · subst hi
    rw [after_node_self]
    by_cases hwriting : ∃ id w next, s.pc x = .writing id w next
    · obtain ⟨id, w, next, hpc⟩ := hwriting
      rw [hpc] at hstep
      obtain ⟨-, -, rfl⟩ := hstep.writing_inv
      dsimp only
      rw [Replica.write_map]
      exact h.onMap w
    · rw [(hstep.keeps_data fun id w next he => hwriting ⟨id, w, next, he⟩).1]
      exact h
  · rw [after_node_of_ne hi]
    exact h

/-- A reply for a client program is not the one for N's `main`. -/
theorem ne_of_keeps_caller {s : Net ι (Option γ)} {i : ι} {c : Option γ} {call : Call} {r : WireMsg}
    {rest : List WireMsg} (hcall : s.caller (i, c) = some call)
    (hkeeps : (s.deliver i c call r rest).caller (J.pred, none) = s.caller (J.pred, none)) :
    (J.pred, none) ≠ (i, c) := by
  intro he
  rw [he, hcall] at hkeeps
  dsimp only [Net.deliver] at hkeeps
  rw [Function.update_self] at hkeeps
  cases hkeeps

omit [DecidableEq ι] [DecidableEq γ] in
/-- A server's threads wait for its `main` to call `network_main_loop`. -/
theorem Inv.ne_joiner {s : Join ι γ} (h : J.Inv s) (hmain : s.main ≠ .serving)
    {x : Link ι (Option γ)} {n : Node ι} {pc : Pc ι} {io : Io ι}
    (hstep : ThreadStep (s.net.node x.1) (s.net.pc x) io n pc) : x.1 ≠ J.joiner := by
  intro hx
  have hidle := h.idle hmain x.2
  rw [← hx] at hidle
  rw [show s.net.pc x = _ from hidle] at hstep
  cases hstep with
  | accept hserving =>
    rcases (h.serving _).mp hserving with hne | hserve
    · exact hne hx
    · exact hmain hserve

theorem Inv.thread {s : Join ι γ} (h : J.Inv s) {x : Link ι (Option γ)} {n : Node ι} {pc : Pc ι}
    {io : Io ι} {rq : Link ι (Option γ) → List Call} {rp : Link ι (Option γ) → List WireMsg}
    (hup : (s.net.node x.1).running = true)
    (hstep : ThreadStep (s.net.node x.1) (s.net.pc x) io n pc) (hwire : Wire s.net x io rq rp) :
    J.Inv { s with net := s.net.after x n pc rq rp } where
  net := h.net.thread not_edge_self hstep hwire
  answers := h.answers.internal h.net (.thread hup hstep hwire)
  running i := (after_membership hstep i).2.1.trans (h.running i)
  serving i := by
    rw [(after_membership hstep i).2.2]
    exact h.serving i
  idle hmain o := by
    have hne := h.ne_joiner hmain hstep
    exact (after_pc_of_ne fun he => hne (congrArg Prod.fst he).symm).trans (h.idle hmain o)
  absent := h.absent
  opened hmain := by
    by_cases hx : J.link = x
    · -- nobody has sent it anything
      have hstage := h.net.client J.pred none (h.running _)
      rw [h.absent hmain] at hstage
      subst hx
      dsimp only
      rw [after_pc_self]
      rintro rfl
      generalize hpc : s.net.pc J.link = pc₀ at hstep
      cases hstep with
      | close =>
        obtain ⟨hno, -⟩ := hstage.of_call (show (s.net.pc J.link).call = _ by rw [hpc]; rfl)
        cases hno
    · dsimp only
      rw [after_pc_of_ne hx]
      exact h.opened hmain
  asked := h.asked
  done hmain := by
    rcases h.done hmain with hnone | hclosed
    · exact Or.inl hnone
    · right
      by_cases hx : J.link = x
      · rw [← hx, hclosed] at hstep
        cases hstep
      · exact (after_pc_of_ne hx).trans hclosed
  empty hloaded hserving := by
    have hne := h.ne_joiner hserving hstep
    dsimp only
    rw [after_node_of_ne hne.symm]
    exact h.empty hloaded hserving
  reads := h.reads
  hashable := hashable_after hstep h.hashable

theorem Inv.client {s s' : Join ι γ} (h : J.Inv s) (hs : J.Client s s') : J.Inv s' := by
  cases hs with
  | @call i c r hadmits hcaller =>
    have hsubmit : Submit (fun _ _ => True) s.net (s.net.submit i (some c) r) :=
      .call trivial hcaller
    have hpred : (s.net.submit i (some c) r).caller (J.pred, none) = s.net.caller (J.pred, none) :=
      Function.update_of_ne (by simp) ..
    exact
      { net := h.net.submit hsubmit
        answers := h.answers.submit hsubmit
        running := h.running
        serving := h.serving
        idle := h.idle
        absent := fun hmain => hpred.trans (h.absent hmain)
        opened := h.opened
        asked := fun hmain => by
          obtain ⟨id, hid⟩ := h.asked hmain
          exact ⟨id, hpred.trans hid⟩
        done := fun hmain => (h.done hmain).imp_left hpred.trans
        empty := h.empty
        reads := fun c' id w hc' => by
          by_cases hy : (J.joiner, c') = (i, some c)
          · dsimp only [Net.submit] at hc'
            rw [hy, Function.update_self] at hc'
            cases hc'
            cases hy
            exact hadmits rfl
          · dsimp only [Net.submit] at hc'
            rw [Function.update_of_ne hy] at hc'
            exact h.reads c' id w hc'
        hashable := h.hashable }

omit [DecidableEq γ] in
/-- Where only data of a server's own `main` and watcher change. -/
theorem Inv.setNode {s : Join ι γ} (h : J.Inv s) {main : MainPc} {i : ι} {n : Node ι}
    (hr : n.nReaders = (s.net.node i).nReaders) (hw : n.nWriters = (s.net.node i).nWriters)
    (hnext : ∀ k, n.next = some k → J.Edge i k) (hrun : n.running = (s.net.node i).running)
    (hserving : ∀ j, ((s.net.setNode i n).node j).serving = true ↔
      j ≠ J.joiner ∨ main = .serving)
    (hidle : main ≠ .serving → s.main ≠ .serving)
    (habsent : main = .starting ∨ main = .created → s.main = .starting ∨ s.main = .created)
    (hasked : main = .asked → s.main = .asked)
    (hdone : main = .loaded ∨ main = .serving → s.main = .loaded ∨ s.main = .serving)
    (hempty : main ≠ .loaded → main ≠ .serving → s.main ≠ .loaded ∧ s.main ≠ .serving)
    (hdata : n.replica = (s.net.node i).replica ∨ i = J.joiner ∧ main = .loaded) :
    J.Inv ⟨s.net.setNode i n, main⟩ where
  net := h.net.setNode hr hw hnext fun hn => hrun ▸ hn
  answers := ⟨h.answers.acked, h.answers.opened⟩
  running j := by
    by_cases hj : j = i
    · subst hj
      rw [node_setNode_self, hrun]
      exact h.running j
    · rw [node_setNode_of_ne hj]
      exact h.running j
  serving := hserving
  idle hmain := h.idle (hidle hmain)
  absent hmain := h.absent (habsent hmain)
  opened hmain := h.opened (habsent hmain)
  asked hmain := h.asked (hasked hmain)
  done hmain := h.done (hdone hmain)
  empty hloaded hserving := by
    have hbefore := hempty hloaded hserving
    have hdata' := hdata.resolve_right fun he => hloaded he.2
    by_cases hj : J.joiner = i
    · rw [hj, node_setNode_self, hdata', ← hj]
      exact h.empty hbefore.1 hbefore.2
    · rw [node_setNode_of_ne hj]
      exact h.empty hbefore.1 hbefore.2
  reads := h.reads
  hashable := by
    by_cases hj : J.pred = i
    · have hdata' := hdata.resolve_right fun he => joiner_ne_pred (he.1.symm.trans hj.symm)
      rw [hj, node_setNode_self, hdata', ← hj]
      exact h.hashable
    · rw [node_setNode_of_ne hj]
      exact h.hashable

omit [DecidableEq ι] [DecidableEq γ] in
/-- Until it serves, the value of N's `main` does not matter to who serves. -/
theorem Inv.serving_main {s : Join ι γ} (h : J.Inv s) {main : MainPc} (hold : s.main ≠ .serving)
    (hnew : main ≠ .serving) (i : ι) :
    (s.net.node i).serving = true ↔ i ≠ J.joiner ∨ main = .serving := by
  rw [h.serving i]
  exact or_congr_right (iff_of_false hold hnew)

/-- N sends its GETTABLE. -/
theorem Inv.ask {s : Join ι γ} (h : J.Inv s) (hmain : s.main = .created) :
    J.Inv ⟨s.net.submit J.pred none (.read .getTable), .asked⟩ := by
  have hsubmit : Submit (fun _ _ => True) s.net (s.net.submit J.pred none (.read .getTable)) :=
    .call trivial (h.absent (Or.inr hmain))
  exact
    { net := h.net.submit hsubmit
      answers := h.answers.submit hsubmit
      running := h.running
      serving := h.serving_main (by rw [hmain]; decide) nofun
      idle := fun _ => h.idle (by rw [hmain]; decide)
      absent := fun hno => by simp at hno
      opened := fun hno => by simp at hno
      asked := fun _ => ⟨s.net.fresh, Function.update_self ..⟩
      done := fun hno => by simp at hno
      empty := fun _ _ => h.empty (by rw [hmain]; decide) (by rw [hmain]; decide)
      reads := fun c id w hc => by
        dsimp only [Net.submit] at hc
        rw [Function.update_of_ne (by simp [joiner_ne_pred])] at hc
        exact h.reads c id w hc
      hashable := h.hashable }

/-- A reply arrives at a client, or at N's `main`. -/
theorem Inv.deliver {s : Join ι γ} (h : J.Inv s) {i : ι} {c : Option γ} {call : Call} {r : WireMsg}
    {rest : List WireMsg} (hcaller : s.net.caller (i, c) = some call)
    (hrp : s.net.replies (i, .client c) = r :: rest) {main : MainPc}
    (hserving : main = .serving ↔ s.main = .serving)
    (habsent : main = .starting ∨ main = .created → s.main = .starting ∨ s.main = .created)
    (hasked : main = .asked → s.main = .asked ∧ (J.pred, none) ≠ (i, c))
    (hdone : (main = .loaded ∨ main = .serving) →
      (J.pred, none) = (i, c) ∨ s.main = .loaded ∨ s.main = .serving)
    (hempty : main ≠ .loaded → main ≠ .serving → s.main ≠ .loaded ∧ s.main ≠ .serving) :
    J.Inv ⟨s.net.deliver i c call r rest, main⟩ := by
  have hstep : Net.Internal s.net (s.net.deliver i c call r rest) := .ret hcaller hrp
  have hold : ∀ y c', (s.net.deliver i c call r rest).caller y = some c' →
      s.net.caller y = some c' := by
    intro y c' hy
    dsimp only [Net.deliver] at hy
    by_cases hyc : y = (i, c)
    · rw [hyc, Function.update_self] at hy
      cases hy
    · rwa [Function.update_of_ne hyc] at hy
  have hnone : ∀ y, s.net.caller y = none →
      (s.net.deliver i c call r rest).caller y = none := by
    intro y hy
    by_contra hsome
    obtain ⟨c', hc'⟩ := Option.ne_none_iff_exists'.mp hsome
    rw [hold _ _ hc'] at hy
    cases hy
  exact
    { net := h.net.internal not_edge_self hstep
      answers := h.answers.internal h.net hstep
      running := h.running
      serving := fun j => by
        rw [hserving]
        exact h.serving j
      idle := fun hmain => h.idle fun he => hmain (hserving.mpr he)
      absent := fun hmain => hnone _ (h.absent (habsent hmain))
      opened := fun hmain => h.opened (habsent hmain)
      asked := fun hmain => by
        obtain ⟨hmain', hne⟩ := hasked hmain
        obtain ⟨id, hid⟩ := h.asked hmain'
        exact ⟨id, (Function.update_of_ne hne ..).trans hid⟩
      done := fun hmain => by
        rcases hdone hmain with he | hmain'
        · left
          dsimp only [Net.deliver]
          rw [he, Function.update_self]
        · exact (h.done hmain').imp_left (hnone _)
      empty := fun hloaded hserving =>
        h.empty (hempty hloaded hserving).1 (hempty hloaded hserving).2
      reads := fun c' id w hc' => h.reads c' id w (hold _ _ hc')
      hashable := h.hashable }

theorem Inv.internal {s s' : Join ι γ} (h : J.Inv s) (hs : J.Internal s s') : J.Inv s' := by
  have hsame : ∀ {i : ι} {n : Node ι}, n.serving = (s.net.node i).serving →
      ∀ j, ((s.net.setNode i n).node j).serving = true ↔ j ≠ J.joiner ∨ s.main = .serving := by
    intro i n hn j
    by_cases hj : j = i
    · subst hj
      rw [node_setNode_self, hn]
      exact h.serving j
    · rw [node_setNode_of_ne hj]
      exact h.serving j
  cases hs with
  | create hmain =>
    exact { h with
      serving := h.serving_main (by rw [hmain]; decide) nofun
      idle := fun _ => h.idle (by rw [hmain]; decide)
      absent := fun _ => h.absent (Or.inl hmain)
      opened := fun _ => h.opened (Or.inl hmain)
      asked := fun hno => by cases hno
      done := fun hno => by simp at hno
      empty := fun _ _ => h.empty (by rw [hmain]; decide) (by rw [hmain]; decide) }
  | @ask children i hmain hlisted hi =>
    rw [antecessor_joiner hlisted] at hi
    cases hi
    have hset : J.Inv ⟨s.net.setNode J.joiner { s.net.node J.joiner with
        next := setNextServer (J.nodeId J.joiner) J.reach children }, s.main⟩ := by
      refine h.setNode rfl rfl (fun k hk => ?_) rfl (hsame rfl) id id id id (fun h h' => ⟨h, h'⟩)
        (Or.inl rfl)
      dsimp only at hk
      rw [setNextServer_joiner hlisted] at hk
      cases hk
    exact hset.ask hmain
  | @load call reply rest r hmain hcaller hrp _ =>
    have hdel : J.Inv ⟨s.net.deliver J.pred none call reply rest, .loaded⟩ :=
      h.deliver hcaller hrp (by simp [hmain]) (by simp) (by simp) (by simp) (by simp)
    refine hdel.setNode rfl rfl (fun k hk => h.net.next J.joiner k hk) rfl ?_ id id id id
      (fun h h' => ⟨h, h'⟩) (Or.inr ⟨rfl, rfl⟩)
    intro j
    have hj' := hdel.serving j
    by_cases hj : j = J.joiner
    · subst hj
      rw [node_setNode_self]
      exact hj'
    · rw [node_setNode_of_ne hj]
      exact hj'
  | fail hmain hclosed =>
    exact { h with
      serving := h.serving_main (by rw [hmain]; decide) nofun
      idle := fun _ => h.idle (by rw [hmain]; decide)
      absent := fun hno => by simp at hno
      opened := fun hno => by simp at hno
      asked := fun hno => by cases hno
      done := fun _ => Or.inr hclosed
      empty := fun hno => absurd rfl hno }
  | enter hmain =>
    refine h.setNode rfl rfl (fun k hk => h.net.next J.joiner k hk) rfl (fun j => ?_) (by simp)
      (by simp) (by simp) (fun _ => Or.inl hmain) (by simp) (Or.inl rfl)
    by_cases hj : j = J.joiner
    · subst hj
      rw [node_setNode_self]
      simp
    · rw [node_setNode_of_ne hj, h.serving j]
      simp [hj]
  | watch _ _ hlisted =>
    refine h.setNode rfl rfl (fun k hk => ?_) rfl (hsame rfl) id id id id (fun h h' => ⟨h, h'⟩)
      (Or.inl rfl)
    dsimp only at hk
    rw [setNextServer_pred hlisted] at hk
    cases hk
    exact Or.inr ⟨rfl, rfl⟩
  | net hnet hcaller =>
    cases hnet with
    | thread hup hstep hwire => exact h.thread hup hstep hwire
    | @ret i c call r rest hcall hrp =>
      exact h.deliver hcall hrp Iff.rfl id
        (fun hmain => ⟨hmain, ne_of_keeps_caller hcall hcaller⟩) Or.inr fun h h' => ⟨h, h'⟩

theorem inv_of_reachable {s : Join ι γ} (h : (J.system γ).Reachable s) : J.Inv s := by
  refine h.invariant (I := J.Inv) ?_ ?_
  · intro s hs
    subst hs
    exact
      { net := .start (fun _ => rfl) (fun _ => rfl) fun i k hk => Or.inl hk
        answers := ⟨fun _ => trivial, fun _ _ he => by cases he⟩
        running := fun _ => rfl
        serving := fun i => by simp [Net.start]
        idle := fun _ _ => rfl
        absent := fun _ => rfl
        opened := fun _ he => by cases he
        asked := fun hno => by cases hno
        done := fun hno => by simp at hno
        empty := fun _ _ => J.fresh
        reads := fun _ _ _ he => by cases he
        hashable := J.hashable }
  · intro s s' h hs
    rcases hs with hs | hs
    · exact h.client hs
    · exact h.internal hs

/-! ## The snapshot -/

/-- N's GETTABLE has been read: its thread at P is past the table, or the reply is
on its way, or N has it. -/
def Taken (J : Joining ι) (s : Join ι γ) : Prop :=
  s.main = .loaded ∨ s.main = .serving ∨
    s.main = .asked ∧ (s.net.replies J.link ≠ [] ∨ (s.net.pc J.link).Replied)

omit [DecidableEq ι] [DecidableEq γ] in
theorem Taken.of_main {s : Join ι γ} {net : Net ι (Option γ)} (h : J.Taken s)
    (hrp : s.net.replies J.link ≠ [] → net.replies J.link ≠ [])
    (hpc : (s.net.pc J.link).Replied → net.replies J.link ≠ [] ∨ (net.pc J.link).Replied) :
    J.Taken { s with net := net } := by
  rcases h with hloaded | hserving | ⟨hasked, hrp' | hpc'⟩
  · exact Or.inl hloaded
  · exact Or.inr (Or.inl hserving)
  · exact Or.inr (Or.inr ⟨hasked, Or.inl (hrp hrp')⟩)
  · exact Or.inr (Or.inr ⟨hasked, hpc hpc'⟩)

theorem Taken.thread {s : Join ι γ} (h : J.Taken s) {x : Link ι (Option γ)} {n : Node ι}
    {pc : Pc ι} {io : Io ι} {rq : Link ι (Option γ) → List Call}
    {rp : Link ι (Option γ) → List WireMsg}
    (hstep : ThreadStep (s.net.node x.1) (s.net.pc x) io n pc) (hwire : Wire s.net x io rq rp) :
    J.Taken { s with net := s.net.after x n pc rq rp } := by
  have hreplies := client_replies hwire (i := J.pred) (c := none)
  refine h.of_main (fun hne => ?_) fun hpc => ?_
  · rw [after_replies]
    rcases hreplies with hsame | ⟨-, r, -, hmore⟩
    · rw [show rp J.link = _ from hsame]
      exact hne
    · rw [show rp J.link = _ from hmore]
      simp
  · by_cases hx : J.link = x
    · rw [← hx] at hstep hwire hreplies
      rw [after_replies, ← hx, after_pc_self]
      generalize s.net.pc J.link = pc₀ at hstep hpc
      cases hstep with
      | endRead => exact Or.inr trivial
      | close => exact Or.inr trivial
      | send =>
        left
        rcases hreplies with hsame | ⟨-, r, -, hmore⟩
        · cases hwire
          rw [Function.update_self]
          simp
        · rw [show rp J.link = _ from hmore]
          simp
      | _ => exact hpc.elim
    · rw [after_pc_of_ne hx]
      exact Or.inr hpc

/-- Replies for clients leave N's connection alone. -/
theorem replies_link_deliver {s : Net ι (Option γ)} {i : ι} {c : Option γ}
    {call : Call} {r : WireMsg} {rest : List WireMsg} (hne : (J.pred, none) ≠ (i, c)) :
    (s.deliver i c call r rest).replies J.link = s.replies J.link := by
  refine Function.update_of_ne (fun he => hne ?_) ..
  have hi : J.pred = i := congrArg Prod.fst he
  have hc : Origin.client none = Origin.client c := congrArg Prod.snd he
  rw [hi, Origin.client.inj hc]

/-- Once read, the GETTABLE stays read. -/
theorem Taken.step {s s' : Join ι γ} (h : J.Taken s) (hs : J.Client s s' ∨ J.Internal s s') :
    J.Taken s' := by
  have hmain : ∀ {main : MainPc}, s.main = main → main ≠ .starting ∧ main ≠ .created := by
    rintro main rfl
    rcases h with he | he | ⟨he, -⟩ <;> simp [he]
  rcases hs with hs | hs
  · cases hs with
    | call _ _ => exact h.of_main id Or.inr
  · cases hs with
    | create he => exact absurd rfl (hmain he).1
    | ask he _ _ => exact absurd rfl (hmain he).2
    | load _ _ _ _ => exact Or.inl rfl
    | fail _ _ => exact Or.inl rfl
    | enter _ => exact Or.inr (Or.inl rfl)
    | watch _ _ _ => exact h.of_main id Or.inr
    | net hnet hcaller =>
      cases hnet with
      | thread _ hstep hwire => exact h.thread hstep hwire
      | @ret i c call r rest hcall _ =>
        refine h.of_main (fun hne => ?_) Or.inr
        rwa [replies_link_deliver (ne_of_keeps_caller hcall hcaller)]

/-- N's thread at P takes a step while all others are idle. -/
theorem link_step {P : Join ι γ → Join ι γ → Prop} {s : Join ι γ}
    (h : ((J.system γ).restrict P).Reachable s ∧ ∀ x, x ≠ J.link → s.net.pc x = .receiving)
    {n : Node ι} {pc : Pc ι} {io : Io ι} {rq : Link ι (Option γ) → List Call}
    {rp : Link ι (Option γ) → List WireMsg} (hup : (s.net.node J.pred).running = true)
    (hstep : ThreadStep (s.net.node J.pred) (s.net.pc J.link) io n pc)
    (hwire : Wire s.net J.link io rq rp)
    (hP : P s { s with net := s.net.after J.link n pc rq rp }) :
    ((J.system γ).restrict P).Reachable { s with net := s.net.after J.link n pc rq rp } ∧
      ∀ x, x ≠ J.link → (s.net.after J.link n pc rq rp).pc x = .receiving :=
  ⟨h.1.step ⟨Or.inr (.net (.thread hup hstep hwire) rfl), hP⟩,
    fun x hx => (after_pc_of_ne hx).trans (h.2 x hx)⟩

end Joining

/-! ## Two servers -/

/-- The second server joins behind the first one; both are empty. -/
def secondJoins : Joining (Fin 2) where
  pred := 0
  joiner := 1
  next := fun _ => none
  replica := fun i => emptyReplica i.val
  nodeId := fun i => digitId i.val
  reach := fun child =>
    if child = digitId 0 then some 0 else if child = digitId 1 then some 1 else none
  climbs := by simp
  last := strcmp_neg.mp (by decide)
  tail := rfl
  to_joiner := by simp
  from_joiner := rfl
  reach_pred := rfl
  reach_joiner := rfl
  fresh := map_emptyReplica _
  hashable := by
    rw [map_emptyReplica]
    intro key hkey
    exact absurd hkey Finmap.notMem_empty

end KvStorage
