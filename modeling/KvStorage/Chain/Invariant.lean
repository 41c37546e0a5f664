import KvStorage.Chain.Net

/-!
# What holds in every run

Two facts about every state the system can reach, whatever the interleaving:

* on every server the counters of the monitor are the numbers of threads inside
  (`locks`), so a write excludes everything else;
* on every connection the messages and the thread agree with what the other end
  waits for (`Stage`): nothing is on its way unless the other end waits, and
  then the request is in exactly one place. On the connection of a shared handle
  the other end is the one thread of the predecessor that is in its write
  section, so the reply it takes is the reply to its own request.

Membership may change while the invariant holds; a server that has ended is left
out of the second part.
-/

namespace KvStorage

open CLib Linearizability Monitor

variable {ι γ : Type}

/-! ## One step of a thread -/

/-- What a step does to the monitor. -/
inductive Moves (n n' : Node ι) (pc pc' : Pc ι) : Prop
  | stays : pc'.side = pc.side → n'.nReaders = n.nReaders → n'.nWriters = n.nWriters →
      Moves n n' pc pc'
  | startRead : pc.side = .outside → pc'.side = .read → ¬ 0 < n.nWriters →
      n'.nReaders = n.nReaders + 1 → n'.nWriters = n.nWriters → Moves n n' pc pc'
  | endRead : pc.side = .read → pc'.side = .outside → n'.nReaders = n.nReaders - 1 →
      n'.nWriters = n.nWriters → Moves n n' pc pc'
  | startWrite : pc'.side = .write → ¬ (0 < n.nReaders ∨ 0 < n.nWriters) →
      n'.nReaders = n.nReaders → n'.nWriters = n.nWriters + 1 → Moves n n' pc pc'
  | endWrite : pc.side = .write → pc'.side = .outside → n'.nReaders = n.nReaders →
      n'.nWriters = n.nWriters - 1 → Moves n n' pc pc'

namespace ThreadStep

variable {n n' : Node ι} {pc pc' : Pc ι} {io : Io ι}

theorem moves (h : ThreadStep n pc io n' pc') : Moves n n' pc pc' := by
  cases h with
  | startRead hfree => exact .startRead rfl rfl hfree rfl rfl
  | endRead => exact .endRead rfl rfl rfl rfl
  | startWrite hfree => exact .startWrite rfl hfree rfl rfl
  | endWrite => exact .endWrite rfl rfl rfl rfl
  | _ => exact .stays rfl rfl rfl

/-- Membership is not the business of a thread. -/
theorem keeps_membership (h : ThreadStep n pc io n' pc') :
    n'.next = n.next ∧ n'.running = n.running ∧ n'.serving = n.serving := by
  cases h <;> exact ⟨rfl, rfl, rfl⟩

/-- A thread has no other handle than the one it read. -/
theorem handle_of (h : ThreadStep n pc io n' pc') {k : ι} (hk : pc'.handle = some k) :
    pc.handle = some k ∨ n.next = some k := by
  cases h with
  | getNextServer => exact Or.inr hk
  | startWrite _ => exact Or.inl hk
  | apply => exact Or.inl hk
  | forward => exact Or.inl hk
  | _ => cases hk

/-- A thread inside its write section with a handle got in with it, or just
now. -/
theorem enters (h : ThreadStep n pc io n' pc') (hside : pc'.side = .write) {k : ι}
    (hk : pc'.handle = some k) : pc.side = .write ∧ pc.handle = some k ∨
      ∃ id w, pc = .wantWrite id w (some k) ∧ pc' = .writing id w (some k) := by
  cases h with
  | startWrite _ =>
    cases hk
    exact Or.inr ⟨_, _, rfl, rfl⟩
  | apply => exact Or.inl ⟨rfl, hk⟩
  | forward => exact Or.inl ⟨rfl, hk⟩
  | noSuccessor => cases hk
  | collect => cases hk
  | lost => cases hk
  | _ => cases hside

theorem tau_call (h : ThreadStep n pc .tau n' pc') :
    (∃ c, pc.call = some c ∧ (pc'.call = some c ∨ pc' = .closed)) ∧
      pc.awaits = none ∧ pc'.awaits = none := by
  cases h with
  | close => exact ⟨⟨_, rfl, Or.inr rfl⟩, rfl, rfl⟩
  | _ => exact ⟨⟨_, rfl, Or.inl rfl⟩, rfl, rfl⟩

theorem accept_inv {c : Call} (h : ThreadStep n pc (.accept c) n' pc') :
    pc = .receiving ∧ pc' = .received c ∧ n' = n ∧ n.serving = true := by
  cases h with
  | accept hserving => exact ⟨rfl, rfl, rfl, hserving⟩

/-- Only a write that has been applied is forwarded, by the thread that applied it. -/
theorem forward_inv {k : ι} {c : Call} (h : ThreadStep n pc (.forward k c) n' pc') :
    ∃ id w res, c = ⟨id, .write w⟩ ∧ pc = .applied id w res (some k) ∧
      pc' = .waiting id w res k ∧ n' = n := by
  cases h with
  | forward => exact ⟨_, _, _, rfl, rfl, rfl, rfl⟩

/-- A reply is taken by a thread that waits for one. -/
theorem collect_inv {k : ι} (h : ThreadStep n pc (.collect k) n' pc') :
    ∃ id w res, pc = .waiting id w res k ∧ pc' = .leaving id w res ∧ n' = n := by
  cases h with
  | collect => exact ⟨_, _, _, rfl, rfl, rfl⟩

theorem lost_inv {k : ι} (h : ThreadStep n pc (.lost k) n' pc') :
    ∃ id w res, pc = .waiting id w res k ∧ pc' = .leaving id w res ∧ n' = n := by
  cases h with
  | lost => exact ⟨_, _, _, rfl, rfl, rfl⟩

/-- Only the body of a write section changes what the server holds. -/
theorem keeps_data (h : ThreadStep n pc io n' pc') (hpc : ∀ id w next, pc ≠ .writing id w next) :
    n'.replica = n.replica ∧ n'.log = n.log := by
  cases h with
  | apply => exact absurd rfl (hpc _ _ _)
  | _ => exact ⟨rfl, rfl⟩

theorem writing_inv {id : Nat} {w : Write} {next : Option ι}
    (h : ThreadStep n (.writing id w next) io n' pc') :
    io = .tau ∧ pc' = .applied id w (n.replica.write w).1 next ∧
      n' = { n with replica := (n.replica.write w).2, log := n.log ++ [(id, w)] } := by
  cases h with
  | apply => exact ⟨rfl, rfl, rfl⟩

/-- After its reply the thread is where it began. -/
theorem send_inv {reply : WireMsg} (h : ThreadStep n pc (.send reply) n' pc') :
    ∃ c, pc = .sending c (some reply) ∧ pc' = .receiving ∧ n' = n := by
  cases h with
  | send => exact ⟨_, rfl, rfl, rfl⟩

end ThreadStep

/-- A thread waits for its successor inside the write section. -/
theorem Pc.side_of_awaits {pc : Pc ι} {k : ι} {c : Call} (h : pc.awaits = some (k, c)) :
    pc.side = .write ∧ pc.handle = some k ∧ pc.call = some c := by
  cases pc <;> cases h
  exact ⟨rfl, rfl, rfl⟩

/-- Whether the write of a thread past its section is one that `invoke` answers. -/
def Pc.Acked : Pc ι → Prop
  | applied _ w res _ | waiting _ w res _ | leaving _ w res => w.reply res ≠ none
  | sending ⟨_, .write _⟩ reply => reply ≠ none
  | _ => True

/-- A write that has been applied has an answer. -/
theorem ThreadStep.acked {n n' : Node ι} {pc pc' : Pc ι} {io : Io ι}
    (h : ThreadStep n pc io n' pc') (hpc : pc.Acked) : pc'.Acked := by
  cases h with
  | @apply id w next =>
    show w.reply (n.replica.write w).1 ≠ none
    rw [Replica.reply_write]
    exact Option.some_ne_none _
  | noSuccessor => exact hpc
  | forward => exact hpc
  | collect => exact hpc
  | lost => exact hpc
  | endWrite => exact hpc
  | _ => exact trivial

/-- The handle `invoke` has read. -/
def Pc.nextServer : Pc ι → Option (Option ι)
  | wantWrite _ _ next | writing _ _ next | applied _ _ _ next => some next
  | waiting _ _ _ next => some (some next)
  | _ => none

theorem ThreadStep.nextServer_of {n n' : Node ι} {pc pc' : Pc ι} {io : Io ι}
    (h : ThreadStep n pc io n' pc') {next : Option ι} (hn : pc'.nextServer = some next) :
    pc.nextServer = some next ∨ next = n.next := by
  cases h with
  | getNextServer =>
    cases hn
    exact Or.inr rfl
  | startWrite _ => exact Or.inl hn
  | apply => exact Or.inl hn
  | forward => exact Or.inl hn
  | _ => cases hn

/-! ## One connection -/

/-- A connection whose other end waits for `out`: the requests on their way, the
thread, and the replies on their way. -/
inductive Stage : Option Call → List Call → Pc ι → List WireMsg → Prop
  | quiet : Stage none [] .receiving []
  | sent {c : Call} : Stage (some c) [c] .receiving []
  | busy {c : Call} {pc : Pc ι} : pc.call = some c → Stage (some c) [] pc []
  | answered {c : Call} {r : WireMsg} : Stage (some c) [] .receiving [r]
  | closed {out : Option Call} {rq : List Call} : Stage out rq .closed []

namespace Stage

variable {out : Option Call} {rq : List Call} {pc pc' : Pc ι} {rp : List WireMsg}

/-- While the thread has a request, nothing is on its way on its connection. -/
theorem of_call (h : Stage out rq pc rp) {c : Call} (hc : pc.call = some c) :
    out = some c ∧ rq = [] ∧ rp = [] := by
  cases h with
  | busy hb =>
    rw [hc] at hb
    exact ⟨hb.symm ▸ rfl, rfl, rfl⟩
  | _ => cases hc

/-- A request on its way is the only one, and the thread has none. -/
theorem of_requests (h : Stage out rq pc rp) {c : Call} {rest : List Call} (hrq : rq = c :: rest)
    (hpc : pc = .receiving) : out = some c ∧ rest = [] ∧ rp = [] := by
  cases h with
  | sent =>
    cases hrq
    exact ⟨rfl, rfl, rfl⟩
  | closed => cases hpc
  | _ => cases hrq

/-- A reply on its way is the only one, and the thread has nothing left. -/
theorem of_replies (h : Stage out rq pc rp) {r : WireMsg} {rest : List WireMsg}
    (hrp : rp = r :: rest) : (∃ c, out = some c) ∧ rq = [] ∧ pc = .receiving ∧ rest = [] := by
  cases h with
  | answered =>
    cases hrp
    exact ⟨⟨_, rfl⟩, rfl, rfl, rfl⟩
  | _ => cases hrp

/-- The other end sends a request while nothing is outstanding. -/
theorem send {c : Call} (h : Stage none rq pc rp) : Stage (some c) (rq ++ [c]) pc rp := by
  cases h with
  | quiet => exact .sent
  | closed => exact .closed

end Stage

/-! ## The invariant -/

/-- The connection of `j`'s handle on `i`: what is outstanding is what a thread
of `j` waits for. -/
def PeerStage (s : Net ι γ) (i j : ι) : Prop :=
  ∃ out, Stage out (s.requests (i, .peer j)) (s.pc (i, .peer j)) (s.replies (i, .peer j)) ∧
    ∀ c, out = some c ↔ ∃ o, (s.pc (j, o)).awaits = some (i, c)

/-- The invariant of every run, over the handles `Edge` a server may get. -/
structure Net.Inv (Edge : ι → ι → Prop) (s : Net ι γ) : Prop where
  locks : ∀ i, Counts (s.node i).nReaders (s.node i).nWriters fun o => (s.pc (i, o)).side
  handle : ∀ x k, (s.pc x).handle = some k → Edge x.1 k
  next : ∀ i k, (s.node i).next = some k → Edge i k
  client : ∀ i c, (s.node i).running = true →
    Stage (s.caller (i, c)) (s.requests (i, .client c)) (s.pc (i, .client c))
      (s.replies (i, .client c))
  peer : ∀ i j, (s.node i).running = true → PeerStage s i j

namespace Net.Inv

variable {Edge : ι → ι → Prop} {s : Net ι γ}

/-- On a server that a thread writes on there is no other thread inside. -/
theorem writer_unique (h : s.Inv Edge) {i : ι} {o o' : Origin ι γ}
    (ho : (s.pc (i, o)).side = .write) (ho' : (s.pc (i, o')).side = .write) : o = o' :=
  (h.locks i).one_writer o o' ho ho'

/-- What a thread waits for is outstanding on the connection. -/
theorem outstanding (h : s.Inv Edge) {j i : ι} (hi : (s.node i).running = true) {o : Origin ι γ}
    {c : Call} (ho : (s.pc (j, o)).awaits = some (i, c)) :
    Stage (some c) (s.requests (i, .peer j)) (s.pc (i, .peer j)) (s.replies (i, .peer j)) := by
  obtain ⟨out, hstage, hout⟩ := h.peer i j hi
  rw [(hout c).mpr ⟨o, ho⟩] at hstage
  exact hstage

/-- No other thread of the server waits while one is in its write section. -/
theorem awaits_unique (h : s.Inv Edge) {x : Link ι γ} (hx : (s.pc x).side = .write)
    {o : Origin ι γ} {k : ι} {c : Call} (ho : (s.pc (x.1, o)).awaits = some (k, c)) :
    (x.1, o) = x := by
  have hside := (Pc.side_of_awaits ho).1
  have heq : o = x.2 := h.writer_unique hside hx
  rw [heq]

/-- Nothing is on its way over the handle while the thread in the write section
does not wait. -/
theorem free_handle (h : s.Inv Edge) {x : Link ι γ} (hx : (s.pc x).side = .write)
    (hnone : (s.pc x).awaits = none) {i : ι} (hi : (s.node i).running = true) :
    Stage none (s.requests (i, .peer x.1)) (s.pc (i, .peer x.1)) (s.replies (i, .peer x.1)) := by
  obtain ⟨out, hstage, hout⟩ := h.peer i x.1 hi
  cases out with
  | none => exact hstage
  | some c =>
    obtain ⟨o, ho⟩ := (hout c).mp rfl
    rw [h.awaits_unique hx ho, hnone] at ho
    cases ho

/-- Nothing is under way at the start. -/
theorem start {node : ι → Node ι} (hr : ∀ i, (node i).nReaders = 0)
    (hw : ∀ i, (node i).nWriters = 0) (hnext : ∀ i k, (node i).next = some k → Edge i k) :
    (Net.start node : Net ι γ).Inv Edge where
  locks i := by
    show Counts (node i).nReaders (node i).nWriters fun _ => Section.outside
    rw [hr, hw]
    exact .initial
  handle x k hk := by cases hk
  next := hnext
  client i c _ := .quiet
  peer i j _ := ⟨none, .quiet, fun c => iff_of_false (by simp) fun ⟨_, ho⟩ => by cases ho⟩

end Net.Inv

variable [DecidableEq ι] [DecidableEq γ]

namespace Net

variable {s : Net ι γ} {x : Link ι γ} {n : Node ι} {pc : Pc ι} {io : Io ι}
  {rq : Link ι γ → List Call} {rp : Link ι γ → List WireMsg}

@[simp] theorem after_caller : (s.after x n pc rq rp).caller = s.caller := rfl

@[simp] theorem after_requests : (s.after x n pc rq rp).requests = rq := rfl

@[simp] theorem after_replies : (s.after x n pc rq rp).replies = rp := rfl

@[simp] theorem after_history : (s.after x n pc rq rp).history = s.history := rfl

@[simp] theorem after_fresh : (s.after x n pc rq rp).fresh = s.fresh := rfl

@[simp] theorem after_pc_self : (s.after x n pc rq rp).pc x = pc := Function.update_self ..

theorem after_pc_of_ne {y : Link ι γ} (h : y ≠ x) : (s.after x n pc rq rp).pc y = s.pc y :=
  Function.update_of_ne h ..

@[simp] theorem after_node_self : (s.after x n pc rq rp).node x.1 = n := Function.update_self ..

theorem after_node_of_ne {i : ι} (h : i ≠ x.1) : (s.after x n pc rq rp).node i = s.node i :=
  Function.update_of_ne h ..

@[simp] theorem after_node_same : (s.after x (s.node x.1) pc rq rp).node = s.node :=
  Function.update_eq_self ..

omit [DecidableEq γ] in
@[simp] theorem node_setNode_self {i : ι} : (s.setNode i n).node i = n := Function.update_self ..

omit [DecidableEq γ] in
theorem node_setNode_of_ne {i j : ι} (h : j ≠ i) : (s.setNode i n).node j = s.node j :=
  Function.update_of_ne h ..

omit [DecidableEq γ] in
theorem replica_setNode {i : ι} (hn : n.replica = (s.node i).replica) (j : ι) :
    ((s.setNode i n).node j).replica = (s.node j).replica := by
  by_cases hj : j = i
  · subst hj
    rw [node_setNode_self, hn]
  · rw [node_setNode_of_ne hj]

/-- A step of a thread leaves the membership as it is. -/
theorem after_membership (hstep : ThreadStep (s.node x.1) (s.pc x) io n pc) (i : ι) :
    ((s.after x n pc rq rp).node i).next = (s.node i).next ∧
      ((s.after x n pc rq rp).node i).running = (s.node i).running ∧
      ((s.after x n pc rq rp).node i).serving = (s.node i).serving := by
  by_cases hi : i = x.1
  · subst hi
    rw [after_node_self]
    exact hstep.keeps_membership
  · rw [after_node_of_ne hi]
    exact ⟨rfl, rfl, rfl⟩

/-- A step that applies no write changes no log and no table. -/
theorem after_data (hstep : ThreadStep (s.node x.1) (s.pc x) io n pc)
    (hpc : ∀ id w next, s.pc x ≠ .writing id w next) (i : ι) :
    ((s.after x n pc rq rp).node i).replica = (s.node i).replica ∧
      ((s.after x n pc rq rp).node i).log = (s.node i).log := by
  by_cases hi : i = x.1
  · subst hi
    rw [after_node_self]
    exact hstep.keeps_data hpc
  · rw [after_node_of_ne hi]
    exact ⟨rfl, rfl⟩

/-- To the replies for a client only its own thread can add. -/
theorem client_replies (hwire : Wire s x io rq rp) {i : ι} {c : γ} :
    rp (i, .client c) = s.replies (i, .client c) ∨
      x = (i, .client c) ∧ ∃ r, io = .send r ∧
        rp (i, .client c) = s.replies (i, .client c) ++ [r] := by
  cases hwire with
  | collect _ => exact Or.inl (Function.update_of_ne (by simp) ..)
  | send =>
    by_cases hx : (i, .client c) = x
    · subst hx
      exact Or.inr ⟨rfl, _, rfl, Function.update_self ..⟩
    · exact Or.inl (Function.update_of_ne hx ..)
  | _ => exact Or.inl rfl

end Net

namespace Net.Inv

variable {Edge : ι → ι → Prop} {s : Net ι γ}

/-! ### Threads -/

section Thread

variable {x : Link ι γ} {n : Node ι} {pc : Pc ι} {io : Io ι}
  {rq : Link ι γ → List Call} {rp : Link ι γ → List WireMsg}

/-- A step enters or leaves one section, and the counters of that server follow. -/
theorem locks_after (h : s.Inv Edge) (hstep : ThreadStep (s.node x.1) (s.pc x) io n pc) (i : ι) :
    Counts ((s.after x n pc rq rp).node i).nReaders ((s.after x n pc rq rp).node i).nWriters
      fun o => ((s.after x n pc rq rp).pc (i, o)).side := by
  by_cases hi : i = x.1
  · subst hi
    have hcounts := h.locks x.1
    have hother : ∀ o, o ≠ x.2 →
        ((s.after x n pc rq rp).pc (x.1, o)).side = (s.pc (x.1, o)).side := by
      intro o ho
      rw [after_pc_of_ne fun he => ho (congrArg Prod.snd he)]
    have hself : (s.after x n pc rq rp).pc (x.1, x.2) = pc := after_pc_self
    rw [after_node_self]
    cases hstep.moves with
    | stays hside hr hw =>
      rw [hr, hw]
      refine hcounts.congr fun o => ?_
      by_cases ho : o = x.2
      · rw [ho, hself, hside]
      · exact hother o ho
    | startRead hk hk' hfree hr hw =>
      rw [hr, hw]
      exact hcounts.startRead hother hk (by rw [hself]; exact hk') hfree
    | endRead hk hk' hr hw =>
      rw [hr, hw]
      exact hcounts.endRead hother hk (by rw [hself]; exact hk')
    | startWrite hk' hfree hr hw =>
      rw [hr, hw]
      exact hcounts.startWrite hother (by rw [hself]; exact hk') hfree
    | endWrite hk hk' hr hw =>
      rw [hr, hw]
      exact hcounts.endWrite hother hk (by rw [hself]; exact hk')
  · rw [after_node_of_ne hi]
    refine (h.locks i).congr fun o => ?_
    rw [after_pc_of_ne fun he => hi (congrArg Prod.fst he)]

/-- A handle that is read is one of those there are. -/
theorem handle_after (h : s.Inv Edge) (hstep : ThreadStep (s.node x.1) (s.pc x) io n pc)
    (y : Link ι γ) {k : ι} (hk : ((s.after x n pc rq rp).pc y).handle = some k) : Edge y.1 k := by
  by_cases hy : y = x
  · subst hy
    rw [after_pc_self] at hk
    rcases hstep.handle_of hk with hold | hnext
    · exact h.handle y k hold
    · exact h.next y.1 k hnext
  · rw [after_pc_of_ne hy] at hk
    exact h.handle y k hk

/-- A connection seen from its server: only the predecessor's own calls can
change what is outstanding on it. -/
theorem stage_after (hstep : ThreadStep (s.node x.1) (s.pc x) io n pc) (hwire : Wire s x io rq rp)
    {y : Link ι γ} {out : Option Call} (hy : Stage out (s.requests y) (s.pc y) (s.replies y))
    (hforward : ∀ k c, io = .forward k c → y ≠ (k, .peer x.1))
    (hcollect : ∀ k, io = .collect k → y ≠ (k, .peer x.1)) :
    Stage out (rq y) ((s.after x n pc rq rp).pc y) (rp y) := by
  by_cases hyx : y = x
  · subst hyx
    rw [after_pc_self]
    cases hwire with
    | tau =>
      obtain ⟨⟨c, hc, hc'⟩, -, -⟩ := hstep.tau_call
      obtain ⟨rfl, hrq, hrp⟩ := hy.of_call hc
      rw [hrq, hrp]
      rcases hc' with hc' | rfl
      · exact .busy hc'
      · exact .closed
    | accept hrq =>
      obtain ⟨hpc, rfl, -⟩ := hstep.accept_inv
      obtain ⟨rfl, rfl, hrp⟩ := hy.of_requests hrq hpc
      rw [Function.update_self, hrp]
      exact .busy rfl
    | @forward k c =>
      obtain ⟨id, w, res, -, hpc, rfl, -⟩ := hstep.forward_inv
      obtain ⟨rfl, hrq, hrp⟩ := hy.of_call (by rw [hpc]; rfl)
      rw [Function.update_of_ne (hforward k c rfl), hrq, hrp]
      exact .busy rfl
    | @collect k r rest _ =>
      obtain ⟨id, w, res, hpc, rfl, -⟩ := hstep.collect_inv
      obtain ⟨rfl, hrq, hrp⟩ := hy.of_call (by rw [hpc]; rfl)
      rw [Function.update_of_ne (hcollect k rfl), hrq, hrp]
      exact .busy rfl
    | lost _ =>
      obtain ⟨id, w, res, hpc, rfl, -⟩ := hstep.lost_inv
      obtain ⟨rfl, hrq, hrp⟩ := hy.of_call (by rw [hpc]; rfl)
      rw [hrq, hrp]
      exact .busy rfl
    | send =>
      obtain ⟨c, hpc, rfl, -⟩ := hstep.send_inv
      obtain ⟨rfl, hrq, hrp⟩ := hy.of_call (by rw [hpc]; rfl)
      rw [Function.update_self, hrq, hrp]
      exact .answered
  · rw [after_pc_of_ne hyx]
    cases hwire with
    | tau => exact hy
    | accept _ =>
      rw [Function.update_of_ne hyx]
      exact hy
    | @forward k c =>
      rw [Function.update_of_ne (hforward k c rfl)]
      exact hy
    | @collect k r rest _ =>
      rw [Function.update_of_ne (hcollect k rfl)]
      exact hy
    | lost _ => exact hy
    | send =>
      rw [Function.update_of_ne hyx]
      exact hy

/-- Who waits for what on the connections of `j`, unless `x` is a thread of `j`
that begins or ends to wait there. -/
theorem awaits_iff {i j : ι} (h : j = x.1 → ∀ c, (s.pc x).awaits ≠ some (i, c) ∧
    pc.awaits ≠ some (i, c)) (c : Call) :
    (∃ o, ((s.after x n pc rq rp).pc (j, o)).awaits = some (i, c)) ↔
      ∃ o, (s.pc (j, o)).awaits = some (i, c) := by
  refine exists_congr fun o => ?_
  by_cases hx : (j, o) = x
  · obtain ⟨hold, hnew⟩ := h (congrArg Prod.fst hx) c
    rw [hx, after_pc_self]
    exact iff_of_false hnew hold
  · rw [after_pc_of_ne hx]

/-- A step elsewhere, as far as this connection of `j` is concerned. -/
theorem peer_frame {i j : ι} (hp : PeerStage s i j)
    (hstep : ThreadStep (s.node x.1) (s.pc x) io n pc) (hwire : Wire s x io rq rp)
    (hforward : ∀ k c, io = .forward k c → ((i, .peer j) : Link ι γ) ≠ (k, .peer x.1))
    (hcollect : ∀ k, io = .collect k → ((i, .peer j) : Link ι γ) ≠ (k, .peer x.1))
    (hwait : j = x.1 → ∀ c, (s.pc x).awaits ≠ some (i, c) ∧ pc.awaits ≠ some (i, c)) :
    PeerStage (s.after x n pc rq rp) i j := by
  obtain ⟨out, hstage, hout⟩ := hp
  refine ⟨out, stage_after hstep hwire hstage hforward hcollect, fun c => ?_⟩
  rw [hout c, awaits_iff hwait]

/-- After a step of the writer, who waits for an answer on this server is the writer. -/
theorem awaits_after (h : s.Inv Edge) (hside : (s.pc x).side = .write) {i : ι} {c : Call} :
    (∃ o, ((s.after x n pc rq rp).pc (x.1, o)).awaits = some (i, c))
      ↔ pc.awaits = some (i, c) := by
  constructor
  · intro ⟨o, ho⟩
    by_cases hx : (x.1, o) = x
    · rwa [hx, after_pc_self] at ho
    · rw [after_pc_of_ne hx] at ho
      exact absurd (h.awaits_unique hside ho) hx
  · intro hpc
    exact ⟨x.2, by rw [show (x.1, x.2) = x from rfl, after_pc_self, hpc]⟩

/-- The writer sends its write over a free handle. -/
theorem peer_forwarded (hE : ∀ i, ¬ Edge i i) (h : s.Inv Edge) {i : ι}
    (hi : (s.node i).running = true) {id : Nat} {w : Write} {res : Int}
    (hpc : s.pc x = .applied id w res (some i)) :
    PeerStage (s.after x n (.waiting id w res i)
      (Function.update s.requests (i, .peer x.1) (s.requests (i, .peer x.1) ++ [⟨id, .write w⟩]))
      s.replies) i x.1 := by
  have hside : (s.pc x).side = .write := by
    rw [hpc]
    rfl
  have hstage := h.free_handle hside (by rw [hpc]; rfl) hi
  have hne : (i, Origin.peer x.1) ≠ x := by
    intro he
    refine hE i ?_
    have hedge := h.handle x i (by rw [hpc]; rfl)
    rw [← congrArg Prod.fst he] at hedge
    exact hedge
  refine ⟨some ⟨id, .write w⟩, ?_, fun c' => ?_⟩
  · rw [after_pc_of_ne hne, after_requests, after_replies, Function.update_self]
    exact hstage.send
  · rw [h.awaits_after hside]
    constructor
    · intro heq
      cases heq
      rfl
    · intro heq
      cases heq
      rfl

/-- The writer takes the answer. -/
theorem peer_collected (h : s.Inv Edge) {i : ι} (hi : (s.node i).running = true) {id : Nat}
    {w : Write} {res : Int} (hpc : s.pc x = .waiting id w res i) {r : WireMsg}
    {rest : List WireMsg} (hrp : s.replies (i, .peer x.1) = r :: rest) (hnew : pc.awaits = none) :
    PeerStage (s.after x n pc s.requests (Function.update s.replies (i, .peer x.1) rest))
      i x.1 := by
  have hwaits : (s.pc (x.1, x.2)).awaits = some (i, ⟨id, .write w⟩) := by
    rw [show (x.1, x.2) = x from rfl, hpc]
    rfl
  obtain ⟨-, hreq, hrecv, rfl⟩ := (h.outstanding hi hwaits).of_replies hrp
  have hne : (i, Origin.peer x.1) ≠ x := by
    intro he
    rw [he, hpc] at hrecv
    cases hrecv
  refine ⟨none, ?_, fun c' => ?_⟩
  · rw [after_pc_of_ne hne, after_requests, after_replies, Function.update_self, hreq, hrecv]
    exact .quiet
  · rw [h.awaits_after (Pc.side_of_awaits hwaits).1, hnew]
    exact iff_of_false nofun nofun

/-- The writer gives up on a connection that was closed. -/
theorem peer_lost (h : s.Inv Edge) {i : ι} (hi : (s.node i).running = true) {id : Nat}
    {w : Write} {res : Int} (hpc : s.pc x = .waiting id w res i)
    (hclosed : s.pc (i, .peer x.1) = .closed) (hnew : pc.awaits = none) :
    PeerStage (s.after x n pc s.requests s.replies) i x.1 := by
  have hne : (i, Origin.peer x.1) ≠ x := by
    intro he
    rw [he, hpc] at hclosed
    cases hclosed
  obtain ⟨out, hstage, -⟩ := h.peer i x.1 hi
  refine ⟨none, ?_, fun c' => ?_⟩
  · rw [after_pc_of_ne hne, after_requests, after_replies]
    rw [hclosed] at hstage ⊢
    generalize s.replies (i, .peer x.1) = replies at hstage ⊢
    generalize s.requests (i, .peer x.1) = requests at hstage ⊢
    cases hstage with
    | busy hb => cases hb
    | closed => exact .closed
  · rw [h.awaits_after (by rw [hpc]; rfl), hnew]
    exact iff_of_false nofun nofun

/-- The connections of a shared handle, after a step of any thread: one that has nothing to do with
it, its thread, or a thread of the predecessor. -/
theorem peer_after (hE : ∀ i, ¬ Edge i i) (h : s.Inv Edge)
    (hstep : ThreadStep (s.node x.1) (s.pc x) io n pc) (hwire : Wire s x io rq rp) {i j : ι}
    (hi : (s.node i).running = true) : PeerStage (s.after x n pc rq rp) i j := by
  have hp := h.peer i j hi
  have hother : ∀ {k : ι}, ¬ (i = k ∧ j = x.1) →
      ((i, .peer j) : Link ι γ) ≠ (k, .peer x.1) := by
    intro k hne he
    simp only [Prod.mk.injEq, Origin.peer.injEq] at he
    exact hne he
  cases hwire with
  | tau =>
    obtain ⟨-, hold, hnew⟩ := hstep.tau_call
    exact peer_frame hp hstep .tau (by simp) (by simp) fun _ c => by simp [hold, hnew]
  | accept hrq =>
    obtain ⟨hpc, rfl, -⟩ := hstep.accept_inv
    exact peer_frame hp hstep (.accept hrq) (by simp) (by simp) fun _ c => by
      simp [hpc, Pc.awaits]
  | send =>
    obtain ⟨c, hpc, rfl, -⟩ := hstep.send_inv
    exact peer_frame hp hstep .send (by simp) (by simp) fun _ c => by simp [hpc, Pc.awaits]
  | @forward k c =>
    obtain ⟨id, w, res, rfl, hpc, rfl, -⟩ := hstep.forward_inv
    by_cases hthis : i = k ∧ j = x.1
    · obtain ⟨rfl, rfl⟩ := hthis
      exact h.peer_forwarded hE hi hpc
    · refine peer_frame hp hstep .forward (fun k' c' he => ?_) (by simp) fun hj c' => ?_
      · cases he
        exact hother hthis
      · rw [hpc]
        refine ⟨by simp [Pc.awaits], fun he => ?_⟩
        cases he
        exact hthis ⟨rfl, hj⟩
  | @collect k r rest hrp =>
    obtain ⟨id, w, res, hpc, rfl, -⟩ := hstep.collect_inv
    by_cases hthis : i = k ∧ j = x.1
    · obtain ⟨rfl, rfl⟩ := hthis
      exact h.peer_collected hi hpc hrp rfl
    · refine peer_frame hp hstep (.collect hrp) (by simp) (fun k' he => ?_) fun hj c' => ?_
      · cases he
        exact hother hthis
      · rw [hpc]
        refine ⟨fun he => ?_, by simp [Pc.awaits]⟩
        cases he
        exact hthis ⟨rfl, hj⟩
  | @lost k hgone =>
    obtain ⟨id, w, res, hpc, rfl, -⟩ := hstep.lost_inv
    by_cases hthis : i = k ∧ j = x.1
    · obtain ⟨rfl, rfl⟩ := hthis
      have hclosed : s.pc (i, .peer x.1) = .closed := by
        refine hgone.resolve_left fun hdown => ?_
        rw [hi] at hdown
        cases hdown
      exact h.peer_lost hi hpc hclosed rfl
    · refine peer_frame hp hstep (.lost hgone) (by simp) (by simp) fun hj c' => ?_
      rw [hpc]
      refine ⟨fun he => ?_, by simp [Pc.awaits]⟩
      cases he
      exact hthis ⟨rfl, hj⟩

/-- A step of a thread keeps the invariant. -/
theorem thread (hE : ∀ i, ¬ Edge i i) (h : s.Inv Edge)
    (hstep : ThreadStep (s.node x.1) (s.pc x) io n pc) (hwire : Wire s x io rq rp) :
    (s.after x n pc rq rp).Inv Edge where
  locks := h.locks_after hstep
  handle y k := h.handle_after hstep y
  next i k hk := by
    rw [(after_membership hstep i).1] at hk
    exact h.next i k hk
  client i c hi := by
    rw [(after_membership hstep i).2.1] at hi
    exact stage_after hstep hwire (h.client i c hi) (by simp) (by simp)
  peer i j hi := by
    rw [(after_membership hstep i).2.1] at hi
    exact h.peer_after hE hstep hwire hi

end Thread

/-! ### Clients and membership -/

/-- A step of the system keeps the invariant. -/
theorem internal (hE : ∀ i, ¬ Edge i i) (h : s.Inv Edge) {s' : Net ι γ} (hs : Internal s s') :
    s'.Inv Edge := by
  cases hs with
  | thread _ hstep hwire => exact h.thread hE hstep hwire
  | @ret i c call r rest hcaller hrp =>
    refine { h with client := fun i' c' hi => ?_, peer := fun i' j hi => ?_ }
    · have hstage := h.client i' c' hi
      by_cases hic : (i', c') = (i, c)
      · cases hic
        obtain ⟨-, hrq, hpc, rfl⟩ := hstage.of_replies hrp
        dsimp only [Net.deliver]
        rw [Function.update_self, Function.update_self, hrq, hpc]
        exact .quiet
      · have hne : ((i', .client c') : Link ι γ) ≠ (i, .client c) := by
          intro he
          cases he
          exact hic rfl
        dsimp only [Net.deliver]
        rw [Function.update_of_ne hic, Function.update_of_ne hne]
        exact hstage
    · obtain ⟨out, hstage, hout⟩ := h.peer i' j hi
      refine ⟨out, ?_, hout⟩
      dsimp only [Net.deliver]
      rw [Function.update_of_ne (by simp)]
      exact hstage

omit [DecidableEq γ] in
/-- What a server's `main`, its watcher or its end change of the server, as far
as the invariant is concerned. -/
theorem setNode (h : s.Inv Edge) {i : ι} {n : Node ι} (hr : n.nReaders = (s.node i).nReaders)
    (hw : n.nWriters = (s.node i).nWriters) (hnext : ∀ k, n.next = some k → Edge i k)
    (hrun : n.running = true → (s.node i).running = true) : (s.setNode i n).Inv Edge := by
  have hrun' : ∀ j, ((s.setNode i n).node j).running = true → (s.node j).running = true := by
    intro j hj
    by_cases hji : j = i
    · subst hji
      rw [node_setNode_self] at hj
      exact hrun hj
    · rwa [node_setNode_of_ne hji] at hj
  refine { h with
    locks := fun j => ?_
    next := fun j k hk => ?_
    client := fun j c hj => h.client j c (hrun' j hj)
    peer := fun j j' hj => h.peer j j' (hrun' j hj) }
  · by_cases hji : j = i
    · subst hji
      rw [node_setNode_self, hr, hw]
      exact h.locks j
    · rw [node_setNode_of_ne hji]
      exact h.locks j
  · by_cases hji : j = i
    · subst hji
      rw [node_setNode_self] at hk
      exact hnext k hk
    · rw [node_setNode_of_ne hji] at hk
      exact h.next j k hk

/-- A request is sent on a connection on which nothing is under way. -/
theorem submit (h : s.Inv Edge) {admits : ι → Request → Prop} {s' : Net ι γ}
    (hs : Submit admits s s') : s'.Inv Edge := by
  cases hs with
  | @call i c r _ hcaller =>
    refine { h with client := fun i' c' hi => ?_, peer := fun i' j hi => ?_ }
    · have hstage := h.client i' c' hi
      by_cases hic : (i', c') = (i, c)
      · cases hic
        rw [hcaller] at hstage
        dsimp only [Net.submit]
        rw [Function.update_self, Function.update_self]
        exact hstage.send
      · have hne : ((i', .client c') : Link ι γ) ≠ (i, .client c) := by
          intro he
          cases he
          exact hic rfl
        dsimp only [Net.submit]
        rw [Function.update_of_ne hic, Function.update_of_ne hne]
        exact hstage
    · obtain ⟨out, hstage, hout⟩ := h.peer i' j hi
      refine ⟨out, ?_, hout⟩
      dsimp only [Net.submit]
      rw [Function.update_of_ne (by simp)]
      exact hstage

end Net.Inv

end KvStorage
