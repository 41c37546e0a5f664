import KvStorage.Chain.Replica
import KvStorage.Lib.Linearizable
import KvStorage.Lib.Monitor

/-!
# Servers, connections and threads

The running system: any number of servers, on each of them one thread for every
connection (`thread_client`), and the messages on the connections. A connection
comes from a client or from another server's handle on its successor, which all
threads of that server share. Threads take their steps in any order; a step is
one of the bodies of the monitor, one access to the table inside it, or one call
on a connection.

Messages are whole here: framing hands over exactly what was sent, in order, for
every frame that fits. What `invoke` computes inside the monitor is taken from
the skeleton (`Replica.write`, `Replica.answer`).

The request numbers, the log of a server and the history are there for the
statements only; no step depends on them.
-/

namespace KvStorage

open CLib Linearizability Monitor

variable {ι γ : Type}

/-- A request of a client. -/
inductive Request
  | write (w : Write)
  | read (q : Query)

/-- A request in the system, with its number. -/
structure Call where
  id : Nat
  request : Request

/-- The other end of a connection: a client, or a server that has this one as
its successor. -/
inductive Origin (ι γ : Type)
  | client (c : γ)
  | peer (j : ι)
  deriving DecidableEq

/-- A connection, by the server that accepted it and its other end. -/
abbrev Link (ι γ : Type) := ι × Origin ι γ

/-! ## Threads -/

/-- Where the thread of a connection is: in `network_receive`, at some point of
`invoke`, before `network_send`, or past the loop of `thread_client`. -/
inductive Pc (ι : Type)
  | receiving
  | received (c : Call)
  | wantRead (id : Nat) (q : Query)
  | reading (id : Nat) (q : Query)
  | readDone (id : Nat) (q : Query) (reply : Option WireMsg)
  | wantWrite (id : Nat) (w : Write) (nextServer : Option ι)
  | writing (id : Nat) (w : Write) (nextServer : Option ι)
  | applied (id : Nat) (w : Write) (res : Int) (nextServer : Option ι)
  | waiting (id : Nat) (w : Write) (res : Int) (nextServer : ι)
  | leaving (id : Nat) (w : Write) (res : Int)
  | sending (c : Call) (reply : Option WireMsg)
  | closed

namespace Pc

/-- The side of the monitor a thread is on. -/
def side : Pc ι → Section
  | reading _ _ | readDone _ _ _ => .read
  | writing _ _ _ | applied _ _ _ _ | waiting _ _ _ _ | leaving _ _ _ => .write
  | _ => .outside

/-- The request a thread is working on. -/
def call : Pc ι → Option Call
  | received c | sending c _ => some c
  | wantRead id q | reading id q | readDone id q _ => some ⟨id, .read q⟩
  | wantWrite id w _ | writing id w _ | applied id w _ _ | waiting id w _ _ | leaving id w _ =>
    some ⟨id, .write w⟩
  | receiving | closed => none

/-- The request a thread has forwarded and waits for, and the server it is at. -/
def awaits : Pc ι → Option (ι × Call)
  | waiting id w _ nextServer => some (nextServer, ⟨id, .write w⟩)
  | _ => none

/-- The handle a thread holds. -/
def handle : Pc ι → Option ι
  | wantWrite _ _ next | writing _ _ next | applied _ _ _ next => next
  | waiting _ _ _ next => some next
  | _ => none

end Pc

/-- One server: its table, the counters of its monitor, its `next_server`,
whether the process runs and whether `network_main_loop` has been entered, and
the writes its table took. -/
structure Node (ι : Type) where
  replica : Replica
  nReaders : Int
  nWriters : Int
  next : Option ι
  running : Bool
  serving : Bool
  log : List (Nat × Write)

/-- What a step of a thread does on the connections. -/
inductive Io (ι : Type)
  | tau
  | accept (c : Call)
  | forward (k : ι) (c : Call)
  | collect (k : ι)
  | lost (k : ι)
  | send (reply : WireMsg)

/-- One step of a thread on its server. -/
inductive ThreadStep : Node ι → Pc ι → Io ι → Node ι → Pc ι → Prop
  | accept {n : Node ι} {c : Call} : n.serving = true →
      ThreadStep n .receiving (.accept c) n (.received c)
  | readRequest {n : Node ι} {id : Nat} {q : Query} :
      ThreadStep n (.received ⟨id, .read q⟩) .tau n (.wantRead id q)
  -- `get_next_server` is called before `start_write`
  | getNextServer {n : Node ι} {id : Nat} {w : Write} :
      ThreadStep n (.received ⟨id, .write w⟩) .tau n (.wantWrite id w n.next)
  | startRead {n : Node ι} {id : Nat} {q : Query} : ¬ 0 < n.nWriters →
      ThreadStep n (.wantRead id q) .tau { n with nReaders := n.nReaders + 1 } (.reading id q)
  | read {n : Node ι} {id : Nat} {q : Query} :
      ThreadStep n (.reading id q) .tau n (.readDone id q (n.replica.answer q))
  | endRead {n : Node ι} {id : Nat} {q : Query} {reply : Option WireMsg} :
      ThreadStep n (.readDone id q reply) .tau { n with nReaders := n.nReaders - 1 }
        (.sending ⟨id, .read q⟩ reply)
  | startWrite {n : Node ι} {id : Nat} {w : Write} {next : Option ι} :
      ¬ (0 < n.nReaders ∨ 0 < n.nWriters) →
      ThreadStep n (.wantWrite id w next) .tau { n with nWriters := n.nWriters + 1 }
        (.writing id w next)
  | apply {n : Node ι} {id : Nat} {w : Write} {next : Option ι} :
      ThreadStep n (.writing id w next) .tau
        { n with replica := (n.replica.write w).2, log := n.log ++ [(id, w)] }
        (.applied id w (n.replica.write w).1 next)
  | noSuccessor {n : Node ι} {id : Nat} {w : Write} {res : Int} :
      ThreadStep n (.applied id w res none) .tau n (.leaving id w res)
  | forward {n : Node ι} {id : Nat} {w : Write} {res : Int} {k : ι} :
      ThreadStep n (.applied id w res (some k)) (.forward k ⟨id, .write w⟩) n
        (.waiting id w res k)
  -- the answer is dropped, and so is its absence
  | collect {n : Node ι} {id : Nat} {w : Write} {res : Int} {k : ι} :
      ThreadStep n (.waiting id w res k) (.collect k) n (.leaving id w res)
  | lost {n : Node ι} {id : Nat} {w : Write} {res : Int} {k : ι} :
      ThreadStep n (.waiting id w res k) (.lost k) n (.leaving id w res)
  | endWrite {n : Node ι} {id : Nat} {w : Write} {res : Int} :
      ThreadStep n (.leaving id w res) .tau { n with nWriters := n.nWriters - 1 }
        (.sending ⟨id, .write w⟩ (w.reply res))
  | send {n : Node ι} {c : Call} {reply : WireMsg} :
      ThreadStep n (.sending c (some reply)) (.send reply) n .receiving
  -- `invoke` returned -1
  | close {n : Node ι} {c : Call} : ThreadStep n (.sending c none) .tau n .closed

/-- A write is let in where nobody is inside. -/
theorem ThreadStep.startFree {n : Node ι} {id : Nat} {w : Write} {next : Option ι}
    (hr : n.nReaders = 0) (hw : n.nWriters = 0) :
    ThreadStep n (.wantWrite id w next) .tau { n with nWriters := n.nWriters + 1 }
      (.writing id w next) :=
  .startWrite (by omega)

/-- A write that has been applied is acknowledged. -/
theorem ThreadStep.acknowledge (n : Node ι) (id : Nat) (w : Write) (r : Replica) :
    ThreadStep n (.sending ⟨id, .write w⟩ (w.reply (r.write w).1)) (.send (w.replyOn r.map)) n
      .receiving := by
  rw [Replica.reply_write]
  exact .send

/-! ## The whole system -/

/-- The state of the system. `caller` holds the request a client waits for. -/
structure Net (ι γ : Type) where
  node : ι → Node ι
  pc : Link ι γ → Pc ι
  requests : Link ι γ → List Call
  replies : Link ι γ → List WireMsg
  caller : ι × γ → Option Call
  history : List (Event Request WireMsg)
  fresh : Nat

variable [DecidableEq ι] [DecidableEq γ]

/-- What the step of the thread of `x` does to the messages. A reply is taken
from the connection of the shared handle, whoever asked for it; a connection
whose other end is gone gives none. -/
inductive Wire (s : Net ι γ) (x : Link ι γ) :
    Io ι → (Link ι γ → List Call) → (Link ι γ → List WireMsg) → Prop
  | tau : Wire s x .tau s.requests s.replies
  | accept {c : Call} {rest : List Call} : s.requests x = c :: rest →
      Wire s x (.accept c) (Function.update s.requests x rest) s.replies
  | forward {k : ι} {c : Call} :
      Wire s x (.forward k c)
        (Function.update s.requests (k, .peer x.1) (s.requests (k, .peer x.1) ++ [c])) s.replies
  | collect {k : ι} {r : WireMsg} {rest : List WireMsg} : s.replies (k, .peer x.1) = r :: rest →
      Wire s x (.collect k) s.requests (Function.update s.replies (k, .peer x.1) rest)
  | lost {k : ι} : (s.node k).running = false ∨ s.pc (k, .peer x.1) = .closed →
      Wire s x (.lost k) s.requests s.replies
  | send {reply : WireMsg} :
      Wire s x (.send reply) s.requests (Function.update s.replies x (s.replies x ++ [reply]))

/-- The state after a step of the thread of `x`. -/
def Net.after (s : Net ι γ) (x : Link ι γ) (n : Node ι) (pc : Pc ι)
    (requests : Link ι γ → List Call) (replies : Link ι γ → List WireMsg) : Net ι γ :=
  { s with
    node := Function.update s.node x.1 n
    pc := Function.update s.pc x pc
    requests := requests
    replies := replies }

/-- A client sends a request. -/
def Net.submit (s : Net ι γ) (i : ι) (c : γ) (r : Request) : Net ι γ :=
  { s with
    caller := Function.update s.caller (i, c) (some ⟨s.fresh, r⟩)
    requests := Function.update s.requests (i, .client c)
      (s.requests (i, .client c) ++ [⟨s.fresh, r⟩])
    history := s.history ++ [.call s.fresh r]
    fresh := s.fresh + 1 }

/-- The reply `r` to `call` reaches its client; `rest` are the replies behind
it. -/
def Net.deliver (s : Net ι γ) (i : ι) (c : γ) (call : Call) (r : WireMsg) (rest : List WireMsg) :
    Net ι γ :=
  { s with
    caller := Function.update s.caller (i, c) none
    replies := Function.update s.replies (i, .client c) rest
    history := s.history ++ [.ret call.id r] }

theorem Net.caller_submit {s : Net ι γ} {i : ι} {c : γ} {r : Request} {y : ι × γ} {call : Call}
    (hy : (s.submit i c r).caller y = some call) :
    y = (i, c) ∧ call = ⟨s.fresh, r⟩ ∨ y ≠ (i, c) ∧ s.caller y = some call := by
  unfold Net.submit at hy
  dsimp only at hy
  rw [Function.update_apply] at hy
  split at hy
  next h => exact Or.inl ⟨h, (Option.some.inj hy).symm⟩
  next h => exact Or.inr ⟨h, hy⟩

theorem Net.caller_deliver {s : Net ι γ} {i : ι} {c : γ} {call : Call} {r : WireMsg}
    {rest : List WireMsg} {y : ι × γ} {call' : Call}
    (hy : (s.deliver i c call r rest).caller y = some call') :
    y ≠ (i, c) ∧ s.caller y = some call' := by
  unfold Net.deliver at hy
  dsimp only at hy
  rw [Function.update_apply] at hy
  split at hy
  next => cases hy
  next h => exact ⟨h, hy⟩

/-- A server's own data change from outside its threads: the watcher assigns
`next_server`, `main` fills the table, the process ends. -/
def Net.setNode (s : Net ι γ) (i : ι) (n : Node ι) : Net ι γ :=
  { s with node := Function.update s.node i n }

/-- A step the system takes by itself: of a thread, or the arrival of a reply at
a client. -/
inductive Net.Internal : Net ι γ → Net ι γ → Prop
  | thread {s : Net ι γ} {x : Link ι γ} {io : Io ι} {n : Node ι} {pc : Pc ι}
      {rq : Link ι γ → List Call} {rp : Link ι γ → List WireMsg} :
      (s.node x.1).running = true → ThreadStep (s.node x.1) (s.pc x) io n pc → Wire s x io rq rp →
      Internal s (s.after x n pc rq rp)
  | ret {s : Net ι γ} {i : ι} {c : γ} {call : Call} {r : WireMsg} {rest : List WireMsg} :
      s.caller (i, c) = some call → s.replies (i, .client c) = r :: rest →
      Internal s (s.deliver i c call r rest)

/-- A client that is not waiting sends a request. -/
inductive Net.Submit (admits : ι → Request → Prop) : Net ι γ → Net ι γ → Prop
  | call {s : Net ι γ} {i : ι} {c : γ} {r : Request} : admits i r → s.caller (i, c) = none →
      Submit admits s (s.submit i c r)

/-- A server that has just entered `network_main_loop`. -/
def Node.start (replica : Replica) (next : Option ι) : Node ι where
  replica := replica
  nReaders := 0
  nWriters := 0
  next := next
  running := true
  serving := true
  log := []

/-- Nothing has been asked yet. -/
def Net.start (node : ι → Node ι) : Net ι γ where
  node := node
  pc := fun _ => .receiving
  requests := fun _ => []
  replies := fun _ => []
  caller := fun _ => none
  history := []
  fresh := 0

/-- The runs with stable membership, from the given tables and handles. -/
def stable (γ : Type) [DecidableEq γ] (admits : ι → Request → Prop) (replica : ι → Replica)
    (next : ι → Option ι) : Transition.System (Net ι γ) where
  init s := s = Net.start fun i => Node.start (replica i) (next i)
  step s s' := Net.Submit admits s s' ∨ Net.Internal s s'

end KvStorage
