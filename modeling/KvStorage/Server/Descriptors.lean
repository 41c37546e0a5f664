import KvStorage.Lib.Ownership

/-!
# The descriptors of the server

`network_main_loop` accepts a connection and hands its descriptor to a thread;
`thread_client` closes it after its loop. But `network_receive` and `network_send` close it
too where a `read` or a `write` fails, and `thread_client` does not know. In between,
`accept` may give the number to another client.

`network_send_receive` does the same with the descriptor of `next_server`: it closes it on
an error, and the handle stays where it is.

Here the process runs over a table from numbers to connections in which every free number
can be given out again. On the runs without a failing `read` or `write`, a thread never uses
its number after closing it; where the handle of the successor is not lost and not replaced
in use either, every call is on the caller's own connection (`closed_by_its_owner`).
-/

namespace KvStorage

open Ownership

/-! ## States -/

/-- Where `network_main_loop` is, with `connsockfd`. -/
inductive LoopStage
  | accepting
  /-- `malloc` is next. -/
  | accepted (connsockfd : Ticket)
  /-- `pthread_create` is next. -/
  | allocated (connsockfd : Ticket)
  /-- One of the two failed; `close` is next. -/
  | refusing (connsockfd : Ticket)
  | returned

/-- Where `thread_client` is. -/
inductive ClientStage
  /-- `read_all` of the size, in `network_receive`. -/
  | readingSize
  /-- `read_all` of the message. -/
  | readingMessage
  /-- In `invoke`. -/
  | invoking
  /-- In `invoke`, past `get_next_server`; `network_send_receive` on that handle is next. -/
  | exchanging (nextServer : Ticket)
  /-- In `network_send_receive` after an error; `close` is next. -/
  | exchangeFailed (nextServer : Ticket)
  /-- In `invoke`, past the exchange. -/
  | exchanged
  /-- `write_all` of the size, in `network_send`. -/
  | writingSize
  /-- `write_all` of the message. -/
  | writingMessage
  /-- In `network_receive` or `network_send` after an error; `close` is next. -/
  | failed
  /-- Past the loop; the last `close` is next. -/
  | leaving

/-- A thread that runs `thread_client`; `closed` says whether it has closed `connsockfd`. -/
inductive Client
  | unborn
  | running (connsockfd : Ticket) (stage : ClientStage) (closed : Bool)
  | finished

/-- Where the watcher is in `set_next_server`. -/
inductive HandleStage
  | idle
  /-- Past `rtable_disconnect`; `next_server` was not assigned yet. -/
  | disconnected
  /-- In `network_connect`, past `socket`. -/
  | connecting (sockfd : Ticket)

/-- The server process, with threads `κ`. -/
structure Process (κ : Type) where
  /-- The open connection of each descriptor number. -/
  table : Nat → Option Nat
  /-- The number of connections so far. -/
  opened : Nat
  loop : LoopStage
  nextServer : Option Ticket
  watcher : HandleStage
  client : κ → Client

/-- The steps of a thread that leave the table and the handle alone. -/
inductive ClientStage.Goes : ClientStage → ClientStage → Prop
  -- `network_receive`: the other side closed, an error, the size was read
  | closedBySize : Goes readingSize leaving
  | sizeFails : Goes readingSize failed
  | size : Goes readingSize readingMessage
  -- no memory, the other side closed, or no message in the bytes
  | noMessage : Goes readingMessage leaving
  | messageFails : Goes readingMessage failed
  | message : Goes readingMessage invoking
  -- `invoke` returns
  | answered : Goes invoking writingSize
  | refused : Goes invoking leaving
  -- the exchange, or none where `invoke` gives up before it
  | exchange (nextServer : Ticket) : Goes (exchanging nextServer) exchanged
  | exchangeFails (nextServer : Ticket) : Goes (exchanging nextServer) (exchangeFailed nextServer)
  | answeredAfter : Goes exchanged writingSize
  | refusedAfter : Goes exchanged leaving
  -- `network_send`: no memory, an incomplete write, the size was sent
  | noReply : Goes writingSize leaving
  | replyFails : Goes writingSize failed
  | replySize : Goes writingSize writingMessage
  | replyMessageFails : Goes writingMessage failed
  | reply : Goes writingMessage readingSize

variable {κ : Type} [DecidableEq κ]

namespace Process

/-- `close`: the number is free, whatever was behind it. -/
def close (s : Process κ) (n : Nat) : Process κ :=
  { s with table := Function.update s.table n none }

/-- `accept` or `socket`: a free number leads to a new connection. -/
def openAt (s : Process κ) (n : Nat) : Process κ :=
  { s with table := Function.update s.table n (some s.opened), opened := s.opened + 1 }

/-- Thread `k` goes on. -/
def toClient (s : Process κ) (k : κ) (client : Client) : Process κ :=
  { s with client := Function.update s.client k client }

/-- One step of the loop, of a thread, or of the watcher. -/
inductive Step : Process κ → Process κ → Prop
  | accept {s : Process κ} {n : Nat} : s.loop = .accepting → s.table n = none →
      Step s { s.openAt n with loop := .accepted ⟨n, s.opened⟩ }
  | acceptFails {s : Process κ} : s.loop = .accepting → Step s { s with loop := .returned }
  | malloc {s : Process κ} {t : Ticket} : s.loop = .accepted t →
      Step s { s with loop := .allocated t }
  | mallocFails {s : Process κ} {t : Ticket} : s.loop = .accepted t →
      Step s { s with loop := .refusing t }
  | create {s : Process κ} {k : κ} {t : Ticket} : s.loop = .allocated t → s.client k = .unborn →
      Step s { s.toClient k (.running t .readingSize false) with loop := .accepting }
  | createFails {s : Process κ} {t : Ticket} : s.loop = .allocated t →
      Step s { s with loop := .refusing t }
  | refuse {s : Process κ} {t : Ticket} : s.loop = .refusing t →
      Step s { s.close t.number with loop := .accepting }
  | goOn {s : Process κ} {k : κ} {t : Ticket} {stage stage' : ClientStage} {closed : Bool} :
      s.client k = .running t stage closed → stage.Goes stage' →
      Step s (s.toClient k (.running t stage' closed))
  | getNextServer {s : Process κ} {k : κ} {t r : Ticket} {closed : Bool} :
      s.client k = .running t .invoking closed → s.nextServer = some r →
      Step s (s.toClient k (.running t (.exchanging r) closed))
  | closeExchange {s : Process κ} {k : κ} {t r : Ticket} {closed : Bool} :
      s.client k = .running t (.exchangeFailed r) closed →
      Step s ((s.close r.number).toClient k (.running t .exchanged closed))
  | closeFailed {s : Process κ} {k : κ} {t : Ticket} {closed : Bool} :
      s.client k = .running t .failed closed →
      Step s ((s.close t.number).toClient k (.running t .leaving true))
  | closeLast {s : Process κ} {k : κ} {t : Ticket} {closed : Bool} :
      s.client k = .running t .leaving closed → Step s ((s.close t.number).toClient k .finished)
  | disconnect {s : Process κ} {r : Ticket} : s.watcher = .idle → s.nextServer = some r →
      Step s { s.close r.number with watcher := .disconnected }
  -- there is no successor, or no address in its data
  | clear {s : Process κ} : s.watcher = .disconnected →
      Step s { s with nextServer := none, watcher := .idle }
  | socket {s : Process κ} {n : Nat} :
      s.watcher = .disconnected ∨ s.watcher = .idle ∧ s.nextServer = none → s.table n = none →
      Step s { s.openAt n with watcher := .connecting ⟨n, s.opened⟩ }
  | connect {s : Process κ} {t : Ticket} : s.watcher = .connecting t →
      Step s { s with nextServer := some t, watcher := .idle }
  | connectFails {s : Process κ} {t : Ticket} : s.watcher = .connecting t →
      Step s { s.close t.number with nextServer := none, watcher := .idle }

/-- `network_main_loop` is called: no thread yet, and `next_server`, if there is one, on an
open connection. -/
structure Init (s : Process κ) : Prop where
  old : ∀ n c, s.table n = some c → c < s.opened
  loop : s.loop = .accepting
  nextServer : ∀ r, s.nextServer = some r → s.table r.number = some r.resource
  watcher : s.watcher = .idle
  client : ∀ k, s.client k = .unborn

end Process

/-- All runs of the process from there. -/
def processes (κ : Type) [DecidableEq κ] : Transition.System (Process κ) where
  init := Process.Init
  step := Process.Step

/-! ## Calls and connections -/

/-- The next call of the thread is on `connsockfd`. -/
def ClientStage.OnSocket : ClientStage → Prop
  | invoking => False
  | exchanging _ => False
  | exchangeFailed _ => False
  | exchanged => False
  | _ => True

/-- The descriptor `thread_client` was given. -/
def Client.socket : Client → Option Ticket
  | running connsockfd _ _ => some connsockfd
  | _ => none

def Client.closed : Client → Bool
  | running _ _ closed => closed
  | _ => false

/-- The number that the next `read`, `write` or `close` of `thread_client`,
`network_receive` or `network_send` is called with. -/
def Client.Calls (client : Client) (n : Nat) : Prop :=
  ∃ connsockfd stage closed, client = running connsockfd stage closed ∧ stage.OnSocket ∧
    connsockfd.number = n

/-- Who has a descriptor. -/
inductive Owner (κ : Type)
  | loop
  | nextServer
  | watcher
  | client (k : κ)
  deriving DecidableEq

def LoopStage.held : LoopStage → Option Ticket
  | accepted connsockfd => some connsockfd
  | allocated connsockfd => some connsockfd
  | refusing connsockfd => some connsockfd
  | _ => none

def HandleStage.held : HandleStage → Option Ticket
  | connecting sockfd => some sockfd
  | _ => none

namespace Process

/-- What each of them has; `next_server` is nobody's between `rtable_disconnect` and the
assignment. -/
def holds (s : Process κ) : Owner κ → Option Ticket
  | .loop => s.loop.held
  | .nextServer =>
    match s.watcher with
    | .idle => s.nextServer
    | _ => none
  | .watcher => s.watcher.held
  | .client k => (s.client k).socket

/-- The next calls of the process on a descriptor number, by whose descriptor it is meant
to be. -/
inductive Calls (s : Process κ) : Owner κ → Nat → Prop
  | refuse {t : Ticket} : s.loop = .refusing t → Calls s .loop t.number
  | client {k : κ} {n : Nat} : (s.client k).Calls n → Calls s (.client k) n
  | exchange {k : κ} {t r : Ticket} {closed : Bool} :
      s.client k = .running t (.exchanging r) closed → Calls s .nextServer r.number
  | closeExchange {k : κ} {t r : Ticket} {closed : Bool} :
      s.client k = .running t (.exchangeFailed r) closed → Calls s .nextServer r.number
  | disconnect {r : Ticket} : s.watcher = .idle → s.nextServer = some r →
      Calls s .nextServer r.number
  | connect {t : Ticket} : s.watcher = .connecting t → Calls s .watcher t.number

/-- No `read` or `write` on a client's connection fails. -/
def ClientIo (s s' : Process κ) : Prop :=
  ∀ k t closed, s'.client k = .running t .failed closed → s.client k = .running t .failed closed

/-- No exchange over the successor's handle fails; the watcher disconnects the handle only
while no request has it, and no request reads it until the new one is there. -/
structure HandleIo (s s' : Process κ) : Prop where
  exchange : ∀ k t r closed, s'.client k = .running t (.exchangeFailed r) closed →
    s.client k = .running t (.exchangeFailed r) closed
  watcher : ∀ r, s.watcher = .idle → s.nextServer = some r → s'.watcher = .disconnected →
    ∀ k t r closed, s.client k ≠ .running t (.exchanging r) closed
  reader : ∀ k t r closed, s'.client k = .running t (.exchanging r) closed →
    s.client k = .running t (.exchanging r) closed ∨ s.watcher = .idle

/-- A step of the runs on which the descriptor of a client and the handle are left intact. -/
def Clean (s s' : Process κ) : Prop := ClientIo s s' ∧ HandleIo s s'

variable {s s' : Process κ}

theorem client_toClient (k : κ) (client : Client) (k' : κ) :
    (s.toClient k client).client k' = if k' = k then client else s.client k' :=
  Function.update_apply ..

/-! ## Closing once -/

/-- The thread has its descriptor, and closes it only after its loop. -/
def Intact (s : Process κ) : Prop :=
  ∀ k t stage closed, s.client k = .running t stage closed → closed = false ∧ stage ≠ .failed

/-- A thread that goes on from an intact state. -/
theorem Intact.toClient (h : s.Intact) {k : κ} {client : Client}
    (hclient : ∀ t stage closed, client = .running t stage closed →
      closed = false ∧ stage ≠ .failed) : (s.toClient k client).Intact := by
  intro k' t stage closed hk'
  rw [client_toClient] at hk'
  split at hk'
  next => exact hclient t stage closed hk'
  next => exact h k' t stage closed hk'

theorem Intact.step (h : s.Intact) (hs : Step s s') (hio : ClientIo s s') : s'.Intact := by
  cases hs with
  | create _ _ =>
    refine Intact.toClient h ?_
    intro t stage closed heq
    cases heq
    exact ⟨rfl, nofun⟩
  | @goOn k t stage stage' closed hk hgoes =>
    obtain ⟨hclosed, hstage⟩ := h k t stage closed hk
    refine Intact.toClient h ?_
    intro t₁ stage₁ closed₁ heq
    cases heq
    refine ⟨hclosed, ?_⟩
    -- the step would be the failure that the condition excludes
    intro hfailed
    subst hfailed
    have hbefore := hio k t closed (by rw [client_toClient, if_pos rfl])
    rw [hk] at hbefore
    cases hbefore
    exact hstage rfl
  | @getNextServer k t r closed hk _ =>
    refine Intact.toClient h ?_
    intro t₁ stage₁ closed₁ heq
    cases heq
    exact ⟨(h k t _ closed hk).1, nofun⟩
  | @closeExchange k t r closed hk =>
    refine Intact.toClient (s := s.close r.number) h ?_
    intro t₁ stage₁ closed₁ heq
    cases heq
    exact ⟨(h k t _ closed hk).1, nofun⟩
  | @closeFailed k t closed hk => exact absurd rfl (h k t _ closed hk).2
  | @closeLast k t closed hk =>
    refine Intact.toClient (s := s.close t.number) h ?_
    intro t₁ stage₁ closed₁ heq
    cases heq
  | accept _ _ => exact h
  | acceptFails _ => exact h
  | malloc _ => exact h
  | mallocFails _ => exact h
  | createFails _ => exact h
  | refuse _ => exact h
  | disconnect _ _ => exact h
  | clear _ => exact h
  | socket _ _ => exact h
  | connect _ => exact h
  | connectFails _ => exact h

end Process

open Process

theorem intact_of_reachable {s : Process κ} (h : ((processes κ).restrict ClientIo).Reachable s) :
    s.Intact := by
  refine h.invariant (I := Intact) ?_ ?_
  · intro s hs k t stage closed hk
    rw [hs.client k] at hk
    cases hk
  · intro s s' hi hs
    exact hi.step hs.1 hs.2

namespace Process

variable {s s' : Process κ}

/-! ## The process keeps to the three moves -/

/-- The process as owners of numbers. -/
def pool (s : Process κ) : Pool (Owner κ) := ⟨s.table, s.opened, s.holds⟩

/-- Every request that has a handle has the current one, and that is connected. -/
structure Sound (s : Process κ) : Prop where
  intact : s.Intact
  exchanging : ∀ k t r closed, s.client k = .running t (.exchanging r) closed →
    s.watcher = .idle ∧ s.nextServer = some r
  exchanged : ∀ k t r closed, s.client k ≠ .running t (.exchangeFailed r) closed

theorem holds_eq_update {o : Owner κ} {x : Option Ticket} (hself : s'.holds o = x)
    (hrest : ∀ o', o' ≠ o → s'.holds o' = s.holds o') :
    s'.holds = Function.update s.holds o x := by
  funext o'
  rw [Function.update_apply]
  split
  next ho => rw [ho, hself]
  next ho => exact hrest o' ho

theorem holds_toClient (k : κ) (client : Client) :
    (s.toClient k client).holds = Function.update s.holds (.client k) client.socket := by
  refine holds_eq_update ?_ ?_
  · exact congrArg Client.socket (Function.update_self ..)
  · intro o ho
    cases o with
    | client k' =>
      have hk : k' ≠ k := fun hk => ho (congrArg Owner.client hk)
      exact congrArg Client.socket (Function.update_of_ne hk ..)
    | loop => rfl
    | nextServer => rfl
    | watcher => rfl

theorem holds_loop (loop : LoopStage) :
    Process.holds { s with loop := loop } = Function.update s.holds .loop loop.held := by
  refine holds_eq_update rfl ?_
  intro o ho
  cases o with
  | loop => exact absurd rfl ho
  | nextServer => rfl
  | watcher => rfl
  | client k => rfl

/-- A request or a thread goes on with the descriptor it has. -/
theorem pool_goOn {k : κ} {t : Ticket} {stage stage' : ClientStage} {closed closed' : Bool}
    (hk : s.client k = .running t stage closed) :
    (s.toClient k (.running t stage' closed')).pool = s.pool := by
  have hsame : (s.toClient k (.running t stage' closed')).holds = s.holds := by
    rw [holds_toClient, Function.update_eq_self_iff]
    exact (congrArg Client.socket hk).symm
  exact Pool.ext rfl rfl hsame

/-- The loop goes on with the descriptor it has. -/
theorem pool_loop {loop : LoopStage} (hheld : loop.held = s.loop.held) :
    Process.pool { s with loop := loop } = s.pool := by
  have hsame : Process.holds { s with loop := loop } = s.holds := by
    rw [holds_loop, Function.update_eq_self_iff]
    exact hheld
  exact Pool.ext rfl rfl hsame

theorem pool_accept {n : Nat} :
    Process.pool { s.openAt n with loop := .accepted ⟨n, s.opened⟩ } = s.pool.acquire .loop n :=
  Pool.ext rfl rfl (holds_loop (s := s.openAt n) _)

theorem pool_refuse {t : Ticket} :
    Process.pool { s.close t.number with loop := .accepting } = s.pool.release .loop t.number :=
  Pool.ext rfl rfl (holds_loop (s := s.close t.number) _)

theorem pool_create {k : κ} {t : Ticket} :
    Process.pool { s.toClient k (.running t .readingSize false) with loop := .accepting }
      = s.pool.pass .loop (.client k) t := by
  refine Pool.ext rfl rfl ?_
  refine (holds_loop (s := s.toClient k (.running t .readingSize false)) _).trans ?_
  rw [holds_toClient]
  exact Function.update_comm (show Owner.client k ≠ Owner.loop from nofun) ..

theorem pool_closeLast {k : κ} {t : Ticket} :
    Process.pool ((s.close t.number).toClient k .finished) = s.pool.release (.client k) t.number :=
  Pool.ext rfl rfl (holds_toClient (s := s.close t.number) k _)

/-- The steps of the watcher, as moves of `next_server` and of the new descriptor. -/
theorem pool_disconnect {r : Ticket} (hw : s.watcher = .idle) :
    Process.pool { s.close r.number with watcher := .disconnected }
      = s.pool.release .nextServer r.number := by
  refine Pool.ext rfl rfl (holds_eq_update (s := s) rfl ?_)
  intro o ho
  cases o with
  | nextServer => exact absurd rfl ho
  | watcher => exact (congrArg HandleStage.held hw).symm
  | loop => rfl
  | client k => rfl

omit [DecidableEq κ] in
theorem pool_clear (hw : s.watcher = .disconnected) :
    Process.pool { s with nextServer := none, watcher := .idle } = s.pool := by
  refine Pool.ext rfl rfl ?_
  funext o
  cases o with
  | nextServer =>
    unfold pool holds
    rw [hw]
  | watcher => exact (congrArg HandleStage.held hw).symm
  | loop => rfl
  | client k => rfl

theorem pool_socket {n : Nat}
    (hw : s.watcher = .disconnected ∨ s.watcher = .idle ∧ s.nextServer = none) :
    Process.pool { s.openAt n with watcher := .connecting ⟨n, s.opened⟩ }
      = s.pool.acquire .watcher n := by
  refine Pool.ext rfl rfl (holds_eq_update (s := s) rfl ?_)
  intro o ho
  cases o with
  | nextServer =>
    rcases hw with hw | ⟨hw, hnext⟩
    · unfold holds
      rw [hw]
    · unfold holds
      rw [hw, hnext]
  | watcher => exact absurd rfl ho
  | loop => rfl
  | client k => rfl

theorem pool_connect {t : Ticket} :
    Process.pool { s with nextServer := some t, watcher := .idle }
      = s.pool.pass .watcher .nextServer t := by
  refine Pool.ext rfl rfl ?_
  funext o
  cases o with
  | nextServer => rfl
  | watcher => rfl
  | loop => rfl
  | client k => rfl

theorem pool_connectFails {t : Ticket} (hw : s.watcher = .connecting t) :
    Process.pool { s.close t.number with nextServer := none, watcher := .idle }
      = s.pool.release .watcher t.number := by
  refine Pool.ext rfl rfl (holds_eq_update (s := s) rfl ?_)
  intro o ho
  cases o with
  | nextServer =>
    unfold holds
    rw [hw]
  | watcher => exact absurd rfl ho
  | loop => rfl
  | client k => rfl

/-- Every step of a sound process is one of the moves, or none. -/
theorem Sound.pool_step (h : s.Sound) (hs : Step s s') :
    s'.pool = s.pool ∨ Pool.Step s.pool s'.pool := by
  have hloop : ∀ {t : Ticket}, s.loop.held = some t → s.pool.holds .loop = some t := fun ht => ht
  cases hs with
  | accept hl hfree =>
    rw [pool_accept]
    exact Or.inr (.acquire hfree)
  | acceptFails hl => exact Or.inl (pool_loop (by rw [hl]; rfl))
  | malloc hl => exact Or.inl (pool_loop (by rw [hl]; rfl))
  | mallocFails hl => exact Or.inl (pool_loop (by rw [hl]; rfl))
  | createFails hl => exact Or.inl (pool_loop (by rw [hl]; rfl))
  | create hl hk =>
    rw [pool_create]
    exact Or.inr (.pass (hloop (by rw [hl]; rfl)))
  | refuse hl =>
    rw [pool_refuse]
    exact Or.inr (.release (hloop (by rw [hl]; rfl)))
  | goOn hk hgoes => exact Or.inl (pool_goOn hk)
  | getNextServer hk hr => exact Or.inl (pool_goOn hk)
  | closeExchange hk => exact absurd hk (h.exchanged _ _ _ _)
  | closeFailed hk => exact absurd rfl (h.intact _ _ _ _ hk).2
  | @closeLast k t closed hk =>
    have hheld : s.pool.holds (.client k) = some t := congrArg Client.socket hk
    rw [pool_closeLast]
    exact Or.inr (.release hheld)
  | @disconnect r hw hr =>
    have hheld : s.pool.holds .nextServer = some r := by
      unfold pool holds
      rw [hw]
      exact hr
    rw [pool_disconnect hw]
    exact Or.inr (.release hheld)
  | clear hw => exact Or.inl (pool_clear hw)
  | socket hw hfree =>
    rw [pool_socket hw]
    exact Or.inr (.acquire hfree)
  | @connect t hw =>
    have hheld : s.pool.holds .watcher = some t := congrArg HandleStage.held hw
    rw [pool_connect]
    exact Or.inr (.pass hheld)
  | @connectFails t hw =>
    have hheld : s.pool.holds .watcher = some t := congrArg HandleStage.held hw
    rw [pool_connectFails hw]
    exact Or.inr (.release hheld)

/-- Which handle a request has, after a step of the watcher or of another request. -/
theorem Sound.exchanging_step (h : s.Sound) (hs : Step s s') (hio : HandleIo s s') :
    ∀ k t r closed, s'.client k = .running t (.exchanging r) closed →
      s'.watcher = .idle ∧ s'.nextServer = some r := by
  have hother : ∀ {k k' : κ} {client : Client} {t r : Ticket} {closed : Bool},
      (∀ t r closed, client ≠ .running t (.exchanging r) closed) →
      (s.toClient k client).client k' = .running t (.exchanging r) closed →
      s.watcher = .idle ∧ s.nextServer = some r := by
    intro k k' client t r closed hclient hk'
    rw [client_toClient] at hk'
    split at hk'
    next => exact absurd hk' (hclient t r closed)
    next => exact h.exchanging k' t r closed hk'
  intro k t r closed hk
  cases hs with
  | accept _ _ => exact h.exchanging k t r closed hk
  | acceptFails _ => exact h.exchanging k t r closed hk
  | malloc _ => exact h.exchanging k t r closed hk
  | mallocFails _ => exact h.exchanging k t r closed hk
  | createFails _ => exact h.exchanging k t r closed hk
  | refuse _ => exact h.exchanging k t r closed hk
  | create _ _ => exact hother (fun _ _ _ heq => by cases heq) hk
  | goOn _ hgoes =>
    refine hother ?_ hk
    intro t₁ r₁ closed₁ heq
    cases heq
    cases hgoes
  | @getNextServer k₁ t₁ r₁ closed₁ hk₁ hr =>
    by_cases hsame : k = k₁
    · subst hsame
      rw [client_toClient, if_pos rfl] at hk
      cases hk
      refine ⟨?_, hr⟩
      rcases hio.reader k t r closed (by rw [client_toClient, if_pos rfl]) with hold | hidle
      · rw [hk₁] at hold
        cases hold
      · exact hidle
    · rw [client_toClient, if_neg hsame] at hk
      exact h.exchanging k t r closed hk
  | closeExchange _ => exact hother (fun _ _ _ heq => by cases heq) hk
  | closeFailed _ => exact hother (fun _ _ _ heq => by cases heq) hk
  | closeLast _ => exact hother (fun _ _ _ heq => by cases heq) hk
  | @disconnect r₁ hw hr => exact absurd hk (hio.watcher r₁ hw hr rfl k t r closed)
  | clear hw =>
    obtain ⟨hidle, -⟩ := h.exchanging k t r closed hk
    rw [hw] at hidle
    cases hidle
  | socket hw _ =>
    obtain ⟨hidle, hr⟩ := h.exchanging k t r closed hk
    rcases hw with hw | ⟨-, hnone⟩
    · rw [hw] at hidle
      cases hidle
    · rw [hnone] at hr
      cases hr
  | connect hw =>
    obtain ⟨hidle, -⟩ := h.exchanging k t r closed hk
    rw [hw] at hidle
    cases hidle
  | connectFails hw =>
    obtain ⟨hidle, -⟩ := h.exchanging k t r closed hk
    rw [hw] at hidle
    cases hidle

theorem Sound.step (h : s.Sound) (hs : Step s s') (hclean : Clean s s') : s'.Sound where
  intact := h.intact.step hs hclean.1
  exchanging := h.exchanging_step hs hclean.2
  exchanged := by
    intro k t r closed hk
    exact h.exchanged k t r closed (hclean.2.exchange k t r closed hk)

omit [DecidableEq κ] in
/-- At the start only the handle is owned. -/
theorem Init.owned (h : s.Init) : s.pool.Owned := by
  have hheld : ∀ o t, s.holds o = some t → o = .nextServer ∧ s.nextServer = some t := by
    intro o t ht
    cases o with
    | nextServer =>
      unfold holds at ht
      rw [h.watcher] at ht
      exact ⟨rfl, ht⟩
    | loop =>
      unfold holds at ht
      rw [h.loop] at ht
      cases ht
    | watcher =>
      unfold holds at ht
      rw [h.watcher] at ht
      cases ht
    | client k =>
      have hsocket : (s.client k).socket = some t := ht
      rw [h.client k] at hsocket
      cases hsocket
  constructor
  · exact h.old
  · intro o t ht
    exact h.nextServer t (hheld o t ht).2
  · intro o o' t t' ht ht' _
    rw [(hheld o t ht).1, (hheld o' t' ht').1]

omit [DecidableEq κ] in
theorem Init.sound (h : s.Init) : s.Sound := by
  constructor
  · intro k t stage closed hk
    rw [h.client k] at hk
    cases hk
  · intro k t r closed hk
    rw [h.client k] at hk
    cases hk
  · intro k t r closed hk
    rw [h.client k] at hk
    cases hk

/-- The refinement: a clean run of the process is a run of owners. -/
theorem simulates_owners : ((processes κ).restrict Clean).Simulates (owners (Owner κ))
    fun s p => s.Sound ∧ p = s.pool where
  init s hs := ⟨s.pool, hs.owned, hs.sound, rfl⟩
  step s s' p hR hs := by
    obtain ⟨hsound, rfl⟩ := hR
    refine ⟨s'.pool, ?_, hsound.step hs.1 hs.2, rfl⟩
    rcases hsound.pool_step hs.1 with hsame | hmove
    · rw [hsame]
    · exact .single hmove

omit [DecidableEq κ] in
/-- A call goes to a descriptor that its owner has. -/
theorem Sound.calls_held (h : s.Sound) {o : Owner κ} {n : Nat} (hc : s.Calls o n) :
    ∃ t, s.holds o = some t ∧ t.number = n := by
  cases hc with
  | @refuse t hl => exact ⟨t, congrArg LoopStage.held hl, rfl⟩
  | client hcalls =>
    obtain ⟨t, stage, closed, hk, -, hn⟩ := hcalls
    exact ⟨t, congrArg Client.socket hk, hn⟩
  | @exchange k t r closed hk =>
    obtain ⟨hw, hr⟩ := h.exchanging k t r closed hk
    refine ⟨r, ?_, rfl⟩
    unfold holds
    rw [hw]
    exact hr
  | closeExchange hk => exact absurd hk (h.exchanged _ _ _ _)
  | @disconnect r hw hr =>
    refine ⟨r, ?_, rfl⟩
    unfold holds
    rw [hw]
    exact hr
  | @connect t hw => exact ⟨t, congrArg HandleStage.held hw, rfl⟩

end Process

/-- **Closed by its owner.** Where no `read` or `write` on a client's connection fails, no
thread uses its descriptor number after closing it. Where the exchanges over the handle of
the successor succeed too, and the handle is not replaced in use, every call of the process
on a number that is meant to be somebody's descriptor is on that one's open connection, and
on no client's but its own. -/
theorem closed_by_its_owner {s : Process κ} :
    (((processes κ).restrict ClientIo).Reachable s →
      ∀ k n, (s.client k).Calls n → (s.client k).closed = false) ∧
    (((processes κ).restrict Clean).Reachable s → ∀ o n, s.Calls o n →
      ∃ t, s.holds o = some t ∧ t.number = n ∧ s.table n = some t.resource ∧
        ∀ k t', (s.client k).socket = some t' → o ≠ .client k → t'.resource ≠ t.resource) := by
  constructor
  · intro h k n ⟨t, stage, closed, hk, _, _⟩
    rw [hk]
    exact (intact_of_reachable h k t stage closed hk).1
  · intro h o n hc
    obtain ⟨p, hp, hsound, rfl⟩ := simulates_owners.reachable h
    have howned := owned_of_reachable hp
    obtain ⟨t, ht, rfl⟩ := hsound.calls_held hc
    refine ⟨t, ht, rfl, howned.held o t ht, ?_⟩
    intro k t' ht' hne heq
    exact hne (howned.one o (.client k) t t' ht ht' heq.symm)

/-! ## Two clients -/

/-- The server with nothing but its listening socket, which has the number 3. -/
def listening : Process Bool :=
  ⟨fun n => if n = 3 then some 0 else none, 1, .accepting, none, .idle, fun _ => .unborn⟩

theorem listening_init : listening.Init where
  old n c hc := by
    unfold listening at hc
    dsimp only at hc
    split at hc
    next =>
      cases hc
      exact Nat.one_pos
    next => cases hc
  loop := rfl
  nextServer := nofun
  watcher := rfl
  client _ := rfl

/-- The first client is connected with the number 4. -/
def oneClient : Process Bool :=
  { (listening.openAt 4).toClient false (.running ⟨4, 1⟩ .readingSize false) with
    loop := .accepting }

omit [DecidableEq κ] in
/-- A step meets the condition where the watcher stays, and every thread stays as well or is at the
first read or past its loop. -/
theorem clean_of_client {s s' : Process κ} (hwatcher : s'.watcher = s.watcher)
    (hclient : ∀ k t stage closed, s'.client k = .running t stage closed →
      s.client k = .running t stage closed ∨ stage = .readingSize ∨ stage = .leaving) :
    Clean s s' := by
  refine ⟨fun k t closed hk => ?_, fun k t r closed hk => ?_, fun r hidle _ hdisc => ?_,
    fun k t r closed hk => Or.inl ?_⟩
  · exact (hclient k t _ closed hk).resolve_right (by rintro (h | h) <;> cases h)
  · exact (hclient k t _ closed hk).resolve_right (by rintro (h | h) <;> cases h)
  · rw [hwatcher, hidle] at hdisc
    cases hdisc
  · exact (hclient k t _ closed hk).resolve_right (by rintro (h | h) <;> cases h)

theorem clean_of_toClient {s s' : Process κ} {k : κ} {client : Client}
    (hwatcher : s'.watcher = s.watcher) (hs' : s'.client = Function.update s.client k client)
    (hstage : ∀ t stage closed, client = .running t stage closed →
      stage = .readingSize ∨ stage = .leaving) : Clean s s' := by
  refine clean_of_client hwatcher fun k' t stage closed hk => ?_
  rw [hs', Function.update_apply] at hk
  split at hk
  next => exact Or.inr (hstage t stage closed hk)
  next => exact Or.inl hk

theorem oneClient_reachable : ((processes (Bool)).restrict Clean).Reachable oneClient := by
  have h0 := Transition.System.Reachable.init
    (M := (processes (Bool)).restrict Clean) listening_init
  have h1 := h0.step ⟨.accept (n := 4) rfl rfl, clean_of_client rfl fun _ _ _ _ hk => Or.inl hk⟩
  have h2 := h1.step ⟨.malloc rfl, clean_of_client rfl fun _ _ _ _ hk => Or.inl hk⟩
  refine h2.step ⟨.create (k := false) rfl rfl, clean_of_toClient rfl rfl ?_⟩
  intro t stage closed hrun
  cases hrun
  exact Or.inl rfl

/-- The first client closes its connection, and so does its thread; the second client is given the
number 4 again. -/
theorem secondClient_reachable : ∃ s : Process Bool,
    ((processes (Bool)).restrict Clean).Reachable s ∧ s.client false = .finished ∧
    s.client true = .running ⟨4, 2⟩ .readingSize false ∧ s.table 4 = some 2 := by
  have h1 := oneClient_reachable.step ⟨.goOn (k := false) rfl .closedBySize,
    clean_of_toClient rfl rfl fun _ _ _ hrun => by cases hrun; exact Or.inr rfl⟩
  have h2 := h1.step ⟨.closeLast (k := false) rfl, clean_of_toClient rfl rfl nofun⟩
  have h3 := h2.step ⟨.accept (n := 4) rfl rfl, clean_of_client rfl fun _ _ _ _ hk => Or.inl hk⟩
  have h4 := h3.step ⟨.malloc rfl, clean_of_client rfl fun _ _ _ _ hk => Or.inl hk⟩
  have h5 := h4.step ⟨.create (k := true) rfl rfl,
    clean_of_toClient rfl rfl fun _ _ _ hrun => by cases hrun; exact Or.inl rfl⟩
  exact ⟨_, h5, rfl, rfl, rfl⟩

/-- The thread of the second client reads from its own connection. -/
theorem closed_by_its_owner_reused : ∃ s : Process Bool,
    ((processes (Bool)).restrict Clean).Reachable s ∧ s.client false = .finished ∧
    (s.client true).Calls 4 ∧ (s.client true).closed = false ∧
    ∃ t, s.holds (.client true) = some t ∧ t.number = 4 ∧ s.table 4 = some t.resource := by
  obtain ⟨s, hs, hfirst, hsecond, -⟩ := secondClient_reachable
  have hcalls : (s.client true).Calls 4 := by
    rw [hsecond]
    exact ⟨⟨4, 2⟩, .readingSize, false, rfl, trivial, rfl⟩
  have hio := hs.restrict_mono (Q := ClientIo) fun s s' hclean => hclean.1
  obtain ⟨t, ht, hn, hopen, -⟩ := closed_by_its_owner.2 hs (.client true) 4 (.client hcalls)
  exact ⟨s, hs, hfirst, hcalls, closed_by_its_owner.1 hio true 4 hcalls, t, ht, hn, hopen⟩

/-- The read of the first thread fails; `network_receive` closes 4, which the next client is
given; then `thread_client` of the first thread closes 4 again, and that is the connection of
the second client. -/
theorem closes_other_connection : ∃ s s' : Process Bool,
    (processes (Bool)).Reachable s ∧ Step s s' ∧
      (s.client false).Calls 4 ∧ (s.client false).closed = true ∧
      s.client true = .running ⟨4, 2⟩ .readingSize false ∧ s.table 4 = some 2 ∧
      s'.client false = .finished ∧ s'.client true = s.client true ∧ s'.table 4 = none := by
  have h1 := oneClient_reachable.of_restrict.step (.goOn (k := false) rfl .sizeFails)
  have h2 := h1.step (.closeFailed (k := false) rfl)
  have h3 := h2.step (.accept (n := 4) rfl rfl)
  have h4 := h3.step (.malloc rfl)
  have h5 := h4.step (.create (k := true) rfl rfl)
  have hcalls : Client.Calls (.running ⟨4, 1⟩ .leaving true) 4 :=
    ⟨⟨4, 1⟩, .leaving, true, rfl, trivial, rfl⟩
  exact ⟨_, _, h5, .closeLast (k := false) rfl, hcalls, rfl, rfl, rfl, rfl, rfl, rfl⟩

end KvStorage
