import KvStorage.Lib.Steps
import KvStorage.Lib.Tally
import KvStorage.Lib.Transition
import KvStorage.Server.LockRelease
import Mathlib.Algebra.Order.BigOperators.Group.List

/-!
# The statistics (`stats.c`)

`thread_client` counts itself in `n_clients` around its loop, and six branches of `invoke`
end with `update_operations`. Here any number of these threads run, and between two steps of
one of them, inside `invoke` too, the others do theirs: `invokeSteps` is `invoke` cut into
pieces that nobody interrupts (`run_invokeSteps`).

A call counts its request exactly where it answers with `opcode + 1`, in every branch and at
every error exit (`counts_invoke`). So the counters are what the threads and the finished
calls add up to (`Service.Accounted`), modulo the width of their types. The sum of the times is
the exact one only while each interval fits an `int`: `invoke` measures a `long` and
`total_time` is one, but the parameter of `update_operations` in between is not
(`statistics_account`).
-/

namespace KvStorage

open CLib
open Code (atomic await)

variable {W : Type}

/-! ## `invoke` in steps

The branches of `Server.Skeleton`, line by line. -/

/-- `start_read` gets past its loop. -/
def MayRead (x : Server × W) : Prop := ¬ 0 < x.1.nWriters

/-- `start_write` gets past its loop. -/
def MayWrite (x : Server × W) : Prop := ¬ (0 < x.1.nReaders ∨ 0 < x.1.nWriters)

/-- Code on the process state, with other threads in between. -/
abbrev SC (W : Type) := Code (Server × W)

def invokePutSteps (next : Option (Remote W)) (clock : Timeval × Timeval) (msg : MessageT) :
    SC W (Int × MessageT) := do
  await MayWrite startWrite
  let entry ← deref msg.entry
  let (dados, res, table) ← applyPut (← get).1.table entry
  atomic (setTable table)
  atomic (forwardPut next entry.key dados)
  atomic endWrite
  if res = -1 then pure (-1, msg.error)
  else
    atomic (recordOperation clock)
    pure (0, msg.answer OP_PUT CT_NONE)

def invokeGetSteps (clock : Timeval × Timeval) (msg : MessageT) : SC W (Int × MessageT) := do
  await MayRead startRead
  let block ← tableGet (← get).1.table msg.key
  atomic endRead
  match block with
  | none => pure (0, msg.error)
  | some block =>
    let (rc, msg) ← getReply msg block
    if rc = 0 then atomic (recordOperation clock)
    pure (rc, msg)

def invokeDelSteps (next : Option (Remote W)) (clock : Timeval × Timeval) (msg : MessageT) :
    SC W (Int × MessageT) := do
  await MayWrite startWrite
  let (result, table) ← tableRemove (← get).1.table msg.key
  atomic (setTable table)
  atomic (forwardDel next msg.key)
  atomic endWrite
  if result ≠ 0 then pure (0, msg.error)
  else
    atomic (recordOperation clock)
    pure (0, msg.answer OP_DEL CT_NONE)

def invokeSizeSteps (clock : Timeval × Timeval) (msg : MessageT) : SC W (Int × MessageT) := do
  await MayRead startRead
  let size := tableSize (← get).1.table
  atomic endRead
  if size = -1 then pure (-1, msg.error)
  else
    atomic (recordOperation clock)
    pure (0, { msg.answer OP_SIZE CT_RESULT with result := Int32.ofInt size })

def invokeGetKeysSteps (clock : Timeval × Timeval) (msg : MessageT) : SC W (Int × MessageT) := do
  await MayRead startRead
  let table := (← get).1.table
  match ← tableGetKeys table with
  | none =>
    atomic endRead
    pure (-1, { msg with keys := none }.error)
  | some keys =>
    atomic endRead
    atomic (recordOperation clock)
    pure (0, { msg.answer OP_GETKEYS CT_KEYS with
      keys := some keys, nKeys := (tableSize table % 2 ^ 64).toNat })

def invokeGetTableSteps (clock : Timeval × Timeval) (msg : MessageT) : SC W (Int × MessageT) := do
  await MayRead startRead
  let table := (← get).1.table
  if ← malloc then
    let cap := ptrArrayCap (cint (tableSize table + 1))
    match ← fillTableEntries cap table.lists [] with
    | none => pure (-1, msg.error)
    | some entries =>
      let entries ← arrayPut cap entries none
      atomic endRead
      atomic (recordOperation clock)
      pure (0, { msg.answer OP_GETTABLE CT_TABLE with
        entries := some entries, nEntries := (tableSize table % 2 ^ 64).toNat })
  else
    atomic endRead
    pure (-1, { msg with entries := none }.error)

def invokeStatsSteps (msg : MessageT) : SC W (Int × MessageT) := do
  if ← malloc then
    let stats := (← get).1.stats
    pure (0, { msg.answer OP_STATS CT_STATS with stats := some stats })
  else pure (-1, msg.error)

def invokeSteps (next : Option (Remote W)) (clock : Timeval × Timeval) (msg : MessageT) :
    SC W (Int × MessageT) :=
  if msg.opcode = OP_PUT then invokePutSteps next clock msg
  else if msg.opcode = OP_GET then invokeGetSteps clock msg
  else if msg.opcode = OP_DEL then invokeDelSteps next clock msg
  else if msg.opcode = OP_SIZE then invokeSizeSteps clock msg
  else if msg.opcode = OP_GETKEYS then invokeGetKeysSteps clock msg
  else if msg.opcode = OP_GETTABLE then invokeGetTableSteps clock msg
  else if msg.opcode = OP_STATS then invokeStatsSteps msg
  else pure (-1, msg.error)

section Run

variable (next : Option (Remote W)) (clock : Timeval × Timeval) (msg : MessageT)

theorem run_invokePutSteps : (invokePutSteps next clock msg).run = invokePut next clock msg := by
  unfold invokePutSteps invokePut
  simp

theorem run_invokeGetSteps : (invokeGetSteps clock msg : SC W _).run = invokeGet clock msg := by
  unfold invokeGetSteps invokeGet
  simp only [Code.run_bind, Code.run_await, Code.run_get, Code.run_compute, Code.run_atomic]
  refine bind_congr fun _ => bind_congr fun x => bind_congr fun block => bind_congr fun _ => ?_
  cases block with
  | none => rfl
  | some block => simp

theorem run_invokeDelSteps : (invokeDelSteps next clock msg).run = invokeDel next clock msg := by
  unfold invokeDelSteps invokeDel
  simp

theorem run_invokeSizeSteps : (invokeSizeSteps clock msg : SC W _).run = invokeSize clock msg := by
  unfold invokeSizeSteps invokeSize
  simp

theorem run_invokeGetKeysSteps :
    (invokeGetKeysSteps clock msg : SC W _).run = invokeGetKeys clock msg := by
  unfold invokeGetKeysSteps invokeGetKeys
  simp only [Code.run_bind, Code.run_await, Code.run_get, Code.run_compute]
  refine bind_congr fun _ => bind_congr fun x => bind_congr fun keys => ?_
  cases keys with
  | none => simp
  | some keys => simp

theorem run_invokeGetTableSteps :
    (invokeGetTableSteps clock msg : SC W _).run = invokeGetTable clock msg := by
  unfold invokeGetTableSteps invokeGetTable
  simp only [Code.run_bind, Code.run_await, Code.run_get, Code.run_compute, Code.run_ite]
  refine bind_congr fun _ => bind_congr fun x => bind_congr fun ok => ?_
  split
  next =>
    refine bind_congr fun entries => ?_
    cases entries with
    | none => rfl
    | some entries => simp
  next => simp

theorem run_invokeStatsSteps : (invokeStatsSteps msg : SC W _).run = invokeStats msg := by
  unfold invokeStatsSteps invokeStats
  simp

/-- With nobody in between, the steps are `invoke`. -/
theorem run_invokeSteps : (invokeSteps next clock msg).run = invoke next clock msg := by
  unfold invokeSteps invoke
  simp only [Code.run_ite, run_invokePutSteps, run_invokeGetSteps, run_invokeDelSteps,
    run_invokeSizeSteps, run_invokeGetKeysSteps, run_invokeGetTableSteps, run_invokeStatsSteps,
    Code.run_pure]

end Run

/-! ## What one call counts -/

/-- The opcodes whose branches measure their time. -/
def measuredOpcodes : List Int32 := [OP_PUT, OP_GET, OP_DEL, OP_SIZE, OP_GETKEYS, OP_GETTABLE]

/-- A request of one of these kinds, answered with `opcode + 1`. -/
def Answered (request reply : MessageT) : Prop :=
  request.opcode ∈ measuredOpcodes ∧ reply.opcode = request.opcode + 1

instance (request reply : MessageT) : Decidable (Answered request reply) :=
  inferInstanceAs (Decidable (_ ∧ _))

theorem not_answered_error {request reply : MessageT} (h : reply.opcode = OP_ERROR) :
    ¬ Answered request reply := by
  have hne : ∀ opcode ∈ measuredOpcodes, OP_ERROR ≠ opcode + 1 := by
    intro opcode hmem
    simp only [measuredOpcodes, List.mem_cons, List.not_mem_nil, or_false] at hmem
    rcases hmem with rfl | rfl | rfl | rfl | rfl | rfl
    all_goals decide
  rintro ⟨hmem, hreply⟩
  exact hne _ hmem (h ▸ hreply)

/-- What is left of a call of `invoke` counts it once if its answer is one that counts and
`paid` says that it has not been counted yet, and leaves the statistics alone otherwise. -/
abbrev CountsOnce (clock : Timeval × Timeval) (msg : MessageT) :
    Bool → SC W (Int × MessageT) → Prop :=
  Code.Charges (fun x : Server × W => x.1.stats)
    (fun stats => updateOperations stats (interval clock.1 clock.2)) fun r => Answered msg r.2

section CountsOnce

open Code.Charges

variable (next : Option (Remote W)) (clock : Timeval × Timeval) {msg : MessageT}

theorem counts_error {rc : Int} {reply : MessageT} (h : reply.opcode = OP_ERROR) :
    CountsOnce (W := W) clock msg false (pure (rc, reply)) :=
  Code.Charges.pure (iff_of_false (not_answered_error h) Bool.false_ne_true)

/-- `recordOperation` and then the answer. -/
theorem counts_answer {opcode : Int32} (hmeasured : opcode ∈ measuredOpcodes)
    (h : msg.opcode = opcode) {rc : Int} {reply : MessageT} (hreply : reply.opcode = opcode + 1) :
    CountsOnce (W := W) clock msg false (do
      atomic (recordOperation clock)
      pure (rc, reply)) := by
  refine act (acts_modify fun _ => rfl) fun _ => Code.Charges.pure ?_
  exact iff_of_true ⟨h ▸ hmeasured, h ▸ hreply⟩ rfl

theorem counts_invokePut (h : msg.opcode = OP_PUT) :
    CountsOnce clock msg false (invokePutSteps next clock msg) := by
  refine Code.Charges.await (keeps_modify fun _ => rfl) fun _ => compute fun _ entry _ _ => ?_
  refine Code.Charges.get fun x => compute fun _ applied _ _ => ?_
  refine Code.Charges.atomic (keeps_modify fun _ => rfl) fun _ => ?_
  refine Code.Charges.atomic (keeps_forwardPut Server.stats next _ _) fun _ => ?_
  refine Code.Charges.atomic (keeps_modify fun _ => rfl) fun _ => ?_
  exact ite (fun _ => counts_error clock rfl) fun _ => counts_answer clock (by decide) h rfl

/-- The result of a GET is one of two. -/
theorem getReply_result {block : Block} {al al' : Allocs} {rc : Int} {reply : MessageT}
    (hrun : getReply msg block al = .ok ((rc, reply), al')) :
    rc = 0 ∧ reply.opcode = OP_GET + 1 ∨ rc = -1 ∧ reply = msg.error := by
  unfold getReply at hrun
  rw [run_bind, malloc_run, ok_bind] at hrun
  dsimp only at hrun
  split at hrun
  next =>
    obtain ⟨⟨value, al₂⟩, -, heq⟩ := bind_eq_ok.mp hrun
    cases heq
    exact Or.inl ⟨rfl, rfl⟩
  next =>
    cases hrun
    exact Or.inr ⟨rfl, rfl⟩

theorem counts_invokeGet (h : msg.opcode = OP_GET) :
    CountsOnce (W := W) clock msg false (invokeGetSteps clock msg) := by
  refine Code.Charges.await (keeps_modify fun _ => rfl) fun _ => ?_
  refine Code.Charges.get fun x => compute fun _ block _ _ => ?_
  refine Code.Charges.atomic (keeps_modify fun _ => rfl) fun _ => ?_
  cases block with
  | none => exact counts_error clock rfl
  | some block =>
    refine compute fun al r al' hrun => ?_
    obtain ⟨rc, reply⟩ := r
    rcases getReply_result hrun with ⟨rfl, hreply⟩ | ⟨rfl, rfl⟩
    · exact counts_answer clock (by decide) h hreply
    · exact counts_error clock rfl

theorem counts_invokeDel (h : msg.opcode = OP_DEL) :
    CountsOnce clock msg false (invokeDelSteps next clock msg) := by
  refine Code.Charges.await (keeps_modify fun _ => rfl) fun _ => ?_
  refine Code.Charges.get fun x => compute fun _ removed _ _ => ?_
  refine Code.Charges.atomic (keeps_modify fun _ => rfl) fun _ => ?_
  refine Code.Charges.atomic (keeps_forwardDel Server.stats next _) fun _ => ?_
  refine Code.Charges.atomic (keeps_modify fun _ => rfl) fun _ => ?_
  exact ite (fun _ => counts_error clock rfl) fun _ => counts_answer clock (by decide) h rfl

theorem counts_invokeSize (h : msg.opcode = OP_SIZE) :
    CountsOnce (W := W) clock msg false (invokeSizeSteps clock msg) := by
  refine Code.Charges.await (keeps_modify fun _ => rfl) fun _ => Code.Charges.get fun x => ?_
  refine Code.Charges.atomic (keeps_modify fun _ => rfl) fun _ => ?_
  exact ite (fun _ => counts_error clock rfl) fun _ => counts_answer clock (by decide) h rfl

theorem counts_invokeGetKeys (h : msg.opcode = OP_GETKEYS) :
    CountsOnce (W := W) clock msg false (invokeGetKeysSteps clock msg) := by
  refine Code.Charges.await (keeps_modify fun _ => rfl) fun _ => ?_
  refine Code.Charges.get fun x => compute fun _ keys _ _ => ?_
  cases keys with
  | none =>
    exact Code.Charges.atomic (keeps_modify fun _ => rfl) fun _ => counts_error clock rfl
  | some keys =>
    refine Code.Charges.atomic (keeps_modify fun _ => rfl) fun _ => ?_
    exact counts_answer clock (by decide) h rfl

/-- All three returns, the one that stays in the read section too. -/
theorem counts_invokeGetTable (h : msg.opcode = OP_GETTABLE) :
    CountsOnce (W := W) clock msg false (invokeGetTableSteps clock msg) := by
  refine Code.Charges.await (keeps_modify fun _ => rfl) fun _ => ?_
  refine Code.Charges.get fun x => compute fun _ ok _ _ => ite (fun _ => ?_) fun _ => ?_
  · refine compute fun _ entries _ _ => ?_
    cases entries with
    | none => exact counts_error clock rfl
    | some entries =>
      refine compute fun _ entries _ _ => ?_
      refine Code.Charges.atomic (keeps_modify fun _ => rfl) fun _ => ?_
      exact counts_answer clock (by decide) h rfl
  · exact Code.Charges.atomic (keeps_modify fun _ => rfl) fun _ => counts_error clock rfl

theorem counts_invokeStats (h : msg.opcode = OP_STATS) :
    CountsOnce (W := W) clock msg false (invokeStatsSteps msg) := by
  have hnot : msg.opcode ∉ measuredOpcodes := by rw [h]; decide
  refine compute fun _ ok _ _ => ite (fun _ => ?_) fun _ => counts_error clock rfl
  refine Code.Charges.get fun x => Code.Charges.pure ?_
  exact iff_of_false (fun hanswered => hnot hanswered.1) Bool.false_ne_true

/-- Every branch and every error exit: a call counts its request exactly where it answers
with `opcode + 1`, except for STATS. -/
theorem counts_invoke : CountsOnce clock msg false (invokeSteps next clock msg) := by
  refine ite (counts_invokePut next clock) fun _ => ite (counts_invokeGet clock) fun _ => ?_
  refine ite (counts_invokeDel next clock) fun _ => ite (counts_invokeSize clock) fun _ => ?_
  refine ite (counts_invokeGetKeys clock) fun _ => ite (counts_invokeGetTable clock) fun _ => ?_
  exact ite (counts_invokeStats clock) fun _ => counts_error clock rfl

/-- A call with nobody in between. -/
theorem invoke_counts {x x' : Server × W} {al al' : Allocs} {rc : Int} {reply : MessageT}
    (hrun : invoke next clock msg x al = .ok (((rc, reply), x'), al')) :
    x'.1.stats = if Answered msg reply then updateOperations x.1.stats (interval clock.1 clock.2)
      else x.1.stats := by
  rw [← run_invokeSteps] at hrun
  rcases (counts_invoke next clock).run hrun with ⟨hanswered, hstats⟩ | ⟨-, hanswered, hstats⟩
  · rw [if_pos hanswered]
    exact hstats
  · rw [if_neg hanswered]
    exact hstats

end CountsOnce

/-! ## The threads -/

/-- `stats_create`. -/
def statsCreate : StatisticsT := ⟨0, 0, 0⟩

/-- `update_clients_connect`. -/
def updateClientsConnect (s : StatisticsT) : StatisticsT := { s with nClients := s.nClients + 1 }

/-- `update_clients_disconnect`. -/
def updateClientsDisconnect (s : StatisticsT) : StatisticsT :=
  { s with nClients := s.nClients - 1 }

/-- Where a thread that runs `thread_client` is. -/
inductive ClientThread (W : Type) : Type 1
  /-- Before `update_clients_connect`. -/
  | unborn
  /-- `network_receive` is next. -/
  | receiving
  /-- In `invoke`, with its local data and what is left of it. -/
  | invoking (message : MessageT) (clock : Timeval × Timeval) (rest : SC W (Int × MessageT))
  /-- `network_send` is next. -/
  | sending
  /-- Past the loop; `update_clients_disconnect` is next. -/
  | leaving
  | finished

namespace ClientThread

/-- Between the two updates of `n_clients`. -/
def Connected : ClientThread W → Prop
  | unborn => False
  | finished => False
  | _ => True

instance : DecidablePred (Connected (W := W))
  | unborn => .isFalse id
  | receiving => .isTrue trivial
  | invoking .. => .isTrue trivial
  | sending => .isTrue trivial
  | leaving => .isTrue trivial
  | finished => .isFalse id

def InInvoke : ClientThread W → Prop
  | invoking .. => True
  | _ => False

/-- The steps outside `invoke` that leave the process state alone. -/
inductive Goes : ClientThread W → ClientThread W → Prop
  -- `network_receive` gives a message, or NULL
  | receive (next : Option (Remote W)) (clock : Timeval × Timeval) (message : MessageT) :
      Goes receiving (invoking message clock (invokeSteps next clock message))
  | receiveFails : Goes receiving leaving
  | send : Goes sending receiving
  | sendFails : Goes sending leaving

end ClientThread

/-- A call of `invoke` that returned, with its two clock readings. -/
structure Invocation where
  message : MessageT
  clock : Timeval × Timeval
  reply : MessageT

namespace Invocation

/-- The `long` between the two readings. -/
def microseconds (i : Invocation) : Int :=
  (i.clock.2.sec - i.clock.1.sec) * 1000000 + (i.clock.2.usec - i.clock.1.usec)

def Counted (i : Invocation) : Prop := Answered i.message i.reply

instance : DecidablePred Counted := fun _ => inferInstanceAs (Decidable (Answered _ _))

end Invocation

/-- The server with its threads `κ`, and what is behind the handle of its successor. -/
structure Service (κ W : Type) : Type 1 where
  server : Server
  next : W
  client : κ → ClientThread W
  /-- The calls of `invoke` so far. -/
  invoked : List Invocation

variable {κ : Type} [DecidableEq κ]

namespace Service

/-- Thread `k` goes on. -/
def toClient (s : Service κ W) (k : κ) (t : ClientThread W) : Service κ W :=
  { s with client := Function.update s.client k t }

omit [DecidableEq κ] in
def withStats (s : Service κ W) (stats : StatisticsT) : Service κ W :=
  { s with server := { s.server with stats := stats } }

/-- One step of a thread, or of the successor. -/
inductive Step : Service κ W → Service κ W → Prop
  | connect {s : Service κ W} {k : κ} : s.client k = .unborn →
      Step s ((s.withStats (updateClientsConnect s.server.stats)).toClient k .receiving)
  | goOn {s : Service κ W} {k : κ} {t : ClientThread W} : (s.client k).Goes t →
      Step s (s.toClient k t)
  | invoke {s : Service κ W} {k : κ} {message : MessageT} {clock : Timeval × Timeval}
      {rest rest' : SC W (Int × MessageT)} {server : Server} {next : W} :
      s.client k = .invoking message clock rest →
      Code.Goes (rest, (s.server, s.next)) (rest', (server, next)) →
      Step s { s.toClient k (.invoking message clock rest') with server := server, next := next }
  | returned {s : Service κ W} {k : κ} {message reply : MessageT} {clock : Timeval × Timeval}
      {rc : Int} : s.client k = .invoking message clock (.ret (rc, reply)) →
      Step s { s.toClient k (if rc = -1 then .leaving else .sending) with
        invoked := s.invoked ++ [⟨message, clock, reply⟩] }
  | disconnect {s : Service κ W} {k : κ} : s.client k = .leaving →
      Step s ((s.withStats (updateClientsDisconnect s.server.stats)).toClient k .finished)
  | successor {s : Service κ W} {next : W} : Step s { s with next := next }

/-- The requests that count. -/
def operations (s : Service κ W) : List Invocation := s.invoked.filter fun i => i.Counted

end Service

/-- All runs, from the start of `network_main_loop`: with any table, and no thread yet. -/
def service (κ W : Type) [DecidableEq κ] : Transition.System (Service κ W) where
  init s := ∃ table next, s = ⟨⟨table, 0, 0, statsCreate⟩, next, fun _ => .unborn, []⟩
  step := Service.Step

/-! ## What the counters are -/

/-- The counters of operations hold a number and a sum of intervals, as far as they can. -/
def Records (stats : StatisticsT) (x : Int × Int) : Prop :=
  stats.nOperations = Int32.ofInt x.1 ∧ stats.totalTime = Int64.ofInt x.2

theorem Records.update {stats : StatisticsT} {x : Int × Int} (h : Records stats x) (time : Int) :
    Records (updateOperations stats time) (x + (1, time)) := by
  obtain ⟨hcount, htime⟩ := h
  unfold Records updateOperations
  rw [Prod.fst_add, Prod.snd_add, Int32.ofInt_add, Int64.ofInt_add, ← hcount, ← htime]
  exact ⟨rfl, rfl⟩

/-- What `update_operations` adds for a call. -/
def Invocation.amount (i : Invocation) : Int × Int :=
  if i.Counted then (1, interval i.clock.1 i.clock.2) else 0

namespace ClientThread

/-- What a thread has added for a call that has not returned yet. -/
def Adds : ClientThread W → Int × Int → Prop
  | invoking message clock rest, x => ∃ paid, CountsOnce clock message paid rest ∧
      x = if paid then (1, interval clock.1 clock.2) else 0
  | _, x => x = 0

/-- Where a call begins, as everywhere outside `invoke`, nothing has been added. -/
theorem Goes.adds {t t' : ClientThread W} (h : t.Goes t') {x : Int × Int} (hx : t.Adds x) :
    t'.Adds x := by
  cases h with
  | receive next clock message => exact ⟨false, counts_invoke next clock, hx⟩
  | receiveFails => exact hx
  | send => exact hx
  | sendFails => exact hx

theorem Goes.connected {t t' : ClientThread W} (h : t.Goes t') : t.Connected ∧ t'.Connected := by
  cases h
  all_goals exact ⟨trivial, trivial⟩

/-- One step of a call: whatever it adds, the counters of operations go along, and `n_clients`
stays. -/
theorem Adds.goes {message : MessageT} {clock : Timeval × Timeval}
    {rest rest' : SC W (Int × MessageT)} {server server' : Server} {next next' : W}
    {x : Int × Int} (h : (invoking message clock rest).Adds x)
    (hgoes : Code.Goes (rest, (server, next)) (rest', (server', next'))) :
    ∃ d, (invoking message clock rest').Adds (x + d) ∧
      server'.stats.nClients = server.stats.nClients ∧
      ∀ total, Records server.stats total → Records server'.stats (total + d) := by
  obtain ⟨paid, hcounts, hpaid⟩ := h
  rcases hcounts.goes hgoes with ⟨hcounts', hstats⟩ | ⟨rfl, hcounts', hstats⟩
  · have hsame : server'.stats = server.stats := hstats
    rw [hsame]
    exact ⟨0, ⟨paid, hcounts', by rw [add_zero, hpaid]⟩, rfl, fun total h => by rwa [add_zero]⟩
  · have hupdate : server'.stats
        = updateOperations server.stats (interval clock.1 clock.2) := hstats
    rw [if_neg Bool.false_ne_true] at hpaid
    rw [hupdate]
    exact ⟨(1, interval clock.1 clock.2), ⟨true, hcounts', by rw [hpaid, zero_add]; rfl⟩, rfl,
      fun total h => h.update _⟩

/-- When a call returns, what was added is what its answer says. -/
theorem Adds.returned {message reply : MessageT} {clock : Timeval × Timeval} {rc : Int}
    {x : Int × Int} (h : (invoking (W := W) message clock (.ret (rc, reply))).Adds x) :
    x = (Invocation.mk message clock reply).amount := by
  obtain ⟨paid, hcounts, rfl⟩ := h
  have hanswered : Answered message reply ↔ paid = true := hcounts.of_ret
  unfold Invocation.amount Invocation.Counted
  simp only [hanswered]

end ClientThread

/-- As many threads as `n` are connected. -/
def Clients (client : κ → ClientThread W) (n : Int) : Prop :=
  Tally (fun t x => x = if t.Connected then 1 else 0) client n

section Clients

variable {client : κ → ClientThread W} {n : Int} (h : Clients client n) {k : κ}
  {t : ClientThread W}

include h

theorem Clients.same (ht : t.Connected ↔ (client k).Connected) :
    Clients (Function.update client k t) n := by
  refine h.update_same fun y hy => ?_
  rw [hy]
  simp only [ht]

theorem Clients.connect (hk : ¬ (client k).Connected) (ht : t.Connected) :
    Clients (Function.update client k t) (n + 1) := by
  obtain ⟨y, hy, hmove⟩ := h.update k
  rw [if_neg hk] at hy
  have hone := hmove t 1 (if_pos ht).symm
  rwa [hy, sub_zero] at hone

theorem Clients.disconnect (hk : (client k).Connected) (ht : ¬ t.Connected) :
    Clients (Function.update client k t) (n - 1) := by
  obtain ⟨y, hy, hmove⟩ := h.update k
  rw [if_pos hk] at hy
  have hzero := hmove t 0 (if_neg ht).symm
  rwa [hy, add_zero] at hzero

end Clients

namespace Service

variable {s s' : Service κ W}

/-- What the calls that returned, and those that have not, add up to. -/
structure Accounted (s : Service κ W) : Prop where
  clients : ∃ n, Clients s.client n ∧ s.server.stats.nClients = Int32.ofInt n
  operations : ∃ x, Tally ClientThread.Adds s.client x ∧
    Records s.server.stats ((s.invoked.map Invocation.amount).sum + x)

theorem Accounted.step (h : s.Accounted) (hs : Step s s') : s'.Accounted := by
  obtain ⟨⟨n, hclients, hn⟩, x, hadds, hx⟩ := h
  cases hs with
  | @connect k hk =>
    refine ⟨⟨n + 1, hclients.connect (by rw [hk]; exact id) trivial, ?_⟩, x, ?_, hx⟩
    · show s.server.stats.nClients + 1 = _
      rw [hn, Int32.ofInt_add]
      rfl
    · refine hadds.update_same fun y hy => ?_
      rw [hk] at hy
      exact hy
  | @goOn k t hgoes =>
    obtain ⟨hconnected, hconnected'⟩ := hgoes.connected
    exact ⟨⟨n, hclients.same (iff_of_true hconnected' hconnected), hn⟩, x,
      hadds.update_same fun y hy => hgoes.adds hy, hx⟩
  | @invoke k message clock rest rest' server next hk hgoes =>
    obtain ⟨y, hy, hmove⟩ := hadds.update k
    rw [hk] at hy
    obtain ⟨d, hadds', hsame, hrecords⟩ := hy.goes hgoes
    refine ⟨⟨n, ?_, hsame.trans hn⟩, x + d, ?_, ?_⟩
    · refine hclients.same ?_
      rw [hk]
      exact Iff.rfl
    · have hmoved := hmove (.invoking message clock rest') (y + d) hadds'
      rwa [← add_assoc, sub_add_cancel] at hmoved
    · rw [← add_assoc]
      exact hrecords _ hx
  | @returned k message reply clock rc hk =>
    obtain ⟨y, hy, hmove⟩ := hadds.update k
    rw [hk] at hy
    have hamount := hy.returned
    refine ⟨⟨n, ?_, hn⟩, x - y, ?_, ?_⟩
    · refine hclients.same ?_
      rw [hk]
      split
      next => exact Iff.rfl
      next => exact Iff.rfl
    · have hmoved := hmove (if rc = -1 then .leaving else .sending) 0 (by split <;> rfl)
      rwa [add_zero] at hmoved
    · rw [List.map_append, List.sum_append, List.map_singleton, List.sum_singleton, ← hamount,
        add_assoc, add_sub_cancel]
      exact hx
  | @disconnect k hk =>
    refine ⟨⟨n - 1, hclients.disconnect (by rw [hk]; trivial) id, ?_⟩, x, ?_, hx⟩
    · show s.server.stats.nClients - 1 = _
      rw [hn, Int32.ofInt_sub]
      rfl
    · refine hadds.update_same fun y hy => ?_
      rw [hk] at hy
      exact hy
  | successor => exact ⟨⟨n, hclients, hn⟩, x, hadds, hx⟩

theorem accounted_of_reachable (h : (service κ W).Reachable s) : s.Accounted := by
  refine h.invariant ?_ fun s s' h hs => h.step hs
  rintro s ⟨table, next, rfl⟩
  exact ⟨⟨0, Tally.zero fun _ => rfl, rfl⟩, 0, Tally.zero fun _ => rfl, rfl, rfl⟩

theorem sum_amount (l : List Invocation) : (l.map Invocation.amount).sum
    = (((l.filter fun i => i.Counted).length : Int),
      ((l.filter fun i => i.Counted).map fun i => interval i.clock.1 i.clock.2).sum) := by
  induction l with
  | nil => rfl
  | cons i l ih =>
    rw [List.map_cons, List.sum_cons, ih, Invocation.amount, List.filter_cons]
    by_cases hcounted : i.Counted
    · rw [if_pos hcounted, if_pos (decide_eq_true hcounted), List.map_cons, List.sum_cons,
        List.length_cons, Prod.mk_add_mk]
      push_cast
      rw [Int.add_comm 1]
    · rw [if_neg hcounted, if_neg (by simpa using hcounted), zero_add]

omit [DecidableEq κ] in
/-- While nobody is in `invoke`, the counters of operations are those of the calls. -/
theorem Accounted.records (h : s.Accounted) (hidle : ∀ k, ¬ (s.client k).InInvoke) :
    Records s.server.stats (s.operations.length,
      (s.operations.map fun i => interval i.clock.1 i.clock.2).sum) := by
  obtain ⟨x, hadds, hx⟩ := h.operations
  have hzero : x = 0 := by
    refine hadds.eq_zero fun k y hy => ?_
    have hk := hidle k
    cases hclient : s.client k with
    | invoking message clock rest =>
      rw [hclient] at hk
      exact absurd trivial hk
    | _ =>
      rw [hclient] at hy
      exact hy
  rw [hzero, add_zero, sum_amount] at hx
  exact hx

/-- The statistics tell what happened. -/
structure Accounts (s : Service κ W) : Prop where
  finite : {k | (s.client k).Connected}.Finite
  clients : s.server.stats.nClients.toInt = {k | (s.client k).Connected}.ncard
  operations : s.server.stats.nOperations.toInt = s.operations.length
  time : s.server.stats.totalTime.toInt = (s.operations.map Invocation.microseconds).sum

/-- Every interval that counts, and the number of clients, are in the range of an `int`. -/
structure Fits (s : Service κ W) : Prop where
  intervals : ∀ i ∈ s.operations, -2 ^ 31 ≤ i.microseconds ∧ i.microseconds < 2 ^ 31
  clients : {k | (s.client k).Connected}.ncard < 2 ^ 31

end Service

/-- An interval in the range of an `int` arrives as it is. -/
theorem interval_eq {i : Invocation} (h : -2 ^ 31 ≤ i.microseconds ∧ i.microseconds < 2 ^ 31) :
    interval i.clock.1 i.clock.2 = i.microseconds := by
  show cint i.microseconds = _
  unfold cint
  rw [Int.bmod_def]
  omega

theorem interval_range (clock : Timeval × Timeval) :
    -2 ^ 31 ≤ interval clock.1 clock.2 ∧ interval clock.1 clock.2 < 2 ^ 31 := by
  unfold interval cint
  rw [Int.bmod_def]
  omega

/-- One that takes too long arrives as a smaller one. -/
theorem interval_lt {i : Invocation} (h : 2 ^ 31 ≤ i.microseconds) :
    interval i.clock.1 i.clock.2 < i.microseconds :=
  (interval_range i.clock).2.trans_le h

/-- The sum of fewer than 2^31 of them is in the range of a `long`. -/
theorem toInt_sum_interval {l : List Invocation} (h : l.length < 2 ^ 31) :
    (Int64.ofInt (l.map fun i => interval i.clock.1 i.clock.2).sum).toInt
      = (l.map fun i => interval i.clock.1 i.clock.2).sum := by
  have hlower := List.card_nsmul_le_sum (l.map fun i => interval i.clock.1 i.clock.2) (-2 ^ 31)
    (List.forall_mem_map.mpr fun i _ => (interval_range i.clock).1)
  have hupper := List.sum_le_card_nsmul (l.map fun i => interval i.clock.1 i.clock.2) (2 ^ 31)
    (List.forall_mem_map.mpr fun i _ => (interval_range i.clock).2.le)
  rw [List.length_map, nsmul_eq_mul] at hlower hupper
  exact Int64.toInt_ofInt_of_le (by omega) (by omega)

/-- **The statistics account for every run.** In every reachable state with nobody in `invoke`
and fewer than 2^31 operations they tell what happened, if every interval that counts fits an
`int` and the number of clients does; and only then, unless the clock was set back. -/
theorem statistics_account {s : Service κ W} (h : (service κ W).Reachable s)
    (hidle : ∀ k, ¬ (s.client k).InInvoke) (hoperations : s.operations.length < 2 ^ 31) :
    (s.Fits → s.Accounts) ∧
      ((∀ i ∈ s.operations, 0 ≤ i.microseconds) → s.Accounts → s.Fits) := by
  have haccounted := Service.accounted_of_reachable h
  obtain ⟨hcount, htime⟩ := haccounted.records hidle
  obtain ⟨n, hn, hclients⟩ := haccounted.clients
  obtain ⟨hfinite, hncard⟩ := tally_ncard hn
  constructor
  · intro hfits
    constructor
    case finite => exact hfinite
    case clients =>
      have hroom := hfits.clients
      rw [hclients, hncard, Int32.toInt_ofInt_of_le (by omega) (by omega)]
    case operations => rw [hcount, Int32.toInt_ofInt_of_le (by omega) (by omega)]
    case time =>
      rw [htime, toInt_sum_interval hoperations]
      exact congrArg List.sum (List.map_congr_left fun i hi => interval_eq (hfits.intervals i hi))
  · intro hclock haccounts
    constructor
    case intervals =>
      intro i hi
      refine ⟨(hclock i hi).trans' (by omega), ?_⟩
      by_contra hlong
      have hsum := haccounts.time
      rw [htime, toInt_sum_interval hoperations] at hsum
      have hle : ∀ i ∈ s.operations, interval i.clock.1 i.clock.2 ≤ i.microseconds := by
        intro i hi
        rcases lt_or_ge i.microseconds (2 ^ 31) with hshort | hlong
        · exact (interval_eq ⟨(hclock i hi).trans' (by omega), hshort⟩).le
        · exact (interval_lt hlong).le
      have hlt := List.sum_lt_sum _ _ hle ⟨i, hi, interval_lt (not_lt.mp hlong)⟩
      exact absurd hsum hlt.ne
    case clients =>
      have hlt := s.server.stats.nClients.toInt_lt
      rw [haccounts.clients] at hlt
      exact_mod_cast hlt

/-- One client asks for the size, and nothing else happens. -/
theorem reachable_size (clock : Timeval × Timeval) : ∃ s : Service Unit Unit,
    (service Unit Unit).Reachable s ∧ (∀ k, ¬ (s.client k).InInvoke) ∧
      (∃ reply, s.operations = [⟨bareMessage OP_SIZE, clock, reply⟩]) ∧
      s.server.stats
        = updateOperations (updateClientsConnect statsCreate) (interval clock.1 clock.2) := by
  have hstart : (service Unit Unit).Reachable ⟨emptyServer, (), fun _ => .unborn, []⟩ :=
    .init ⟨_, _, rfl⟩
  have hconnected := hstart.step (.connect (k := ()) rfl)
  have hreceived := hconnected.step (.goOn (k := ())
    (ClientThread.Goes.receive none clock (bareMessage OP_SIZE)))
  have hreading := hreceived.step (.invoke (k := ()) rfl
    (.step allocated (lt_irrefl (0 : Int)) sm_startRead))
  have hlooked := hreading.step (.invoke (k := ()) rfl (.step allocated trivial state_get))
  have hread := hlooked.step (.invoke (k := ()) rfl (.step allocated trivial sm_endRead))
  have hrecorded := hread.step (.invoke (k := ()) rfl
    (.step allocated trivial (sm_recordOperation clock)))
  have hreturned := hrecorded.step (.returned (k := ()) rfl)
  have hmeasured : OP_SIZE ∈ measuredOpcodes := by decide
  exact ⟨_, hreturned, fun _ => id,
    ⟨_, List.filter_cons_of_pos (decide_eq_true ⟨hmeasured, rfl⟩)⟩, rfl⟩

/-- The PUT of one client takes a second and a half, the SIZE of another one waits for it and takes
two; then this one leaves. -/
theorem reachable_putSize : ∃ s : Service (Fin 2) Unit,
    (service (Fin 2) Unit).Reachable s ∧ (∀ k, ¬ (s.client k).InInvoke) ∧
      s.operations.map Invocation.microseconds = [1500000, 2000000] := by
  have h0 : (service (Fin 2) Unit).Reachable ⟨emptyServer, (), fun _ => .unborn, []⟩ :=
    .init ⟨_, _, rfl⟩
  have h1 := h0.step (.connect (k := 0) rfl)
  have h2 := h1.step (.connect (k := 1) rfl)
  -- the first one, up to the table
  have h3 := h2.step (.goOn (k := 0)
    (ClientThread.Goes.receive none (⟨0, 0⟩, ⟨1, 500000⟩) (putMessage keyA [1])))
  have h4 := h3.step (.invoke (k := 0) rfl
    (.step allocated (show MayWrite _ by unfold MayWrite; decide) sm_startWrite))
  have h5 := h4.step (.goOn (k := 1)
    (ClientThread.Goes.receive none (⟨0, 0⟩, ⟨2, 0⟩) (bareMessage OP_SIZE)))
  have h6 := h5.step (.invoke (k := 0) rfl (.step allocated trivial rfl))
  have h7 := h6.step (.invoke (k := 0) rfl (.step allocated trivial rfl))
  have h8 := h7.step (.invoke (k := 0) rfl (.step allocated trivial rfl))
  have h9 := h8.step (.invoke (k := 0) rfl (.step allocated trivial rfl))
  have h10 := h9.step (.invoke (k := 0) rfl (.step allocated trivial rfl))
  have h11 := h10.step (.invoke (k := 0) rfl (.step allocated trivial rfl))
  -- the writer is out, so the second one reads; both go on side by side
  have h12 := h11.step (.invoke (k := 1) rfl
    (.step allocated (show MayRead _ by unfold MayRead; decide) sm_startRead))
  have h13 := h12.step (.invoke (k := 1) rfl (.step allocated trivial state_get))
  have h14 := h13.step (.invoke (k := 1) rfl (.step allocated trivial sm_endRead))
  have h15 := h14.step (.invoke (k := 0) rfl
    (.step allocated trivial (sm_recordOperation (⟨0, 0⟩, ⟨1, 500000⟩))))
  have h16 := h15.step (.invoke (k := 1) rfl
    (.step allocated trivial (sm_recordOperation (⟨0, 0⟩, ⟨2, 0⟩))))
  have h17 := h16.step (.returned (k := 0) rfl)
  have h18 := h17.step (.returned (k := 1) rfl)
  have h19 := h18.step (.goOn (k := 1) .send)
  have h20 := h19.step (.goOn (k := 1) .receiveFails)
  have h21 := h20.step (.disconnect (k := 1) rfl)
  refine ⟨_, h21, fun k => ?_, rfl⟩
  match k with
  | 0 => exact id
  | 1 => exact id

theorem statistics_account_putSize : ∃ s : Service (Fin 2) Unit,
    (service (Fin 2) Unit).Reachable s ∧ s.operations.length = 2 ∧
    s.server.stats.totalTime.toInt = 3500000 ∧ s.Accounts := by
  obtain ⟨s, hs, hidle, htimes⟩ := reachable_putSize
  have htwo : s.operations.length = 2 := by
    rw [← List.length_map Invocation.microseconds, htimes]
    rfl
  have hfits : s.Fits := by
    refine ⟨fun i hi => ?_, ?_⟩
    · have hmem := List.mem_map_of_mem (f := Invocation.microseconds) hi
      rw [htimes, List.mem_cons, List.mem_singleton] at hmem
      omega
    · refine (Set.ncard_le_ncard (Set.subset_univ _)).trans_lt ?_
      rw [Set.ncard_univ, Nat.card_fin]
      decide
  have haccounts := (statistics_account hs hidle (by omega)).1 hfits
  refine ⟨s, hs, htwo, ?_, haccounts⟩
  rw [haccounts.time, htimes]
  rfl

/-- A request that took 2148 seconds: the sum has become negative. -/
theorem totalTime_negative : ∃ s : Service Unit Unit, (service Unit Unit).Reachable s ∧
    (∀ k, ¬ (s.client k).InInvoke) ∧ s.operations.length = 1 ∧
    (s.operations.map Invocation.microseconds).sum = 2148000000 ∧
    s.server.stats.totalTime.toInt = -2146967296 ∧ ¬ s.Accounts := by
  obtain ⟨s, hs, hidle, ⟨reply, hoperations⟩, hstats⟩ := reachable_size (⟨0, 0⟩, ⟨2148, 0⟩)
  have hsum : (s.operations.map Invocation.microseconds).sum = 2148000000 := by
    rw [hoperations]
    rfl
  have htime : s.server.stats.totalTime.toInt = -2146967296 := by
    rw [hstats]
    decide
  refine ⟨s, hs, hidle, by rw [hoperations]; rfl, hsum, htime, fun haccounts => ?_⟩
  have hequal := haccounts.time
  rw [hsum, htime] at hequal
  omega

end KvStorage
