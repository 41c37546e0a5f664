import KvStorage.Membership.Handlers
import KvStorage.Membership.OneChain

/-!
# The client's handles

`set_head_tail` after each list of children. Whether an old handle is kept is up to
`alt_check`, which is asked about the greatest child for the head, while the head is then
connected to the least one, and the other way round for the tail. It never keeps one: the
address it puts together from a handle has no colon, and the address of every server has
(`follows_head_and_tail`).

That holds for ports of at most seven digits. `alt_check` writes the port into `char porto[8]`,
and `rtable_connect` takes any port an `int` holds, so a client whose servers store a longer
number stops at its second list (`wide_port_overruns`).

One call asks `get_node_data` at most four times, for each end once in `alt_check` and once
in `connect_node`; a child may disappear in between.
-/

namespace KvStorage

open CLib

/-- The two handles of a client. -/
inductive End
  | head
  | tail

/-- What ZooKeeper and the network answer during one call of `set_head_tail`. -/
structure Outcomes where
  /-- What is stored under a child. -/
  data : CStr → CStr
  /-- Whether `get_node_data` finds the child, in `alt_check` and in `connect_node`. -/
  checked : End → Bool
  fetched : End → Bool
  /-- Whether `rtable_connect` gets its memory and its connection. -/
  reached : End → Bool

namespace Outcomes

variable (env : Outcomes)

/-- `get_node_data`. -/
def getNodeData (found : Bool) (node : CStr) : Option CStr :=
  if found then some (env.data node) else none

/-- `connect_node`. -/
def connectNode (e : End) (node : Option CStr) : StateT Links CM (Option Rtable) := do
  let node ← deref node
  Links.connect (env.getNodeData (env.fetched e) node) (env.reached e)

/-- `alt_check`: 1 where there was no handle, or the handle was disconnected. -/
def altCheck (e : End) (rtable : Option Rtable) (node : CStr) : StateT Links CM Int :=
  match rtable with
  | none => pure 1
  | some r => do
    let oldData ← oldData r
    let novoData ← deref (env.getNodeData (env.checked e) node)
    if strcmpBytes novoData.bytes oldData = 0 then pure 0
    else
      Links.rtableDisconnect r
      pure 1

/-- One of the two halves of `set_head_tail`. -/
def follow (e : End) (rtable : Option Rtable) (compared node : CStr) :
    StateT Links CM (Option Rtable) := do
  if (← env.altCheck e rtable compared) = 1 then
    let path ← strdup (some node)
    env.connectNode e path
  else pure rtable

/-- `set_head_tail`: its result, and the two handles it leaves. -/
def setHeadTail (childrenList : List CStr) (head tail : Option Rtable) :
    StateT Links CM (Int × Option Rtable × Option Rtable) := do
  let ends ← KvStorage.setHeadTail childrenList
  let (min, max) := (ends.head, ends.tail)
  let head ← env.follow .head head max min
  let tail ← env.follow .tail tail min max
  if head = none ∨ tail = none then pure (-1, head, tail) else pure (0, head, tail)

/-! ## One handle -/

variable {env} {e : End} {compared node : CStr} {r : Rtable} {l : Links}

/-- The handle `connect_node` makes. -/
def made (env : Outcomes) (e : End) (node : CStr) (l : Links) : Option Rtable :=
  rtableConnect l.calls (env.getNodeData (env.fetched e) node) (env.reached e)

theorem connectNode_run :
    env.connectNode e (some node) l allocated
      = .ok ((env.made e node l, l.next), allocated) := rfl

theorem altCheck_run (hr : l.Holds r) : env.altCheck e (some r) node l allocated
    = if r.serverPort < portLimit then
        if env.checked e then
          .ok (if compareData (env.data node) r = 0 then (0, l) else (1, l.close r), allocated)
        else .error .nullDeref
      else .error .outOfBounds := by
  have hold := oldData_run hr
  unfold altCheck
  dsimp only
  by_cases hroom : r.serverPort < portLimit
  · rw [if_pos hroom] at hold ⊢
    rw [state_bind_ok (state_lift_ok hold)]
    cases hfound : env.checked e with
    | false => rfl
    | true =>
      have hderef : deref (env.getNodeData true node) allocated
          = .ok (env.data node, allocated) := rfl
      unfold compareData
      rw [state_bind_ok (state_lift_ok hderef), if_pos rfl]
      split
      next => rfl
      next => rfl
  · rw [if_neg hroom] at hold ⊢
    rw [state_bind, state_lift, hold]
    rfl

theorem follow_none :
    env.follow e none compared node l allocated = .ok ((env.made e node l, l.next), allocated) :=
  rfl

/-- The old handle is kept where `strcmp` finds no difference, else closed and replaced. -/
theorem follow_some (hr : l.Holds r) : env.follow e (some r) compared node l allocated
    = if r.serverPort < portLimit then
        if env.checked e then
          .ok (if compareData (env.data compared) r = 0 then (some r, l)
            else (env.made e node l, (l.close r).next), allocated)
        else .error .nullDeref
      else .error .outOfBounds := by
  unfold follow
  rw [state_bind, altCheck_run hr]
  split
  next =>
    cases env.checked e with
    | false => rfl
    | true =>
      rw [if_pos rfl, if_pos rfl, ok_bind]
      split
      next => rfl
      next =>
        dsimp only
        rw [if_pos rfl, state_bind_ok (state_lift_ok (strdup_allocated node))]
        exact connectNode_run
  next => rfl

/-- Handles that are NULL or open, and not one and the same. -/
structure Pair (l : Links) (h other : Option Rtable) : Prop where
  sound : l.Sound
  mine : ∀ r, h = some r → l.Holds r
  theirs : ∀ r, other = some r → l.Holds r
  apart : ∀ r r', h = some r → other = some r' → r.id ≠ r'.id

theorem Pair.swap {h other : Option Rtable} (hp : Pair l h other) : Pair l other h :=
  ⟨hp.sound, hp.theirs, hp.mine, fun r r' hr hr' => (hp.apart r' r hr' hr).symm⟩

theorem Pair.made {h other : Option Rtable} (hp : Pair l h other) (data : Option CStr)
    (reached : Bool) : Pair l.next (rtableConnect l.calls data reached) other where
  sound := hp.sound.next
  mine r hr := (hp.sound.on_connect data reached r hr).1
  theirs r hr :=
    have hold := hp.theirs r hr
    ⟨Nat.lt_succ_of_lt hold.made, hold.kept, hold.built⟩
  apart r r' hr hr' := by
    obtain ⟨hid, -⟩ := rtableConnect_reached hr
    have hlt := (hp.theirs r' hr').made
    omega

theorem Pair.close {other : Option Rtable} (hp : Pair l (some r) other) :
    Pair (l.close r) none other where
  sound := hp.sound.close (hp.mine r rfl).made
  mine := nofun
  theirs r' hr' := by
    have hold := hp.theirs r' hr'
    refine ⟨hold.made, fun hmem => ?_, hold.built⟩
    rcases List.mem_cons.mp hmem with heq | hmem
    · exact hp.apart r r' rfl hr' heq.symm
    · exact hold.kept hmem
  apart := nofun

/-- Where it returns, the handle is the old one, or a new one and the old one is closed. -/
theorem follow_cases {h other : Option Rtable} {x : Option Rtable × Links} {al : Allocs}
    (hp : Pair l h other) (hrun : env.follow e h compared node l allocated = .ok (x, al)) :
    al = allocated ∧ (x = (h, l) ∨ x = (env.made e node l, (h.elim l l.close).next)) := by
  cases h with
  | none =>
    rw [follow_none] at hrun
    cases hrun
    exact ⟨rfl, Or.inr rfl⟩
  | some r =>
    rw [follow_some (hp.mine r rfl)] at hrun
    split at hrun
    next =>
      split at hrun
      next =>
        cases hrun
        split
        next => exact ⟨rfl, Or.inl rfl⟩
        next => exact ⟨rfl, Or.inr rfl⟩
      next => cases hrun
    next => cases hrun

/-- Following one end leaves the other handle alone. -/
theorem Pair.follow {h h' other : Option Rtable} {l' : Links} {al : Allocs} (hp : Pair l h other)
    (hrun : env.follow e h compared node l allocated = .ok ((h', l'), al)) : Pair l' h' other := by
  obtain ⟨-, heq | heq⟩ := follow_cases hp hrun
  · cases heq
    exact hp
  · cases heq
    cases h with
    | none => exact hp.made _ _
    | some r => exact hp.close.made _ _

/-- An address is never the string that is put together from a handle. -/
theorem compareData_address {data : CStr} {host port : List Byte} (h : HostPort data host port)
    (hr : l.Holds r) : compareData data r ≠ 0 := by
  rw [Ne, compareData_eq_zero hr]
  exact ne_of_connected hr ((h.connect l.calls true).trans (if_pos rfl))

/-- The handle is NULL after a failed connection, or on the address stored in `data`. -/
structure Stands (data : CStr) (reached : Bool) (h : Option Rtable) : Prop where
  null_iff : h = none ↔ reached = false
  address : ∀ r, h = some r → ∃ port, HostPort data localhost port ∧
    r.serverAddress = localhost ∧ r.serverPort = digitsValue port

/-- `porto` has room for the port of the handle, if there is one. -/
def Roomy (h : Option Rtable) : Prop := ∀ r, h = some r → r.serverPort < portLimit

theorem Stands.roomy {data : CStr} {reached : Bool} {h : Option Rtable}
    (hs : Stands data reached h) : Roomy h := by
  intro r hr
  obtain ⟨port, hport, -, heq⟩ := hs.address r hr
  rw [heq]
  exact hport.room

theorem made_stands {port : List Byte} (h : HostPort (env.data node) localhost port)
    (hfetched : env.fetched e = true) (l : Links) :
    Stands (env.data node) (env.reached e) (env.made e node l) := by
  have hmade : env.made e node l
      = if env.reached e then some ⟨l.calls, localhost, digitsValue port⟩ else none := by
    unfold made getNodeData
    rw [hfetched, if_pos rfl, h.connect]
  rw [hmade]
  cases env.reached e with
  | false => exact ⟨by simp, nofun⟩
  | true =>
    refine ⟨by simp, fun r hr => ?_⟩
    rw [if_pos rfl, Option.some.injEq] at hr
    subst hr
    exact ⟨port, h, rfl, rfl⟩

/-- Where children are found and hold addresses, an end is connected anew every time. -/
theorem follow_stands {h : Option Rtable} {port port' : List Byte}
    (hold : ∀ r, h = some r → l.Holds r) (hroom : Roomy h)
    (hcompared : HostPort (env.data compared) localhost port)
    (hnode : HostPort (env.data node) localhost port') (hchecked : env.checked e = true)
    (hfetched : env.fetched e = true) :
    ∃ h' l', env.follow e h compared node l allocated = .ok ((h', l'), allocated) ∧
      Stands (env.data node) (env.reached e) h' := by
  cases h with
  | none => exact ⟨_, _, follow_none, made_stands hnode hfetched l⟩
  | some r =>
    have hrun : env.follow e (some r) compared node l allocated = _ := follow_some (hold r rfl)
    rw [if_pos (hroom r rfl), if_pos hchecked,
      if_neg (compareData_address hcompared (hold r rfl))] at hrun
    exact ⟨_, _, hrun, made_stands hnode hfetched l⟩

/-! ## Both handles -/

/-- `set_head_tail` on a list with these ends. -/
theorem setHeadTail_eq {childrenList : List CStr} {ends : HeadTail} {head tail : Option Rtable}
    (hends : KvStorage.setHeadTail childrenList allocated = .ok (ends, allocated)) :
    env.setHeadTail childrenList head tail l allocated
      = (env.follow .head head ends.tail ends.head l allocated).bind fun x =>
          (env.follow .tail tail ends.head ends.tail x.1.2 x.2).bind fun y =>
            .ok (((if x.1.1 = none ∨ y.1.1 = none then -1 else 0, x.1.1, y.1.1), y.1.2), y.2) := by
  unfold setHeadTail
  rw [state_bind_ok (state_lift_ok hends)]
  dsimp only
  rw [state_bind]
  cases env.follow .head head ends.tail ends.head l allocated with
  | error f => rfl
  | ok x =>
    dsimp only [Except.bind]
    rw [state_bind]
    cases env.follow .tail tail ends.head ends.tail x.1.2 x.2 with
    | error f => rfl
    | ok y =>
      dsimp only [Except.bind]
      split
      next => rfl
      next => rfl

end Outcomes

/-- The handles of a client, and its calls so far. -/
structure ClientEnds where
  head : Option Rtable
  tail : Option Rtable
  links : Links

/-- A list of children that were all found, with the addresses of servers: `127.0.0.1:` and a
port that `porto` has room for. -/
structure Listed (childrenList : List CStr) (env : Outcomes) : Prop where
  ne_nil : childrenList ≠ []
  checked : ∀ e, env.checked e = true
  fetched : ∀ e, env.fetched e = true
  address : ∀ c ∈ childrenList, ∃ port, HostPort (env.data c) localhost port

/-- The calls of `set_head_tail` in the life of a client. -/
def clientRuns : Transition.System ClientEnds where
  init s := s = ⟨none, none, ⟨0, []⟩⟩
  step s s' := ∃ childrenList env rc, Listed childrenList env ∧
    env.setHeadTail childrenList s.head s.tail s.links allocated
      = .ok (((rc, s'.head, s'.tail), s'.links), allocated)

/-- The head is on the least child of the list, the tail on the greatest one. -/
structure OnEnds (childrenList : List CStr) (env : Outcomes) (rc : Int) (s : ClientEnds) :
    Prop where
  pair : Outcomes.Pair s.links s.head s.tail
  ends : ∃ ends : HeadTail, ends.Ends childrenList ∧
    Outcomes.Stands (env.data ends.head) (env.reached .head) s.head ∧
    Outcomes.Stands (env.data ends.tail) (env.reached .tail) s.tail
  returns : rc = 0 ↔ s.head ≠ none ∧ s.tail ≠ none

/-- What every client keeps: the handles are open or NULL, and can be compared. -/
structure ClientEnds.Ready (s : ClientEnds) : Prop where
  pair : Outcomes.Pair s.links s.head s.tail
  head : Outcomes.Roomy s.head
  tail : Outcomes.Roomy s.tail

theorem OnEnds.ready {childrenList : List CStr} {env : Outcomes} {rc : Int} {s : ClientEnds}
    (h : OnEnds childrenList env rc s) : s.Ready := by
  obtain ⟨ends, -, hhead, htail⟩ := h.ends
  exact ⟨h.pair, hhead.roomy, htail.roomy⟩

theorem setHeadTail_onEnds {s : ClientEnds} (hs : s.Ready) {childrenList : List CStr}
    {env : Outcomes} (hlist : Listed childrenList env) :
    ∃ rc s', env.setHeadTail childrenList s.head s.tail s.links allocated
        = .ok (((rc, s'.head, s'.tail), s'.links), allocated) ∧
      OnEnds childrenList env rc s' := by
  obtain ⟨ends, hselect, hends⟩ := setHeadTail_run hlist.ne_nil allocated
  obtain ⟨minPort, hmin⟩ := hlist.address _ hends.head_mem
  obtain ⟨maxPort, hmax⟩ := hlist.address _ hends.tail_mem
  obtain ⟨head, l₁, hheadRun, hhead⟩ : ∃ h' l', env.follow .head s.head ends.tail ends.head s.links
      allocated = .ok ((h', l'), allocated) ∧ Outcomes.Stands _ _ h' :=
    Outcomes.follow_stands hs.pair.mine hs.head hmax hmin (hlist.checked _) (hlist.fetched _)
  have hp₁ := hs.pair.follow hheadRun
  obtain ⟨tail, l₂, htailRun, htail⟩ : ∃ h' l', env.follow .tail s.tail ends.head ends.tail l₁
      allocated = .ok ((h', l'), allocated) ∧ Outcomes.Stands _ _ h' :=
    Outcomes.follow_stands hp₁.theirs hs.tail hmin hmax (hlist.checked _) (hlist.fetched _)
  have hp₂ := hp₁.swap.follow htailRun
  refine ⟨if head = none ∨ tail = none then -1 else 0, ⟨head, tail, l₂⟩, ?_, hp₂.swap,
    ⟨ends, hends, hhead, htail⟩, ?_⟩
  · rw [Outcomes.setHeadTail_eq hselect, hheadRun]
    dsimp only [Except.bind]
    rw [htailRun]
  · rw [← not_or]
    split
    next hnone => exact iff_of_false (by decide) (not_not_intro hnone)
    next hsome => exact iff_of_true rfl hsome

theorem ready_of_reachable {s : ClientEnds} (hs : clientRuns.Reachable s) : s.Ready := by
  refine hs.invariant (I := ClientEnds.Ready) ?_ ?_
  · rintro s rfl
    exact ⟨⟨nofun, nofun, nofun, nofun⟩, nofun, nofun⟩
  · intro s s' hready ⟨childrenList, env, rc, hlist, hrun⟩
    obtain ⟨rc', s'', hrun', hfollows⟩ := setHeadTail_onEnds hready hlist
    rw [hrun] at hrun'
    cases s'
    cases s''
    cases hrun'
    exact hfollows.ready

/-- **The client follows the head and the tail** through every sequence of lists, whichever
connections fail: after each call both handles are on the ends of the last list, or NULL
where the connection failed, and 0 is returned when neither is. -/
theorem follows_head_and_tail {s : ClientEnds} (hs : clientRuns.Reachable s)
    {childrenList : List CStr} {env : Outcomes} (hlist : Listed childrenList env) :
    ∃ rc s', env.setHeadTail childrenList s.head s.tail s.links allocated
        = .ok (((rc, s'.head, s'.tail), s'.links), allocated) ∧
      OnEnds childrenList env rc s' :=
  setHeadTail_onEnds (ready_of_reachable hs) hlist

/-! ## Two lists -/

theorem digit_lt (k : Nat) : 48 + k % 10 < 256 := by omega

theorem nul_notMem_digitAddress (k : Nat) :
    0 ∉ localhost ++ [colon, (⟨48 + k % 10, digit_lt k⟩ : Byte)] := by
  simp [localhost, colon]

/-- `127.0.0.1:` and a port of one digit. -/
def digitAddress (k : Nat) : CStr :=
  ⟨localhost ++ [colon, ⟨48 + k % 10, digit_lt k⟩], nul_notMem_digitAddress k⟩

theorem hostPort_digitAddress {k : Nat} (hk : 0 < k % 10) :
    HostPort (digitAddress k) localhost [⟨48 + k % 10, digit_lt k⟩] := by
  have hlt : k % 10 < 10 := Nat.mod_lt _ (by decide)
  have hdigits : ∀ b ∈ [(⟨48 + k % 10, digit_lt k⟩ : Byte)], isDigit b := by
    intro b hb
    rw [List.mem_singleton] at hb
    subst hb
    unfold isDigit
    simp only [decide_eq_true_eq]
    omega
  have hvalue : digitsValue [(⟨48 + k % 10, digit_lt k⟩ : Byte)] = k % 10 := by
    rw [digitsValue_of_digits hdigits]
    simp
  refine ⟨rfl, by decide, by decide, by decide, hdigits, ?_, ?_⟩
  · rw [hvalue]
    exact hk
  · rw [hvalue]
    exact lt_trans hlt (by decide)

/-- The server with the least number stores the port 5, every other one the port 6; they are
found and reached. -/
def twoServers : Outcomes where
  data c := if c = digitId 0 then digitAddress 5 else digitAddress 6
  checked _ := true
  fetched _ := true
  reached _ := true

theorem listed_twoServers {childrenList : List CStr} (hne : childrenList ≠ []) :
    Listed childrenList twoServers where
  ne_nil := hne
  checked _ := rfl
  fetched _ := rfl
  address c _ := by
    unfold twoServers
    dsimp only
    split
    next => exact ⟨_, hostPort_digitAddress (by decide)⟩
    next => exact ⟨_, hostPort_digitAddress (by decide)⟩

/-- A client of two servers, after its first list. -/
def twoEnds : ClientEnds := ⟨some ⟨0, localhost, 5⟩, some ⟨1, localhost, 6⟩, ⟨2, []⟩⟩

theorem twoEnds_reachable : clientRuns.Reachable twoEnds := by
  refine (Transition.System.Reachable.init (M := clientRuns) rfl).step
    ⟨[digitId 0, digitId 1], twoServers, 0, listed_twoServers (List.cons_ne_nil _ _), ?_⟩
  rfl

/-- The first server leaves, and the client moves its head to the second one. -/
theorem follows_head_and_tail_moved : ∃ rc s',
    twoServers.setHeadTail [digitId 1] twoEnds.head twoEnds.tail twoEnds.links allocated
        = .ok (((rc, s'.head, s'.tail), s'.links), allocated) ∧
      OnEnds [digitId 1] twoServers rc s' ∧ s'.head = some ⟨2, localhost, 6⟩ := by
  obtain ⟨rc, s', hrun, hends⟩ :=
    follows_head_and_tail twoEnds_reachable (listed_twoServers (List.cons_ne_nil (digitId 1) []))
  refine ⟨rc, s', hrun, hends, ?_⟩
  have hmoved : twoServers.setHeadTail [digitId 1] twoEnds.head twoEnds.tail twoEnds.links allocated
      = .ok (((0, some ⟨2, localhost, 6⟩, some ⟨3, localhost, 6⟩), ⟨4, [1, 0]⟩), allocated) := rfl
  rw [hmoved] at hrun
  cases s'
  cases hrun
  rfl

/-- A server with the port 123456789, which `rtable_connect` takes. -/
def wideServer : Outcomes where
  data _ := ⟨localhost ++ [colon, 49, 50, 51, 52, 53, 54, 55, 56, 57], by decide⟩
  checked _ := true
  fetched _ := true
  reached _ := true

/-- The client connects to it at the first list, and `sprintf` writes past `porto` at the
second one. -/
theorem wide_port_overruns :
    ((wideServer.data (digitId 0)).bytes = localhost ++ colon :: decimal 123456789) ∧
    wideServer.setHeadTail [digitId 0] none none ⟨0, []⟩ allocated
      = .ok (((0, some ⟨0, localhost, 123456789⟩, some ⟨1, localhost, 123456789⟩), ⟨2, []⟩),
          allocated) ∧
    wideServer.setHeadTail [digitId 0] (some ⟨0, localhost, 123456789⟩)
        (some ⟨1, localhost, 123456789⟩) ⟨2, []⟩ allocated = .error .outOfBounds :=
  ⟨by decide, rfl, rfl⟩

end KvStorage
