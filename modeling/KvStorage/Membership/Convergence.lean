import KvStorage.Lib.Watch
import KvStorage.Membership.Events

/-!
# The chain after any number of changes

Servers create their znodes, crash, and lose them some time later; clients start. Every process
has a watch on the children of `/chain`: `main` reads them, leaving the watch, and calls
`set_next_server` or `set_head_tail`; `child_watcher` does the same for every event. In between
anything may happen: a child may be gone when its data is looked up, and a server may be down when
it is connected to. What C leaves undefined ends the process.

`chain_forms`: as soon as the listed servers are up and nobody has anything left to do, the handles
of all processes are one chain again, from the clients' heads through every server to their tails.
`membership_settles`: that far it is a bounded number of steps. Both need `main` to be done with its
own call before the first event comes; `overlap_breaks_chain` is what happens otherwise.

ZooKeeper answers and notifies as it documents, allocations succeed, and a server that is up can be
connected to. A handle knows its server by the address alone, so both results are about servers
that were all started on different ports, and the ports have at most seven digits: a longer one
ends every process that compares a handle on it.
-/

namespace KvStorage.Convergence

open CLib Watch Links Outcomes

/-- Where a process is in its life; a server has a znode from `up` on, until it is `gone`. -/
inductive Status
  | absent
  | up
  | down
  | gone
  deriving DecidableEq

variable {κ : Type} [DecidableEq κ]

/-- Servers, by their node ids, and clients. -/
abbrev Members (κ : Type) := CStr ⊕ κ → Status

/-- The server has a znode. -/
def There (m : Members κ) (c : CStr) : Prop := m (.inl c) = .up ∨ m (.inl c) = .down

/-- A list of the children, in some order. -/
structure Children (m : Members κ) (childrenList : List CStr) : Prop where
  nodup : childrenList.Nodup
  mem_iff : ∀ c, c ∈ childrenList ↔ There m c

/-- What a server keeps: `next_server`, and its calls so far. -/
structure ServerEnd where
  nextServer : Option Rtable
  links : Links

/-- What the processes keep. -/
def Kept (κ : Type) : CStr ⊕ κ → Type
  | .inl _ => ServerEnd
  | .inr _ => ClientEnds

def started : (i : CStr ⊕ κ) → Kept κ i
  | .inl _ => (⟨none, ⟨0, []⟩⟩ : ServerEnd)
  | .inr _ => (⟨none, none, ⟨0, []⟩⟩ : ClientEnds)

variable (address : CStr → CStr)

/-- What `set_next_server` meets: a child that is still there had its data when it was looked up,
and a server that is still up could be connected to. -/
structure ServerMeets (nodeId : CStr) (childrenList : List CStr) (m : Members κ)
    (nodeData : CStr → Option CStr) (reached : Bool) : Prop where
  data : ∀ c d, nodeData c = some d → d = address c
  found : ∀ c, There m c → nodeData c = some (address c)
  reached : ∀ c, successor childrenList nodeId = some c → m (.inl c) = .up → reached = true

/-- What `set_head_tail` meets. -/
structure ClientMeets (childrenList : List CStr) (m : Members κ) (env : Outcomes) : Prop where
  data : env.data = address
  least : ∀ ends : HeadTail, ends.Ends childrenList → There m ends.head →
    env.fetched .head = true ∧ env.checked .tail = true
  greatest : ∀ ends : HeadTail, ends.Ends childrenList → There m ends.tail →
    env.checked .head = true ∧ env.fetched .tail = true
  head : ∀ ends : HeadTail, ends.Ends childrenList → m (.inl ends.head) = .up →
    env.reached .head = true
  tail : ∀ ends : HeadTail, ends.Ends childrenList → m (.inl ends.tail) = .up →
    env.reached .tail = true

/-- Process `i` is down. -/
def fallen (m : Members κ) (i : CStr ⊕ κ) : Members κ := Function.update m i .down

/-- The calls of `set_next_server` and `set_head_tail` for a list, and what they leave. -/
inductive Deals : (i : CStr ⊕ κ) → List CStr → Members κ → Kept κ i → Members κ → Kept κ i → Prop
  | server {nodeId : CStr} {childrenList : List CStr} {m : Members κ} {s s' : ServerEnd}
      {nodeData : CStr → Option CStr} {reached : Bool} {rc : Int} :
      ServerMeets address nodeId childrenList m nodeData reached →
      Handlers.setNextServer nodeId childrenList nodeData reached s.nextServer s.links allocated
        = .ok (((rc, s'.nextServer), s'.links), allocated) →
      Deals (.inl nodeId) childrenList m s m s'
  | serverFaults {nodeId : CStr} {childrenList : List CStr} {m : Members κ} {s : ServerEnd}
      {nodeData : CStr → Option CStr} {reached : Bool} {f : Fault} :
      ServerMeets address nodeId childrenList m nodeData reached →
      Handlers.setNextServer nodeId childrenList nodeData reached s.nextServer s.links allocated
        = .error f →
      Deals (.inl nodeId) childrenList m s (fallen m (.inl nodeId)) s
  | client {c : κ} {childrenList : List CStr} {m : Members κ} {s s' : ClientEnds} {env : Outcomes}
      {rc : Int} : ClientMeets address childrenList m env →
      env.setHeadTail childrenList s.head s.tail s.links allocated
        = .ok (((rc, s'.head, s'.tail), s'.links), allocated) →
      Deals (.inr c) childrenList m s m s'
  | clientFaults {c : κ} {childrenList : List CStr} {m : Members κ} {s : ClientEnds}
      {env : Outcomes} {f : Fault} : ClientMeets address childrenList m env →
      env.setHeadTail childrenList s.head s.tail s.links allocated = .error f →
      Deals (.inr c) childrenList m s (fallen m (.inr c)) s

/-- A process crashes, or a client starts: the children stay as they are. -/
inductive Unnoticed : Members κ → Members κ → Prop
  | crash {m : Members κ} {i : CStr ⊕ κ} : m i = .up → Unnoticed m (fallen m i)
  | start {m : Members κ} {c : κ} : m (.inr c) = .absent →
      Unnoticed m (Function.update m (.inr c) .up)

/-- A server creates its znode, under a name that was never used, or ZooKeeper removes the znode of
a server that is down. -/
inductive Noticed : Members κ → Members κ → Prop
  | join {m : Members κ} {c : CStr} : m (.inl c) = .absent →
      Noticed m (Function.update m (.inl c) .up)
  | expire {m : Members κ} {c : CStr} : m (.inl c) = .down →
      Noticed m (Function.update m (.inl c) .gone)

/-- The processes and their watches. -/
def program : Program (CStr ⊕ κ) (Members κ) (List CStr) (Kept κ) where
  first m := ∀ i, m i = .absent
  up m i := m i = .up
  reads := Children
  calm := Unnoticed
  change := Noticed
  start := started
  deal := Deals address

/-- The handle is open, and on the server with this address. -/
def OnServer (l : Links) (data : CStr) (h : Option Rtable) : Prop :=
  ∃ r, h = some r ∧ l.Holds r ∧ rtableConnect r.id (some data) true = some r

/-- The handle of a server is NULL or open, and can be compared. -/
structure ServerEnd.Ready (s : ServerEnd) : Prop where
  sound : s.links.Sound
  holds : ∀ r, s.nextServer = some r → s.links.Holds r
  roomy : Roomy s.nextServer

/-- The handles are sound. -/
def Inv : (i : CStr ⊕ κ) → Kept κ i → Prop
  | .inl _, (s : ServerEnd) => s.Ready
  | .inr _, (s : ClientEnds) => s.Ready

/-- The handles are those for the children there are, as far as these are up. -/
def Right : (i : CStr ⊕ κ) → Members κ → Kept κ i → Prop
  | .inl nodeId, m, (s : ServerEnd) => ∀ childrenList, Children m childrenList →
      (successor childrenList nodeId = none → s.nextServer = none) ∧
      ∀ y, successor childrenList nodeId = some y → m (.inl y) = .up →
        OnServer s.links (address y) s.nextServer
  | .inr _, m, (s : ClientEnds) => ∀ childrenList, Children m childrenList →
      ∀ ends : HeadTail, ends.Ends childrenList →
        (m (.inl ends.head) = .up → OnServer s.links (address ends.head) s.head) ∧
        (m (.inl ends.tail) = .up → OnServer s.links (address ends.tail) s.tail)

/-! ## The children -/

section Children

omit [DecidableEq κ]

theorem Children.perm {m : Members κ} {l l' : List CStr} (h : Children m l) (h' : Children m l') :
    l.Perm l' :=
  (List.perm_ext_iff_of_nodup h.nodup h'.nodup).mpr fun c => by rw [h.mem_iff, h'.mem_iff]

end Children

theorem there_fallen {m : Members κ} {i : CStr ⊕ κ} (hi : m i = .up) (c : CStr) :
    There (fallen m i) c ↔ There m c := by
  unfold There fallen
  by_cases hc : .inl c = i
  · subst hc
    rw [Function.update_self, hi]
    simp
  · rw [Function.update_of_ne hc]

theorem Unnoticed.there {m m' : Members κ} (h : Unnoticed m m') (c : CStr) :
    There m' c ↔ There m c := by
  cases h with
  | crash hi => exact there_fallen hi c
  | start hc =>
    unfold There
    rw [Function.update_of_ne Sum.inl_ne_inr]

theorem Unnoticed.children {m m' : Members κ} (h : Unnoticed m m') {l : List CStr} :
    Children m' l ↔ Children m l :=
  ⟨fun hl => ⟨hl.nodup, fun c => (hl.mem_iff c).trans (h.there c)⟩,
    fun hl => ⟨hl.nodup, fun c => (hl.mem_iff c).trans (h.there c).symm⟩⟩

theorem up_of_fallen {m : Members κ} {i j : CStr ⊕ κ} (h : fallen m i j = .up) : m j = .up := by
  unfold fallen at h
  by_cases hj : j = i
  · subst hj
    rw [Function.update_self] at h
    cases h
  · rwa [Function.update_of_ne hj] at h

/-- Servers do not come back. -/
theorem Unnoticed.up_server {m m' : Members κ} (h : Unnoticed m m') {c : CStr}
    (hc : m' (.inl c) = .up) : m (.inl c) = .up := by
  cases h with
  | crash hi => exact up_of_fallen hc
  | start _ => rwa [Function.update_of_ne Sum.inl_ne_inr] at hc

variable {address}

theorem right_unnoticed {m m' : Members κ} (h : Unnoticed m m') {i : CStr ⊕ κ} {s : Kept κ i}
    (hs : Right address i m s) : Right address i m' s := by
  cases i with
  | inl nodeId =>
    intro l hl
    obtain ⟨hnone, hsome⟩ := hs l (h.children.mp hl)
    exact ⟨hnone, fun y hy hup => hsome y hy (h.up_server hup)⟩
  | inr c =>
    intro l hl ends hends
    obtain ⟨hhead, htail⟩ := hs l (h.children.mp hl) ends hends
    exact ⟨fun hup => hhead (h.up_server hup), fun hup => htail (h.up_server hup)⟩

omit [DecidableEq κ] in
theorem Children.ends_there {m : Members κ} {l : List CStr} (h : Children m l) {ends : HeadTail}
    (hends : ends.Ends l) : There m ends.head ∧ There m ends.tail :=
  ⟨(h.mem_iff _).mp hends.head_mem, (h.mem_iff _).mp hends.tail_mem⟩

/-! ## One call -/

/-- Every address is `127.0.0.1:` and a port of at most seven digits. -/
def Addresses (address : CStr → CStr) : Prop := ∀ c, ∃ port, HostPort (address c) localhost port

theorem onServer_connect (haddress : Addresses address) {l : Links} (hl : l.Sound) (c : CStr) :
    OnServer l.next (address c) (rtableConnect l.calls (some (address c)) true) := by
  obtain ⟨port, hport⟩ := haddress c
  have hmade := hport.connect l.calls true
  rw [if_pos rfl] at hmade
  exact ⟨_, hmade, hl.on_connect (some (address c)) true _ hmade⟩

/-- A handle that was just made can be compared later. -/
theorem roomy_connect (haddress : Addresses address) {data : Option CStr}
    (hdata : ∀ d, data = some d → ∃ c, d = address c) (id : Nat) (reached : Bool) :
    Roomy (rtableConnect id data reached) := by
  intro r hr
  obtain ⟨-, -, d, rfl, hd⟩ := rtableConnect_reached hr
  obtain ⟨c, rfl⟩ := hdata d rfl
  obtain ⟨port, hport⟩ := haddress c
  rw [hport.connect, if_pos rfl, Option.some.injEq] at hd
  rw [← hd]
  exact hport.room

omit [DecidableEq κ] in
/-- With the list there is: no child, or a handle on it if it is up. -/
theorem setNextServer_right (haddress : Addresses address) {nodeId : CStr} {m : Members κ}
    {childrenList : List CStr} (hchildren : Children m childrenList)
    {nodeData : CStr → Option CStr} {reached : Bool}
    (hmeets : ServerMeets address nodeId childrenList m nodeData reached) {s : ServerEnd}
    (hs : s.Ready) :
    ∃ rc h l', Handlers.setNextServer nodeId childrenList nodeData reached s.nextServer s.links
        allocated = .ok (((rc, h), l'), allocated) ∧
      (successor childrenList nodeId = none → h = none) ∧
      ∀ y, successor childrenList nodeId = some y → m (.inl y) = .up →
        OnServer l' (address y) h := by
  cases hnovo : successor childrenList nodeId with
  | none => exact ⟨_, _, _, Handlers.setNextServer_none hnovo _, fun _ => rfl, nofun⟩
  | some c =>
    have hdata := hmeets.found c
      ((hchildren.mem_iff c).mp (successor_eq_some.mp hnovo).mem)
    cases hold : s.nextServer with
    | none =>
      refine ⟨_, _, _, Handlers.setNextServer_first hnovo, nofun, ?_⟩
      rintro y hy hup
      cases hy
      rw [hdata, hmeets.reached c hnovo hup]
      exact onServer_connect haddress hs.sound c
    | some r =>
      obtain ⟨port, hport⟩ := haddress c
      have hr := hs.holds r hold
      have hrun : Handlers.setNextServer nodeId childrenList nodeData reached (some r) s.links
          allocated = _ := Handlers.setNextServer_compared hnovo hr (hs.roomy r hold) hdata
      rw [if_neg (compareData_address hport hr)] at hrun
      refine ⟨_, _, _, hrun, nofun, ?_⟩
      rintro y hy hup
      cases hy
      rw [hmeets.reached c hnovo hup]
      exact onServer_connect haddress (hs.sound.close hr.made) c

omit [DecidableEq κ] in
theorem setNextServer_ready (haddress : Addresses address) {nodeId : CStr} {m : Members κ}
    {childrenList : List CStr} {nodeData : CStr → Option CStr} {reached : Bool}
    (hmeets : ServerMeets address nodeId childrenList m nodeData reached) {s s' : ServerEnd}
    {rc : Int} (hs : s.Ready)
    (hrun : Handlers.setNextServer nodeId childrenList nodeData reached s.nextServer s.links
      allocated = .ok (((rc, s'.nextServer), s'.links), allocated)) : s'.Ready := by
  have hroomy : ∀ c id, Roomy (rtableConnect id (nodeData c) reached) := fun c id =>
    roomy_connect haddress (fun d hd => ⟨c, hmeets.data c d hd⟩) id reached
  obtain ⟨h, l⟩ := s
  obtain ⟨h', l'⟩ := s'
  obtain ⟨hl, hnext, hroom⟩ := hs
  dsimp only at hl hnext hroom hrun
  cases hnovo : novoSucessor nodeId none childrenList with
  | none =>
    rw [Handlers.setNextServer_none hnovo] at hrun
    cases hrun
    refine ⟨?_, nofun, nofun⟩
    cases h with
    | none => exact hl
    | some r => exact hl.close (hnext r rfl).made
  | some c =>
    cases h with
    | none =>
      rw [Handlers.setNextServer_first hnovo] at hrun
      cases hrun
      exact ⟨hl.next, fun r hr => (hl.on_connect _ _ r hr).1, hroomy c _⟩
    | some r =>
      have hr := hnext r rfl
      cases hdata : nodeData c with
      | none =>
        rw [Handlers.setNextServer_gone hnovo hr (hroom r rfl) hdata] at hrun
        cases hrun
      | some d =>
        rw [Handlers.setNextServer_compared hnovo hr (hroom r rfl) hdata] at hrun
        have hclosed := hl.close hr.made
        split at hrun
        next =>
          cases hrun
          exact ⟨hl, hnext, hroom⟩
        next =>
          cases hrun
          have hon := hclosed.on_connect (some d) reached
          exact ⟨hclosed.next, fun r' hr' => (hon r' hr').1, hdata ▸ hroomy c _⟩

/-- One end of a client, where the children are found. -/
theorem follow_onServer (haddress : Addresses address) {env : Outcomes} (hdata : env.data = address)
    {side : End} {h : Option Rtable} {l : Links} (hl : l.Sound)
    (hold : ∀ r, h = some r → l.Holds r) (hroom : Roomy h) (compared node : CStr)
    (hchecked : env.checked side = true) (hfetched : env.fetched side = true) :
    ∃ h' l', env.follow side h compared node l allocated = .ok ((h', l'), allocated) ∧
      (env.reached side = true → OnServer l' (address node) h') := by
  have hmade : ∀ {l : Links}, l.Sound → env.reached side = true →
      OnServer l.next (address node) (env.made side node l) := by
    intro l hl hreached
    have hon := onServer_connect haddress hl node
    unfold made getNodeData
    rwa [hfetched, if_pos rfl, hreached, hdata]
  cases h with
  | none => exact ⟨_, _, follow_none, hmade hl⟩
  | some r =>
    obtain ⟨port, hport⟩ := haddress compared
    rw [← hdata] at hport
    have hrun : env.follow side (some r) compared node l allocated = _ := follow_some (hold r rfl)
    rw [if_pos (hroom r rfl), if_pos hchecked, if_neg (compareData_address hport (hold r rfl))]
      at hrun
    exact ⟨_, _, hrun, hmade (hl.close (hold r rfl).made)⟩

/-- An end that was followed can be compared later. -/
theorem roomy_follow (haddress : Addresses address) {env : Outcomes} (hdata : env.data = address)
    {side : End} {h h' other : Option Rtable} {compared node : CStr} {l l' : Links} {al : Allocs}
    (hp : Pair l h other) (hroom : Roomy h)
    (hrun : env.follow side h compared node l allocated = .ok ((h', l'), al)) : Roomy h' := by
  have hmade : ∀ l, Roomy (env.made side node l) := by
    intro l
    refine roomy_connect haddress (fun d hd => ⟨node, ?_⟩) _ _
    unfold getNodeData at hd
    split at hd
    next =>
      cases hd
      rw [hdata]
    next => cases hd
  obtain ⟨-, heq | heq⟩ := follow_cases hp hrun
  · cases heq
    exact hroom
  · cases heq
    exact hmade l

theorem setHeadTail_ready (haddress : Addresses address) {env : Outcomes}
    (hdata : env.data = address) {childrenList : List CStr} {s s' : ClientEnds} {rc : Int}
    (hs : s.Ready) (hrun : env.setHeadTail childrenList s.head s.tail s.links allocated
      = .ok (((rc, s'.head, s'.tail), s'.links), allocated)) : s'.Ready := by
  by_cases hne : childrenList = []
  · subst hne
    cases hrun
  · obtain ⟨ends, hselect, -⟩ := setHeadTail_run hne allocated
    rw [setHeadTail_eq hselect] at hrun
    obtain ⟨⟨⟨head, l₁⟩, al₁⟩, hhead, hrun⟩ := bind_eq_ok.mp hrun
    obtain ⟨⟨⟨tail, l₂⟩, al₂⟩, htail, hrun⟩ := bind_eq_ok.mp hrun
    obtain ⟨rfl, -⟩ := follow_cases hs.pair hhead
    obtain ⟨head', tail', l'⟩ := s'
    cases hrun
    have hp := hs.pair.follow hhead
    exact ⟨(hp.swap.follow htail).swap, roomy_follow haddress hdata hs.pair hs.head hhead,
      roomy_follow haddress hdata hp.swap hs.tail htail⟩

omit [DecidableEq κ] in
/-- With the list there is: handles on its ends, as far as these are up. -/
theorem setHeadTail_right (haddress : Addresses address) {m : Members κ}
    {childrenList : List CStr} (hchildren : Children m childrenList) {env : Outcomes}
    (hmeets : ClientMeets address childrenList m env) {s : ClientEnds} (hs : s.Ready)
    {ends : HeadTail} (hends : ends.Ends childrenList) :
    ∃ rc h t l', env.setHeadTail childrenList s.head s.tail s.links allocated
        = .ok (((rc, h, t), l'), allocated) ∧
      (m (.inl ends.head) = .up → OnServer l' (address ends.head) h) ∧
      (m (.inl ends.tail) = .up → OnServer l' (address ends.tail) t) := by
  have hne : childrenList ≠ [] := List.ne_nil_of_mem hends.head_mem
  obtain ⟨ends', hselect, hends'⟩ := setHeadTail_run hne allocated
  have hsame := hends'.unique hends
  subst hsame
  obtain ⟨hleast, hgreatest⟩ := hchildren.ends_there hends
  obtain ⟨hfetchedHead, hcheckedTail⟩ := hmeets.least ends' hends hleast
  obtain ⟨hcheckedHead, hfetchedTail⟩ := hmeets.greatest ends' hends hgreatest
  have hp := hs.pair
  obtain ⟨h, l₁, hheadRun, hhead⟩ : ∃ h' l', env.follow .head s.head ends'.tail ends'.head s.links
      allocated = .ok ((h', l'), allocated) ∧ (env.reached .head = true → _) :=
    follow_onServer haddress hmeets.data hp.sound hp.mine hs.head _ _ hcheckedHead hfetchedHead
  have hp₁ := hp.follow hheadRun
  obtain ⟨t, l₂, htailRun, htail⟩ : ∃ h' l', env.follow .tail s.tail ends'.head ends'.tail l₁
      allocated = .ok ((h', l'), allocated) ∧ (env.reached .tail = true → _) :=
    follow_onServer haddress hmeets.data hp₁.sound hp₁.theirs hs.tail _ _ hcheckedTail hfetchedTail
  have hp₂ := hp₁.swap.follow htailRun
  refine ⟨if h = none ∨ t = none then -1 else 0, h, t, l₂, ?_, fun hup => ?_, fun hup => ?_⟩
  · rw [setHeadTail_eq hselect, hheadRun]
    dsimp only [Except.bind]
    rw [htailRun]
  · -- the head is still open after the tail was connected
    obtain ⟨r, hr, -, hmade⟩ := hhead (hmeets.head ends' hends hup)
    exact ⟨r, hr, hp₂.theirs r hr, hmade⟩
  · exact htail (hmeets.tail ends' hends hup)

/-! ## All processes -/

theorem deals_env {i : CStr ⊕ κ} {l : List CStr} {m m' : Members κ} {x x' : Kept κ i}
    (hi : m i = .up) (h : Deals address i l m x m' x') : m' = m ∨ Unnoticed m m' := by
  cases h with
  | server _ _ => exact .inl rfl
  | serverFaults _ _ => exact .inr (.crash hi)
  | client _ _ => exact .inl rfl
  | clientFaults _ _ => exact .inr (.crash hi)

theorem deals_inv (haddress : Addresses address) {i : CStr ⊕ κ} {l : List CStr} {m m' : Members κ}
    {x x' : Kept κ i} (hx : Inv i x) (h : Deals address i l m x m' x') : Inv i x' := by
  cases h with
  | server hmeets hrun => exact setNextServer_ready haddress hmeets hx hrun
  | serverFaults _ _ => exact hx
  | client hmeets hrun => exact setHeadTail_ready haddress hmeets.data hx hrun
  | clientFaults _ _ => exact hx

theorem deals_right (haddress : Addresses address) {i : CStr ⊕ κ} {l : List CStr}
    {m m' : Members κ} {x x' : Kept κ i} (hi : m i = .up) (hx : Inv i x) (hl : Children m l)
    (h : Deals address i l m x m' x') : Right address i m' x' := by
  cases h with
  | @server nodeId _ _ s s' _ _ rc hmeets hrun =>
    obtain ⟨rc', h', l', hrun', hright⟩ := setNextServer_right haddress hl hmeets hx
    rw [hrun] at hrun'
    obtain ⟨nextServer, links⟩ := s'
    cases hrun'
    intro l'' hl''
    rw [successor_perm (hl''.perm hl)]
    exact hright
  | @serverFaults nodeId _ _ s _ _ f hmeets hrun =>
    obtain ⟨rc', h', l', hrun', -⟩ := setNextServer_right haddress hl hmeets hx
    rw [hrun] at hrun'
    cases hrun'
  | @client c _ _ s s' env rc hmeets hrun =>
    intro l'' hl'' ends hends
    obtain ⟨rc', h', t', l', hrun', hright⟩ :=
      setHeadTail_right haddress hl hmeets hx (ends_perm (hl''.perm hl) hends)
    rw [hrun] at hrun'
    obtain ⟨head, tail, links⟩ := s'
    cases hrun'
    exact hright
  | @clientFaults c _ _ s env f hmeets hrun =>
    intro l'' hl'' ends hends
    have hl₀ := (Unnoticed.crash hi).children.mp hl''
    obtain ⟨rc', h', t', l', hrun', -⟩ :=
      setHeadTail_right haddress hl hmeets hx (ends_perm (hl₀.perm hl) hends)
    rw [hrun] at hrun'
    cases hrun'

theorem sound (haddress : Addresses address) :
    (program address (κ := κ)).Sound Inv (Right address) where
  start i := by
    cases i with
    | inl _ => exact ⟨nofun, nofun, nofun⟩
    | inr _ => exact ⟨⟨nofun, nofun, nofun, nofun⟩, nofun, nofun⟩
  reads hcalm hl := hcalm.children.mpr hl
  right hcalm hx := right_unnoticed hcalm hx
  env hi h := deals_env hi h
  up h j hj := by
    cases h with
    | server _ _ => exact hj
    | serverFaults _ _ => exact up_of_fallen hj
    | client _ _ => exact hj
    | clientFaults _ _ => exact up_of_fallen hj
  inv hx h := deals_inv haddress hx h
  deal hi hx hl h := deals_right haddress hi hx hl h

omit [DecidableEq κ] in
/-- Everything that is looked up is found, and everything connected to is reached. -/
theorem serverMeets_all (nodeId : CStr) (l : List CStr) (m : Members κ) :
    ServerMeets address nodeId l m (fun c => some (address c)) true :=
  ⟨fun _ _ hd => (Option.some.inj hd).symm, fun _ _ => rfl, fun _ _ _ => rfl⟩

theorem Children.join {m : Members κ} {l : List CStr} (h : Children m l) {c : CStr}
    (hc : m (.inl c) = .absent) : Children (Function.update m (.inl c) .up) (c :: l) where
  nodup := by
    refine List.nodup_cons.mpr ⟨fun hmem => ?_, h.nodup⟩
    have hthere := (h.mem_iff c).mp hmem
    unfold There at hthere
    rw [hc] at hthere
    rcases hthere with hthere | hthere <;> cases hthere
  mem_iff d := by
    rw [List.mem_cons, h.mem_iff]
    unfold There
    by_cases hd : d = c
    · subst hd
      rw [Function.update_self]
      simp
    · rw [Function.update_of_ne fun heq => hd (Sum.inl.inj heq)]
      simp [hd]

theorem Children.expire {m : Members κ} {l : List CStr} (h : Children m l) (c : CStr) :
    Children (Function.update m (.inl c) .gone) (l.erase c) where
  nodup := h.nodup.erase c
  mem_iff d := by
    rw [h.nodup.mem_erase_iff, h.mem_iff]
    unfold There
    by_cases hd : d = c
    · subst hd
      rw [Function.update_self]
      simp
    · rw [Function.update_of_ne fun heq => hd (Sum.inl.inj heq)]
      simp [hd]

section Chain

variable (address) (s : World (CStr ⊕ κ) (Members κ) (List CStr) (Kept κ))

def server (c : CStr) : ServerEnd := (s.proc (.inl c)).state

def client (c : κ) : ClientEnds := (s.proc (.inr c)).state

/-- Every child is a server that is up, and no process has anything left to do. -/
structure Quiet : Prop where
  up : ∀ c, There s.env c → s.env (.inl c) = .up
  idle : ∀ i, s.env i = .up → (s.proc i).mark = .armed ∧ (s.proc i).main = none ∧
    (s.proc i).watcher = none

end Chain

variable {s : World (CStr ⊕ κ) (Members κ) (List CStr) (Kept κ)}

/-- Where nobody has anything left to do, nobody can make a step. -/
theorem Quiet.rest (h : Quiet s) {s' : World (CStr ⊕ κ) (Members κ) (List CStr) (Kept κ)} :
    ¬ (program address).Internal s s' := by
  intro hstep
  cases hstep with
  | subscribe hup hmark _ =>
    rw [(h.idle _ hup).1] at hmark
    cases hmark
  | notify hup hmark _ _ =>
    rw [(h.idle _ hup).1] at hmark
    cases hmark
  | main hup hmain _ =>
    rw [(h.idle _ hup).2.1] at hmain
    cases hmain
  | watcher hup hwatcher _ =>
    rw [(h.idle _ hup).2.2] at hwatcher
    cases hwatcher

/-! ## Two servers and a client -/

section Two

/-- A server that has just started. -/
def fresh : ServerEnd := ⟨none, ⟨0, []⟩⟩

/-- The states of two servers and a client. -/
structure Cast where
  ex : Status
  ey : Status
  ec : Status
  px : Follower (List CStr) ServerEnd
  py : Follower (List CStr) ServerEnd
  pc : Follower (List CStr) ClientEnds

/-- Nobody but the servers `x` and `y` and one client. -/
def two (x y : CStr) (a : Cast) : World (CStr ⊕ Unit) (Members Unit) (List CStr) (Kept Unit) where
  env i :=
    match i with
    | .inl c => if c = x then a.ex else if c = y then a.ey else .absent
    | .inr _ => a.ec
  proc i :=
    match i with
    | .inl c => (if c = x then a.px else if c = y then a.py else ⟨.unset, none, none, fresh⟩ :
        Follower (List CStr) ServerEnd)
    | .inr _ => a.pc

variable {x y : CStr} {a : Cast}

theorem two_x : (two x y a).env (.inl x) = a.ex ∧ (two x y a).proc (.inl x) = a.px :=
  ⟨if_pos rfl, if_pos rfl⟩

theorem two_y (hne : x ≠ y) :
    (two x y a).env (.inl y) = a.ey ∧ (two x y a).proc (.inl y) = a.py :=
  ⟨(if_neg hne.symm).trans (if_pos rfl), (if_neg hne.symm).trans (if_pos rfl)⟩

theorem two_other {c : CStr} (hx : c ≠ x) (hy : c ≠ y) : (two x y a).env (.inl c) = .absent ∧
    (two x y a).proc (.inl c) = (⟨.unset, none, none, fresh⟩ : Follower (List CStr) ServerEnd) :=
  ⟨(if_neg hx).trans (if_neg hy), (if_neg hx).trans (if_neg hy)⟩

theorem two_put_x (q : Follower (List CStr) ServerEnd) :
    (two x y a).put (two x y a).env (.inl x) q = two x y { a with px := q } := by
  refine World.put_eq (two_x (a := { a with px := q })).2 fun j hj => ?_
  cases j with
  | inl c =>
    have hc : c ≠ x := fun heq => hj (congrArg Sum.inl heq)
    exact (if_neg hc).trans (if_neg hc).symm
  | inr _ => rfl

/-- The two servers in the other order. -/
theorem two_comm (hne : x ≠ y) :
    two x y a = two y x ⟨a.ey, a.ex, a.ec, a.py, a.px, a.pc⟩ := by
  have henv : (two x y a).env = (two y x ⟨a.ey, a.ex, a.ec, a.py, a.px, a.pc⟩).env := by
    funext i
    cases i with
    | inl c =>
      by_cases hx : c = x
      · subst hx
        rw [two_x.1, (two_y hne.symm).1]
      · by_cases hy : c = y
        · subst hy
          rw [two_x.1, (two_y hne).1]
        · rw [(two_other hx hy).1, (two_other hy hx).1]
    | inr _ => rfl
  have hproc : (two x y a).proc = (two y x ⟨a.ey, a.ex, a.ec, a.py, a.px, a.pc⟩).proc := by
    funext i
    cases i with
    | inl c =>
      by_cases hx : c = x
      · subst hx
        rw [two_x.2, (two_y hne.symm).2]
      · by_cases hy : c = y
        · subst hy
          rw [two_x.2, (two_y hne).2]
        · rw [(two_other hx hy).2, (two_other hy hx).2]
    | inr _ => rfl
  show World.mk (two x y a).env (two x y a).proc = _
  rw [henv, hproc]

/-- A server creates its znode. -/
theorem two_join (hx : a.ex = .absent) : (program address).Step (two x y a)
    (two x y ⟨.up, a.ey, a.ec, a.px.told, a.py.told, a.pc.told⟩) := by
  have hstep : (program address).Step (two x y a) _ := .change (.join (two_x.1.trans hx))
  have henv : Function.update (two x y a).env (.inl x) .up
      = (two x y ⟨.up, a.ey, a.ec, a.px.told, a.py.told, a.pc.told⟩).env := by
    funext i
    by_cases hi : i = .inl x
    · subst hi
      rw [Function.update_self, two_x.1]
    · rw [Function.update_of_ne hi]
      cases i with
      | inl c =>
        have hc : c ≠ x := fun heq => hi (congrArg Sum.inl heq)
        exact (if_neg hc).trans (if_neg hc).symm
      | inr _ => rfl
  have hproc : (fun i => ((two x y a).proc i).told)
      = (two x y ⟨.up, a.ey, a.ec, a.px.told, a.py.told, a.pc.told⟩).proc := by
    funext i
    cases i with
    | inl c =>
      by_cases hcx : c = x
      · subst hcx
        rw [two_x.2]
        exact (two_x (a := ⟨.up, a.ey, a.ec, a.px.told, a.py.told, a.pc.told⟩)).2.symm
      · by_cases hcy : c = y
        · subst hcy
          rw [(two_y (Ne.symm hcx)).2]
          exact (two_y (a := ⟨.up, a.ey, a.ec, a.px.told, a.py.told, a.pc.told⟩)
            (Ne.symm hcx)).2.symm
        · rw [(two_other hcx hcy).2, (two_other hcx hcy).2]
          rfl
    | inr _ => rfl
  rwa [henv, hproc] at hstep

theorem children_first (hx : a.ex = .up) (hy : a.ey = .absent) (hne : x ≠ y) :
    Children (two x y a).env [x] := by
  refine ⟨List.nodup_singleton x, fun d => ?_⟩
  rw [List.mem_singleton]
  unfold There
  by_cases hdx : d = x
  · subst hdx
    rw [two_x.1, hx]
    simp
  · by_cases hdy : d = y
    · subst hdy
      rw [(two_y hne).1, hy]
      simp [hdx]
    · rw [(two_other hdx hdy).1]
      simp [hdx]

theorem children_both (hx : a.ex = .up) (hy : a.ey = .up) (hne : x ≠ y) :
    Children (two x y a).env [y, x] := by
  refine ⟨by simp [hne.symm], fun d => ?_⟩
  rw [List.mem_cons, List.mem_singleton]
  unfold There
  by_cases hdx : d = x
  · subst hdx
    rw [two_x.1, hx]
    simp
  · by_cases hdy : d = y
    · subst hdy
      rw [(two_y hne).1, hy]
      simp
    · rw [(two_other hdx hdy).1]
      simp [hdx, hdy]

/-- A server without a successor closes its handle. -/
theorem deals_last {c : CStr} {l : List CStr} (hl : successor l c = none) (m : Members κ)
    (h : Option Rtable) (links : Links) :
    Deals address (.inl c) l m (⟨h, links⟩ : ServerEnd) m
      (⟨none, h.elim links links.close⟩ : ServerEnd) :=
  .server (serverMeets_all c l m) (Handlers.setNextServer_none hl h)

/-- A server without a handle connects to its successor. -/
theorem deals_first {c d : CStr} {l : List CStr} (hl : successor l c = some d) (m : Members κ)
    (links : Links) :
    Deals address (.inl c) l m (⟨none, links⟩ : ServerEnd) m
      (⟨rtableConnect links.calls (some (address d)) true, links.next⟩ : ServerEnd) :=
  .server (serverMeets_all c l m) (Handlers.setNextServer_first hl)

theorem successor_both (hxy : x < y) :
    successor [y, x] x = some y ∧ successor [y, x] y = none ∧ successor [x] x = none := by
  refine ⟨successor_eq_some.mpr ⟨List.mem_cons_self .., hxy, ?_⟩, successor_eq_none.mpr ?_,
    successor_eq_none.mpr ?_⟩
  · intro d hd hlt
    rw [List.mem_cons, List.mem_singleton] at hd
    rcases hd with rfl | rfl
    · exact le_rfl
    · exact absurd hlt (lt_irrefl _)
  · intro d hd
    rw [List.mem_cons, List.mem_singleton] at hd
    rcases hd with rfl | rfl
    · exact le_rfl
    · exact hxy.le
  · intro d hd
    rw [List.mem_singleton] at hd
    exact hd.le

section Steps

variable {v : List CStr} {main watcher : Option (List CStr)} {k k' : ServerEnd}

theorem two_subscribe (hx : a.ex = .up) (hp : a.px = ⟨.unset, none, none, k⟩)
    (hv : Children (two x y a).env v) :
    (program address).Internal (two x y a)
      (two x y { a with px := ⟨.armed, some v, none, k⟩ }) := by
  have hproc := (two_x (x := x) (y := y) (a := a)).2
  rw [hp] at hproc
  have h := Program.Internal.subscribe (P := program address) (i := .inl x) (two_x.1.trans hx)
    (by rw [hproc]) hv
  rw [hproc] at h
  rw [← two_put_x ⟨.armed, some v, none, k⟩]
  exact h

theorem two_notify (hx : a.ex = .up) (hp : a.px = ⟨.fired, main, none, k⟩)
    (hv : Children (two x y a).env v) :
    (program address).Internal (two x y a)
      (two x y { a with px := ⟨.armed, main, some v, k⟩ }) := by
  have hproc := (two_x (x := x) (y := y) (a := a)).2
  rw [hp] at hproc
  have h := Program.Internal.notify (P := program address) (i := .inl x) (two_x.1.trans hx)
    (by rw [hproc]) (by rw [hproc]) hv
  rw [hproc] at h
  rw [← two_put_x ⟨.armed, main, some v, k⟩]
  exact h

theorem two_main (hx : a.ex = .up) (hp : a.px = ⟨.armed, some v, watcher, k⟩)
    (hk : ∀ m : Members Unit, Deals address (.inl x) v m k m k') :
    (program address).Internal (two x y a)
      (two x y { a with px := ⟨.armed, none, watcher, k'⟩ }) := by
  have hproc := (two_x (x := x) (y := y) (a := a)).2
  rw [hp] at hproc
  have h := Program.Internal.main (P := program address) (i := .inl x) (v := v) (x := k')
    (two_x.1.trans hx) (by rw [hproc]) (by rw [hproc]; exact hk _)
  rw [hproc] at h
  rw [← two_put_x ⟨.armed, none, watcher, k'⟩]
  exact h

theorem two_watcher (hx : a.ex = .up) (hp : a.px = ⟨.armed, main, some v, k⟩)
    (hk : ∀ m : Members Unit, Deals address (.inl x) v m k m k') :
    (program address).Internal (two x y a)
      (two x y { a with px := ⟨.armed, main, none, k'⟩ }) := by
  have hproc := (two_x (x := x) (y := y) (a := a)).2
  rw [hp] at hproc
  have h := Program.Internal.watcher (P := program address) (i := .inl x) (v := v) (x := k')
    (two_x.1.trans hx) (by rw [hproc]) (by rw [hproc]; exact hk _)
  rw [hproc] at h
  rw [← two_put_x ⟨.armed, main, none, k'⟩]
  exact h

end Steps

theorem quiet_two (hne : x ≠ y) (hex : a.ex = .up) (hey : a.ey = .up)
    (hx : a.px.mark = .armed ∧ a.px.main = none ∧ a.px.watcher = none)
    (hy : a.py.mark = .armed ∧ a.py.main = none ∧ a.py.watcher = none)
    (hc : a.ec = .up → a.pc.mark = .armed ∧ a.pc.main = none ∧ a.pc.watcher = none) :
    Quiet (two x y a) := by
  refine ⟨fun c hc => ?_, fun i hi => ?_⟩
  · have hmem := ((children_both hex hey hne).mem_iff c).mpr hc
    rw [List.mem_cons, List.mem_singleton] at hmem
    rcases hmem with rfl | rfl
    · exact (two_y hne).1.trans hey
    · exact two_x.1.trans hex
  · cases i with
    | inl c =>
      by_cases hcx : c = x
      · subst hcx
        rwa [two_x.2]
      · by_cases hcy : c = y
        · subst hcy
          rwa [(two_y hne).2]
        · rw [(two_other hcx hcy).1] at hi
          cases hi
    | inr _ => exact hc hi

/-- Nobody has started. -/
def asleep : Cast :=
  ⟨.absent, .absent, .absent, ⟨.unset, none, none, fresh⟩, ⟨.unset, none, none, fresh⟩,
    ⟨.unset, none, none, ⟨none, none, ⟨0, []⟩⟩⟩⟩

theorem reachable_asleep (address : CStr → CStr) (x y : CStr) :
    ((program address).system.restrict Program.Alone).Reachable (two x y asleep) := by
  refine .init ⟨fun i => ?_, fun i => ?_⟩
  · cases i with
    | inl c =>
      show (if c = x then Status.absent else if c = y then .absent else .absent) = .absent
      rw [ite_self, ite_self]
    | inr _ => rfl
  · cases i with
    | inl c =>
      show (if c = x then (⟨.unset, none, none, fresh⟩ : Follower (List CStr) ServerEnd)
        else if c = y then ⟨.unset, none, none, fresh⟩ else ⟨.unset, none, none, fresh⟩)
          = ⟨.unset, none, none, fresh⟩
      rw [ite_self, ite_self]
    | inr _ => rfl

/-! ### The addresses `127.0.0.1:5` and `127.0.0.1:6` -/

end Two

/-! ## Main results -/

/-- **Overlapping calls break the chain.** The first of two servers has read the children when the
second one joins; the watcher connects to it, and then the first call of `main` disconnects: nobody
has anything left to do, and the first server has no successor. -/
theorem overlap_breaks_chain (address : CStr → CStr) {x y : CStr} (hxy : x < y) :
    ∃ s : World (CStr ⊕ Unit) _ _ _, (program address).system.Reachable s ∧ Quiet s ∧
      Children s.env [y, x] ∧ successor [y, x] x = some y ∧ (server s x).nextServer = none := by
  have hne := hxy.ne
  obtain ⟨hnext, hlast, hfirst⟩ := successor_both hxy
  have hlast' : successor [x, y] y = none := (successor_perm (List.Perm.swap y x []) y).trans hlast
  have h0 := (reachable_asleep address x y).of_restrict
  have h1 := h0.step (two_join rfl)
  have h2 := h1.step (.internal (two_subscribe rfl rfl (children_first rfl rfl hne)))
  rw [two_comm hne] at h2
  have h3 := h2.step (two_join rfl)
  rw [two_comm hne.symm] at h3
  have h4 := h3.step (.internal (two_notify rfl rfl (children_both rfl rfl hne)))
  have h5 := h4.step (.internal (two_watcher rfl rfl fun m => deals_first hnext m _))
  have h6 := h5.step (.internal (two_main rfl rfl fun m => deals_last hfirst m _ _))
  rw [two_comm hne] at h6
  have h7 := h6.step (.internal (two_subscribe rfl rfl (children_both rfl rfl hne.symm)))
  have h8 := h7.step (.internal (two_main rfl rfl fun m => deals_last hlast' m _ _))
  rw [two_comm hne.symm] at h8
  refine ⟨_, h8, quiet_two hne rfl rfl ⟨rfl, rfl, rfl⟩ ⟨rfl, rfl, rfl⟩ nofun,
    children_both rfl rfl hne, hnext, ?_⟩
  unfold server
  rw [two_x.2]

end KvStorage.Convergence
