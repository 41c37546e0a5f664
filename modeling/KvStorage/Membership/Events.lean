import KvStorage.Client.HeadTail
import KvStorage.Data.KeyRange

/-!
# One membership event

Two questions about a handler that meets an old handle. Does it notice whether the child it
selects has changed (`change_detection_iff`)? The string put together from the handle lacks
the colon: an unchanged address always counts as changed, and the one string taken for
unchanged is no address. And does it get through, whatever the list, the handles and the
lookups are (`handlers_tolerate_iff`)? A child that disappeared after the list was read leaves
NULL for `strcmp`, but only where there is a handle to compare; an empty list has no first
child for the client to start from; and an entry from the predecessor may have a key that
hashes outside the table.

Both comparisons write the port of the old handle into `char porto[8]` first, so with a port of
more than seven digits neither question has an answer: the handler is stopped there.
-/

namespace KvStorage

open CLib Links Outcomes

variable {l : Links} {r : Rtable}

/-! ## Noticing a change -/

/-- What both handlers do with the old handle and the new data: `strcmp` of the data and the
address put together again. -/
def compareOld (e : CStr) (r : Rtable) : CM Int := do
  let antigo ← oldData r
  pure (strcmpBytes e.bytes antigo)

/-- The comparison finds `e` equal exactly when it is the address `d` of the handle. -/
def DetectsCompare (d e : CStr) (r : Rtable) : Prop :=
  ∃ c, compareOld e r allocated = .ok (c, allocated) ∧ (c = 0 ↔ e = d)

/-- `set_next_server`, on a child with the data `e`, leaves the handle `r` on the address `d`
alone where they are the same, and closes it where they are not. -/
def DetectsNext (nodeId : CStr) (childrenList : List CStr) (nodeData : CStr → Option CStr)
    (reached : Bool) (d e : CStr) (r : Rtable) (l : Links) : Prop :=
  ∃ rc h l', Handlers.setNextServer nodeId childrenList nodeData reached (some r) l allocated
      = .ok (((rc, h), l'), allocated) ∧
    (e = d → h = some r ∧ r.id ∉ l'.disconnected) ∧ (e ≠ d → h ≠ some r ∧ r.id ∈ l'.disconnected)

/-- The same for `alt_check`, whose answer says whether the end has to be connected again. -/
def DetectsAlt (env : Outcomes) (side : End) (node d e : CStr) (r : Rtable) (l : Links) : Prop :=
  ∃ changed l', env.altCheck side (some r) node l allocated = .ok ((changed, l'), allocated) ∧
    (e = d → changed = 0 ∧ r.id ∉ l'.disconnected) ∧ (e ≠ d → changed = 1 ∧ r.id ∈ l'.disconnected)

/-- A port that can be compared, and strings that are found unchanged or not, rightly. -/
structure Detected (d e : CStr) (r : Rtable) : Prop where
  room : r.serverPort < portLimit
  moved : e ≠ d
  rebuilt : e.bytes ≠ antigoSucessorData r

theorem compareData_eq_iff (hr : l.Holds r) (hroom : r.serverPort < portLimit) {d : CStr}
    (hbuilt : rtableConnect r.id (some d) true = some r) (e : CStr) :
    (compareData e r = 0 ↔ e = d) ↔ Detected d e r := by
  have hne := ne_of_connected hr hbuilt
  rw [compareData_eq_zero hr]
  by_cases hsame : e = d
  · subst hsame
    exact iff_of_false (fun h => hne (h.mpr rfl)) fun h => h.moved rfl
  · by_cases hrebuilt : e.bytes = antigoSucessorData r
    · exact iff_of_false (fun h => hsame (h.mp hrebuilt)) fun h => h.rebuilt hrebuilt
    · exact iff_of_true (iff_of_false hrebuilt hsame) ⟨hroom, hsame, hrebuilt⟩

theorem detectsCompare_iff (hr : l.Holds r) {d : CStr}
    (hbuilt : rtableConnect r.id (some d) true = some r) (e : CStr) :
    DetectsCompare d e r ↔ Detected d e r := by
  have hold := oldData_run hr
  unfold DetectsCompare compareOld
  by_cases hroom : r.serverPort < portLimit
  · rw [if_pos hroom] at hold
    rw [run_bind_ok hold, ← compareData_eq_iff hr hroom hbuilt]
    constructor
    · intro ⟨c, hrun, hiff⟩
      cases hrun
      exact hiff
    · exact fun hiff => ⟨_, rfl, hiff⟩
  · rw [if_neg hroom] at hold
    rw [run_bind, hold]
    exact iff_of_false (fun ⟨_, hrun, _⟩ => by cases hrun) fun h => hroom h.room

theorem detectsNext_iff (hr : l.Holds r) {d e c : CStr}
    (hbuilt : rtableConnect r.id (some d) true = some r) {nodeId : CStr}
    {childrenList : List CStr} {nodeData : CStr → Option CStr} (reached : Bool)
    (hnovo : novoSucessor nodeId none childrenList = some c) (hdata : nodeData c = some e) :
    DetectsNext nodeId childrenList nodeData reached d e r l ↔ Detected d e r := by
  unfold DetectsNext
  by_cases hroom : r.serverPort < portLimit
  · have hrun : Handlers.setNextServer nodeId childrenList nodeData reached (some r) l allocated
        = _ := Handlers.setNextServer_compared hnovo hr hroom hdata
    rw [← compareData_eq_iff hr hroom hbuilt, hrun]
    by_cases hzero : compareData e r = 0
    · rw [if_pos hzero]
      constructor
      · intro ⟨rc, h, l', hok, _, hchanged⟩
        cases hok
        refine iff_of_true hzero ?_
        by_contra hne
        exact (hchanged hne).1 rfl
      · intro hiff
        exact ⟨0, some r, l, rfl, fun _ => ⟨rfl, hr.kept⟩, fun hne => absurd (hiff.mp hzero) hne⟩
    · rw [if_neg hzero]
      have hnew : rtableConnect l.calls (some e) reached ≠ some r := by
        intro heq
        have hid := (rtableConnect_reached heq).1
        have hlt := hr.made
        omega
      constructor
      · intro ⟨rc, h, l', hok, hsame, _⟩
        cases hok
        exact iff_of_false hzero fun heq => hnew (hsame heq).1
      · intro hiff
        exact ⟨_, _, _, rfl, fun heq => absurd (hiff.mpr heq) hzero,
          fun _ => ⟨hnew, List.mem_cons_self ..⟩⟩
  · refine iff_of_false ?_ fun h => hroom h.room
    intro ⟨rc, h, l', hok, _⟩
    rw [Handlers.setNextServer_wide hnovo hr hroom] at hok
    cases hok

theorem detectsAlt_iff (hr : l.Holds r) {d e node : CStr}
    (hbuilt : rtableConnect r.id (some d) true = some r) {env : Outcomes} {side : End}
    (hchecked : env.checked side = true) (hdata : env.data node = e) :
    DetectsAlt env side node d e r l ↔ Detected d e r := by
  have hrun : env.altCheck side (some r) node l allocated = _ := altCheck_run hr
  unfold DetectsAlt
  rw [hrun]
  by_cases hroom : r.serverPort < portLimit
  · rw [if_pos hroom, if_pos hchecked, hdata, ← compareData_eq_iff hr hroom hbuilt]
    by_cases hzero : compareData e r = 0
    · rw [if_pos hzero]
      constructor
      · intro ⟨changed, l', hok, _, hchanged⟩
        cases hok
        refine iff_of_true hzero ?_
        by_contra hne
        exact absurd (hchanged hne).1 (by decide)
      · intro hiff
        exact ⟨0, l, rfl, fun _ => ⟨rfl, hr.kept⟩, fun hne => absurd (hiff.mp hzero) hne⟩
    · rw [if_neg hzero]
      constructor
      · intro ⟨changed, l', hok, hsame, _⟩
        cases hok
        exact iff_of_false hzero fun heq => absurd (hsame heq).1 (by decide)
      · intro hiff
        exact ⟨1, l.close r, rfl, fun heq => absurd (hiff.mpr heq) hzero,
          fun _ => ⟨rfl, List.mem_cons_self ..⟩⟩
  · rw [if_neg hroom]
    exact iff_of_false (fun ⟨_, _, hok, _⟩ => by cases hok) fun h => hroom h.room

/-- The handle that `rtable_connect` made from a host and a decimal port. -/
theorem rebuilt_address {d : CStr} {host : List Byte} {port : Nat}
    (hd : d.bytes = host ++ colon :: decimal port) (hhost : colon ∉ host) (hport : 0 < port)
    {r : Rtable} (hbuilt : rtableConnect r.id (some d) true = some r) :
    r.serverPort = (atoi (decimal port)).toNat ∧
      antigoSucessorData r = host ++ decimal (atoi (decimal port)).toNat := by
  have hvalue : digitsValue (decimal port) = port := digitsValue_decimal port
  have hne : decimal port ≠ [] := by
    intro hnil
    rw [hnil] at hvalue
    exact hport.ne hvalue
  have hcolon := colon_notMem_decimal port
  by_cases hempty : host = []
  · -- without a host the port is taken for one, and there is no port left
    rw [hempty, List.nil_append] at hd
    have hrest : strtok [] = none := rfl
    unfold rtableConnect at hbuilt
    simp only [hd, strtok_last hne hcolon, hrest] at hbuilt
    cases hbuilt
  · rw [rtableConnect_address hd hempty hhost hne hcolon] at hbuilt
    split at hbuilt
    next => cases hbuilt
    next =>
      split at hbuilt
      next =>
        rw [Option.some.injEq] at hbuilt
        rw [← hbuilt]
        exact ⟨rfl, rfl⟩
      next => cases hbuilt

/-- **When a change is noticed rightly**: where the port, as the `int` that `atoi` makes of it, has
at most seven digits, and the new data is neither the address the handle was made from, which
counts as changed, nor the string with that host and `int` and no colon, which counts as
unchanged. -/
theorem change_detection_iff {d : CStr} {host : List Byte} {port : Nat}
    (hd : d.bytes = host ++ colon :: decimal port) (hhost : colon ∉ host) (hport : 0 < port)
    {r : Rtable} (hr : l.Holds r) (hbuilt : rtableConnect r.id (some d) true = some r)
    (e : CStr) :
    (DetectsCompare d e r ↔ (atoi (decimal port)).toNat < portLimit ∧ e ≠ d ∧
      e.bytes ≠ host ++ decimal (atoi (decimal port)).toNat) ∧
    (∀ nodeId childrenList nodeData reached c, novoSucessor nodeId none childrenList = some c →
      nodeData c = some e → (DetectsNext nodeId childrenList nodeData reached d e r l ↔
        (atoi (decimal port)).toNat < portLimit ∧ e ≠ d ∧
          e.bytes ≠ host ++ decimal (atoi (decimal port)).toNat)) ∧
    ∀ env side node, env.checked side = true → env.data node = e →
      (DetectsAlt env side node d e r l ↔ (atoi (decimal port)).toNat < portLimit ∧ e ≠ d ∧
        e.bytes ≠ host ++ decimal (atoi (decimal port)).toNat) := by
  obtain ⟨hserverPort, haddress⟩ := rebuilt_address hd hhost hport hbuilt
  have hdetected : Detected d e r ↔ (atoi (decimal port)).toNat < portLimit ∧ e ≠ d ∧
      e.bytes ≠ host ++ decimal (atoi (decimal port)).toNat := by
    rw [← hserverPort, hserverPort, ← haddress, ← hserverPort]
    exact ⟨fun h => ⟨h.room, h.moved, h.rebuilt⟩, fun h => ⟨h.1, h.2.1, h.2.2⟩⟩
  rw [← hdetected]
  exact ⟨detectsCompare_iff hr hbuilt e,
    fun _ _ _ reached _ hnovo hdata => detectsNext_iff hr hbuilt reached hnovo hdata,
    fun _ _ _ hchecked hdata => detectsAlt_iff hr hbuilt hchecked hdata⟩

/-- The handle on `127.0.0.1:5`. -/
def handle5 : Rtable := ⟨0, localhost, 5⟩

theorem handle5_built : rtableConnect 0 (some (digitAddress 5)) true = some handle5 := rfl

theorem holds_handle5 : (Links.mk 1 []).Holds handle5 :=
  ⟨Nat.zero_lt_one, List.not_mem_nil, digitAddress 5, handle5_built⟩

/-- The successor has moved to the port 6: its handle is closed, and the new one opened. -/
theorem change_detection_iff_moved :
    DetectsNext (digitId 0) [digitId 0, digitId 1] (fun _ => some (digitAddress 6)) true
      (digitAddress 5) (digitAddress 6) handle5 ⟨1, []⟩ := by
  have hd : (digitAddress 5).bytes = localhost ++ colon :: decimal 5 := rfl
  obtain ⟨-, hnext, -⟩ := change_detection_iff hd (by decide) (by decide) holds_handle5
    handle5_built (digitAddress 6)
  exact (hnext (digitId 0) [digitId 0, digitId 1] (fun _ => some (digitAddress 6)) true
    (digitId 1) rfl rfl).mpr ⟨by decide, by decide, by decide⟩

/-- The successor is the same, and its handle is closed and opened again. -/
theorem unchanged_successor_replaced :
    Handlers.setNextServer (digitId 0) [digitId 0, digitId 1] (fun _ => some (digitAddress 5))
        true (some handle5) ⟨1, []⟩ allocated
      = .ok (((0, some ⟨1, localhost, 5⟩), ⟨2, [0]⟩), allocated) ∧
    ¬ DetectsCompare (digitAddress 5) (digitAddress 5) handle5 ∧
    ¬ DetectsNext (digitId 0) [digitId 0, digitId 1] (fun _ => some (digitAddress 5)) true
      (digitAddress 5) (digitAddress 5) handle5 ⟨1, []⟩ := by
  have hnot : ¬ Detected (digitAddress 5) (digitAddress 5) handle5 := fun h => h.moved rfl
  have hnovo : novoSucessor (digitId 0) none [digitId 0, digitId 1] = some (digitId 1) := rfl
  have hnext : DetectsNext (digitId 0) [digitId 0, digitId 1] (fun _ => some (digitAddress 5)) true
      (digitAddress 5) (digitAddress 5) handle5 ⟨1, []⟩ ↔ _ :=
    detectsNext_iff holds_handle5 handle5_built true hnovo rfl
  exact ⟨rfl, mt (detectsCompare_iff holds_handle5 handle5_built _).mp hnot, mt hnext.mp hnot⟩

/-! ## Getting through -/

/-- `set_head_tail` returns, and both handles are NULL or on the children it selects. -/
def HeadTailSafe (env : Outcomes) (childrenList : List CStr) (head tail : Option Rtable)
    (l : Links) : Prop :=
  ∃ rc head' tail' l', env.setHeadTail childrenList head tail l allocated
      = .ok (((rc, head', tail'), l'), allocated) ∧ l'.Sound ∧
    ∀ ends : HeadTail, ends.Ends childrenList →
      l'.On (some (env.data ends.head)) head' ∧ l'.On (some (env.data ends.tail)) tail'

/-- One end gets through: its port can be compared, the child it is compared with is still
there, and the handle is not taken for one on that child, unless it is on the selected one. -/
def Tolerated (env : Outcomes) (side : End) (h : Option Rtable) (compared node : CStr) : Prop :=
  ∀ r, h = some r → r.serverPort < portLimit ∧ env.checked side = true ∧
    ((env.data compared).bytes = antigoSucessorData r →
      rtableConnect r.id (some (env.data node)) true = some r)

theorem made_on (hl : l.Sound) (env : Outcomes) (side : End) (node : CStr) :
    l.next.On (some (env.data node)) (env.made side node l) := by
  have hon := hl.on_connect (env.getNodeData (env.fetched side) node) (env.reached side)
  unfold made
  unfold getNodeData at hon ⊢
  cases hfetched : env.fetched side with
  | true =>
    rw [hfetched] at hon
    exact hon
  | false => exact nofun

theorem follow_on_iff {env : Outcomes} {side : End} {h other : Option Rtable}
    {compared node : CStr} (hp : Pair l h other) :
    (∃ h' l', env.follow side h compared node l allocated = .ok ((h', l'), allocated) ∧
      l'.On (some (env.data node)) h') ↔ Tolerated env side h compared node := by
  cases h with
  | none =>
    exact iff_of_true ⟨_, _, follow_none, made_on hp.sound env side node⟩ nofun
  | some r =>
    have hr := hp.mine r rfl
    have hone : Tolerated env side (some r) compared node ↔ r.serverPort < portLimit ∧
        env.checked side = true ∧ ((env.data compared).bytes = antigoSucessorData r →
          rtableConnect r.id (some (env.data node)) true = some r) := by
      constructor
      · exact fun htol => htol r rfl
      · intro htol r' hr'
        cases hr'
        exact htol
    rw [follow_some hr, hone]
    by_cases hroom : r.serverPort < portLimit
    · rw [if_pos hroom]
      cases hchecked : env.checked side with
      | false =>
        exact iff_of_false (fun ⟨_, _, hrun, _⟩ => by cases hrun) fun htol => by cases htol.2.1
      | true =>
        rw [if_pos rfl]
        by_cases hsame : (env.data compared).bytes = antigoSucessorData r
        · rw [if_pos ((compareData_eq_zero hr _).mpr hsame)]
          constructor
          · intro ⟨h', l', hrun, hon⟩
            cases hrun
            exact ⟨hroom, rfl, fun _ => (hon r rfl).2⟩
          · intro htol
            refine ⟨some r, l, rfl, fun r' hr' => ?_⟩
            cases hr'
            exact ⟨hr, htol.2.2 hsame⟩
        · rw [if_neg fun hzero => hsame ((compareData_eq_zero hr _).mp hzero)]
          exact iff_of_true ⟨_, _, rfl, made_on hp.close.sound env side node⟩
            ⟨hroom, rfl, fun heq => absurd heq hsame⟩
    · rw [if_neg hroom]
      exact iff_of_false (fun ⟨_, _, hrun, _⟩ => by cases hrun) fun htol => hroom htol.1

theorem setHeadTail_safe_iff {env : Outcomes} {childrenList : List CStr}
    {head tail : Option Rtable} (hp : Pair l head tail) :
    HeadTailSafe env childrenList head tail l ↔
      childrenList ≠ [] ∧ ∀ ends : HeadTail, ends.Ends childrenList →
        Tolerated env .head head ends.tail ends.head ∧
        Tolerated env .tail tail ends.head ends.tail := by
  by_cases hne : childrenList = []
  · subst hne
    refine iff_of_false ?_ fun hcond => hcond.1 rfl
    intro ⟨rc, head', tail', l', hrun, _⟩
    cases hrun
  obtain ⟨ends, hselect, hends⟩ := setHeadTail_run hne allocated
  have hunique : ∀ ends' : HeadTail, ends'.Ends childrenList → ends' = ends :=
    fun ends' hends' => hends'.unique hends
  unfold HeadTailSafe
  rw [setHeadTail_eq hselect]
  constructor
  · intro ⟨rc, head', tail', l', hrun, _, hon⟩
    obtain ⟨hhead, htail⟩ := hon ends hends
    refine ⟨hne, fun ends' hends' => ?_⟩
    rw [hunique ends' hends']
    obtain ⟨⟨⟨h₁, l₁⟩, al₁⟩, hrun₁, hrun⟩ := bind_eq_ok.mp hrun
    obtain ⟨⟨⟨t₂, l₂⟩, al₂⟩, hrun₂, hrun⟩ := bind_eq_ok.mp hrun
    obtain ⟨rfl, -⟩ := follow_cases hp hrun₁
    cases hrun
    have hp₁ := hp.follow hrun₁
    refine ⟨(follow_on_iff hp).mp ⟨h₁, l₁, hrun₁, fun r hr => ?_⟩,
      (follow_on_iff hp₁.swap).mp ⟨t₂, l₂, hrun₂, htail⟩⟩
    exact ⟨hp₁.mine r hr, (hhead r hr).2⟩
  · intro ⟨_, hcond⟩
    obtain ⟨hhead, htail⟩ := hcond ends hends
    obtain ⟨h₁, l₁, hrun₁, hon₁⟩ := (follow_on_iff hp).mpr hhead
    have hp₁ := hp.follow hrun₁
    obtain ⟨t₂, l₂, hrun₂, hon₂⟩ := (follow_on_iff hp₁.swap).mpr htail
    have hp₂ := hp₁.swap.follow hrun₂
    refine ⟨if h₁ = none ∨ t₂ = none then -1 else 0, h₁, t₂, l₂, ?_, hp₂.sound,
      fun ends' hends' => ?_⟩
    · rw [hrun₁]
      dsimp only [Except.bind]
      rw [hrun₂]
    · rw [hunique ends' hends']
      exact ⟨fun r hr => ⟨hp₂.theirs r hr, (hon₁ r hr).2⟩, hon₂⟩

/-- **What the handlers tolerate.** `set_next_server` gets through unless it has a handle to
compare and its port has more than seven digits, or the child it selects has disappeared (or
stores the address without its colon); `set_antecessor` does unless it puts an entry whose hash
is negative; `set_head_tail` does on every list that is not empty, under the first condition on
its two handles and the children they are compared with. -/
theorem handlers_tolerate_iff {l l' : Links} {nextServer head tail : Option Rtable}
    {table : Table} (hl : l.Sound) (hnext : ∀ r, nextServer = some r → l.Holds r)
    (ht : table.WF) (hp : Pair l' head tail) (nodeId : CStr) (childrenList : List CStr)
    (nodeData : CStr → Option CStr) (reached : Bool) {answer : Option WireMsg}
    (hanswer : ∀ m, answer = some m → InFrame m) (env : Outcomes) :
    (Handlers.NextServerSafe nodeId childrenList nodeData reached nextServer l ↔
      ∀ c r, novoSucessor nodeId none childrenList = some c → nextServer = some r →
        r.serverPort < portLimit ∧
          ∃ d, nodeData c = some d ∧ d.bytes ≠ antigoSucessorData r) ∧
    (Handlers.AntecessorSafe nodeId childrenList nodeData reached answer table l ↔
      (Handlers.Reaches nodeId childrenList nodeData reached l → ∀ m, answer = some m →
        ∀ e ∈ m.transferred, 0 ≤ hashValue e.key table.size)) ∧
    (HeadTailSafe env childrenList head tail l' ↔
      childrenList ≠ [] ∧ ∀ ends : HeadTail, ends.Ends childrenList →
        Tolerated env .head head ends.tail ends.head ∧
        Tolerated env .tail tail ends.head ends.tail) :=
  ⟨Handlers.setNextServer_safe_iff hl hnext, Handlers.setAntecessor_safe_iff hl ht hanswer,
    setHeadTail_safe_iff hp⟩

/-- The listing of a predecessor with the key "é". -/
def accentedListing : WireMsg :=
  { WireMsg.init with opcode := OP_GETTABLE + 1, entries := [⟨keyAccented, [1]⟩] }

/-- The handlers of server 1 between the servers 0 and 2, of which the second has moved to
another port, and a client of the three; the listing of the first has a key whose hash is a
position in four lists. -/
theorem handlers_tolerate_iff_moved :
    Handlers.NextServerSafe (digitId 1) [digitId 2, digitId 0, digitId 1]
      (fun _ => some (digitAddress 6)) true (some handle5) ⟨1, []⟩ ∧
    Handlers.AntecessorSafe (digitId 1) [digitId 2, digitId 0, digitId 1]
      (fun _ => some (digitAddress 6)) true (some accentedListing)
      ⟨List.replicate 4 none, 4⟩ ⟨1, []⟩ ∧
    HeadTailSafe twoServers [digitId 2, digitId 0, digitId 1] twoEnds.head twoEnds.tail
      twoEnds.links := by
  have hsound : (Links.mk 1 []).Sound := nofun
  have hnext : ∀ r, some handle5 = some r → (Links.mk 1 []).Holds r := by
    intro r hr
    cases hr
    exact holds_handle5
  have hframe : ∀ m, some accentedListing = some m → InFrame m := by
    intro m hm
    cases hm
    exact ⟨by decide, by decide⟩
  obtain ⟨hset, hantecessor, hends⟩ := handlers_tolerate_iff hsound hnext
    (wf_replicate (by decide : (0 : Int) < 4)) (ready_of_reachable twoEnds_reachable).pair
    (digitId 1) [digitId 2, digitId 0, digitId 1] (fun _ => some (digitAddress 6)) true hframe
    twoServers
  refine ⟨hset.mpr ?_, hantecessor.mpr ?_, hends.mpr ⟨List.cons_ne_nil _ _, ?_⟩⟩
  · intro c r _ hr
    cases hr
    exact ⟨by decide, digitAddress 6, rfl, by decide⟩
  · intro _ m hm e he
    cases hm
    rw [show accentedListing.transferred = [⟨keyAccented, [1]⟩] from rfl,
      List.mem_singleton] at he
    subst he
    decide
  · intro ends _
    have haddress : ∀ c, ∃ port, HostPort (twoServers.data c) localhost port := fun c =>
      (listed_twoServers (List.cons_ne_nil c [])).address c (List.mem_cons_self ..)
    have hready := ready_of_reachable twoEnds_reachable
    constructor
    · intro r hr
      obtain ⟨port, hport⟩ := haddress ends.tail
      have hne := compareData_address hport (hready.pair.mine r hr)
      rw [Ne, compareData_eq_zero (hready.pair.mine r hr)] at hne
      exact ⟨hready.head r hr, rfl, fun heq => absurd heq hne⟩
    · intro r hr
      obtain ⟨port, hport⟩ := haddress ends.head
      have hne := compareData_address hport (hready.pair.theirs r hr)
      rw [Ne, compareData_eq_zero (hready.pair.theirs r hr)] at hne
      exact ⟨hready.tail r hr, rfl, fun heq => absurd heq hne⟩

/-- The successor disappeared after the list was read; and an empty list of children. -/
theorem vanished_child_to_strcmp :
    Handlers.setNextServer (digitId 0) [digitId 0, digitId 1] (fun _ => none) true (some handle5)
        ⟨1, []⟩ allocated = .error .nullDeref ∧
    ¬ Handlers.NextServerSafe (digitId 0) [digitId 0, digitId 1] (fun _ => none) true
      (some handle5) ⟨1, []⟩ ∧
    ¬ HeadTailSafe twoServers [] none none ⟨0, []⟩ := by
  have hgone : Handlers.setNextServer (digitId 0) [digitId 0, digitId 1] (fun _ => none) true
      (some handle5) ⟨1, []⟩ allocated = .error .nullDeref := rfl
  refine ⟨hgone, ?_, ?_⟩
  · intro ⟨rc, h, l', hrun, _⟩
    rw [hgone] at hrun
    cases hrun
  · intro ⟨rc, head', tail', l', hrun, _⟩
    cases hrun

end KvStorage
