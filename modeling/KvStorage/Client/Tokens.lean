import KvStorage.Lib.SharedCell
import KvStorage.Lib.Strtok
import KvStorage.Membership.Handles

/-!
# One place for all tokens

The command loop takes a line apart with up to three calls of `strtok`; `rtable_connect`, in
the thread of the ZooKeeper watcher, takes an address apart with two. `strtok` keeps its place
in one cell for the whole process, so a call of one thread can go on in the string of the
other (`key_from_address`). Where a thread begins a string only while the other is not between
two of its calls, both get the tokens they get alone (`tokens_undisturbed`).
-/

namespace KvStorage

open CLib Strtok SharedCell

def space : Byte := 32

/-! ## The command loop on one line -/

/-- The commands, each with a short and a long word. -/
inductive Verb
  | put
  | get
  | del
  | size
  | getKeys
  | getTable
  | stats
  | quit
  deriving DecidableEq

/-- The comparisons of `main`, in their order. -/
def verbOf (op : List Byte) : Option Verb :=
  -- "p", "put"
  if op = [112] ∨ op = [112, 117, 116] then some .put
  -- "g", "get"
  else if op = [103] ∨ op = [103, 101, 116] then some .get
  -- "d", "del"
  else if op = [100] ∨ op = [100, 101, 108] then some .del
  -- "s", "size"
  else if op = [115] ∨ op = [115, 105, 122, 101] then some .size
  -- "k", "getkeys"
  else if op = [107] ∨ op = [103, 101, 116, 107, 101, 121, 115] then some .getKeys
  -- "t", "gettable"
  else if op = [116] ∨ op = [103, 101, 116, 116, 97, 98, 108, 101] then some .getTable
  -- "st", "stats"
  else if op = [115, 116] ∨ op = [115, 116, 97, 116, 115] then some .stats
  -- "q", "quit"
  else if op = [113] ∨ op = [113, 117, 105, 116] then some .quit
  else none

/-- What the loop obtains from one line. -/
structure CommandTokens where
  op : Option (List Byte)
  key : Option (List Byte)
  value : Option (List Byte)
  deriving DecidableEq

/-- The calls of `strtok` for one line, one after the other. -/
def commandTokens (input : List Byte) : CommandTokens :=
  match next [space] input with
  | (none, _) => ⟨none, none, none⟩
  | (some op, rest) =>
    match verbOf op with
    | some .put =>
      let (key, rest) := next [space] rest
      let (value, _) := next [] rest
      ⟨some op, key, value⟩
    | some .get => ⟨some op, (next [space] rest).1, none⟩
    | some .del => ⟨some op, (next [space] rest).1, none⟩
    | _ => ⟨some op, none, none⟩

/-- Where the loop is with a line. -/
inductive LineStage
  /-- `strtok(input, " ")` is next. -/
  | line (input : List Byte)
  /-- `strtok(NULL, " ")` is next. -/
  | beforeKey (op : List Byte)
  /-- `strtok(NULL, "")` is next. -/
  | beforeValue (op : List Byte) (key : Option (List Byte))
  | done (tokens : CommandTokens)

namespace LineStage

/-- The next call of `strtok`, from the place that is kept. -/
def call : LineStage → List Byte → Option (LineStage × List Byte)
  | line input, _ =>
    match next [space] input with
    | (none, saved) => some (done ⟨none, none, none⟩, saved)
    | (some op, saved) =>
      match verbOf op with
      | some .put => some (beforeKey op, saved)
      | some .get => some (beforeKey op, saved)
      | some .del => some (beforeKey op, saved)
      | _ => some (done ⟨some op, none, none⟩, saved)
  | beforeKey op, saved =>
    let (key, saved) := next [space] saved
    if verbOf op = some .put then some (beforeValue op key, saved)
    else some (done ⟨some op, key, none⟩, saved)
  | beforeValue op key, saved =>
    let (value, saved) := next [] saved
    some (done ⟨some op, key, value⟩, saved)
  | done _, _ => none

/-- How the loop stands with its line when nobody else calls `strtok`. -/
def FromInput (input : List Byte) : LineStage → List Byte → Prop
  | line i, _ => i = input
  | beforeKey op, saved => next [space] input = (some op, saved) ∧
      (verbOf op = some .put ∨ verbOf op = some .get ∨ verbOf op = some .del)
  | beforeValue op key, saved => ∃ rest, next [space] input = (some op, rest) ∧
      verbOf op = some .put ∧ next [space] rest = (key, saved)
  | done tokens, _ => tokens = commandTokens input

theorem FromInput.call {input saved saved' : List Byte} {stage stage' : LineStage}
    (h : stage.FromInput input saved) (hcall : stage.call saved = some (stage', saved')) :
    stage'.FromInput input saved' := by
  cases stage with
  | line i =>
    cases h
    unfold LineStage.call at hcall
    dsimp only at hcall
    split at hcall
    next hop =>
      cases hcall
      unfold FromInput commandTokens
      rw [hop]
    next op rest hop =>
      split at hcall
      next hverb =>
        cases hcall
        exact ⟨hop, Or.inl hverb⟩
      next hverb =>
        cases hcall
        exact ⟨hop, Or.inr (Or.inl hverb)⟩
      next hverb =>
        cases hcall
        exact ⟨hop, Or.inr (Or.inr hverb)⟩
      next hput hget hdel =>
        cases hcall
        unfold FromInput commandTokens
        rw [hop]
        dsimp only
        split
        next hverb => exact absurd hverb hput
        next hverb => exact absurd hverb hget
        next hverb => exact absurd hverb hdel
        next => rfl
  | beforeKey op =>
    obtain ⟨hop, hverb⟩ := h
    unfold LineStage.call at hcall
    dsimp only at hcall
    split at hcall
    next hput =>
      cases hcall
      exact ⟨saved, hop, hput, rfl⟩
    next hput =>
      cases hcall
      unfold FromInput commandTokens
      rw [hop]
      rcases hverb with hverb | hverb | hverb
      · exact absurd hverb hput
      · simp only [hverb]
      · simp only [hverb]
  | beforeValue op key =>
    obtain ⟨rest, hop, hput, hkey⟩ := h
    unfold LineStage.call at hcall
    rw [Option.some.injEq, Prod.mk.injEq] at hcall
    obtain ⟨rfl, -⟩ := hcall
    unfold FromInput commandTokens
    rw [hop]
    simp only [hput, hkey]
  | done tokens => cases hcall

end LineStage

/-- The command loop, which does not read the kept place before a line and after it. -/
def lineUser : User LineStage (List Byte) where
  call := LineStage.call
  Starts stage := (∃ input, stage = .line input) ∨ ∃ tokens, stage = .done tokens
  call_eq := by
    intro stage saved saved' hstarts
    rcases hstarts with ⟨input, rfl⟩ | ⟨tokens, rfl⟩
    · rfl
    · rfl

theorem fromInput_of_alone {input saved₀ : List Byte} {x : LineStage × List Byte}
    (hx : (lineUser.alone (.line input) saved₀).Reachable x) : x.1.FromInput input x.2 := by
  refine hx.invariant (I := fun x => x.1.FromInput input x.2) ?_ ?_
  · intro x hinit
    cases hinit
    exact rfl
  · intro x x' h hcall
    exact h.call hcall

/-! ## `rtable_connect` on the addresses of an event -/

/-- The two calls of `strtok` on an address. -/
def addressTokens (address : List Byte) : Option (List Byte) × Option (List Byte) :=
  let (hostName, rest) := next [colon] address
  (hostName, (next [colon] rest).1)

/-- Where the watcher is: the addresses to come, the host name where the port is next, and
what the calls of `rtable_connect` have obtained. -/
structure ConnectStage where
  addresses : List (List Byte)
  hostName : Option (Option (List Byte))
  obtained : List (Option (List Byte) × Option (List Byte))

namespace ConnectStage

def call (stage : ConnectStage) (saved : List Byte) : Option (ConnectStage × List Byte) :=
  match stage.hostName with
  | none =>
    match stage.addresses with
    | [] => none
    | address :: addresses =>
      let (hostName, saved) := next [colon] address
      some (⟨addresses, some hostName, stage.obtained⟩, saved)
  | some hostName =>
    let (portoString, saved) := next [colon] saved
    some (⟨stage.addresses, none, stage.obtained ++ [(hostName, portoString)]⟩, saved)

/-- How the watcher stands with its addresses when nobody else calls `strtok`. -/
def FromAddresses (all : List (List Byte)) (stage : ConnectStage) (saved : List Byte) : Prop :=
  ∃ before, stage.obtained = before.map addressTokens ∧
    match stage.hostName with
    | none => all = before ++ stage.addresses
    | some hostName => ∃ address, all = before ++ address :: stage.addresses ∧
        next [colon] address = (hostName, saved)

theorem FromAddresses.call {all : List (List Byte)} {saved saved' : List Byte}
    {stage stage' : ConnectStage} (h : stage.FromAddresses all saved)
    (hcall : stage.call saved = some (stage', saved')) : stage'.FromAddresses all saved' := by
  obtain ⟨addresses, hostName, obtained⟩ := stage
  obtain ⟨before, hobtained, hall⟩ := h
  cases hostName with
  | none =>
    cases addresses with
    | nil => cases hcall
    | cons address addresses =>
      cases hcall
      exact ⟨before, hobtained, address, hall, rfl⟩
  | some hostName =>
    obtain ⟨address, hall, hhost⟩ := hall
    unfold ConnectStage.call at hcall
    rw [Option.some.injEq, Prod.mk.injEq] at hcall
    obtain ⟨rfl, -⟩ := hcall
    refine ⟨before ++ [address], ?_, ?_⟩
    · have htokens : addressTokens address = (hostName, (next [colon] saved).1) := by
        unfold addressTokens
        rw [hhost]
      dsimp only at hobtained ⊢
      rw [hobtained, List.map_append, List.map_singleton, htokens]
    · dsimp only at hall ⊢
      rw [hall, List.append_assoc, List.singleton_append]

end ConnectStage

/-- The watcher, which reads the kept place only for the port. -/
def connectUser : User ConnectStage (List Byte) where
  call := ConnectStage.call
  Starts stage := stage.hostName = none
  call_eq := by
    intro stage saved saved' hstarts
    obtain ⟨addresses, hostName, obtained⟩ := stage
    cases hstarts
    cases addresses with
    | nil => rfl
    | cons address addresses => rfl

theorem fromAddresses_of_alone {all : List (List Byte)} {saved₀ : List Byte}
    {x : ConnectStage × List Byte}
    (hx : (connectUser.alone ⟨all, none, []⟩ saved₀).Reachable x) :
    x.1.FromAddresses all x.2 := by
  refine hx.invariant (I := fun x => x.1.FromAddresses all x.2) ?_ ?_
  · intro x hinit
    cases hinit
    exact ⟨[], rfl, rfl⟩
  · intro x x' h hcall
    exact h.call hcall

theorem strtok_none {s : List Byte} (h : strtok s = none) : next [colon] s = (none, []) := by
  unfold strtok at h
  unfold next
  simp only [List.mem_singleton]
  dsimp only at h
  split at h
  next hnil => rw [if_pos hnil]
  next => cases h

/-- The string behind the token begins with the colon that `strtok` uses up. -/
theorem strtok_some {s token rest : List Byte} (h : strtok s = some (token, rest)) :
    next [colon] s = (some token, rest.tail) ∧
      (next [colon] rest.tail).1 = (next [colon] rest).1 := by
  unfold strtok at h
  dsimp only at h
  split at h
  next => cases h
  next hne =>
    rw [Option.some.injEq, Prod.mk.injEq] at h
    obtain ⟨rfl, rfl⟩ := h
    constructor
    · unfold next
      simp only [List.mem_singleton]
      rw [if_neg hne]
    · generalize s.dropWhile (fun b => decide (b = colon)) = s'
      by_cases hnil : s'.dropWhile (fun b => decide (b ≠ colon)) = []
      · rw [hnil]
        rfl
      · have hhead := List.head_dropWhile_not (fun b : Byte => decide (b ≠ colon)) hnil
        rw [decide_eq_false_iff_not, not_not] at hhead
        rw [← List.cons_head_tail hnil, hhead, List.tail_cons,
          next_of_mem (List.mem_singleton_self _)]

/-- What `rtable_connect` makes of the tokens. -/
theorem rtableConnect_eq (id : Nat) (addressPort : CStr) (reached : Bool) :
    rtableConnect id (some addressPort) reached
      = match addressTokens addressPort.bytes with
        | (some hostName, some portoString) =>
          if atoi portoString ≤ 0 then none
          else if inetPton hostName ∧ reached then some ⟨id, hostName, (atoi portoString).toNat⟩
          else none
        | _ => none := by
  unfold rtableConnect addressTokens
  cases hhost : strtok addressPort.bytes with
  | none => simp only [hhost, strtok_none hhost]
  | some host =>
    obtain ⟨hostName, rest⟩ := host
    obtain ⟨hnext, hrest⟩ := strtok_some hhost
    simp only [hhost, hnext, hrest]
    cases hporto : strtok rest with
    | none => simp only [strtok_none hporto]
    | some porto =>
      obtain ⟨portoString, rest'⟩ := porto
      simp only [(strtok_some hporto).1]

/-! ## Both threads -/

/-- The command loop with a line and the watcher with the addresses of an event. -/
def tokenRuns (input : List Byte) (addresses : List (List Byte)) (saved : List Byte) :
    Transition.System (Both LineStage ConnectStage (List Byte)) :=
  together lineUser connectUser (.line input) ⟨addresses, none, []⟩ saved

/-- The runs in which neither begins a string while the other is between two calls. -/
def apartRuns (input : List Byte) (addresses : List (List Byte)) (saved : List Byte) :
    Transition.System (Both LineStage ConnectStage (List Byte)) :=
  (tokenRuns input addresses saved).restrict (Apart lineUser connectUser)

/-- Both threads have the tokens they obtain when they run one after the other. -/
structure TokensAlone (input : List Byte) (addresses : List (List Byte))
    (x : Both LineStage ConnectStage (List Byte)) : Prop where
  line : ∀ tokens, x.left = .done tokens → tokens = commandTokens input
  connects : x.right.obtained <+: addresses.map addressTokens
  finished : x.right.addresses = [] → x.right.hostName = none →
    x.right.obtained = addresses.map addressTokens

/-- **Events do not disturb command parsing where the threads keep apart**: each calls
`strtok` with a string of its own only while the other is not between two of its calls. -/
theorem tokens_undisturbed (input : List Byte) (addresses : List (List Byte))
    (saved : List Byte) {x : Both LineStage ConnectStage (List Byte)}
    (hx : (apartRuns input addresses saved).Reachable x) : TokensAlone input addresses x := by
  have hstarts : lineUser.Starts (.line input) := Or.inl ⟨input, rfl⟩
  have halone := alone_of_apart hstarts hx
  obtain ⟨c, hline, -⟩ := halone.left.reachable
  obtain ⟨d, hconnect, -⟩ := halone.right.reachable
  have hinput := fromInput_of_alone hline
  obtain ⟨before, hobtained, hall⟩ := fromAddresses_of_alone hconnect
  dsimp only at hinput hobtained hall
  constructor
  case line =>
    intro tokens htokens
    rw [htokens] at hinput
    exact hinput
  case connects =>
    have hprefix : before <+: addresses := by
      cases hhost : x.right.hostName with
      | none =>
        rw [hhost] at hall
        exact ⟨_, hall.symm⟩
      | some hostName =>
        rw [hhost] at hall
        obtain ⟨address, hall, -⟩ := hall
        exact ⟨_, hall.symm⟩
    rw [hobtained]
    exact hprefix.map _
  case finished =>
    intro hnil hhost
    rw [hhost, hnil] at hall
    dsimp only at hall
    rw [hobtained, hall, List.append_nil]

/-- `put a 1`. -/
def putLine : List Byte := [112, 117, 116, 32, 97, 32, 49]

/-- `h:5`. -/
def address5 : List Byte := [104, 58, 53]

/-- `h:6`. -/
def address6 : List Byte := [104, 58, 54]

/-- The watcher takes one address apart before the line and one after it. -/
theorem reachable_putLine : (apartRuns putLine [address5, address6] []).Reachable
    ⟨.done ⟨some [112, 117, 116], some [97], some [49]⟩,
      ⟨[], none, [(some [104], some [53]), (some [104], some [54])]⟩, []⟩ := by
  have hline (x x' : Both LineStage ConnectStage (List Byte)) (hright : x.right.hostName = none)
      (hmoved : x'.left ≠ x.left) : Apart lineUser connectUser x x' :=
    ⟨fun _ _ => hright, fun hcall => absurd hcall.2 hmoved⟩
  have hconnect (x x' : Both LineStage ConnectStage (List Byte)) (hleft : lineUser.Starts x.left)
      (hmoved : x'.right.hostName ≠ x.right.hostName) : Apart lineUser connectUser x x' :=
    ⟨fun hcall => absurd (congrArg ConnectStage.hostName hcall.2) hmoved, fun _ _ => hleft⟩
  have hbefore : lineUser.Starts (.line putLine) := Or.inl ⟨putLine, rfl⟩
  have hafter : lineUser.Starts (.done ⟨some [112, 117, 116], some [97], some [49]⟩) :=
    Or.inr ⟨_, rfl⟩
  have h0 : (apartRuns putLine [address5, address6] []).Reachable
      ⟨.line putLine, ⟨[address5, address6], none, []⟩, []⟩ := .init rfl
  have h1 : (apartRuns putLine [address5, address6] []).Reachable
      ⟨.line putLine, ⟨[address6], some (some [104]), []⟩, [53]⟩ :=
    h0.step ⟨Or.inr ⟨rfl, rfl⟩, hconnect _ _ hbefore nofun⟩
  have h2 : (apartRuns putLine [address5, address6] []).Reachable
      ⟨.line putLine, ⟨[address6], none, [(some [104], some [53])]⟩, []⟩ :=
    h1.step ⟨Or.inr ⟨rfl, rfl⟩, hconnect _ _ hbefore nofun⟩
  have h3 : (apartRuns putLine [address5, address6] []).Reachable
      ⟨.beforeKey [112, 117, 116], ⟨[address6], none, [(some [104], some [53])]⟩,
        [97, 32, 49]⟩ :=
    h2.step ⟨Or.inl ⟨rfl, rfl⟩, hline _ _ rfl nofun⟩
  have h4 : (apartRuns putLine [address5, address6] []).Reachable
      ⟨.beforeValue [112, 117, 116] (some [97]), ⟨[address6], none, [(some [104], some [53])]⟩,
        [49]⟩ :=
    h3.step ⟨Or.inl ⟨rfl, rfl⟩, hline _ _ rfl nofun⟩
  have h5 : (apartRuns putLine [address5, address6] []).Reachable
      ⟨.done ⟨some [112, 117, 116], some [97], some [49]⟩,
        ⟨[address6], none, [(some [104], some [53])]⟩, []⟩ :=
    h4.step ⟨Or.inl ⟨rfl, rfl⟩, hline _ _ rfl nofun⟩
  have h6 : (apartRuns putLine [address5, address6] []).Reachable
      ⟨.done ⟨some [112, 117, 116], some [97], some [49]⟩,
        ⟨[], some (some [104]), [(some [104], some [53])]⟩, [54]⟩ :=
    h5.step ⟨Or.inr ⟨rfl, rfl⟩, hconnect _ _ hafter nofun⟩
  exact h6.step ⟨Or.inr ⟨rfl, rfl⟩, hconnect _ _ hafter nofun⟩

theorem tokens_undisturbed_putLine : TokensAlone putLine [address5, address6]
    ⟨.done ⟨some [112, 117, 116], some [97], some [49]⟩,
      ⟨[], none, [(some [104], some [53]), (some [104], some [54])]⟩, []⟩ :=
  tokens_undisturbed putLine [address5, address6] [] reachable_putLine

/-- The watcher calls `strtok` after the loop has taken the command: the key it takes next is
the port of the address, and nothing is left for the value. -/
theorem key_from_address :
    (∃ x, (tokenRuns putLine [address5] []).Reachable x ∧
      x.left = .done ⟨some [112, 117, 116], some [53], none⟩) ∧
    commandTokens putLine = ⟨some [112, 117, 116], some [97], some [49]⟩ ∧
    ¬ ∀ x, (tokenRuns putLine [address5] []).Reachable x → TokensAlone putLine [address5] x := by
  have htokens : commandTokens putLine = ⟨some [112, 117, 116], some [97], some [49]⟩ := rfl
  have h0 : (tokenRuns putLine [address5] []).Reachable
      ⟨.line putLine, ⟨[address5], none, []⟩, []⟩ := .init rfl
  have h1 : (tokenRuns putLine [address5] []).Reachable
      ⟨.beforeKey [112, 117, 116], ⟨[address5], none, []⟩, [97, 32, 49]⟩ :=
    h0.step (Or.inl ⟨rfl, rfl⟩)
  have h2 : (tokenRuns putLine [address5] []).Reachable
      ⟨.beforeKey [112, 117, 116], ⟨[], some (some [104]), []⟩, [53]⟩ :=
    h1.step (Or.inr ⟨rfl, rfl⟩)
  have h3 : (tokenRuns putLine [address5] []).Reachable
      ⟨.beforeValue [112, 117, 116] (some [53]), ⟨[], some (some [104]), []⟩, []⟩ :=
    h2.step (Or.inl ⟨rfl, rfl⟩)
  have h4 : (tokenRuns putLine [address5] []).Reachable
      ⟨.done ⟨some [112, 117, 116], some [53], none⟩, ⟨[], some (some [104]), []⟩, []⟩ :=
    h3.step (Or.inl ⟨rfl, rfl⟩)
  refine ⟨⟨_, h4, rfl⟩, htokens, fun hall => ?_⟩
  have hline := (hall _ h4).line _ rfl
  rw [htokens] at hline
  exact absurd hline (by decide)

end KvStorage
