import KvStorage.Memory.Table
import KvStorage.Data.TableRuns

/-!
# Sessions on a table

A caller creates a table, makes any calls, and destroys the table and what the calls answered. Its
keys and values are its own memory: the calls leave them as they are.

For every outcome of `malloc` and wherever it puts things, the calls answer what they answer on
values, and never follow a pointer to nothing (`opened_answers`). `session_accounts` is the account:
in the end everything is as it was before, but for `sessionLeaves` objects that nobody owns. Where
memory suffices these are none (`session_restores`), and the answers are those of a finite map
(`opened_is_map`).
-/

namespace KvStorage.Memory

open CLib CLib.Heap CLib.Linked Assert Table

/-! ## Calls -/

/-- A call, with the pointers it is given and what is behind them. -/
inductive Call
  | put (key value data : Ptr) (k : CStr) (v : Block)
  | get (key : Ptr) (k : CStr)
  | remove (key : Ptr) (k : CStr)
  | size
  | getKeys

/-- What the caller owns for a call. -/
def Call.args : Call → Assert Cell
  | put key value data k v => strAt key k * blockAt data value v
  | get key k => strAt key k
  | remove key k => strAt key k
  | size => 1
  | getKeys => 1

/-- Values that are put hold as many bytes as they say. -/
def Call.Ok : Call → Prop
  | put _ _ _ _ v => v.Valid
  | _ => True

/-- The hash of the key is a position of the table. -/
def Call.Keyed : Call → Prop
  | put _ _ _ k _ => Hashable k
  | get _ k => Hashable k
  | remove _ k => Hashable k
  | size => True
  | getKeys => True

/-- What a call answers. -/
inductive Reply
  | code (r : Int)
  | block (b : Option Block)
  | keys (keys : Option (List (Option CStr)))

/-- The same, with pointers. -/
inductive Answer
  | code (r : Int)
  | block (p : Ptr)
  | keys (p : Ptr)

/-- An answer stands for a reply. -/
def answerAt : Answer → Reply → Assert Cell
  | .code r, .code r' => ⨆ _ : r = r', 1
  | .block p, .block b => orNull ownBlock p b
  | .keys p, .keys keys => orNull ownKeys p keys
  | _, _ => ⊥

def answersAt : List Answer → List Reply → Assert Cell
  | [], [] => 1
  | a :: as, r :: rs => answerAt a r * answersAt as rs
  | _, _ => ⊥

/-- A call of the table in memory. -/
def call (t : Ptr) : Call → HeapM Answer
  | .put key value _ _ _ => do
    let r ← tablePut t key value
    pure (.code r)
  | .get key _ => do
    let p ← tableGet t key
    pure (.block p)
  | .remove key _ => do
    let r ← tableRemove t key
    pure (.code r)
  | .size => do
    let r ← tableSize t
    pure (.code r)
  | .getKeys => do
    let p ← tableGetKeys t
    pure (.keys p)

/-- The same call on values. -/
def callValue (T : Table) : Call → CM (Reply × Table)
  | .put _ _ _ k v => do
    let (r, T) ← KvStorage.tablePut T k (some v)
    pure (.code r, T)
  | .get _ k => do
    let b ← KvStorage.tableGet T k
    pure (.block b, T)
  | .remove _ k => do
    let (r, T) ← KvStorage.tableRemove T k
    pure (.code r, T)
  | .size => pure (.code (KvStorage.tableSize T), T)
  | .getKeys => do
    let keys ← KvStorage.tableGetKeys T
    pure (.keys keys, T)

/-- The objects a call leaves behind. -/
def callLeaves (T : Table) (al : Allocs) : Call → Nat
  | .put _ _ _ k v => putLeaves (T.listOf k) k v al
  | .get _ _ | .remove _ _ | .size | .getKeys => 0

def calls (t : Ptr) : List Call → HeapM (List Answer)
  | [] => pure []
  | c :: cs => do
    let a ← call t c
    let as ← calls t cs
    pure (a :: as)

def callsValue (T : Table) : List Call → CM (List Reply × Table)
  | [] => pure ([], T)
  | c :: cs => do
    let (r, T) ← callValue T c
    let (rs, T) ← callsValue T cs
    pure (r :: rs, T)

def callsLeave (T : Table) (al : Allocs) : List Call → Nat
  | [] => 0
  | c :: cs => callLeaves T al c +
    match callValue T c al with
    | .ok ((_, T), al) => callsLeave T al cs
    | .error _ => 0

/-! ## One call -/

/-- A table with fewer keys than an `int` can count has lists that know their lengths. -/
theorem exact_of_card {T : Table} (hT : T.WF) (hlive : T.map.keys.card < 2 ^ 31) : Exact T := by
  intro L hL
  have hle : L.nodes.length ≤ T.entries.length :=
    List.Sublist.length_le (List.sublist_flatten_of_mem (List.mem_map.mpr ⟨some L, hL, rfl⟩))
  rw [hT.card_keys] at hlive
  rw [(hT.good L hL).size_eq, cint_of_lt (by omega) (by omega)]

theorem card_insert_le (M : KvMap) (k : CStr) (v : List Byte) :
    (M.insert k v).keys.card ≤ M.keys.card + 1 := by
  have hsub : (M.insert k v).keys ⊆ insert k M.keys := by
    intro k' hk'
    rw [Finmap.mem_keys, Finmap.mem_insert] at hk'
    rw [Finset.mem_insert, Finmap.mem_keys]
    exact hk'
  exact (Finset.card_le_card hsub).trans (Finset.card_insert_le ..)

/-- A call keeps the table well formed and adds at most one key. -/
theorem callValue_inv {T T' : Table} (hT : T.WF) {c : Call} (hc : c.Ok) {r : Reply}
    {al al' : Allocs} (hrun : callValue T c al = .ok ((r, T'), al')) :
    T'.WF ∧ T'.map.keys.card ≤ T.map.keys.card + 1 := by
  cases c with
  | put _ _ _ k v =>
    obtain ⟨⟨⟨r', T₁⟩, al₁⟩, hput, hret⟩ := bind_eq_ok.mp hrun
    cases hret
    obtain ⟨hwf, -, hmap | ⟨-, -, -, hmap⟩⟩ := tablePut_inv hT hc hput
    · exact ⟨hwf, by rw [hmap]; omega⟩
    · exact ⟨hwf, by rw [hmap]; exact card_insert_le ..⟩
  | get _ k =>
    obtain ⟨⟨b, al₁⟩, -, hret⟩ := bind_eq_ok.mp hrun
    cases hret
    exact ⟨hT, Nat.le_succ _⟩
  | remove _ k =>
    obtain ⟨⟨⟨r', T₁⟩, al₁⟩, hremove, hret⟩ := bind_eq_ok.mp hrun
    cases hret
    by_cases hk : T.Indexes k
    · obtain ⟨r₂, T₂, hremove', hwf, -, hmap, -⟩ := tableRemove_run hT hk al
      rw [hremove'] at hremove
      cases hremove
      rw [hmap, Finmap.keys_erase]
      exact ⟨hwf, (Finset.card_erase_le).trans (Nat.le_succ _)⟩
    · rw [tableRemove_unindexed hk] at hremove
      cases hremove
  | size =>
    cases hrun
    exact ⟨hT, Nat.le_succ _⟩
  | getKeys =>
    obtain ⟨⟨keys, al₁⟩, -, hret⟩ := bind_eq_ok.mp hrun
    cases hret
    exact ⟨hT, Nat.le_succ _⟩

theorem call_refines {T : Table} (hT : T.WF) (hexact : Exact T) (al : Allocs) (t : Ptr) (c : Call) :
    Refines al (ownTable t T * c.args) (call t c) (callValue T c) fun a res =>
      answerAt a res.1 * (ownTable t res.2 * c.args) * garbage (callLeaves T al c) := by
  cases c with
  | put key value data k v =>
    refine Refines.bind (tablePut_refines hT al t data key value k v) fun r res al' _ =>
      Refines.iSup fun hr => Refines.pure ?_
    rw [answerAt, iSup_pos hr, one_mul]
    exact le_rfl
  | get key k =>
    refine Refines.bind (tableGet_refines al t key T k) fun q r al' _ => Refines.pure ?_
    rw [callLeaves, garbage_zero, mul_one]
    exact le_rfl
  | remove key k =>
    refine Refines.bind (tableRemove_refines al t key T k) fun r res al' _ =>
      Refines.iSup fun hr => Refines.pure ?_
    rw [answerAt, iSup_pos hr, one_mul, callLeaves, garbage_zero, mul_one]
    exact le_rfl
  | size =>
    refine tableSize_refines hT.length_eq (owns_refl _).mul_left (Refines.pure ?_)
    rw [answerAt, iSup_pos rfl, one_mul, callLeaves, garbage_zero, mul_one]
  | getKeys =>
    have hkeys := (tableGetKeys_refines hT.length_eq hexact al t).frame 1
    refine Refines.bind hkeys fun q r al' _ => Refines.pure (le_of_eq ?_)
    show orNull ownKeys q r * ownTable t T * 1
      = orNull ownKeys q r * (ownTable t T * 1) * garbage 0
    rw [garbage_zero, mul_one, mul_one, mul_one]

/-! ## Any number of calls -/

/-- Calls whose keys and values are among what the caller owns: each time all of it is back. -/
theorem calls_refine {A : Assert Cell} (cs : List Call)
    (hargs : ∀ c ∈ cs, c.Ok ∧ ∃ F, A = c.args * F) : ∀ {T : Table} (al : Allocs) (t : Ptr), T.WF →
    T.map.keys.card + cs.length < 2 ^ 31 →
    Refines al (ownTable t T * A) (calls t cs) (callsValue T cs) fun as res =>
      answersAt as res.1 * (ownTable t res.2 * A) * garbage (callsLeave T al cs) := by
  induction cs with
  | nil =>
    intro T al t _ _
    refine Refines.pure (le_of_eq ?_)
    rw [answersAt, callsLeave, garbage_zero, one_mul, mul_one]
  | cons c cs ih =>
    intro T al t hT hlive
    rw [List.length_cons] at hlive
    obtain ⟨hc, F, hA⟩ := hargs c (List.mem_cons_self ..)
    have hfirst := (call_refines hT (exact_of_card hT (by omega)) al t c).frame F
    rw [mul_assoc, ← hA] at hfirst
    refine Refines.bind hfirst fun a res al' hrun => ?_
    obtain ⟨r, T'⟩ := res
    obtain ⟨hT', hcard⟩ := callValue_inv hT hc hrun
    have hleave : callsLeave T al (c :: cs) = callLeaves T al c + callsLeave T' al' cs := by
      rw [callsLeave, hrun]
    have hsplit : answerAt a r * (ownTable t T' * c.args) * garbage (callLeaves T al c) * F
        = ownTable t T' * A * (answerAt a r * garbage (callLeaves T al c)) := by
      rw [hA]
      ac_rfl
    refine Refines.call (ih (fun c hc => hargs c (List.mem_cons_of_mem _ hc)) al' t hT' (by omega))
      (answerAt a r * garbage (callLeaves T al c)) hsplit.le fun as res al'' _ => Refines.pure ?_
    rw [hleave]
    calc answersAt as res.1 * (ownTable t res.2 * A) * garbage (callsLeave T' al' cs) *
          (answerAt a r * garbage (callLeaves T al c))
        = answerAt a r * answersAt as res.1 * (ownTable t res.2 * A) *
          (garbage (callLeaves T al c) * garbage (callsLeave T' al' cs)) := by ac_rfl
      _ ≤ _ := mul_le_mul_right (garbage_mul_garbage ..) _

/-! ## Sessions -/

/-- What a call answered is given back. -/
def release : Answer → HeapM Unit
  | .code _ => pure ()
  | .block p => do
    let _ ← blockDestroy p
    pure ()
  | .keys p => do
    let _ ← tableFreeKeys p
    pure ()

def releaseAll : List Answer → HeapM Unit
  | [] => pure ()
  | a :: as => do
    release a
    releaseAll as

/-- A new table and calls of it. -/
def opened (n : Int) (cs : List Call) : HeapM (Option (Ptr × List Answer)) := do
  let t ← tableCreate n
  if t = none then pure none
  else do
    let as ← calls t cs
    pure (some (t, as))

/-- The same on values. -/
def openedValue (n : Int) (cs : List Call) : CM (Option (List Reply × Table)) := do
  match ← KvStorage.tableCreate n with
  | none => pure none
  | some T => do
    let res ← callsValue T cs
    pure (some res)

/-- What a new table and the calls leave behind. -/
def openedLeaves (n : Int) (cs : List Call) (al : Allocs) : Nat :=
  createLeaves n al +
    match KvStorage.tableCreate n al with
    | .ok (some T, al) => callsLeave T al cs
    | _ => 0

/-- A new table, calls of it, and everything given back. -/
def session (n : Int) (cs : List Call) : HeapM Unit := do
  match ← opened n cs with
  | none => pure ()
  | some (t, as) => do
    let _ ← tableDestroy t
    releaseAll as

/-- The keys that `table_free_keys` does not reach. -/
def replyLeaves : Reply → Nat
  | .keys (some ks) => afterNull ks
  | _ => 0

theorem created {n : Int} {T : Table} {al al' : Allocs}
    (hrun : KvStorage.tableCreate n al = .ok (some T, al')) : T.WF ∧ T.map.keys.card = 0 := by
  have hn : 0 < n := by
    by_contra hn
    rw [KvStorage.tableCreate, if_pos (by omega)] at hrun
    cases hrun
  rw [tableCreate_some hrun, map_replicate, Finmap.keys_empty]
  exact ⟨wf_replicate hn, Finset.card_empty⟩

/-- What a caller has after `opened`. -/
def openedAt (A : Assert Cell) : Option (Ptr × List Answer) → Option (List Reply × Table) →
    Assert Cell
  | none, none => A
  | some (t, as), some (rs, T) => answersAt as rs * (ownTable t T * A)
  | _, _ => ⊥

theorem opened_refines {A : Assert Cell} {n : Int} {cs : List Call}
    (hargs : ∀ c ∈ cs, c.Ok ∧ ∃ F, A = c.args * F) (hcount : cs.length < 2 ^ 31) (al : Allocs) :
    Refines al A (opened n cs) (openedValue n cs) fun o res =>
      openedAt A o res * garbage (openedLeaves n cs al) := by
  unfold opened openedValue
  refine Refines.call (tableCreate_refines n al) A (one_mul _).ge fun t r al' hcreate => ?_
  cases r with
  | none =>
    refine Refines.shows (orNull_none_shows ownTable t).mul_left.mul_left fun ht => ?_
    rw [if_pos ht, ht, orNull_none, one_mul]
    refine Refines.pure (le_of_eq ?_)
    rw [openedAt, openedLeaves, hcreate, mul_comm]
    rfl
  | some T =>
    obtain ⟨hT, hempty⟩ := created hcreate
    rw [orNull_some]
    refine Refines.shows (ownTable_shows t T).mul_left.mul_left fun ht => ?_
    rw [if_neg ht]
    refine Refines.call (calls_refine cs hargs al' t hT (by omega)) (garbage (createLeaves n al))
      (mul_right_comm _ _ _).le fun as res al'' _ => Refines.pure ?_
    have hleaves : openedLeaves n cs al = createLeaves n al + callsLeave T al' cs := by
      rw [openedLeaves, hcreate]
    obtain ⟨rs, T'⟩ := res
    rw [openedAt, hleaves, mul_assoc]
    refine mul_le_mul_right ?_ _
    rw [mul_comm]
    exact garbage_mul_garbage ..

theorem fixed_args (c : Call) : c.args.Fixed := by
  cases c with
  | put key value data k v =>
    refine (fixed_cell _ _).mul ((fixed_cell _ _).mul ?_)
    cases v.data with
    | none => exact fixed_one.fact
    | some bs => exact fixed_cell _ _
  | get key k => exact fixed_cell _ _
  | remove key k => exact fixed_cell _ _
  | size => exact fixed_one
  | getKeys => exact fixed_one

theorem args_split {cs : List Call} {heap : Heap Cell}
    (hargs : ∀ c ∈ cs, c.Ok ∧ heap ∈ c.args * ⊤) :
    ∀ c ∈ cs, c.Ok ∧ ∃ F, exactly heap = c.args * F :=
  fun c hc => ⟨(hargs c hc).1, (fixed_args c).split (hargs c hc).2⟩

/-- A key at 1 and a value at 3 with its data at 2. -/
def oneValue : Heap Cell :=
  ((Finmap.singleton 2 (.bytes [7])).insert 3 (.block 1 (some 2))).insert 1
    (.str ⟨[107], by decide⟩)

def oneValueCalls : List Call :=
  [.put (some 1) (some 3) (some 2) ⟨[107], by decide⟩ (Block.ofBytes [7]), .getKeys,
    .get (some 1) ⟨[107], by decide⟩, .size, .remove (some 1) ⟨[107], by decide⟩]

theorem oneValueCalls_ok : ∀ c ∈ oneValueCalls, c.Ok ∧ c.Keyed ∧ oneValue ∈ c.args * ⊤ := by
  have hkey : Hashable ⟨[107], by decide⟩ := Hashable.of_length (by simp [CStr.SevenBit]) (by simp)
  have hput : oneValue ∈ (Call.put (some 1) (some 3) (some 2) ⟨[107], by decide⟩
      (Block.ofBytes [7])).args := by
    refine mem_cell_mul.mpr ⟨_, mem_cell_mul.mpr ⟨_, ?_, by decide, rfl⟩, by decide, rfl⟩
    exact mem_cell.mpr ⟨2, rfl, rfl⟩
  have hone : oneValue ∈ (1 : Assert Cell) * ⊤ := by
    rw [one_mul]
    exact True.intro
  intro c hc
  rw [oneValueCalls] at hc
  simp only [List.mem_cons, List.not_mem_nil, or_false] at hc
  rcases hc with rfl | rfl | rfl | rfl | rfl
  · exact ⟨Block.ofBytes_valid (by decide), hkey, owns_refl _ hput⟩
  · exact ⟨True.intro, True.intro, hone⟩
  · exact ⟨True.intro, hkey, le_def.mp (mul_le_mul_right le_top _) _ hput⟩
  · exact ⟨True.intro, True.intro, hone⟩
  · exact ⟨True.intro, hkey, le_def.mp (mul_le_mul_right le_top _) _ hput⟩

/-- From any heap with the arguments of the calls, whatever `malloc` does: a new table and the calls
answer what they answer on values, and everything that was there is as it was. -/
theorem opened_answers {n : Int} {cs : List Call} {heap : Heap Cell} {places : Places}
    {res : Option (List Reply × Table)} {al : Allocs}
    (hargs : ∀ c ∈ cs, c.Ok ∧ heap ∈ c.args * ⊤) (hcount : cs.length < 2 ^ 31)
    (hvalue : openedValue n cs places.outcomes = .ok (res, al)) :
    ∃ o heap' places', opened n cs heap places = .ok ((o, heap'), places') ∧
      places'.outcomes = al ∧
      heap' ∈ openedAt (exactly heap) o res * garbage (openedLeaves n cs places.outcomes) :=
  (opened_refines (args_split hargs) hcount _).exec rfl rfl hvalue

/-- There is memory for the table and then, once, no more. -/
def onceFull : Places := fun i => if i = 3 then none else some i

/-- What is answered then: the put fails, nothing is stored. -/
theorem onceFull_value : openedValue 3 oneValueCalls onceFull.outcomes
    = .ok (some ([.code (-1), .keys (some [none]), .block none, .code 0, .code (-1)],
      ⟨[none, none, none], 3⟩), Allocs.drop onceFull.outcomes 5) := rfl

theorem opened_answers_onceFull :
    ∃ o heap' places', opened 3 oneValueCalls oneValue onceFull = .ok ((o, heap'), places') ∧
      places'.outcomes = Allocs.drop onceFull.outcomes 5 ∧
      heap' ∈ openedAt (exactly oneValue) o
          (some ([.code (-1), .keys (some [none]), .block none, .code 0, .code (-1)],
            ⟨[none, none, none], 3⟩)) *
        garbage (openedLeaves 3 oneValueCalls onceFull.outcomes) :=
  opened_answers (fun c hc => ⟨(oneValueCalls_ok c hc).1, (oneValueCalls_ok c hc).2.2⟩)
    (by decide) onceFull_value

/-! ## Giving everything back -/

/-- An array of keys ends with a NULL. -/
def Reply.Closed : Reply → Prop
  | .keys (some ks) => none ∈ ks
  | _ => True

theorem callValue_closed {T T' : Table} {c : Call} {r : Reply} {al al' : Allocs}
    (hrun : callValue T c al = .ok ((r, T'), al')) : r.Closed := by
  cases c with
  | put _ _ _ k v =>
    obtain ⟨res, -, hret⟩ := bind_eq_ok.mp hrun
    cases hret
    exact True.intro
  | get _ k =>
    obtain ⟨res, -, hret⟩ := bind_eq_ok.mp hrun
    cases hret
    exact True.intro
  | remove _ k =>
    obtain ⟨res, -, hret⟩ := bind_eq_ok.mp hrun
    cases hret
    exact True.intro
  | size =>
    cases hrun
    exact True.intro
  | getKeys =>
    obtain ⟨⟨keys, al₁⟩, hkeys, hret⟩ := bind_eq_ok.mp hrun
    cases hret
    rw [KvStorage.tableGetKeys, run_bind, bind_eq_ok] at hkeys
    obtain ⟨⟨ok, al₂⟩, -, hkeys⟩ := hkeys
    cases ok with
    | false =>
      cases hkeys
      exact True.intro
    | true =>
      obtain ⟨⟨filled, al₃⟩, -, hput⟩ := bind_eq_ok.mp hkeys
      obtain ⟨⟨closed, al₄⟩, hput, hret⟩ := bind_eq_ok.mp hput
      cases hret
      unfold CLib.arrayPut at hput
      split at hput <;> cases hput
      exact List.mem_append_right _ (List.mem_cons_self ..)

theorem callsValue_closed {T T' : Table} {cs : List Call} {rs : List Reply} {al al' : Allocs}
    (hrun : callsValue T cs al = .ok ((rs, T'), al')) : ∀ r ∈ rs, r.Closed := by
  induction cs generalizing T rs al with
  | nil =>
    cases hrun
    exact List.forall_mem_nil _
  | cons c cs ih =>
    obtain ⟨⟨⟨r, T₁⟩, al₁⟩, hfirst, hrest⟩ := bind_eq_ok.mp hrun
    obtain ⟨⟨⟨rs', T₂⟩, al₂⟩, hcs, hret⟩ := bind_eq_ok.mp hrest
    cases hret
    exact List.forall_mem_cons.mpr ⟨callValue_closed hfirst, ih hcs⟩

/-- NULL is not freed, and what is freed is gone. -/
theorem releaseBlock_runs (p : Ptr) (b : Option Block) :
    Runs (orNull ownBlock p b) (blockDestroy p) fun _ => 1 := by
  cases b with
  | none =>
    refine Runs.intro fun al => Refines.shows (orNull_none_shows ownBlock p) fun hp => ?_
    rw [blockDestroy, if_pos hp]
    exact Refines.pure (iSup_le fun _ => le_rfl)
  | some b => exact (blockDestroy_runs p b).mono le_rfl fun _ => iSup_le fun _ => le_rfl

theorem releaseKeys_runs (p : Ptr) {keys : Option (List (Option CStr))}
    (hkeys : (Reply.keys keys).Closed) :
    Runs (orNull ownKeys p keys) (tableFreeKeys p) fun _ => garbage (replyLeaves (.keys keys)) := by
  cases keys with
  | none =>
    refine Runs.intro fun al => Refines.shows (orNull_none_shows ownKeys p) fun hp => ?_
    rw [tableFreeKeys, listFreeKeys, if_pos hp]
    exact Refines.pure (iSup_le fun _ => garbage_zero.ge)
  | some keys => exact (listFreeKeys_runs p hkeys).mono le_rfl fun _ => iSup_le fun _ => le_rfl

theorem release_runs (a : Answer) {r : Reply} (hr : r.Closed) :
    Runs (answerAt a r) (release a) fun _ => garbage (replyLeaves r) := by
  refine Runs.intro fun al => ?_
  cases a with
  | code c =>
    cases r with
    | code c' => exact Refines.pure (iSup_le fun _ => garbage_zero.ge)
    | block b => exact Refines.bot
    | keys keys => exact Refines.bot
  | block p =>
    cases r with
    | code c => exact Refines.bot
    | block b =>
      refine Refines.run (releaseBlock_runs p b) 1 (mul_one _).ge fun _ => Refines.pure ?_
      exact (mul_one _).le.trans garbage_zero.ge
    | keys keys => exact Refines.bot
  | keys p =>
    cases r with
    | code c => exact Refines.bot
    | block b => exact Refines.bot
    | keys keys =>
      refine Refines.run (releaseKeys_runs p hr) 1 (mul_one _).ge fun _ => Refines.pure ?_
      exact (mul_one _).le

theorem releaseAll_runs (as : List Answer) {rs : List Reply} (hrs : ∀ r ∈ rs, r.Closed) :
    Runs (answersAt as rs) (releaseAll as) fun _ => garbage (rs.map replyLeaves).sum := by
  refine Runs.intro fun al => ?_
  induction as generalizing rs with
  | nil =>
    cases rs with
    | nil => exact Refines.pure garbage_zero.ge
    | cons r rs => exact Refines.bot
  | cons a as ih =>
    cases rs with
    | nil => exact Refines.bot
    | cons r rs =>
      obtain ⟨hr, hrest⟩ := List.forall_mem_cons.mp hrs
      refine Refines.run (release_runs a hr) _ le_rfl fun _ => ?_
      rw [mul_comm]
      refine ((ih hrest).frame _).mono le_rfl fun _ _ => ?_
      rw [List.map_cons, List.sum_cons, Nat.add_comm]
      exact garbage_mul_garbage ..

/-- What a session leaves behind: memory that a call or `table_create` gave up on, and copies of
keys after the first one that could not be made. -/
def sessionLeaves (n : Int) (cs : List Call) (al : Allocs) : Nat :=
  openedLeaves n cs al +
    match openedValue n cs al with
    | .ok (some (rs, _), _) => (rs.map replyLeaves).sum
    | _ => 0

theorem callsValue_wf {cs : List Call} (hcs : ∀ c ∈ cs, c.Ok) {T T' : Table} {rs : List Reply}
    {al al' : Allocs} (hT : T.WF) (hrun : callsValue T cs al = .ok ((rs, T'), al')) : T'.WF := by
  induction cs generalizing T rs al with
  | nil =>
    cases hrun
    exact hT
  | cons c cs ih =>
    obtain ⟨⟨⟨r, T₁⟩, al₁⟩, hfirst, hrest⟩ := bind_eq_ok.mp hrun
    obtain ⟨⟨⟨rs', T₂⟩, al₂⟩, hcalls, hret⟩ := bind_eq_ok.mp hrest
    cases hret
    obtain ⟨hc, hcs⟩ := List.forall_mem_cons.mp hcs
    exact ih hcs (callValue_inv hT hc hfirst).1 hcalls

theorem openedValue_code {n : Int} {cs : List Call} (hcs : ∀ c ∈ cs, c.Ok) {rs : List Reply}
    {T : Table} {al al' : Allocs} (hrun : openedValue n cs al = .ok (some (rs, T), al')) :
    T.WF ∧ ∀ r ∈ rs, r.Closed := by
  obtain ⟨⟨r, al₁⟩, hcreate, hrest⟩ := bind_eq_ok.mp hrun
  cases r with
  | none => cases hrest
  | some T₀ =>
    obtain ⟨⟨⟨rs', T'⟩, al₂⟩, hcalls, hret⟩ := bind_eq_ok.mp hrest
    cases hret
    exact ⟨callsValue_wf hcs (created hcreate).1 hcalls, callsValue_closed hcalls⟩

/-- Sessions with any outcome of `malloc`, wherever it puts things: they end, and leave the heap as
it was but for what nobody owns. -/
theorem session_refines {A : Assert Cell} {n : Int} {cs : List Call}
    (hargs : ∀ c ∈ cs, c.Ok ∧ ∃ F, A = c.args * F) (hcount : cs.length < 2 ^ 31) (al : Allocs) :
    Refines al A (session n cs) (openedValue n cs) fun _ _ =>
      A * garbage (sessionLeaves n cs al) := by
  rw [← bind_pure (openedValue n cs)]
  refine Refines.bind (opened_refines hargs hcount al) fun o res al' hrun => ?_
  rw [sessionLeaves, hrun]
  cases res with
  | none =>
    cases o with
    | none => exact Refines.pure le_rfl
    | some _ => exact (Quantale.bot_mul (α := Assert Cell)).symm ▸ Refines.bot
  | some res =>
    obtain ⟨rs, T⟩ := res
    obtain ⟨hT, hrs⟩ := openedValue_code (fun c hc => (hargs c hc).1) hrun
    cases o with
    | none => exact (Quantale.bot_mul (α := Assert Cell)).symm ▸ Refines.bot
    | some o =>
      obtain ⟨t, as⟩ := o
      have hsplit : openedAt A (some (t, as)) (some (rs, T)) * garbage (openedLeaves n cs al)
          = ownTable t T * (answersAt as rs * (A * garbage (openedLeaves n cs al))) := by
        rw [openedAt]
        ac_rfl
      refine Refines.run (tableDestroy_runs hT.length_eq t) _ hsplit.le fun r =>
        Refines.iSup_mul fun _ => ?_
      rw [one_mul]
      refine Refines.ret (Refines.run (releaseAll_runs as hrs) _ le_rfl fun _ => Refines.pure ?_)
      rw [mul_comm, mul_assoc]
      exact mul_le_mul_right (garbage_mul_garbage ..) _

/-- A session ends whatever `malloc` does, everything that was there is as it was, and what is there
besides is what `sessionLeaves` counts, to the object. -/
theorem session_accounts {n : Int} {cs : List Call} {heap : Heap Cell} {places : Places}
    {res : Option (List Reply × Table)} {al : Allocs}
    (hargs : ∀ c ∈ cs, c.Ok ∧ heap ∈ c.args * ⊤) (hcount : cs.length < 2 ^ 31)
    (hvalue : openedValue n cs places.outcomes = .ok (res, al)) :
    ∃ leaked places', session n cs heap places = .ok (((), heap ∪ leaked), places') ∧
      heap.Disjoint leaked ∧ leaked.keys.card = sessionLeaves n cs places.outcomes := by
  obtain ⟨⟨⟩, heap', places', hrun, -, h₁, rfl, leaked, hcard, hd, rfl⟩ :=
    (session_refines (args_split hargs) hcount _).exec rfl rfl hvalue
  exact ⟨leaked, places', hrun, hd, hcard⟩

/-- The put that ran out of memory leaves its copy of the key behind. -/
theorem session_accounts_onceFull :
    ∃ leaked places', session 3 oneValueCalls oneValue onceFull
        = .ok (((), oneValue ∪ leaked), places') ∧
      oneValue.Disjoint leaked ∧
      leaked.keys.card = sessionLeaves 3 oneValueCalls onceFull.outcomes ∧
      sessionLeaves 3 oneValueCalls onceFull.outcomes = 1 := by
  obtain ⟨leaked, places', hrun, hd, hcard⟩ := session_accounts
    (fun c hc => ⟨(oneValueCalls_ok c hc).1, (oneValueCalls_ok c hc).2.2⟩) (by decide)
    onceFull_value
  exact ⟨leaked, places', hrun, hd, hcard, rfl⟩

/-! ## Where memory suffices -/

/-- The same call of a finite map. -/
def Call.onMap (M : KvMap) : Call → KvMap
  | put _ _ _ k v => M.insert k v.content
  | get _ _ => M
  | remove _ k => M.erase k
  | size => M
  | getKeys => M

/-- What a finite map answers. -/
def Answered (M : KvMap) : Call → Reply → Prop
  | .put .., .code r => r = 0
  | .get _ k, .block b => b = (M.lookup k).map Block.ofBytes
  | .remove _ k, .code r => r = 0 ↔ k ∈ M
  | .size, .code r => r = M.keys.card
  | .getKeys, .keys keys => ∃ ks : List CStr, keys = some (ks.map some ++ [none]) ∧ ks.Nodup ∧
      ∀ k, k ∈ ks ↔ k ∈ M
  | _, _ => False

/-- The same for calls one after the other. -/
def AllAnswered : KvMap → List Call → List Reply → Prop
  | _, [], [] => True
  | M, c :: cs, r :: rs => Answered M c r ∧ AllAnswered (c.onMap M) cs rs
  | _, _, _ => False

theorem afterNull_copied (ks : List CStr) : afterNull (ks.map some ++ [none]) = 0 := by
  induction ks with
  | nil => rfl
  | cons k ks ih => exact ih

/-- Nothing is left behind by a put that could not even copy its key, or whose entry the table
took. -/
theorem putLeaves_eq_zero (pos : Option EntryList) (k : CStr) {v : Block} (hv : v.Valid)
    (al : Allocs) :
    putLeaves pos k v al = 0 ↔ al 0 = false ∨ (putOutcome pos k al).stores = true := by
  obtain ⟨hsize, d, hd, -⟩ := hv
  have hdata : v.data ≠ none := by simp [hd]
  unfold putLeaves putOutcome
  cases h0 : al 0 with
  | false => simp
  | true =>
    cases h1 : al 1 with
    | false => simp
    | true =>
      cases h2 : al 2 with
      | false => simp
      | true =>
        cases h3 : al 3 with
        | false => simp [hsize, hdata]
        | true =>
          -- the entry is there: is there a list for it, and room in the list?
          rw [if_neg Bool.noConfusion, if_neg (not_not.mpr ⟨hsize, hdata, rfl, rfl⟩),
            if_neg Bool.noConfusion]
          cases pos with
          | none => cases h4 : al 4 <;> simp [entryLeaves, Allocs.drop, h4]
          | some l =>
            by_cases hk : ∃ e ∈ l.nodes, e.key = k
            · simp [entryLeaves, hk]
            · simp [entryLeaves, Allocs.drop, hk]

theorem callValue_allocated {T : Table} (hT : T.WF) (hlive : T.map.keys.card < 2 ^ 31) {c : Call}
    (hc : c.Ok) (hk : c.Keyed) :
    ∃ r T', callValue T c allocated = .ok ((r, T'), allocated) ∧ T'.WF ∧
      T'.map = c.onMap T.map ∧ Answered T.map c r ∧ callLeaves T allocated c = 0 ∧
      replyLeaves r = 0 := by
  cases c with
  | put key value data k v =>
    obtain ⟨T', hput, hT', -, hmap⟩ := tablePut_allocated hT (hT.indexes hk) hc
    refine ⟨.code 0, T', ?_, hT', hmap, rfl, ?_, rfl⟩
    · rw [callValue, run_bind, hput]
      rfl
    · exact (putLeaves_eq_zero _ k hc allocated).mpr (.inr (putOutcome_allocated _ k).2)
  | get key k =>
    refine ⟨.block _, T, ?_, hT, rfl, rfl, rfl, rfl⟩
    rw [callValue, run_bind, tableGet_allocated hT (hT.indexes hk)]
    rfl
  | remove key k =>
    obtain ⟨r, T', hremove, hT', -, hmap, hr⟩ := tableRemove_run hT (hT.indexes hk) allocated
    refine ⟨.code r, T', ?_, hT', hmap, hr, rfl, rfl⟩
    rw [callValue, run_bind, hremove]
    rfl
  | size => exact ⟨.code _, T, rfl, hT, rfl, tableSize_card hT hlive, rfl, rfl⟩
  | getKeys =>
    refine ⟨.keys _, T, ?_, hT, rfl,
      ⟨T.entries.map Entry.key, rfl, hT.nodup_keys, fun k => mem_entries_keys⟩, rfl,
      afterNull_copied _⟩
    rw [callValue, run_bind, tableGetKeys_allocated hT hlive]
    rfl

theorem callsValue_allocated {cs : List Call} (hcs : ∀ c ∈ cs, c.Ok ∧ c.Keyed) {T : Table}
    (hT : T.WF) (hlive : T.map.keys.card + cs.length < 2 ^ 31) :
    ∃ rs T', callsValue T cs allocated = .ok ((rs, T'), allocated) ∧
      T'.map = cs.foldl Call.onMap T.map ∧ AllAnswered T.map cs rs ∧
      callsLeave T allocated cs = 0 ∧ (rs.map replyLeaves).sum = 0 := by
  induction cs generalizing T with
  | nil => exact ⟨[], T, rfl, rfl, True.intro, rfl, rfl⟩
  | cons c cs ih =>
    obtain ⟨⟨hc, hk⟩, hcs⟩ := List.forall_mem_cons.mp hcs
    rw [List.length_cons] at hlive
    obtain ⟨r, T₁, hfirst, hT₁, hmap₁, hans, hleaves, hreply⟩ :=
      callValue_allocated hT (by omega) hc hk
    have hcard := (callValue_inv hT hc hfirst).2
    obtain ⟨rs, T₂, hrest, hmap₂, hanswers, hleave, hreplies⟩ := ih hcs hT₁ (by omega)
    refine ⟨r :: rs, T₂, ?_, ?_, ⟨hans, ?_⟩, ?_, ?_⟩
    · rw [callsValue, run_bind, hfirst, ok_bind]
      show (callsValue T₁ cs allocated).bind _ = _
      rw [hrest]
      rfl
    · rw [hmap₂, hmap₁, List.foldl_cons]
    · rwa [← hmap₁]
    · rw [callsLeave, hfirst, hleaves, Nat.zero_add]
      exact hleave
    · rw [List.map_cons, List.sum_cons, hreply, hreplies]

theorem openedValue_allocated {n : Int} (hn : 0 < n) {cs : List Call}
    (hcs : ∀ c ∈ cs, c.Ok ∧ c.Keyed) (hcount : cs.length < 2 ^ 31) :
    ∃ rs T, openedValue n cs allocated = .ok (some (rs, T), allocated) ∧
      T.map = cs.foldl Call.onMap ∅ ∧ AllAnswered ∅ cs rs ∧ openedLeaves n cs allocated = 0 ∧
      sessionLeaves n cs allocated = 0 := by
  have hcreate := tableCreate_allocated hn
  obtain ⟨hT, hempty⟩ := created hcreate
  obtain ⟨rs, T, hrun, hmap, hans, hleave, hreplies⟩ :=
    callsValue_allocated hcs hT (by omega)
  rw [map_replicate] at hmap hans
  have hopened : openedValue n cs allocated = .ok (some (rs, T), allocated) := by
    unfold openedValue
    rw [run_bind, hcreate, ok_bind]
    show (callsValue _ cs allocated).bind _ = _
    rw [hrun]
    rfl
  have hleaves : openedLeaves n cs allocated = 0 := by
    rw [openedLeaves, hcreate, createLeaves, if_neg (by simp [allocated])]
    exact (Nat.zero_add _).trans hleave
  refine ⟨rs, T, hopened, hmap, hans, hleaves, ?_⟩
  rw [sessionLeaves, hopened, hleaves]
  exact (Nat.zero_add _).trans hreplies

theorem outcomes_allocated {places : Places} (hplaces : ∀ i, (places i).isSome) :
    places.outcomes = allocated := funext hplaces

/-- Where memory suffices, the table in memory is a finite map: whatever calls are made, the new
table answers each of them as the map does, ends up with the contents of the map, and nothing else
of the heap has changed. -/
theorem opened_is_map {n : Int} (hn : 0 < n) {cs : List Call} {heap : Heap Cell} {places : Places}
    (hargs : ∀ c ∈ cs, c.Ok ∧ c.Keyed ∧ heap ∈ c.args * ⊤) (hcount : cs.length < 2 ^ 31)
    (hplaces : ∀ i, (places i).isSome) :
    ∃ t as heap' places' rs T, opened n cs heap places = .ok ((some (t, as), heap'), places') ∧
      AllAnswered ∅ cs rs ∧ T.map = cs.foldl Call.onMap ∅ ∧
      heap' ∈ answersAt as rs * (ownTable t T * exactly heap) := by
  obtain ⟨rs, T, hvalue, hmap, hans, hleaves, -⟩ :=
    openedValue_allocated hn (fun c hc => ⟨(hargs c hc).1, (hargs c hc).2.1⟩) hcount
  have hsplit := args_split fun c hc => ⟨(hargs c hc).1, (hargs c hc).2.2⟩
  obtain ⟨o, heap', places', hrun, -, hmem⟩ :=
    (opened_refines hsplit hcount _).exec rfl (outcomes_allocated hplaces) hvalue
  rw [hleaves, garbage_zero, mul_one] at hmem
  cases o with
  | none => exact hmem.elim
  | some o => exact ⟨o.1, o.2, heap', places', rs, T, hrun, hans, hmap, hmem⟩

theorem opened_is_map_oneValue :
    ∃ t as heap' places' rs T, opened 3 oneValueCalls oneValue (fun _ => some 1)
        = .ok ((some (t, as), heap'), places') ∧
      AllAnswered ∅ oneValueCalls rs ∧ T.map = oneValueCalls.foldl Call.onMap ∅ ∧
      heap' ∈ answersAt as rs * (ownTable t T * exactly oneValue) :=
  opened_is_map (by decide) oneValueCalls_ok (by decide) fun _ => rfl

/-- Where memory suffices a session leaves the heap exactly as it was. -/
theorem session_restores {n : Int} {cs : List Call} {heap : Heap Cell} {places : Places}
    (hargs : ∀ c ∈ cs, c.Ok ∧ c.Keyed ∧ heap ∈ c.args * ⊤) (hcount : cs.length < 2 ^ 31)
    (hplaces : ∀ i, (places i).isSome) :
    ∃ places', session n cs heap places = .ok (((), heap), places') := by
  have hsplit := args_split fun c hc => ⟨(hargs c hc).1, (hargs c hc).2.2⟩
  obtain ⟨res, hvalue, hleaves⟩ : ∃ res, openedValue n cs allocated = .ok (res, allocated) ∧
      sessionLeaves n cs allocated = 0 := by
    by_cases hn : 0 < n
    · obtain ⟨rs, T, hvalue, -, -, -, hleaves⟩ :=
        openedValue_allocated hn (fun c hc => ⟨(hargs c hc).1, (hargs c hc).2.1⟩) hcount
      exact ⟨_, hvalue, hleaves⟩
    · have hcreate : KvStorage.tableCreate n = pure none := if_pos (not_lt.mp hn)
      have hvalue : openedValue n cs allocated = .ok (none, allocated) := by
        rw [openedValue, hcreate]
        rfl
      refine ⟨none, hvalue, ?_⟩
      rw [sessionLeaves, hvalue, openedLeaves, hcreate, createLeaves, if_neg fun h => hn h.1]
      rfl
  obtain ⟨⟨⟩, heap', places', hrun, -, hmem⟩ :=
    (session_refines hsplit hcount _).exec rfl (outcomes_allocated hplaces) hvalue
  rw [hleaves, garbage_zero, mul_one, mem_exactly] at hmem
  exact ⟨places', hmem ▸ hrun⟩

theorem session_restores_oneValue :
    ∃ places', session 3 oneValueCalls oneValue (fun _ => some 1)
      = .ok (((), oneValue), places') :=
  session_restores oneValueCalls_ok (by decide) fun _ => rfl

end KvStorage.Memory
