import KvStorage.Membership.Handles
import KvStorage.Membership.Transfer

/-!
# Starting up behind a predecessor

`set_antecessor` as a whole and the end of `main`. Fetching the predecessor's table can
fail in five places: the node's data, the connection, the exchange, the copies
`rtable_get_table` makes, and the puts. `set_antecessor` reports the first two and `main`
does not look at what it reports, so a server that has a table starts serving it. One
without a table (`n_lists` is not positive, or its memory was refused) does not get that
far, but hears of no failure either unless the connection fails.

`serves_snapshot_iff` says when a server behind a predecessor serves the predecessor's map,
or stops with a failure reported: with a table of its own, when nothing fails, down to the
last `malloc`. The copies take six allocations an entry, a put five, and one more where it
creates the list.
-/

namespace KvStorage

open CLib SortedMap Table

/-! ## The copies of `rtable_get_table`, with failing allocations -/

/-- The copy of an entry takes four allocations, the same as in `table_put`. -/
theorem entryDuplicate_run (key : CStr) {v : List Byte} (hne : v ≠ []) (al : Allocs) :
    ∃ al', entryDuplicate (some ⟨key, Block.ofBytes v⟩) al
        = .ok (if copied al then some ⟨key, Block.ofBytes v⟩ else none, al') ∧
      (copied al = true → al' = Allocs.drop al 4) := by
  have hdup := blockDuplicate_run (Block.ofBytes_valid hne)
  unfold entryDuplicate copied
  cases h0 : al 0 with
  | false => exact ⟨_, by simp [h0]; rfl, by simp⟩
  | true =>
    cases h1 : al 1 with
    | false => exact ⟨_, by simp [h0, h1]; rfl, by simp⟩
    | true =>
      cases h2 : al 2 with
      | false => exact ⟨_, by simp [h0, h1, h2, hdup]; rfl, by simp⟩
      | true => cases h3 : al 3 <;> exact ⟨_, by simp [h0, h1, h2, h3, hdup]; rfl, fun _ => rfl⟩

theorem copied_iff {al : Allocs} : copied al = true ↔ ∀ i < 4, al i = true := by
  unfold copied
  simp only [Bool.and_eq_true]
  constructor
  · intro ⟨⟨⟨h0, h1⟩, h2⟩, h3⟩ i hi
    interval_cases i <;> assumption
  · intro h
    exact ⟨⟨⟨h 0 (by omega), h 1 (by omega)⟩, h 2 (by omega)⟩, h 3 (by omega)⟩

/-- An entry is copied when its six allocations succeed; otherwise the copy is NULL. -/
theorem copyEntry_run {e : WireEntry} (hne : e.value ≠ []) (hlen : e.value.length < 2 ^ 31)
    (al : Allocs) : ∃ copy al', copyEntry e.toEntryT al = .ok (copy, al') ∧
      (copy = some e.toEntry ∧ al' = Allocs.drop al 6 ∧ (∀ i < 6, al i = true) ∨
        copy = none ∧ ∃ i < 6, al i = false) := by
  have hblock : blockCreate (cint e.toEntryT.value.length)
      (if e.toEntryT.value = [] then none else some e.toEntryT.value) al
      = .ok (if al 0 then some (Block.ofBytes e.value) else none, Allocs.drop al 1) := by
    rw [show e.toEntryT.value = e.value from rfl, cint_of_lt (by omega) (by omega), if_neg hne,
      blockCreate_run hne]
    rfl
  obtain ⟨al', hdup, hdrop⟩ := entryDuplicate_run e.key hne (Allocs.drop al 2)
  unfold copyEntry
  rw [run_bind_ok hblock]
  cases h0 : al 0 with
  | false => exact ⟨none, _, rfl, Or.inr ⟨rfl, 0, by omega, h0⟩⟩
  | true =>
    have hentry : entryCreate e.toEntryT.key (some (Block.ofBytes e.value)) (Allocs.drop al 1)
        = .ok (if al 1 then some ⟨e.key, Block.ofBytes e.value⟩ else none, Allocs.drop al 2) :=
      entryCreate_run e.key _ _
    rw [if_pos rfl, run_bind_ok hentry]
    cases h1 : al 1 with
    | false => exact ⟨none, _, rfl, Or.inr ⟨rfl, 1, by omega, h1⟩⟩
    | true =>
      rw [if_pos rfl, hdup]
      refine ⟨_, al', rfl, ?_⟩
      cases hcopied : copied (Allocs.drop al 2) with
      | true =>
        refine Or.inl ⟨rfl, by rw [hdrop hcopied, Allocs.drop_drop], ?_⟩
        refine (Allocs.forall_lt_add (m := 2) (n := 4)).mpr ⟨?_, copied_iff.mp hcopied⟩
        intro i hi
        interval_cases i <;> assumption
      | false =>
        refine Or.inr ⟨rfl, ?_⟩
        by_contra hall
        have htrue : copied (Allocs.drop al 2) = true := by
          rw [copied_iff]
          intro i hi
          by_contra hfail
          exact hall ⟨i + 2, by omega, Bool.eq_false_of_not_eq_true hfail⟩
        rw [hcopied] at htrue
        cases htrue

/-- The copies of the entries: all of them after `6 * n` successful allocations, or a NULL
behind the first few. -/
def CopiesOf (entries : List Entry) (al : Allocs) (copies : List (Option Entry)) (al' : Allocs) :
    Prop :=
  copies = entries.map some ∧ al' = Allocs.drop al (6 * entries.length) ∧
      (∀ i < 6 * entries.length, al i = true) ∨
    (∃ i < 6 * entries.length, al i = false) ∧
      ∃ pre post rest, entries = pre ++ post ∧ post ≠ [] ∧ copies = pre.map some ++ none :: rest

theorem CopiesOf.cons_some {e : Entry} {entries : List Entry} {al al' : Allocs}
    {copies : List (Option Entry)} (h6 : ∀ i < 6, al i = true)
    (h : CopiesOf entries (Allocs.drop al 6) copies al') :
    CopiesOf (e :: entries) al (some e :: copies) al' := by
  have hlen : 6 * (e :: entries).length = 6 + 6 * entries.length := by
    rw [List.length_cons]
    omega
  unfold CopiesOf
  rw [hlen]
  rcases h with ⟨rfl, rfl, hall⟩ | ⟨⟨i, hi, hfail⟩, pre, post, rest, rfl, hpost, rfl⟩
  · exact Or.inl ⟨rfl, Allocs.drop_drop al 6 _, Allocs.forall_lt_add.mpr ⟨h6, hall⟩⟩
  · exact Or.inr ⟨⟨i + 6, by omega, hfail⟩, e :: pre, post, rest, rfl, hpost, rfl⟩

theorem CopiesOf.cons_none {e : Entry} {entries : List Entry} {al al' : Allocs}
    {copies : List (Option Entry)} (h6 : ∃ i < 6, al i = false) :
    CopiesOf (e :: entries) al (none :: copies) al' := by
  obtain ⟨i, hi, hfail⟩ := h6
  refine Or.inr ⟨⟨i, ?_, hfail⟩, [], e :: entries, copies, rfl, List.cons_ne_nil _ _, rfl⟩
  rw [List.length_cons]
  omega

theorem copyListEntries_run (cap : Int) (es : List WireEntry)
    (hes : ∀ e ∈ es, e.value ≠ [] ∧ e.value.length < 2 ^ 31) (n : Nat) :
    ∀ (i : Nat) (table : List (Option Entry)) (al : Allocs), i + n = es.length →
      (table.length : Int) + n ≤ cap → ∃ copies al',
      copyListEntries cap (some (es.map fun e => some e.toEntryT)) n i table al
          = .ok (table ++ copies, al') ∧ copies.length = n ∧
        CopiesOf ((es.drop i).map WireEntry.toEntry) al copies al' := by
  induction n with
  | zero =>
    intro i table al hi _
    rw [List.drop_of_length_le (by omega)]
    refine ⟨[], al, by rw [List.append_nil]; rfl, rfl, Or.inl ⟨rfl, rfl, ?_⟩⟩
    intro j hj
    simp at hj
  | succ n ih =>
    intro i table al hi hcap
    push_cast at hcap
    have hlt : i < es.length := by omega
    obtain ⟨hne, hlen⟩ := hes es[i] (List.getElem_mem hlt)
    have harr : i < (es.map fun e => some e.toEntryT).length := by
      rw [List.length_map]
      exact hlt
    have hget : arrayGet (es.map fun e => some e.toEntryT) i al
        = .ok (some es[i].toEntryT, al) := by
      rw [arrayGet_nat harr, List.getElem_map]
      rfl
    obtain ⟨copy, al₁, hcopy, hcase⟩ := copyEntry_run hne hlen al
    have hput : arrayPut cap table copy al₁ = .ok (table ++ [copy], al₁) := by
      rw [arrayPut_of_lt (by omega)]
      rfl
    obtain ⟨copies, al', hrest, hcount, hcopies⟩ := ih (i + 1) (table ++ [copy]) al₁ (by omega)
      (by rw [List.length_append, List.length_singleton]; push_cast; omega)
    refine ⟨copy :: copies, al', ?_, by rw [List.length_cons, hcount], ?_⟩
    · rw [copyListEntries_succ, deref_some, run_bind_ok (run_pure _), run_bind_ok hget, deref_some,
        run_bind_ok (run_pure _), run_bind_ok hcopy, run_bind_ok hput, hrest, List.append_assoc,
        List.singleton_append]
    · rw [List.drop_eq_getElem_cons hlt, List.map_cons]
      rcases hcase with ⟨rfl, rfl, h6⟩ | ⟨rfl, h6⟩
      · exact hcopies.cons_some h6
      · exact .cons_none h6

/-- The loop over all entries of a reply that fits its frame. -/
theorem copyListEntries_reply {t : Table} (h : t.WF)
    (hfit : messageSize (tableReply t) ≤ 65535) (al : Allocs) : ∃ copies al',
      copyListEntries (ptrArrayCap (t.entries.length + 1)) (tableReply t).toMessageT.entries
          t.entries.length 0 [] al = .ok (copies, al') ∧
        copies.length = t.entries.length ∧ CopiesOf t.entries al copies al' := by
  by_cases hnil : t.entries = []
  · refine ⟨[], al, ?_, by rw [hnil]; rfl, ?_⟩
    · rw [hnil]
      rfl
    · rw [hnil]
      exact Or.inl ⟨rfl, rfl, fun i hi => absurd hi (Nat.not_lt_zero i)⟩
  · have hentries : (tableReply t).toMessageT.entries
        = some ((tableReply t).entries.map fun e => some e.toEntryT) := by
      simp [WireMsg.toMessageT, tableReply, hnil]
    have hroom : (([] : List (Option Entry)).length : Int) + t.entries.length
        ≤ ptrArrayCap (t.entries.length + 1) := by
      have hcount := tableReply_length_le hfit
      unfold ptrArrayCap
      rw [List.length_nil]
      omega
    obtain ⟨copies, al', hrun, hlen, hcopies⟩ :=
      copyListEntries_run (ptrArrayCap (t.entries.length + 1)) (tableReply t).entries
        (tableReply_values h hfit) t.entries.length 0 [] al (by simp [tableReply]) hroom
    rw [List.nil_append] at hrun
    rw [List.drop_zero, tableReply_toEntry h] at hcopies
    exact ⟨copies, al', hentries ▸ hrun, hlen, hcopies⟩

/-- What `rtable_get_table` makes of the reply: NULL without its array, and otherwise the
copies with a NULL behind them. -/
theorem copyReceivedEntries_run {t : Table} (h : t.WF) (hfit : messageSize (tableReply t) ≤ 65535)
    (al : Allocs) :
    if al 0 then ∃ copies al', copyReceivedEntries (tableReply t).toMessageT al
        = .ok (some (copies ++ [none]), al') ∧ CopiesOf t.entries (Allocs.drop al 1) copies al'
    else copyReceivedEntries (tableReply t).toMessageT al = .ok (none, Allocs.drop al 1) := by
  have hn : (tableReply t).toMessageT.nEntries = t.entries.length := List.length_map _
  have hcount := tableReply_length_le hfit
  have hcint : (cint t.entries.length).toNat = t.entries.length := by
    rw [cint_of_lt (by omega) (by omega), Int.toNat_natCast]
  split
  next h0 =>
    obtain ⟨copies, al', hrun, hlen, hcopies⟩ := copyListEntries_reply h hfit (Allocs.drop al 1)
    refine ⟨copies, al', ?_, hcopies⟩
    -- the array has room for the NULL behind the last entry
    have hput : arrayPut (ptrArrayCap (t.entries.length + 1)) copies none
        = pure (copies ++ [none]) := by
      refine arrayPut_of_lt ?_
      unfold ptrArrayCap
      omega
    unfold copyReceivedEntries
    rw [run_bind_ok (show malloc al = .ok (al 0, Allocs.drop al 1) from rfl), if_pos h0, hn, hcint,
      run_bind_ok hrun, hput]
    rfl
  next h0 =>
    unfold copyReceivedEntries
    rw [run_bind_ok malloc_run, if_neg h0]
    rfl

/-! ## The puts, with failing allocations -/

/-- The allocations of the puts of distinct keys into a table whose lists stand at the
positions `occupied`: five each, and the list where there is none yet. -/
def putMallocs (n : Int) : (occupied : List Nat) → List CStr → Nat
  | _, [] => 0
  | occupied, key :: keys =>
    (if slot n key ∈ occupied then 5 else 6) + putMallocs n (slot n key :: occupied) keys

/-- Which positions have a list. -/
def Occupied (t : Table) (occupied : List Nat) : Prop :=
  ∀ key, t.listOf key = none ↔ slot t.size key ∉ occupied

/-- `table_put` of a new key stores it just when none of its allocations fails. -/
theorem putOutcome_stores_iff {pos : Option EntryList} {key : CStr}
    (hnew : key ∉ (nodesOf pos).map Entry.key) (al : Allocs) :
    ((putOutcome pos key al).stores = true ↔
      ∀ i < (if pos = none then 6 else 5), al i = true) ∧
    ((putOutcome pos key al).stores = true →
      (putOutcome pos key al).used = if pos = none then 6 else 5) := by
  have hfail : ∀ {n i : Nat}, i < n → al i = false → ¬ ∀ i < n, al i = true := by
    intro n i hi hfalse hall
    rw [hall i hi] at hfalse
    cases hfalse
  unfold putOutcome
  cases h0 : al 0 with
  | false => simp [hfail (show 0 < if pos = none then 6 else 5 by split <;> omega) h0]
  | true =>
    cases h1 : al 1 with
    | false => simp [hfail (show 1 < if pos = none then 6 else 5 by split <;> omega) h1]
    | true =>
      cases h2 : al 2 with
      | false => simp [hfail (show 2 < if pos = none then 6 else 5 by split <;> omega) h2]
      | true =>
        cases h3 : al 3 with
        | false => simp [hfail (show 3 < if pos = none then 6 else 5 by split <;> omega) h3]
        | true =>
          cases pos with
          | none =>
            cases h4 : al 4 with
            | false => simp [hfail (show 4 < 6 by omega) h4]
            | true =>
              simp only [Bool.true_eq_false, if_false, if_true, implies_true, and_true]
              constructor
              · intro h5 i hi
                interval_cases i <;> assumption
              · exact fun hall => hall 5 (by omega)
          | some l =>
            have hnew' : key ∉ l.nodes.map Entry.key := hnew
            cases h4 : al 4 with
            | false => simp [hnew', hfail (show 4 < 5 by omega) h4]
            | true =>
              simp only [Bool.true_eq_false, if_false, if_neg hnew', reduceCtorEq, true_iff,
                implies_true, and_true]
              intro i hi
              interval_cases i <;> assumption

/-- What `table_put` leaves of the array: nothing changed, or a list at the key's
position. -/
theorem tablePut_lists {t t' : Table} {key : CStr} {b : Block} {r : Int} {al al' : Allocs}
    (hrun : tablePut t key (some b) al = .ok ((r, t'), al')) :
    t' = t ∨ ∃ l, t' = t.setList (slot t.size key) l := by
  unfold tablePut at hrun
  simp only [run_bind, malloc_run, ok_bind] at hrun
  split at hrun
  next =>
    rw [run_bind, bind_eq_ok] at hrun
    obtain ⟨⟨copiaValue, al₁⟩, -, hrun⟩ := hrun
    cases copiaValue with
    | none =>
      cases hrun
      exact Or.inl rfl
    | some copiaValue =>
      dsimp only at hrun
      rw [run_bind, bind_eq_ok] at hrun
      obtain ⟨⟨entrada, al₂⟩, -, hrun⟩ := hrun
      cases entrada with
      | none =>
        cases hrun
        exact Or.inl rfl
      | some entrada =>
        dsimp only at hrun
        rw [run_bind, bind_eq_ok] at hrun
        obtain ⟨⟨pos, al₃⟩, -, hrun⟩ := hrun
        cases pos with
        | none =>
          dsimp only at hrun
          rw [run_bind, bind_eq_ok] at hrun
          obtain ⟨⟨lista, al₄⟩, -, hrun⟩ := hrun
          cases lista with
          | none =>
            cases hrun
            exact Or.inl rfl
          | some lista =>
            dsimp only at hrun
            rw [run_bind, bind_eq_ok] at hrun
            obtain ⟨⟨⟨res, lista'⟩, al₅⟩, -, hrun⟩ := hrun
            cases hrun
            exact Or.inr ⟨lista', rfl⟩
        | some lista =>
          dsimp only at hrun
          rw [run_bind, bind_eq_ok] at hrun
          obtain ⟨⟨⟨res, lista'⟩, al₅⟩, -, hrun⟩ := hrun
          cases hrun
          exact Or.inr ⟨lista', rfl⟩
  next =>
    cases hrun
    exact Or.inl rfl

theorem Occupied.put {t t' : Table} (h : t.WF) {occupied : List Nat} (hocc : Occupied t occupied)
    {key : CStr} (hlists : t' = t ∨ ∃ l, t' = t.setList (slot t.size key) l) (hnew : key ∉ t.map)
    (hstored : key ∈ t'.map) : Occupied t' (slot t.size key :: occupied) := by
  rcases hlists with rfl | ⟨l, rfl⟩
  · exact absurd hstored hnew
  · intro key'
    have hlist : (t.setList (slot t.size key) l).listOf key'
        = if slot t.size key' = slot t.size key then some l else t.listOf key' := by
      unfold listOf
      rw [setList_size]
      show ((t.lists.set (slot t.size key) (some l))[slot t.size key']?).getD none = _
      by_cases hslot : slot t.size key' = slot t.size key
      · rw [if_pos hslot, hslot, List.getElem?_set_self (h.slot_lt key)]
        rfl
      · rw [if_neg hslot, List.getElem?_set_ne fun he => hslot he.symm]
    rw [hlist, setList_size, List.mem_cons, not_or]
    split
    next hslot => simp [hslot]
    next hslot => simp [hslot, hocc key']

theorem Occupied.mallocs {t : Table} {occupied : List Nat} (hocc : Occupied t occupied)
    (key : CStr) :
    (if t.listOf key = none then 6 else 5) = if slot t.size key ∈ occupied then 5 else 6 := by
  by_cases hin : slot t.size key ∈ occupied
  · rw [if_pos hin, if_neg]
    intro hnone
    exact (hocc key).mp hnone hin
  · rw [if_neg hin, if_pos ((hocc key).mpr hin)]

/-- The positions of a fresh table are free. -/
theorem occupied_replicate (n : Int) :
    Occupied ⟨List.replicate n.toNat none, n⟩ [] := by
  intro key
  refine iff_of_true ?_ (List.not_mem_nil)
  unfold listOf
  rw [List.getElem?_replicate]
  split <;> rfl

section Puts

/-- Which keys have an index depends on the number of lists only. -/
theorem indexes_congr {t t' : Table} (hsz : t'.size = t.size) (key : CStr) :
    t'.Indexes key ↔ t.Indexes key := by
  unfold Indexes
  rw [hsz]

/-- The keys still to come are new after a put. -/
theorem notMem_insert {t t₁ : Table} {e : Entry} {es : List Entry} {v : List Byte}
    (hfresh : e.key ∉ es.map Entry.key) (hnew : ∀ e' ∈ e :: es, e'.key ∉ t.map)
    (hinsert : t₁.map = t.map.insert e.key v) : ∀ e' ∈ es, e'.key ∉ t₁.map := by
  intro e' he' hmem
  rw [hinsert, Finmap.mem_insert] at hmem
  rcases hmem with heq | hold
  · exact hfresh (heq ▸ List.mem_map_of_mem he')
  · exact hnew e' (List.mem_cons_of_mem _ he') hold

/-- One put of the loop, and the rest of it. -/
theorem putEntries_cons {t t' : Table} {e : Entry} {rest : List (Option Entry)} {al al' : Allocs}
    (hrun : putEntries t (some e :: rest) al = .ok (t', al')) :
    ∃ r t₁ al₁, tablePut t e.key (some e.value) al = .ok ((r, t₁), al₁) ∧
      putEntries t₁ rest al₁ = .ok (t', al') := by
  unfold putEntries at hrun
  rw [run_bind, bind_eq_ok] at hrun
  obtain ⟨⟨⟨r, t₁⟩, al₁⟩, hput, hrest⟩ := hrun
  exact ⟨r, t₁, al₁, hput, hrest⟩

variable {es : List Entry} (hst : ∀ e ∈ es, Stored e) (rest : List (Option Entry))

include hst

/-- The loop adds no key but those of the entries before the first NULL. -/
theorem putEntries_keys {t t' : Table} (h : t.WF) {al al' : Allocs}
    (hrun : putEntries t (es.map some ++ none :: rest) al = .ok (t', al')) :
    ∀ key ∈ t'.map, key ∈ t.map ∨ key ∈ es.map Entry.key := by
  induction es generalizing t al with
  | nil =>
    cases hrun
    exact fun key hkey => Or.inl hkey
  | cons e es ih =>
    obtain ⟨r, t₁, al₁, hput, hrest⟩ := putEntries_cons hrun
    obtain ⟨v, hv, hblock⟩ := hst e (List.mem_cons_self ..)
    have hvalid : e.value.Valid := hblock ▸ Block.ofBytes_valid hv
    obtain ⟨hwf₁, -, hmap₁⟩ := tablePut_inv h hvalid hput
    intro key hkey
    rw [List.map_cons, List.mem_cons]
    rcases ih (fun e' he' => hst e' (List.mem_cons_of_mem _ he')) hwf₁ hrest key hkey with h₁ | h₁
    · rcases hmap₁ with hsame | ⟨-, -, -, hinsert⟩
      · exact Or.inl (hsame ▸ h₁)
      · rw [hinsert, Finmap.mem_insert] at h₁
        rcases h₁ with heq | hold
        · exact Or.inr (Or.inl heq)
        · exact Or.inl hold
    · exact Or.inr (Or.inr h₁)

variable (hnd : (es.map Entry.key).Nodup)

include hnd

/-- Where all the keys are there in the end, each was put without a failing allocation. -/
theorem mallocs_of_putEntries {t t' : Table} (h : t.WF) {occupied : List Nat}
    (hocc : Occupied t occupied) (hnew : ∀ e ∈ es, e.key ∉ t.map) {al al' : Allocs}
    (hrun : putEntries t (es.map some ++ none :: rest) al = .ok (t', al'))
    (hall : ∀ e ∈ es, e.key ∈ t'.map) :
    (∀ e ∈ es, t.Indexes e.key) ∧
      ∀ i < putMallocs t.size occupied (es.map Entry.key), al i = true := by
  induction es generalizing t al occupied with
  | nil =>
    refine ⟨List.forall_mem_nil _, ?_⟩
    intro i hi
    exact absurd hi (Nat.not_lt_zero i)
  | cons e es ih =>
    obtain ⟨r, t₁, al₁, hput, hrest⟩ := putEntries_cons hrun
    obtain ⟨v, hv, hblock⟩ := hst e (List.mem_cons_self ..)
    have hvalid : e.value.Valid := hblock ▸ Block.ofBytes_valid hv
    have hst' : ∀ e' ∈ es, Stored e' := fun e' he' => hst e' (List.mem_cons_of_mem _ he')
    rw [List.map_cons, List.nodup_cons] at hnd
    obtain ⟨hfresh, hnd'⟩ := hnd
    have hkey := hnew e (List.mem_cons_self ..)
    obtain ⟨hwf₁, hsz₁, hmap₁⟩ := tablePut_inv h hvalid hput
    -- the other entries have other keys, so this one was stored by its own put
    have hstored : e.key ∈ t₁.map := by
      have hmem := hall e (List.mem_cons_self ..)
      rcases putEntries_keys hst' rest hwf₁ hrest e.key hmem with h₁ | h₁
      · exact h₁
      · exact absurd h₁ hfresh
    rcases hmap₁ with hsame | ⟨hk, hstores, rfl, hinsert⟩
    · exact absurd (hsame ▸ hstored) hkey
    · have hocc₁ := hocc.put h (tablePut_lists hput) hkey hstored
      have hnew₁ := notMem_insert hfresh hnew hinsert
      obtain ⟨hindex, hmallocs⟩ := ih hst' hnd' hwf₁ hocc₁ hnew₁ hrest
        fun e' he' => hall e' (List.mem_cons_of_mem _ he')
      obtain ⟨hiff, hused⟩ := putOutcome_stores_iff (fun hmem => hkey (h.mem_map.mpr hmem)) al
      rw [hused hstores, hocc.mallocs e.key, hsz₁] at hmallocs
      have hfirst := hiff.mp hstores
      rw [hocc.mallocs e.key] at hfirst
      refine ⟨?_, ?_⟩
      · intro e' he'
        rcases List.mem_cons.mp he' with heq | hmem
        · exact heq ▸ hk
        · exact (indexes_congr hsz₁ e'.key).mp (hindex e' hmem)
      · rw [List.map_cons, putMallocs, Allocs.forall_lt_add]
        exact ⟨hfirst, hmallocs⟩

/-- Where no allocation fails and every key has an index, every entry is put. -/
theorem putEntries_all {t : Table} (h : t.WF) {occupied : List Nat} (hocc : Occupied t occupied)
    (hnew : ∀ e ∈ es, e.key ∉ t.map) (hindex : ∀ e ∈ es, t.Indexes e.key) {al : Allocs}
    (hmallocs : ∀ i < putMallocs t.size occupied (es.map Entry.key), al i = true) :
    ∃ t' al', putEntries t (es.map some ++ none :: rest) al = .ok (t', al') ∧
      t'.map = es.foldl (fun M e => M.insert e.key e.bytes) t.map := by
  induction es generalizing t al occupied with
  | nil => exact ⟨t, al, rfl, rfl⟩
  | cons e es ih =>
    obtain ⟨v, hv, hblock⟩ := hst e (List.mem_cons_self ..)
    have hvalid : e.value.Valid := hblock ▸ Block.ofBytes_valid hv
    have hst' : ∀ e' ∈ es, Stored e' := fun e' he' => hst e' (List.mem_cons_of_mem _ he')
    rw [List.map_cons, List.nodup_cons] at hnd
    obtain ⟨hfresh, hnd'⟩ := hnd
    have hkey := hnew e (List.mem_cons_self ..)
    obtain ⟨hiff, hused⟩ := putOutcome_stores_iff (fun hmem => hkey (h.mem_map.mpr hmem)) al
    rw [hocc.mallocs e.key] at hiff hused
    rw [List.map_cons, putMallocs, Allocs.forall_lt_add] at hmallocs
    obtain ⟨hfirst, hrest⟩ := hmallocs
    have hstores := hiff.mpr hfirst
    obtain ⟨t₁, hput, hwf₁, hsz₁, hmap₁⟩ :=
      tablePut_run h (hindex e (List.mem_cons_self ..)) hvalid al
    rw [if_pos hstores] at hmap₁
    have hstored : e.key ∈ t₁.map := by
      rw [hmap₁, Finmap.mem_insert]
      exact Or.inl rfl
    have hocc₁ := hocc.put h (tablePut_lists hput) hkey hstored
    have hnew₁ := notMem_insert hfresh hnew hmap₁
    have hindex₁ : ∀ e' ∈ es, t₁.Indexes e'.key := by
      intro e' he'
      exact (indexes_congr hsz₁ e'.key).mpr (hindex e' (List.mem_cons_of_mem _ he'))
    have hrest₁ : ∀ i < putMallocs t₁.size (slot t.size e.key :: occupied) (es.map Entry.key),
        Allocs.drop al (putOutcome (t.listOf e.key) e.key al).used i = true := by
      rw [hsz₁, hused hstores]
      exact hrest
    obtain ⟨t', al', hrun, hmap⟩ := ih hst' hnd' hwf₁ hocc₁ hnew₁ hindex₁ hrest₁
    refine ⟨t', al', ?_, ?_⟩
    · rw [List.map_cons, List.cons_append]
      unfold putEntries
      rw [run_bind_ok hput]
      exact hrun
    · rw [hmap, hmap₁]
      rfl

end Puts

/-! ## `set_antecessor` and `main` -/

/-- How the GETTABLE exchange with the predecessor ends. Only a listing whose size fits the
two bytes of its frame arrives as it was sent. A larger one is announced modulo 2^16; where
its first bytes happen to be another message with the opcode of a listing, that is none of
the outcomes here. -/
inductive TableAnswer (snapshot : Table)
  /-- `network_send_receive` returns NULL. -/
  | lost
  | refused (receivedMsg : MessageT) (hop : receivedMsg.opcode ≠ OP_GETTABLE + 1)
  | listing (hfit : messageSize (tableReply snapshot) ≤ 65535)

variable {snapshot : Table}

/-- What `network_send_receive` returns. -/
def TableAnswer.receivedMsg : TableAnswer snapshot → Option MessageT
  | lost => none
  | refused receivedMsg _ => some receivedMsg
  | listing _ => some (tableReply snapshot).toMessageT

/-- What `main` is given and finds. -/
structure Startup (snapshot : Table) where
  nLists : Int
  nodeId : CStr
  /-- The children of `/chain`; `none` where one of the ZooKeeper calls before failed. -/
  childrenList : Option (List CStr)
  /-- `get_node_data`. -/
  nodeData : CStr → Option CStr
  /-- The socket part of `rtable_connect` succeeds. -/
  reached : Bool
  answer : TableAnswer snapshot

/-- `server_skeleton_init`, with the allocation of `stats_create`. -/
def serverSkeletonInit (nLists : Int) : CM (Option Table) := do
  discard malloc
  tableCreate nLists

namespace Startup

/-- `set_antecessor`: its result, and the table it leaves. -/
def setAntecessor (env : Startup snapshot) (childrenList : List CStr) (table : Option Table) :
    CM (Int × Option Table) :=
  match antecessor env.nodeId none childrenList with
  | none => pure (0, table)
  | some antecessor =>
    match rtableConnect 0 (env.nodeData antecessor) env.reached with
    | none => pure (-1, table)
    | some _ => do
      let previousServer : Remote Unit := fun _ => pure env.answer.receivedMsg
      match table with
      -- `table_put` leaves a NULL table alone
      | none =>
        discard (rtableGetTable previousServer ())
        pure (0, none)
      | some table =>
        let (table, _) ← KvStorage.setAntecessor previousServer table ()
        pure (0, some table)

/-- How `main` goes on: in the loop of `network_main_loop`, or to the end of the process. -/
inductive Started
  | serving (table : Table)
  | stopped

/-- `main`, up to the loop of `network_main_loop`, with what `set_antecessor` reported to it
where it was called. -/
def main (env : Startup snapshot) : CM (Option Int × Started) := do
  let table ← serverSkeletonInit env.nLists
  match env.childrenList with
  -- `exit(EXIT_FAILURE)`
  | none => pure (none, .stopped)
  | some childrenList =>
    -- nothing depends on the result of `set_antecessor`
    let (reported, table) ← env.setAntecessor childrenList table
    match table with
    -- `network_main_loop` returns -1
    | none => pure (some reported, .stopped)
    | some table => pure (some reported, .serving table)

/-- The predecessor `set_antecessor` chooses. -/
def Behind (env : Startup snapshot) (antecessor : CStr) : Prop :=
  ∃ childrenList, env.childrenList = some childrenList ∧
    KvStorage.antecessor env.nodeId none childrenList = some antecessor

/-- `main` comes to its end, and behind a predecessor it serves the snapshot, or an error was
reported to it and it does not serve. -/
def ServesSnapshot (env : Startup snapshot) (al : Allocs) : Prop :=
  ∃ reported started al', env.main al = .ok ((reported, started), al') ∧
    ∀ antecessor, env.Behind antecessor →
      (∃ table, started = .serving table ∧ table.map = snapshot.map) ∨
        reported = some (-1) ∧ started = .stopped

/-- `server_skeleton_init` gives a table: the first of its three allocations is for the
statistics. -/
def HasTable (env : Startup snapshot) (al : Allocs) : Prop :=
  0 < env.nLists ∧ al 1 = true ∧ al 2 = true

/-- The allocations of a whole transfer: the array of entries, the copies, the puts. -/
def transferMallocs (snapshot : Table) (nLists : Int) : Nat :=
  1 + (6 * snapshot.entries.length + putMallocs nLists [] (snapshot.entries.map Entry.key))

/-- Nothing fails on the way from the node's data to the last put. The first three
allocations are those of `server_skeleton_init`. -/
structure Transfers (env : Startup snapshot) (antecessor : CStr) (al : Allocs) : Prop where
  connected : rtableConnect 0 (env.nodeData antecessor) env.reached ≠ none
  answered : ∃ hfit, env.answer = .listing hfit
  indexed : ∀ key ∈ snapshot.map, 0 ≤ hashValue key env.nLists
  allocated : ∀ i < transferMallocs snapshot env.nLists, Allocs.drop al 3 i = true

end Startup

/-! ## When the table is the snapshot -/

/-- An empty table has no entries. -/
theorem map_eq_empty_iff {t : Table} : t.map = ∅ ↔ t.entries = [] := by
  constructor
  · intro hmap
    by_contra hne
    obtain ⟨e, he⟩ := List.exists_mem_of_ne_nil _ hne
    have hmem := mem_entries_keys.mp (List.mem_map_of_mem he)
    rw [hmap] at hmem
    exact Finmap.notMem_empty hmem
  · intro hentries
    rw [Table.map, hentries]
    rfl

theorem not_mem_fresh (n : Int) (key : CStr) :
    key ∉ (Table.mk (List.replicate n.toNat none) n).map := by
  rw [map_replicate]
  exact Finmap.notMem_empty

/-- A table with the snapshot's map has its keys. -/
theorem mem_of_map_eq {t : Table} (hmap : t.map = snapshot.map) :
    ∀ e ∈ snapshot.entries, e.key ∈ t.map := by
  intro e he
  rw [hmap]
  exact mem_entries_keys.mp (List.mem_map_of_mem he)

/-- All copies are there: the puts make the snapshot unless one of them fails. -/
theorem putEntries_complete_iff (h : snapshot.WF) {n : Int} (hn : 0 < n) {al : Allocs} :
    (∃ t al₁, putEntries ⟨List.replicate n.toNat none, n⟩ (snapshot.entries.map some ++ [none]) al
        = .ok (t, al₁) ∧ t.map = snapshot.map) ↔
      (∀ key ∈ snapshot.map, 0 ≤ hashValue key n) ∧
        ∀ i < putMallocs n [] (snapshot.entries.map Entry.key), al i = true := by
  have hwf := wf_replicate hn
  constructor
  · intro ⟨t, al₁, hrun, hmap⟩
    obtain ⟨hindex, hmallocs⟩ := mallocs_of_putEntries h.stored [] h.nodup_keys hwf
      (occupied_replicate n) (fun e _ => not_mem_fresh n e.key) hrun (mem_of_map_eq hmap)
    refine ⟨?_, hmallocs⟩
    intro key hkey
    obtain ⟨e, he, rfl⟩ := List.mem_map.mp (mem_entries_keys.mpr hkey)
    exact hindex e he
  · intro ⟨hindex, hmallocs⟩
    obtain ⟨t, al₁, hrun, hmap⟩ := putEntries_all h.stored [] h.nodup_keys hwf
      (occupied_replicate n) (fun e _ => not_mem_fresh n e.key)
      (fun e he => hindex e.key (mem_entries_keys.mp (List.mem_map_of_mem he))) hmallocs
    refine ⟨t, al₁, hrun, ?_⟩
    rw [hmap, map_replicate]
    exact foldl_insert_empty Entry.key Entry.bytes h.nodup_keys

/-- An entry whose copy is NULL is not put, and no other one has its key. -/
theorem putEntries_missing (h : snapshot.WF) {n : Int} (hn : 0 < n) {al al₁ : Allocs}
    {pre post : List Entry} {rest : List (Option Entry)} (hsplit : snapshot.entries = pre ++ post)
    (hpost : post ≠ []) {t : Table} (hrun : putEntries ⟨List.replicate n.toNat none, n⟩
      (pre.map some ++ none :: rest ++ [none]) al = .ok (t, al₁)) : t.map ≠ snapshot.map := by
  intro hmap
  obtain ⟨e, he⟩ := List.exists_mem_of_ne_nil _ hpost
  have hst : ∀ e ∈ pre, Stored e := by
    intro e he
    exact h.stored e (hsplit ▸ List.mem_append_left _ he)
  have hnd := h.nodup_keys
  rw [hsplit, List.map_append, List.nodup_append] at hnd
  rw [List.append_assoc, List.cons_append] at hrun
  have hmem : e.key ∈ t.map := mem_of_map_eq hmap e (hsplit ▸ List.mem_append_right _ he)
  rcases putEntries_keys hst (rest ++ [none]) (wf_replicate hn) hrun e.key hmem with hempty | hpre
  · exact absurd hempty (not_mem_fresh n e.key)
  · exact absurd rfl (hnd.2.2 e.key hpre e.key (List.mem_map_of_mem he))

/-- A table that was filled up to the first NULL: it is the snapshot when nothing failed. -/
theorem putEntries_copies_iff (h : snapshot.WF) {n : Int} (hn : 0 < n) {al al' : Allocs}
    {copies : List (Option Entry)} (hcopies : CopiesOf snapshot.entries al copies al') :
    (∃ t al₁, putEntries ⟨List.replicate n.toNat none, n⟩ (copies ++ [none]) al'
        = .ok (t, al₁) ∧ t.map = snapshot.map) ↔
      (∀ key ∈ snapshot.map, 0 ≤ hashValue key n) ∧
        ∀ i < 6 * snapshot.entries.length +
          putMallocs n [] (snapshot.entries.map Entry.key), al i = true := by
  rcases hcopies with ⟨rfl, rfl, h6⟩ | ⟨⟨i, hi, hfail⟩, pre, post, rest, hsplit, hpost, rfl⟩
  · rw [Allocs.forall_lt_add, and_iff_right h6]
    exact putEntries_complete_iff h hn
  · constructor
    · intro ⟨t, al₁, hrun, hmap⟩
      exact absurd hmap (putEntries_missing h hn hsplit hpost hrun)
    · intro ⟨_, hmallocs⟩
      have htrue := hmallocs i (by omega)
      rw [hfail] at htrue
      cases htrue

/-- `set_antecessor` past `rtable_connect`, where the listing arrives. -/
theorem setAntecessor_listing_iff (h : snapshot.WF)
    (hfit : messageSize (tableReply snapshot) ≤ 65535) {n : Int} (hn : 0 < n) (al : Allocs) :
    (∃ t al', setAntecessor (W := Unit) (fun _ => pure (some (tableReply snapshot).toMessageT))
        ⟨List.replicate n.toNat none, n⟩ () al = .ok ((t, ()), al') ∧ t.map = snapshot.map) ↔
      snapshot.map = ∅ ∨ (∀ key ∈ snapshot.map, 0 ≤ hashValue key n) ∧
        ∀ i < Startup.transferMallocs snapshot n, al i = true := by
  have hget := copyReceivedEntries_run h hfit al
  have hempty : snapshot.map = ∅ → (∀ key ∈ snapshot.map, 0 ≤ hashValue key n) ∧
      6 * snapshot.entries.length + putMallocs n [] (snapshot.entries.map Entry.key) = 0 := by
    intro hmap
    rw [hmap, map_eq_empty_iff.mp hmap]
    exact ⟨fun key hkey => absurd hkey Finmap.notMem_empty, rfl⟩
  unfold Startup.transferMallocs setAntecessor
  rw [state_bind, rtableGetTable_of_listing, Allocs.forall_lt_add]
  split at hget
  next h0 =>
    obtain ⟨copies, al', hrun, hcopies⟩ := hget
    have hcopy := putEntries_copies_iff h hn hcopies
    rw [state_lift_ok hrun, ok_bind]
    simp only [state_lift_eq_ok, and_true]
    rw [hcopy]
    constructor
    · intro ⟨hindex, hmallocs⟩
      refine Or.inr ⟨hindex, ?_, hmallocs⟩
      intro i hi
      rw [Nat.lt_one_iff.mp hi]
      exact h0
    · intro hright
      rcases hright with hmap | ⟨hindex, _, hmallocs⟩
      · obtain ⟨hindex, hzero⟩ := hempty hmap
        refine ⟨hindex, ?_⟩
        rw [hzero]
        exact fun i hi => absurd hi (Nat.not_lt_zero i)
      · exact ⟨hindex, hmallocs⟩
  next h0 =>
    rw [state_lift_ok hget, ok_bind]
    constructor
    · intro ⟨t, al', hrun, hmap⟩
      cases hrun
      rw [map_replicate] at hmap
      exact Or.inl hmap.symm
    · intro hright
      rcases hright with hmap | ⟨_, hfirst, _⟩
      · exact ⟨_, _, rfl, (map_replicate _ _).trans hmap.symm⟩
      · exact absurd (hfirst 0 Nat.one_pos) h0

/-- `server_skeleton_init` never faults; the table is there where its memory is. -/
theorem serverSkeletonInit_run (n : Int) (al : Allocs) : ∃ table al',
    serverSkeletonInit n al = .ok (table, al') ∧
      (table = none ∧ ¬ (0 < n ∧ al 1 = true ∧ al 2 = true) ∨
        table = some ⟨List.replicate n.toNat none, n⟩ ∧ (0 < n ∧ al 1 = true ∧ al 2 = true) ∧
          al' = Allocs.drop al 3) := by
  unfold serverSkeletonInit tableCreate
  rw [run_bind, run_discard, malloc_run, ok_bind, ok_bind]
  dsimp only
  by_cases hn : n ≤ 0
  · rw [if_pos hn]
    refine ⟨none, _, rfl, Or.inl ⟨rfl, ?_⟩⟩
    intro hcreated
    omega
  · rw [if_neg hn, run_bind, malloc_run, ok_bind]
    dsimp only [Nat.zero_add]
    cases h1 : al 1 with
    | false => exact ⟨none, _, rfl, Or.inl ⟨rfl, by simp⟩⟩
    | true =>
      rw [if_pos rfl, run_bind, malloc_run, ok_bind]
      cases h2 : al 2 with
      | false =>
        exact ⟨none, fun i => al (i + 1 + 1 + 1), rfl, Or.inl ⟨rfl, by simp⟩⟩
      | true =>
        exact ⟨some ⟨List.replicate n.toNat none, n⟩, fun i => al (i + 1 + 1 + 1), rfl,
          Or.inr ⟨rfl, ⟨by omega, rfl, rfl⟩, rfl⟩⟩

namespace Startup

variable {env : Startup snapshot} {childrenList : List CStr} {found : CStr} {al al' : Allocs}

/-- Fetching the table does not fault. -/
theorem rtableGetTable_ok (h : snapshot.WF) (answer : TableAnswer snapshot) (al : Allocs) :
    ∃ p, rtableGetTable (W := Unit) (fun _ => pure answer.receivedMsg) () al = .ok p := by
  cases answer with
  | lost => exact ⟨_, rfl⟩
  | refused receivedMsg hop =>
    have hcall : (pure (some receivedMsg) : StateT Unit CM (Option MessageT)) () al
        = .ok ((some receivedMsg, ()), al) := rfl
    refine ⟨((none, ()), al), ?_⟩
    unfold rtableGetTable
    rw [TableAnswer.receivedMsg, state_bind_ok hcall]
    dsimp only
    rw [if_pos hop]
    rfl
  | listing hfit =>
    have hcopies := copyReceivedEntries_run h hfit al
    rw [TableAnswer.receivedMsg, rtableGetTable_of_listing]
    split at hcopies
    next =>
      obtain ⟨copies, al', hrun, _⟩ := hcopies
      exact ⟨_, state_lift_ok hrun⟩
    next => exact ⟨_, state_lift_ok hcopies⟩

/-- Without a listing nothing is put. -/
theorem setAntecessor_no_listing {W : Type} {w : W} {received : Option MessageT}
    (hno : ∀ receivedMsg, received = some receivedMsg → receivedMsg.opcode ≠ OP_GETTABLE + 1)
    (table : Table) :
    KvStorage.setAntecessor (fun _ => pure received) table w al = .ok ((table, w), al) := by
  unfold KvStorage.setAntecessor rtableGetTable
  cases received with
  | none => rfl
  | some receivedMsg =>
    have hcall : (pure (some receivedMsg) : StateT W CM (Option MessageT)) w al
        = .ok ((some receivedMsg, w), al) := rfl
    rw [state_bind, state_bind_ok hcall]
    dsimp only
    rw [if_pos (hno receivedMsg rfl)]
    rfl

theorem setAntecessor_first (hfound : antecessor env.nodeId none childrenList = none)
    (table : Option Table) : env.setAntecessor childrenList table = pure (0, table) := by
  unfold setAntecessor
  rw [hfound]

theorem setAntecessor_unconnected (hfound : antecessor env.nodeId none childrenList = some found)
    (hconnect : rtableConnect 0 (env.nodeData found) env.reached = none) (table : Option Table) :
    env.setAntecessor childrenList table = pure (-1, table) := by
  unfold setAntecessor
  rw [hfound]
  dsimp only
  rw [hconnect]

theorem setAntecessor_connected (hfound : antecessor env.nodeId none childrenList = some found)
    (hconnect : rtableConnect 0 (env.nodeData found) env.reached ≠ none) (table : Table) :
    env.setAntecessor childrenList (some table) = (do
      let (table, _) ← KvStorage.setAntecessor (fun _ => pure env.answer.receivedMsg) table ()
      pure (0, some table)) := by
  obtain ⟨previousServer, hsome⟩ := Option.ne_none_iff_exists'.mp hconnect
  unfold setAntecessor
  rw [hfound]
  dsimp only
  rw [hsome]

/-- A NULL table stays NULL, whatever arrives; only a failed connection is reported. -/
theorem setAntecessor_none (h : snapshot.WF)
    (hfound : antecessor env.nodeId none childrenList = some found) (al : Allocs) :
    ∃ r al', env.setAntecessor childrenList none al = .ok ((r, none), al') ∧
      (r = -1 ↔ rtableConnect 0 (env.nodeData found) env.reached = none) := by
  cases hconnect : rtableConnect 0 (env.nodeData found) env.reached with
  | none =>
    exact ⟨-1, al, by rw [setAntecessor_unconnected hfound hconnect]; rfl, iff_of_true rfl rfl⟩
  | some previousServer =>
    obtain ⟨p, hget⟩ := rtableGetTable_ok h env.answer al
    unfold setAntecessor
    rw [hfound]
    dsimp only
    rw [hconnect]
    dsimp only
    rw [run_bind, run_discard, hget]
    exact ⟨0, p.2, rfl, iff_of_false (by decide) (Option.some_ne_none _)⟩

/-- A table stays a table. -/
theorem setAntecessor_some {table : Table} {r : Int} {table' : Option Table}
    (hrun : env.setAntecessor childrenList (some table) al = .ok ((r, table'), al')) :
    ∃ t, table' = some t := by
  cases hfound : antecessor env.nodeId none childrenList with
  | none =>
    rw [setAntecessor_first hfound] at hrun
    cases hrun
    exact ⟨table, rfl⟩
  | some found =>
    by_cases hconnect : rtableConnect 0 (env.nodeData found) env.reached = none
    · rw [setAntecessor_unconnected hfound hconnect] at hrun
      cases hrun
      exact ⟨table, rfl⟩
    · rw [setAntecessor_connected hfound hconnect, run_bind, bind_eq_ok] at hrun
      obtain ⟨⟨⟨t, u⟩, al₁⟩, _, heq⟩ := hrun
      cases heq
      exact ⟨t, rfl⟩

/-- A fresh table has what the predecessor's has only where that is empty. -/
theorem map_fresh_eq_iff (n : Int) :
    (Table.mk (List.replicate n.toNat none) n).map = snapshot.map ↔ snapshot.map = ∅ := by
  rw [map_replicate, eq_comm]

/-- Past the connection, `set_antecessor` of `main` is the one of the transfer. -/
theorem setAntecessor_connected_iff
    (hfound : antecessor env.nodeId none childrenList = some found)
    (hconnect : rtableConnect 0 (env.nodeData found) env.reached ≠ none) {table : Table}
    {map : KvMap} :
    (∃ r t al', env.setAntecessor childrenList (some table) al = .ok ((r, some t), al') ∧
        t.map = map) ↔
      ∃ t al', KvStorage.setAntecessor (fun _ => pure env.answer.receivedMsg) table () al
        = .ok ((t, ()), al') ∧ t.map = map := by
  rw [setAntecessor_connected hfound hconnect]
  constructor
  · intro ⟨r, t, al', hput, hmap⟩
    rw [run_bind, bind_eq_ok] at hput
    obtain ⟨⟨⟨t', u⟩, al₁⟩, hput, heq⟩ := hput
    cases heq
    exact ⟨t, _, hput, hmap⟩
  · intro ⟨t, al', hput, hmap⟩
    exact ⟨0, t, al', run_bind_ok hput, hmap⟩

theorem Transfers.received (htransfers : env.Transfers found al) :
    env.answer.receivedMsg = some (tableReply snapshot).toMessageT := by
  obtain ⟨hfit, hlisting⟩ := htransfers.answered
  rw [hlisting]
  rfl

/-- The predecessor did not send its table: the fresh one stays as it is. -/
theorem setAntecessor_no_listing_iff (hno : ∀ receivedMsg,
    env.answer.receivedMsg = some receivedMsg → receivedMsg.opcode ≠ OP_GETTABLE + 1) :
    (∃ t al', KvStorage.setAntecessor (fun _ => pure env.answer.receivedMsg)
      ⟨List.replicate env.nLists.toNat none, env.nLists⟩ () (Allocs.drop al 3)
        = .ok ((t, ()), al') ∧ t.map = snapshot.map) ↔
      snapshot.map = ∅ ∨ env.Transfers found al := by
  have hnot : ¬ env.Transfers found al := fun htransfers => hno _ htransfers.received rfl
  rw [setAntecessor_no_listing hno, or_iff_left hnot, ← map_fresh_eq_iff env.nLists]
  constructor
  · intro ⟨t, al', heq, hmap⟩
    cases heq
    exact hmap
  · intro hmap
    exact ⟨_, _, rfl, hmap⟩

/-- A fresh table behind a predecessor. -/
theorem setAntecessor_fresh_iff (h : snapshot.WF) (hn : 0 < env.nLists)
    (hfound : antecessor env.nodeId none childrenList = some found) :
    (∃ r t al', env.setAntecessor childrenList
        (some ⟨List.replicate env.nLists.toNat none, env.nLists⟩) (Allocs.drop al 3)
          = .ok ((r, some t), al') ∧ t.map = snapshot.map) ↔
      snapshot.map = ∅ ∨ env.Transfers found al := by
  by_cases hconnect : rtableConnect 0 (env.nodeData found) env.reached = none
  · have hnot : ¬ env.Transfers found al := fun htransfers => htransfers.connected hconnect
    rw [setAntecessor_unconnected hfound hconnect, or_iff_left hnot,
      ← map_fresh_eq_iff env.nLists]
    constructor
    · intro ⟨r, t, al', hrun, hmap⟩
      cases hrun
      exact hmap
    · intro hmap
      exact ⟨_, _, _, rfl, hmap⟩
  · rw [setAntecessor_connected_iff hfound hconnect]
    cases hanswer : env.answer with
    | lost =>
      rw [← hanswer]
      refine setAntecessor_no_listing_iff ?_
      rw [hanswer]
      nofun
    | refused receivedMsg hop =>
      rw [← hanswer]
      refine setAntecessor_no_listing_iff ?_
      rw [hanswer]
      intro receivedMsg' heq
      cases heq
      exact hop
    | listing hfit =>
      refine (setAntecessor_listing_iff h hfit hn (Allocs.drop al 3)).trans ?_
      constructor
      · intro hleft
        rcases hleft with hmap | ⟨hindex, hmallocs⟩
        · exact Or.inl hmap
        · exact Or.inr ⟨hconnect, ⟨hfit, hanswer⟩, hindex, hmallocs⟩
      · intro hright
        rcases hright with hmap | htransfers
        · exact Or.inl hmap
        · exact Or.inr ⟨htransfers.indexed, htransfers.allocated⟩

/-- What `main` serves behind a predecessor is what `set_antecessor` leaves. -/
theorem servesSnapshot_iff_of_behind (hchildren : env.childrenList = some childrenList)
    (hfound : antecessor env.nodeId none childrenList = some found) {table : Option Table}
    (hinit : serverSkeletonInit env.nLists al = .ok (table, al')) :
    env.ServesSnapshot al ↔ ∃ r table' al₁, env.setAntecessor childrenList table al'
      = .ok ((r, table'), al₁) ∧
        ((∃ t, table' = some t ∧ t.map = snapshot.map) ∨ r = -1 ∧ table' = none) := by
  have hmain : env.main al = (env.setAntecessor childrenList table al').bind fun p =>
      match p.1.2 with
      | none => .ok ((some p.1.1, .stopped), p.2)
      | some t => .ok ((some p.1.1, .serving t), p.2) := by
    unfold main
    rw [run_bind_ok hinit, hchildren]
    dsimp only
    rw [run_bind]
    congr 1
    funext p
    obtain ⟨⟨r, table'⟩, al₁⟩ := p
    cases table' <;> rfl
  unfold ServesSnapshot
  rw [hmain]
  constructor
  · intro ⟨reported, started, al₁, hrun, hserves⟩
    rw [bind_eq_ok] at hrun
    obtain ⟨⟨⟨r, table'⟩, al₂⟩, hset, heq⟩ := hrun
    refine ⟨r, table', al₂, hset, ?_⟩
    have hmeets := hserves found ⟨childrenList, hchildren, hfound⟩
    cases table' with
    | none =>
      cases heq
      rcases hmeets with ⟨t, ht, -⟩ | ⟨hr, -⟩
      · cases ht
      · exact Or.inr ⟨Option.some.inj hr, rfl⟩
    | some t =>
      cases heq
      rcases hmeets with ⟨t', ht, hmap⟩ | ⟨-, hstopped⟩
      · cases ht
        exact Or.inl ⟨t, rfl, hmap⟩
      · cases hstopped
  · intro ⟨r, table', al₁, hset, hmeets⟩
    rw [hset, ok_bind]
    rcases hmeets with ⟨t, rfl, hmap⟩ | ⟨rfl, rfl⟩
    · exact ⟨some r, .serving t, al₁, rfl, fun _ _ => Or.inl ⟨t, rfl, hmap⟩⟩
    · exact ⟨some (-1), .stopped, al₁, rfl, fun _ _ => Or.inr ⟨rfl, rfl⟩⟩

/-- **When the transfer is the snapshot.** A server behind a predecessor that has a table
serves the predecessor's map when that is empty or nothing fails; in every other case it
serves another table, and `main` does not notice. One without a table does not serve, and
that is reported where the connection failed. -/
theorem serves_snapshot_iff (h : snapshot.WF) (env : Startup snapshot) (al : Allocs) :
    env.ServesSnapshot al ↔ ∀ antecessor, env.Behind antecessor →
      (env.HasTable al → snapshot.map = ∅ ∨ env.Transfers antecessor al) ∧
      (¬ env.HasTable al →
        rtableConnect 0 (env.nodeData antecessor) env.reached = none) := by
  obtain ⟨table, al', hinit, hcreated⟩ := serverSkeletonInit_run env.nLists al
  by_cases hbehind : ∃ found, env.Behind found
  · obtain ⟨found, childrenList, hchildren, hfound⟩ := hbehind
    have honly : ∀ {P : CStr → Prop}, (∀ a, env.Behind a → P a) ↔ P found := by
      intro P
      constructor
      · intro hall
        exact hall found ⟨childrenList, hchildren, hfound⟩
      · intro hp a ⟨childrenList', hchildren', hfound'⟩
        cases hchildren.symm.trans hchildren'
        cases hfound.symm.trans hfound'
        exact hp
    rw [servesSnapshot_iff_of_behind hchildren hfound hinit, honly]
    rcases hcreated with ⟨rfl, hno⟩ | ⟨rfl, hyes, rfl⟩
    · obtain ⟨r, al₁, hset, hreported⟩ := setAntecessor_none h hfound al'
      rw [and_iff_right fun hyes : env.HasTable al => absurd hyes hno, ← hreported]
      constructor
      · intro ⟨r', table', al₂, hset', hmeets⟩ _
        cases hset.symm.trans hset'
        rcases hmeets with ⟨t, ht, -⟩ | ⟨hr, -⟩
        · cases ht
        · exact hr
      · intro hr
        exact ⟨r, none, al₁, hset, Or.inr ⟨hr hno, rfl⟩⟩
    · rw [and_iff_left fun hno : ¬ env.HasTable al => absurd hyes hno,
        ← setAntecessor_fresh_iff h hyes.1 hfound]
      constructor
      · intro ⟨r, table', al₁, hset, hmeets⟩ _
        obtain ⟨t, rfl⟩ := setAntecessor_some hset
        rcases hmeets with ⟨t', ht, hmap⟩ | ⟨-, hnone⟩
        · cases ht
          exact ⟨r, t, al₁, hset, hmap⟩
        · cases hnone
      · intro hright
        obtain ⟨r, t, al₁, hset, hmap⟩ := hright hyes
        exact ⟨r, some t, al₁, hset, Or.inl ⟨t, rfl, hmap⟩⟩
  · refine iff_of_true ?_ fun a ha => absurd ⟨a, ha⟩ hbehind
    have hserved : ∃ reported started al₁, env.main al = .ok ((reported, started), al₁) := by
      unfold main
      rw [run_bind_ok hinit]
      cases hchildren : env.childrenList with
      | none => exact ⟨_, _, _, rfl⟩
      | some childrenList =>
        have hfirst : antecessor env.nodeId none childrenList = none := by
          by_contra hne
          obtain ⟨found, hfound⟩ := Option.ne_none_iff_exists'.mp hne
          exact hbehind ⟨found, childrenList, hchildren, hfound⟩
        dsimp only
        rw [setAntecessor_first hfirst]
        cases table <;> exact ⟨_, _, _, rfl⟩
    obtain ⟨reported, started, al₁, hrun⟩ := hserved
    exact ⟨reported, started, al₁, hrun, fun a ha => absurd ⟨a, ha⟩ hbehind⟩

/-! ## A predecessor that is gone -/

theorem singleEntry_wf : singleEntry.table.WF := by
  have hput : tablePut ⟨[none, none, none], 3⟩ keyA (some (Block.ofBytes [1])) allocated
      = .ok ((0, singleEntry.table), allocated) := rfl
  exact (tablePut_inv (wf_replicate (n := 3) (by decide))
    (Block.ofBytes_valid (List.cons_ne_nil 1 [])) hput).1

theorem singleEntry_fits : messageSize (tableReply singleEntry.table) ≤ 65535 := by decide

/-- The second of two servers; the first one has one entry. -/
def second (data : Option CStr) : Startup singleEntry.table :=
  ⟨2, digitId 1, some [digitId 0, digitId 1], fun _ => data, true, .listing singleEntry_fits⟩

theorem second_behind (data : Option CStr) : (second data).Behind (digitId 0) :=
  ⟨_, rfl, rfl⟩

theorem serves_snapshot_iff_second : (second (some secondData)).ServesSnapshot allocated := by
  refine (serves_snapshot_iff singleEntry_wf _ _).mpr ?_
  intro antecessor hbehind
  refine ⟨fun _ => Or.inr ?_, fun hno => absurd ⟨by decide, rfl, rfl⟩ hno⟩
  constructor
  · intro hnone
    cases hnone
  · exact ⟨singleEntry_fits, rfl⟩
  · intro key hkey
    have hmem := mem_entries_keys.mpr hkey
    rw [show singleEntry.table.entries.map Entry.key = [keyA] from rfl, List.mem_singleton] at hmem
    subst hmem
    decide
  · exact fun i hi => rfl

/-- The first server went away after the child list was read: `get_node_data` returns NULL,
and the second one serves its empty table. -/
theorem serves_empty_table : (second none).main allocated
      = .ok ((some (-1), .serving ⟨[none, none], 2⟩), allocated) ∧
    ¬ (second none).ServesSnapshot allocated := by
  have hmain : (second none).main allocated
      = .ok ((some (-1), .serving ⟨[none, none], 2⟩), allocated) := rfl
  refine ⟨hmain, ?_⟩
  intro ⟨reported, started, al', hrun, hserves⟩
  rw [hmain] at hrun
  cases hrun
  rcases hserves _ (second_behind none) with ⟨t, ht, hmap⟩ | ⟨-, hstopped⟩
  · cases ht
    have hempty := map_eq_empty_iff.mp (hmap.symm.trans (map_replicate 2 2))
    cases hempty
  · cases hstopped

end Startup

end KvStorage
