import KvStorage.Data.TableRuns

/-!
# What the return codes tell

A history is a run of puts and removes on a fresh table, with any outcome of the
allocations on the way. Two histories can end in the same contents and still leave
different tables: lists are allocated by the first put to their position and stay, empty
or not, and where an allocation failed there may be none.

`table_put` drops the answer of `list_add`, so one failing allocation is reported as a
success (`put_all_or_nothing_iff`). `table_remove` answers -1, and not 1, for a key whose
position has no list (`remove_by_contents_iff`).
-/

namespace KvStorage

open CLib SortedMap Table

/-! ## Histories -/

/-- A table that `table_create` made with `n` lists and the calls `ops` changed. -/
structure History (n : Int) (ops : List TableOp) (t : Table) : Prop where
  sevenBit : ∀ op ∈ ops, op.SevenBit
  run : ∃ t₀ al al₁ al₂, tableCreate n al = .ok (some t₀, al₁) ∧ runOps t₀ ops al₁ = .ok (t, al₂)

theorem runOp_size {t t' : Table} (h : t.WF) {op : TableOp} (hop : op.SevenBit) {al al' : Allocs}
    (hrun : runOp t op al = .ok (t', al')) : t'.size = t.size := by
  cases op with
  | put key value =>
    simp only [runOp, run_bind, bind_eq_ok] at hrun
    obtain ⟨⟨⟨r, t₁⟩, al₁⟩, hput, hret⟩ := hrun
    cases hret
    exact (tablePut_inv h hop.2 hput).2.1
  | remove key =>
    by_cases hk : t.Indexes key
    · obtain ⟨r, t₁, hremove, -, hsz, -⟩ := tableRemove_run h hk al
      simp only [runOp, run_bind, hremove, ok_bind, run_pure, Except.ok.injEq, Prod.mk.injEq]
        at hrun
      rw [← hrun.1]
      exact hsz
    · simp [runOp, tableRemove_unindexed hk] at hrun

theorem runOps_size {ops : List TableOp} (hops : ∀ op ∈ ops, op.SevenBit) : ∀ {t t' : Table},
    t.WF → SevenBitKeys t.map → ∀ {al al' : Allocs}, runOps t ops al = .ok (t', al') →
      t'.size = t.size := by
  induction ops with
  | nil =>
    intro t t' h hkeys al al' hrun
    cases hrun
    rfl
  | cons op ops ih =>
    intro t t' h hkeys al al' hrun
    unfold runOps at hrun
    rw [run_bind, bind_eq_ok] at hrun
    obtain ⟨⟨t₁, al₁⟩, hfirst, hrest⟩ := hrun
    have hop := hops op (List.mem_cons_self ..)
    obtain ⟨hwf₁, hkeys₁⟩ := runOp_sevenBit h hkeys hop hfirst
    rw [ih (fun op' hop' => hops op' (List.mem_cons_of_mem _ hop')) hwf₁ hkeys₁ hrest,
      runOp_size h hop hfirst]

namespace History

variable {n : Int} {ops : List TableOp} {t : Table}

theorem size_pos (h : History n ops t) : 0 < n := by
  obtain ⟨t₀, al, al₁, al₂, hcreate, -⟩ := h.run
  by_contra hn
  rw [tableCreate, if_pos (by omega)] at hcreate
  cases hcreate

/-- Every table with a history is well formed, with `n` positions. -/
theorem wf (h : History n ops t) : t.WF ∧ t.size = n := by
  have hpos := h.size_pos
  obtain ⟨t₀, al, al₁, al₂, hcreate, hrun⟩ := h.run
  have ht₀ := tableCreate_some hcreate
  subst ht₀
  have hempty : SevenBitKeys (Table.mk (List.replicate n.toNat none) n).map := by
    intro key hmem
    rw [map_replicate] at hmem
    exact absurd hmem Finmap.notMem_empty
  exact ⟨(runOps_sevenBit h.sevenBit (wf_replicate hpos) hempty hrun).1,
    runOps_size h.sevenBit (wf_replicate hpos) hempty hrun⟩

/-- The history that only creates the table. -/
theorem fresh (hn : 0 < n) : History n [] ⟨List.replicate n.toNat none, n⟩ :=
  ⟨List.forall_mem_nil _, _, _, _, _, tableCreate_allocated hn, rfl⟩

end History

/-- The entries of a table, in position order, depend on its map and its size only. -/
theorem entries_listing_eq {t₁ t₂ : Table} (h₁ : t₁.WF) (h₂ : t₂.WF) (hsize : t₁.size = t₂.size)
    (hmap : t₁.map = t₂.map) :
    listing Entry.key Entry.bytes t₁.entries = listing Entry.key Entry.bytes t₂.entries := by
  have hb₁ := h₁.toBuckets
  rw [hsize] at hb₁
  have hlen₁ := h₁.length_eq
  have hlen₂ := h₂.length_eq
  refine hb₁.listing_eq Entry.bytes h₂.toBuckets ?_ hmap
  unfold buckets
  rw [List.length_map, List.length_map]
  omega

/-! ## `table_put` -/

/-- Only the last allocation fails: the node of a key that is new to the list at its
position, which is there or was just created. -/
def NodeLost (pos : Option EntryList) (key : CStr) (al : Allocs) : Prop :=
  key ∉ (nodesOf pos).map Entry.key ∧ copied al = true ∧
    match pos with
    | none => al 4 = true ∧ al 5 = false
    | some _ => al 4 = false

/-- The outcome is a reported failure, or a success that stores, or the lost node. -/
theorem putOutcome_cases (pos : Option EntryList) (key : CStr) (al : Allocs) :
    ((putOutcome pos key al).res = -1 ∧ (putOutcome pos key al).stores = false ∧
        ¬ NodeLost pos key al) ∨
      ((putOutcome pos key al).res = 0 ∧
        ((putOutcome pos key al).stores = false ↔ NodeLost pos key al)) := by
  cases hcopied : copied al with
  | false =>
    obtain ⟨hres, hstores⟩ := putOutcome_of_not_copied hcopied pos key
    refine Or.inl ⟨hres, hstores, ?_⟩
    intro hlost
    rw [hlost.2.1] at hcopied
    cases hcopied
  | true =>
    have hall := hcopied
    simp only [copied, Bool.and_eq_true] at hall
    obtain ⟨⟨⟨h0, h1⟩, h2⟩, h3⟩ := hall
    unfold putOutcome NodeLost
    rw [h0, h1, h2, h3, hcopied]
    cases pos with
    | none => cases h4 : al 4 <;> simp [nodesOf]
    | some l => by_cases hmem : key ∈ l.nodes.map Entry.key <;> simp [nodesOf, hmem]

/-- What a caller may conclude from the answer of `table_put`. -/
def AllOrNothing (t : Table) (key : CStr) (b : Block) (al : Allocs) : Prop :=
  ∀ r t' al', tablePut t key (some b) al = .ok ((r, t'), al') →
    (r = 0 ∧ tableGet t' key allocated = .ok (some (Block.ofBytes b.content), allocated) ∨
      r = -1 ∧ t'.map = t.map) ∧
    ∀ k ≠ key, t'.map.lookup k = t.map.lookup k

/-- **When `table_put` is all or nothing**: unless the lost node is the only allocation
that fails. -/
theorem put_all_or_nothing_iff {n : Int} {ops : List TableOp} {t : Table} (ht : History n ops t)
    (key : CStr) {b : Block} (hb : b.Valid) (al : Allocs) :
    AllOrNothing t key b al ↔ ¬ (t.Indexes key ∧ NodeLost (t.listOf key) key al) := by
  obtain ⟨h, -⟩ := ht.wf
  by_cases hk : t.Indexes key
  · obtain ⟨t', hrun, hwf, hsz, hmap⟩ := tablePut_run h hk hb al
    have hk' : t'.Indexes key := by
      unfold Indexes at hk ⊢
      rw [hsz]
      exact hk
    have hget := tableGet_allocated hwf hk'
    have hothers : ∀ k ≠ key, t'.map.lookup k = t.map.lookup k := by
      intro k hne
      rw [hmap]
      split
      next => exact Finmap.lookup_insert_of_ne _ hne
      next => rfl
    rcases putOutcome_cases (t.listOf key) key al with ⟨hres, hstores, hlost⟩ | ⟨hres, hstores⟩
    · rw [hres] at hrun
      rw [hstores, if_neg Bool.false_ne_true] at hmap
      refine iff_of_true ?_ fun hcond => hlost hcond.2
      intro r t'' al' hrun'
      rw [hrun] at hrun'
      cases hrun'
      exact ⟨Or.inr ⟨rfl, hmap⟩, hothers⟩
    · rw [hres] at hrun
      constructor
      · intro hall ⟨_, hlost⟩
        -- the answer is 0, and the key is as absent as before
        rw [hstores.mpr hlost, if_neg Bool.false_ne_true] at hmap
        have habsent : t.map.lookup key = none :=
          Finmap.lookup_eq_none.mpr fun hmem => hlost.1 (h.mem_map.mp hmem)
        rw [hmap, habsent] at hget
        rcases (hall _ _ _ hrun).1 with ⟨-, hstored⟩ | ⟨hneg, -⟩
        · rw [hget] at hstored
          cases hstored
        · cases hneg
      · intro hcond r t'' al' hrun'
        rw [hrun] at hrun'
        cases hrun'
        have hstored : (putOutcome (t.listOf key) key al).stores = true := by
          rw [← Bool.not_eq_false, hstores]
          exact fun hlost => hcond ⟨hk, hlost⟩
        rw [hstored, if_pos rfl] at hmap
        rw [hmap, Finmap.lookup_insert] at hget
        exact ⟨Or.inl ⟨rfl, hget⟩, hothers⟩
  · refine iff_of_true ?_ fun hcond => hk hcond.1
    intro r t' al' hrun
    rw [tablePut_unindexed hk hb none al] at hrun
    split at hrun
    next => cases hrun
    next =>
      cases hrun
      exact ⟨Or.inr ⟨rfl, rfl⟩, fun _ _ => rfl⟩

/-- In a list that has `b`, the entry for `a` cannot be allocated: the answer is -1. -/
theorem put_all_or_nothing_noEntry : ∃ t t' al',
    History 1 [.put ⟨[98], by decide⟩ (Block.ofBytes [2])] t ∧
    tablePut t ⟨[97], by decide⟩ (some (Block.ofBytes [1])) (fun i => i != 2)
      = .ok ((-1, t'), al') ∧
    t'.map.lookup ⟨[98], by decide⟩ = some [2] ∧
    AllOrNothing t ⟨[97], by decide⟩ (Block.ofBytes [1]) (fun i => i != 2) := by
  have hput : ∀ op ∈ [TableOp.put ⟨[98], by decide⟩ (Block.ofBytes [2])], op.SevenBit := by
    intro op hop
    rw [List.mem_singleton.mp hop]
    exact ⟨by simp [CStr.SevenBit], Block.ofBytes_valid (by decide)⟩
  have hone : History 1 [.put ⟨[98], by decide⟩ (Block.ofBytes [2])]
      ⟨[some ⟨1, [⟨⟨[98], by decide⟩, Block.ofBytes [2]⟩]⟩], 1⟩ :=
    ⟨hput, _, allocated, allocated, allocated, tableCreate_allocated (by decide), rfl⟩
  refine ⟨_, _, _, hone, rfl, rfl, ?_⟩
  refine (put_all_or_nothing_iff hone _ (Block.ofBytes_valid (by decide)) _).mpr fun hcond => ?_
  exact absurd hcond.2.2.1 (by decide)

/-- The sixth allocation fails, the answer is 0, and the key is not there. -/
theorem lost_node_reported_stored :
    History 1 [] ⟨List.replicate (1 : Int).toNat none, 1⟩ ∧
      ¬ AllOrNothing ⟨List.replicate (1 : Int).toNat none, 1⟩ ⟨[97], by decide⟩
        (Block.ofBytes [1]) (fun i => i != 5) := by
  refine ⟨.fresh (by decide), fun hall => ?_⟩
  have hrun : tablePut ⟨List.replicate (1 : Int).toNat none, 1⟩ ⟨[97], by decide⟩
      (some (Block.ofBytes [1])) (fun i => i != 5)
      = .ok ((0, ⟨[some ⟨0, []⟩], 1⟩), fun i => i + 6 != 5) := rfl
  rcases (hall _ _ _ hrun).1 with ⟨-, hget⟩ | ⟨hneg, -⟩
  · cases hget
  · cases hneg

/-! ## `table_remove` -/

/-- The answer of `table_remove`: -1 where the key's position has no list. -/
def removeCode (t : Table) (key : CStr) : Int :=
  (t.listOf key).elim (-1) fun lista => if ∃ e ∈ lista.nodes, e.key = key then 0 else 1

theorem tableRemove_code {t : Table} (h : t.WF) {key : CStr} (hk : t.Indexes key) (al : Allocs) :
    ∃ t', tableRemove t key al = .ok ((removeCode t key, t'), al) ∧
      t'.map = t.map.erase key := by
  obtain ⟨r, t', hrun, -, -, hmap, -⟩ := tableRemove_run h hk al
  have hcode : r = removeCode t key := by
    unfold tableRemove at hrun
    unfold removeCode
    simp only [run_bind, h.arrayGet_hash hk, run_pure, ok_bind] at hrun
    cases hlist : t.listOf key with
    | none =>
      rw [hlist] at hrun
      cases hrun
      rfl
    | some lista =>
      obtain ⟨l', -, heq, -⟩ := listRemove_eq (h.good lista (h.listOf_mem hlist)) key
      rw [hlist] at hrun
      simp only [heq] at hrun
      cases hrun
      exact if_congr List.mem_map rfl rfl
  exact ⟨t', hcode ▸ hrun, hmap⟩

/-- The answer and the effect of `table_remove` are those of the contents. -/
def RemovesByContents (t : Table) (key : CStr) : Prop :=
  ∀ al, ∃ r t', tableRemove t key al = .ok ((r, t'), al) ∧
    (key ∈ t.map → r = 0 ∧ t'.map = t.map.erase key) ∧
    (key ∉ t.map → r = 1 ∧ t'.map = t.map)

/-- Both tables answer a remove of the key with the same code. -/
def SameCode (t₁ t₂ : Table) (key : CStr) : Prop :=
  ∀ al r₁ r₂ t₁' t₂', tableRemove t₁ key al = .ok ((r₁, t₁'), al) →
    tableRemove t₂ key al = .ok ((r₂, t₂'), al) → r₁ = r₂

theorem erase_of_notMem {M : KvMap} {key : CStr} (h : key ∉ M) : M.erase key = M := by
  apply Finmap.ext_lookup
  intro key'
  by_cases hkey : key' = key
  · rw [hkey, Finmap.lookup_erase, Finmap.lookup_eq_none.mpr h]
  · rw [Finmap.lookup_erase_ne hkey]

theorem removeCode_of_list {t : Table} (h : t.WF) {key : CStr} (hlist : t.listOf key ≠ none) :
    removeCode t key = if key ∈ t.map then 0 else 1 := by
  have hmem : key ∈ t.map ↔ key ∈ (nodesOf (t.listOf key)).map Entry.key := h.mem_map
  unfold removeCode
  cases hpos : t.listOf key with
  | none => exact absurd hpos hlist
  | some lista =>
    rw [hpos, nodesOf, List.mem_map] at hmem
    exact if_congr hmem.symm rfl rfl

theorem notMem_of_no_list {t : Table} (h : t.WF) {key : CStr} (hlist : t.listOf key = none) :
    key ∉ t.map := by
  rw [h.mem_map, hlist]
  exact List.not_mem_nil

theorem removesByContents_iff {t : Table} (h : t.WF) (key : CStr) :
    RemovesByContents t key ↔ t.Indexes key ∧ t.listOf key ≠ none := by
  by_cases hk : t.Indexes key
  · by_cases hlist : t.listOf key = none
    · refine iff_of_false (fun hall => ?_) fun hcond => hcond.2 hlist
      obtain ⟨t', hrun, -⟩ := tableRemove_code h hk allocated
      obtain ⟨r, t'', hrun', -, habsent⟩ := hall allocated
      obtain ⟨hone, -⟩ := habsent (notMem_of_no_list h hlist)
      rw [hrun, removeCode, hlist, hone] at hrun'
      cases hrun'
    · refine iff_of_true (fun al => ?_) ⟨hk, hlist⟩
      obtain ⟨t', hrun, hmap⟩ := tableRemove_code h hk al
      have hcode := removeCode_of_list h hlist
      refine ⟨_, t', hrun, fun hmem => ⟨?_, hmap⟩, fun hmem => ⟨?_, ?_⟩⟩
      · rw [hcode, if_pos hmem]
      · rw [hcode, if_neg hmem]
      · rw [hmap, erase_of_notMem hmem]
  · refine iff_of_false (fun hall => ?_) fun hcond => hk hcond.1
    obtain ⟨r, t', hrun, -⟩ := hall allocated
    rw [tableRemove_unindexed hk] at hrun
    cases hrun

theorem sameCode_iff {t₁ t₂ : Table} (h₁ : t₁.WF) (h₂ : t₂.WF) (hsize : t₁.size = t₂.size)
    (hmap : t₁.map = t₂.map) (key : CStr) :
    SameCode t₁ t₂ key ↔
      (t₁.Indexes key → (t₁.listOf key = none ↔ t₂.listOf key = none)) := by
  by_cases hk : t₁.Indexes key
  · have hk₂ : t₂.Indexes key := by
      unfold Indexes at hk ⊢
      rw [← hsize]
      exact hk
    obtain ⟨t₁', hrun₁, -⟩ := tableRemove_code h₁ hk allocated
    have hsame : SameCode t₁ t₂ key ↔ removeCode t₁ key = removeCode t₂ key := by
      constructor
      · intro hall
        obtain ⟨t₂', hrun₂, -⟩ := tableRemove_code h₂ hk₂ allocated
        exact hall _ _ _ _ _ hrun₁ hrun₂
      · intro hcode al r₁ r₂ u₁ u₂ hr₁ hr₂
        obtain ⟨v₁, hv₁, -⟩ := tableRemove_code h₁ hk al
        obtain ⟨v₂, hv₂, -⟩ := tableRemove_code h₂ hk₂ al
        rw [hv₁] at hr₁
        rw [hv₂] at hr₂
        cases hr₁
        cases hr₂
        exact hcode
    rw [hsame, imp_iff_right hk]
    have hnever : ∀ P : Prop, ∀ [Decidable P], (if P then (0 : Int) else 1) ≠ -1 := by
      intro P _
      split <;> decide
    by_cases hl₁ : t₁.listOf key = none
    · by_cases hl₂ : t₂.listOf key = none
      · simp [removeCode, hl₁, hl₂]
      · rw [removeCode_of_list h₂ hl₂, removeCode, hl₁]
        exact iff_of_false (fun heq => hnever _ heq.symm) fun hiff => hl₂ (hiff.mp rfl)
    · by_cases hl₂ : t₂.listOf key = none
      · rw [removeCode_of_list h₁ hl₁, removeCode, hl₂]
        exact iff_of_false (hnever _) fun hiff => hl₁ (hiff.mpr rfl)
      · rw [removeCode_of_list h₁ hl₁, removeCode_of_list h₂ hl₂, hmap]
        exact iff_of_true rfl (iff_of_false hl₁ hl₂)
  · refine iff_of_true ?_ fun hk' => absurd hk' hk
    intro al r₁ r₂ u₁ u₂ hr₁ _
    rw [tableRemove_unindexed hk] at hr₁
    cases hr₁

/-- **When `table_remove` answers by the contents**: for a key whose position has a list.
Two histories with the same contents agree when both have one or neither has. -/
theorem remove_by_contents_iff (n : Int) :
    (∀ ops t, History n ops t → ∀ key,
      RemovesByContents t key ↔ t.Indexes key ∧ t.listOf key ≠ none) ∧
    ∀ ops₁ t₁ ops₂ t₂, History n ops₁ t₁ → History n ops₂ t₂ → t₁.map = t₂.map → ∀ key,
      (SameCode t₁ t₂ key ↔
        (t₁.Indexes key → (t₁.listOf key = none ↔ t₂.listOf key = none))) := by
  constructor
  · intro ops t ht key
    exact removesByContents_iff ht.wf.1 key
  · intro ops₁ t₁ ops₂ t₂ ht₁ ht₂ hmap key
    obtain ⟨h₁, hsize₁⟩ := ht₁.wf
    obtain ⟨h₂, hsize₂⟩ := ht₂.wf
    exact sameCode_iff h₁ h₂ (hsize₁.trans hsize₂.symm) hmap key

/-- A key of a fresh table, and a key that was put and removed again: both are absent, and
`table_remove` answers -1 for the first, 1 for the second. -/
theorem remove_codes_differ :
    ∃ ops t, History 1 ops t ∧ t.map = ∅ ∧
      ¬ SameCode ⟨List.replicate (1 : Int).toNat none, 1⟩ t ⟨[97], by decide⟩ ∧
      ¬ RemovesByContents ⟨List.replicate (1 : Int).toNat none, 1⟩ ⟨[97], by decide⟩ := by
  have hsome : (Table.mk [some ⟨0, []⟩] 1).map = ∅ := rfl
  have hrun₁ : tableRemove ⟨List.replicate (1 : Int).toNat none, 1⟩ ⟨[97], by decide⟩ allocated
      = .ok ((-1, ⟨[none], 1⟩), allocated) := rfl
  have hrun₂ : tableRemove ⟨[some ⟨0, []⟩], 1⟩ ⟨[97], by decide⟩ allocated
      = .ok ((1, ⟨[some ⟨0, []⟩], 1⟩), allocated) := rfl
  refine ⟨[.put ⟨[97], by decide⟩ (Block.ofBytes [1]), .remove ⟨[97], by decide⟩],
    ⟨[some ⟨0, []⟩], 1⟩, ⟨?_, _, _, _, _, tableCreate_allocated (by decide), rfl⟩, hsome,
    fun hall => absurd (hall _ _ _ _ _ hrun₁ hrun₂) (by decide), fun hall => ?_⟩
  · intro op hop
    simp only [List.mem_cons, List.not_mem_nil, or_false] at hop
    rcases hop with rfl | rfl
    · exact ⟨by simp [CStr.SevenBit], Block.ofBytes_valid (by decide)⟩
    · simp [TableOp.SevenBit, CStr.SevenBit]
  · obtain ⟨r, t', hrun, -, habsent⟩ := hall allocated
    rw [hrun₁] at hrun
    cases hrun
    have habs : (⟨[97], by decide⟩ : CStr) ∉
        (Table.mk (List.replicate (1 : Int).toNat none) 1).map := by
      rw [map_replicate]
      exact Finmap.notMem_empty
    cases (habsent habs).1

/-- After a put to its position, the absent key "b" is answered with 1. -/
theorem remove_by_contents_iff_listed :
    RemovesByContents ⟨[some ⟨1, [⟨⟨[97], by decide⟩, Block.ofBytes [1]⟩]⟩], 1⟩
      ⟨[98], by decide⟩ :=
  ((remove_by_contents_iff 1).1 [.put ⟨[97], by decide⟩ (Block.ofBytes [1])] _
    ⟨by
      intro op hop
      rw [List.mem_singleton] at hop
      subst hop
      exact ⟨by simp [CStr.SevenBit], Block.ofBytes_valid (by decide)⟩,
    _, _, _, _, tableCreate_allocated (by decide), rfl⟩ _).mpr ⟨by decide, nofun⟩

end KvStorage
