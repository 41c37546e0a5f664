import KvStorage.Client.Remote
import KvStorage.Data.History

/-!
# The two listings of a table

`table_get_keys` copies the keys list by list through `list_get_keys`; GETTABLE walks the
nodes themselves. Both take the positions in order and each list in key order, so what they
list depends on the contents and the number of lists only, not on the history, and the two
agree element by element (`listings_canonical`).

The counts come from the `int` counters of the lists. From 2^31 keys on they are not the
number of keys any more; at 2^32 they are 0 again, and `table_get_keys` writes the keys
into an array for one pointer.
-/

namespace KvStorage

open CLib SortedMap Table

/-- Both listings of a table are these pairs, in this order, and the counts are right. -/
structure Lists (W : Type) (t : Table) (l : List (CStr × List Byte)) : Prop where
  keys : tableGetKeys t allocated = .ok (some (l.map (fun p => some p.1) ++ [none]), allocated)
  getKeys : ∀ (next : Option (Remote W)) (clock : Timeval × Timeval) (msg : MessageT) (s : Server)
    (w : W), msg.opcode = OP_GETKEYS → s.table = t → ∃ reply s',
      invoke next clock msg (s, w) allocated = .ok (((0, reply), (s', w)), allocated) ∧
        reply.keys = some (l.map (fun p => some p.1) ++ [none]) ∧ reply.nKeys = l.length
  getTable : ∀ (next : Option (Remote W)) (clock : Timeval × Timeval) (msg : MessageT) (s : Server)
    (w : W), msg.opcode = OP_GETTABLE → s.table = t → ∃ reply s',
      invoke next clock msg (s, w) allocated = .ok (((0, reply), (s', w)), allocated) ∧
        reply.entries = some (l.map (fun p => some ⟨some p.1, p.2⟩) ++ [none]) ∧
        reply.nEntries = l.length

variable {W : Type}

/-- A table lists its entries in position order. -/
theorem lists_entries {t : Table} (h : t.WF) (hlive : t.map.keys.card < 2 ^ 31) :
    Lists W t (listing Entry.key Entry.bytes t.entries) := by
  have hkeys : (listing Entry.key Entry.bytes t.entries).map (fun p => some p.1)
      = (t.entries.map Entry.key).map some := by
    simp [listing]
  have hentries : (listing Entry.key Entry.bytes t.entries).map
      (fun p => (some ⟨some p.1, p.2⟩ : Option EntryT))
        = t.entries.map fun e => some e.toEntryT := by
    simp [listing, Entry.toEntryT]
  have hlen : (listing Entry.key Entry.bytes t.entries).length = t.entries.length :=
    List.length_map ..
  refine ⟨?_, ?_, ?_⟩
  · rw [hkeys]
    exact tableGetKeys_allocated h hlive
  · intro next clock msg s w hop hs
    subst hs
    refine ⟨_, _,
      by rw [invoke_getKeys next clock hop]; exact invokeGetKeys_allocated h clock w hlive,
      ?_, hlen.symm⟩
    rw [hkeys]
  · intro next clock msg s w hop hs
    subst hs
    refine ⟨_, _,
      by rw [invoke_getTable next clock hop]; exact invokeGetTable_allocated h clock w hlive,
      ?_, hlen.symm⟩
    rw [hentries]

/-- **Listings are canonical.** Two histories with the same contents give the same keys and
the same entries in the same order, the entries along the keys, with the values of the map
and the right counts, while an `int` counts the keys. -/
theorem listings_canonical (W : Type) {n : Int} {ops₁ ops₂ : List TableOp} {t₁ t₂ : Table}
    (ht₁ : History n ops₁ t₁) (ht₂ : History n ops₂ t₂) (hmap : t₁.map = t₂.map)
    (hlive : t₁.map.keys.card < 2 ^ 31) :
    ∃ l, Lists W t₁ l ∧ Lists W t₂ l ∧ ∀ p, p ∈ l ↔ t₁.map.lookup p.1 = some p.2 := by
  obtain ⟨h₁, hsize₁⟩ := ht₁.wf
  obtain ⟨h₂, hsize₂⟩ := ht₂.wf
  refine ⟨listing Entry.key Entry.bytes t₁.entries, lists_entries h₁ hlive, ?_,
    fun p => mem_listing Entry.key Entry.bytes h₁.nodup_keys⟩
  rw [entries_listing_eq h₁ h₂ (hsize₁.trans hsize₂.symm) hmap]
  exact lists_entries h₂ (hmap ▸ hlive)

/-- A history of three keys, one of them overwritten. -/
def threePuts : List TableOp :=
  [.put keyD (Block.ofBytes [4]), .put keyB (Block.ofBytes [9]), .put keyA (Block.ofBytes [1]),
    .put keyB (Block.ofBytes [2])]

/-- The same keys in another order, and a fourth one that does not stay. -/
def threeStay : List TableOp :=
  [.put ⟨[99], by decide⟩ (Block.ofBytes [3]), .put keyA (Block.ofBytes [1]),
    .put keyB (Block.ofBytes [2]), .remove ⟨[99], by decide⟩, .put keyD (Block.ofBytes [4])]

/-- The server after the first one. -/
def threeEntries : Server :=
  ⟨⟨[none, some ⟨2, [⟨keyA, Block.ofBytes [1]⟩, ⟨keyD, Block.ofBytes [4]⟩]⟩,
    some ⟨1, [⟨keyB, Block.ofBytes [2]⟩]⟩], 3⟩, 0, 0, ⟨0, 0, 0⟩⟩

theorem threePuts_sevenBit : ∀ op ∈ threePuts, op.SevenBit := by
  intro op hop
  simp only [threePuts, List.mem_cons, List.not_mem_nil, or_false] at hop
  rcases hop with rfl | rfl | rfl | rfl
  · exact ⟨by simp [CStr.SevenBit, keyD], Block.ofBytes_valid (by decide)⟩
  · exact ⟨by simp [CStr.SevenBit, keyB], Block.ofBytes_valid (by decide)⟩
  · exact ⟨by simp [CStr.SevenBit, keyA], Block.ofBytes_valid (by decide)⟩
  · exact ⟨by simp [CStr.SevenBit, keyB], Block.ofBytes_valid (by decide)⟩

theorem threeStay_sevenBit : ∀ op ∈ threeStay, op.SevenBit := by
  intro op hop
  simp only [threeStay, List.mem_cons, List.not_mem_nil, or_false] at hop
  rcases hop with rfl | rfl | rfl | rfl | rfl
  · exact ⟨by simp [CStr.SevenBit], Block.ofBytes_valid (by decide)⟩
  · exact ⟨by simp [CStr.SevenBit, keyA], Block.ofBytes_valid (by decide)⟩
  · exact ⟨by simp [CStr.SevenBit, keyB], Block.ofBytes_valid (by decide)⟩
  · simp [TableOp.SevenBit, CStr.SevenBit]
  · exact ⟨by simp [CStr.SevenBit, keyD], Block.ofBytes_valid (by decide)⟩

/-- The two leave different tables, one with an emptied list, and both list "a", "d", "b". -/
theorem listings_canonical_reordered : ∃ t₁ t₂ l, t₁ ≠ t₂ ∧ History 3 threePuts t₁ ∧
    History 3 threeStay t₂ ∧ Lists Unit t₁ l ∧ Lists Unit t₂ l ∧
    l.map Prod.fst = [keyA, keyD, keyB] := by
  have hfresh : tableCreate 3 allocated = .ok (some ⟨[none, none, none], 3⟩, allocated) := rfl
  have h₁ : History 3 threePuts threeEntries.table :=
    ⟨threePuts_sevenBit, _, _, _, _, hfresh, rfl⟩
  have h₂ : History 3 threeStay ⟨some ⟨0, []⟩ :: threeEntries.table.lists.tail, 3⟩ :=
    ⟨threeStay_sevenBit, _, _, _, _, hfresh, rfl⟩
  obtain ⟨l, hl₁, hl₂, -⟩ := listings_canonical Unit h₁ h₂ rfl (by decide)
  refine ⟨_, _, l, fun he => ?_, h₁, h₂, hl₁, hl₂, ?_⟩
  · cases congrArg (fun t => t.lists.head?) he
  · have hkeys : tableGetKeys threeEntries.table allocated
        = .ok (some ([keyA, keyD, keyB].map some ++ [none]), allocated) := rfl
    rw [hl₁.keys] at hkeys
    have hsome : (l.map Prod.fst).map some = [keyA, keyD, keyB].map some := by
      rw [List.map_map]
      exact List.append_cancel_right (Option.some.inj (Prod.mk.inj (Except.ok.inj hkeys)).1)
    exact List.map_injective_iff.mpr (Option.some_injective CStr) hsome

/-! ## More keys than an `int` counts -/

/-- Any number of short keys, put one after the other into one list. -/
theorem history_numberedKeys {k : Nat} (hk : k ≤ 127 ^ 5) :
    ∃ ops t, History 1 ops t ∧ t.map.keys.card = k := by
  have hops : ∀ op ∈ (List.range k).map fun i => TableOp.put (numberedKey i) (Block.ofBytes [1]),
      op.SevenBit ∧ op.Ok := by
    intro op hop
    obtain ⟨i, hi, rfl⟩ := List.mem_map.mp hop
    have hlt : i < 127 ^ 5 := (List.mem_range.mp hi).trans_le hk
    have hlen := numberedKey_length hlt
    have hvalid : (Block.ofBytes [1]).Valid := Block.ofBytes_valid (List.cons_ne_nil _ _)
    exact ⟨⟨numberedKey_sevenBit i, hvalid⟩, .of_length (numberedKey_sevenBit i) (by omega), hvalid⟩
  obtain ⟨t, hrun, hwf, hmap⟩ :=
    runOps_allocated _ (wf_replicate (by omega : (0 : Int) < 1)) fun op hop => (hops op hop).2
  refine ⟨_, t, ⟨fun op hop => (hops op hop).1, _, _, _, _, tableCreate_allocated (by omega),
    hrun⟩, ?_⟩
  have hnd : ((List.range k).map numberedKey).Nodup :=
    List.nodup_range.map numberedKey_injective
  have hfold := foldl_insert_empty numberedKey (fun _ => [(1 : Byte)]) hnd
  rw [map_replicate, List.foldl_map] at hmap
  simp only [mapOp, Block.content_ofBytes] at hmap
  rw [hmap, hfold, card_keys_toMap numberedKey _ hnd, List.length_range]

/-- The counter of a list with 2^32 nodes is 0 again, and the array for its keys has room for
the final NULL only. -/
theorem tableGetKeys_overrun {l : EntryList} (hl : l.Good) (hlen : l.nodes.length = 2 ^ 32) :
    tableGetKeys ⟨[some l], 1⟩ allocated = .error .outOfBounds := by
  have hsize : l.size = 0 := by
    rw [hl.size_eq, hlen]
    decide
  have htable : tableSize ⟨[some l], 1⟩ = 0 := by
    simp [tableSize, listSize, hsize, cint]
  have hne : l.nodes ≠ [] := List.ne_nil_of_length_pos (by omega)
  have hcap : ptrArrayCap (cint (0 + 1)) = 1 := by decide
  have hcopy : copyNodeKeys 1 l.nodes [] allocated = .error .outOfBounds :=
    copyNodeKeys_overrun 1 l.nodes [] (by rw [hlen]; decide)
  have hkeys : listGetKeys l allocated = .error .outOfBounds := by
    unfold listGetKeys
    rw [if_neg hne, hsize, hcap]
    simp only [run_bind, malloc_allocated, ok_bind, if_true, hcopy]
    rfl
  unfold tableGetKeys copyTableKeys
  rw [htable]
  simp only [run_bind, malloc_allocated, ok_bind, if_true, hkeys]
  rfl

/-- With 2^32 keys in one list `table_get_keys` writes past its array. -/
theorem listings_overrun_at_2_pow_32 : ∃ ops t, History 1 ops t ∧ t.map.keys.card = 2 ^ 32 ∧
    tableGetKeys t allocated = .error .outOfBounds ∧ ¬ ∃ l, Lists Unit t l := by
  obtain ⟨ops, t, ht, hcard⟩ := history_numberedKeys (by norm_num : 2 ^ 32 ≤ 127 ^ 5)
  obtain ⟨h, hsize⟩ := ht.wf
  have hnodes := hcard
  rw [h.card_keys] at hnodes
  have hone : t.lists.length = 1 := by
    have hlen := h.length_eq
    omega
  obtain ⟨pos, hpos⟩ := List.length_eq_one_iff.mp hone
  have heq : t = ⟨[pos], 1⟩ := by
    cases t
    subst hsize hpos
    rfl
  subst heq
  have hlen : (nodesOf pos).length = 2 ^ 32 := by
    simpa [entries, buckets] using hnodes
  cases pos with
  | none =>
    rw [nodesOf, List.length_nil] at hlen
    omega
  | some lista =>
    have hrun := tableGetKeys_overrun (h.good lista (List.mem_singleton_self _)) hlen
    refine ⟨ops, _, ht, hcard, hrun, ?_⟩
    rintro ⟨l, hlists⟩
    have hkeys := hlists.keys
    rw [hrun] at hkeys
    cases hkeys

end KvStorage
