import KvStorage.Lib.SortedMap
import KvStorage.Data.Entry
import Mathlib.Data.Nat.Digits.Lemmas

/-!
# The ordered entry list (`list.c`)

`struct list_t` is a size counter and a chain of nodes; the chain is a Lean list
of entries, head first. The traversals keep their source shape: `listAdd` walks
while the current key is smaller, `listGet` and `listRemove` stop at the first
larger key.

On a list in strictly increasing key order the three traversals are exactly the
`upsert`, `search` and `remove` of `SortedMap` — that is the content of
`insertNode_run`, `getNode_eq_search` and `removeNode_eq`, and everything later
uses only these. `insertNode_run` covers every allocation outcome: the one
allocation of the walk happens only for a key that is not in the list yet.
-/

namespace KvStorage

open CLib SortedMap

/-- `struct list_t`: the counter and the chain from `head` on. -/
structure EntryList where
  size : Int
  nodes : List Entry

/-- `list_create`. -/
def listCreate : CM (Option EntryList) := do
  if ← malloc then pure (some ⟨0, []⟩) else pure none

/-- The walk of `list_add` from `cur` on, with the answer and the chain it
leaves. -/
def insertNode (entry : Entry) : List Entry → CM (Int × List Entry)
  | [] => do
    if ← malloc then pure (0, [entry]) else pure (-1, [])
  | cur :: next =>
    if entryCompare cur entry < 0 then do
      let (r, next') ← insertNode entry next
      pure (r, cur :: next')
    else if entryCompare cur entry = 0 then
      pure (1, entry :: next)
    else do
      if ← malloc then pure (0, entry :: cur :: next) else pure (-1, cur :: next)

/-- `list_add`: 0 when the key is new, 1 when its entry was replaced, -1 when
the node could not be allocated. -/
def listAdd (l : EntryList) (entry : Entry) : CM (Int × EntryList) := do
  let (r, nodes) ← insertNode entry l.nodes
  pure (r, ⟨if r = 0 then cint (l.size + 1) else l.size, nodes⟩)

/-- `list_size`. -/
def listSize (l : EntryList) : Int := l.size

/-- The walk of `list_get`. -/
def getNode (key : CStr) : List Entry → Option Entry
  | [] => none
  | cur :: next =>
    if strcmp cur.key key = 0 then some cur
    else if strcmp cur.key key > 0 then none
    else getNode key next

/-- `list_get`. -/
def listGet (l : EntryList) (key : CStr) : Option Entry := getNode key l.nodes

/-- The walk of `list_get_keys`, filling the array. -/
def copyNodeKeys (cap : Int) : List Entry → List (Option CStr) → CM (List (Option CStr))
  | [], keys => arrayPut cap keys none
  | cur :: next, keys => do
    let k ← strdup (some cur.key)
    let keys ← arrayPut cap keys k
    copyNodeKeys cap next keys

/-- `list_get_keys`: NULL for an empty list, else its keys and a final NULL. -/
def listGetKeys (l : EntryList) : CM (Option (List (Option CStr))) :=
  if l.nodes = [] then pure none
  else do
    if ← malloc then
      let keys ← copyNodeKeys (ptrArrayCap (cint (l.size + 1))) l.nodes []
      pure (some keys)
    else pure none

/-- The walk of `list_remove`: whether the key was found, and what is left. -/
def removeNode (key : CStr) : List Entry → Bool × List Entry
  | [] => (false, [])
  | cur :: next =>
    if strcmp cur.key key = 0 then (true, next)
    else if strcmp cur.key key > 0 then (false, cur :: next)
    else
      let (found, next') := removeNode key next
      (found, cur :: next')

/-- `list_remove`: 0 when the entry was found and removed, 1 when not. -/
def listRemove (l : EntryList) (key : CStr) : Int × EntryList :=
  let (found, nodes) := removeNode key l.nodes
  if found then (0, ⟨cint (l.size - 1), nodes⟩) else (1, ⟨l.size, nodes⟩)

/-! ## The walks on a sorted chain -/

theorem entryCompare_neg {e1 e2 : Entry} : entryCompare e1 e2 < 0 ↔ e1.key < e2.key := strcmp_neg

theorem entryCompare_eq_zero {e1 e2 : Entry} : entryCompare e1 e2 = 0 ↔ e1.key = e2.key :=
  strcmp_eq_zero

/-- `list_add` allocates only for a new key; the chain it leaves is the ordered
insertion, or the old chain when that allocation fails. -/
theorem insertNode_run (entry : Entry) (al : Allocs) : ∀ {nodes : List Entry},
    SortedKeys Entry.key nodes →
    insertNode entry nodes al
      = .ok (if entry.key ∈ nodes.map Entry.key then
              ((1, upsert Entry.key entry nodes), al)
            else if al 0 then ((0, upsert Entry.key entry nodes), fun i => al (i + 1))
            else ((-1, nodes), fun i => al (i + 1)))
  | [], _ => by
    unfold insertNode
    by_cases h0 : al 0 <;> simp [h0, upsert]
  | cur :: next, hs => by
    obtain ⟨hcur, hnext⟩ := (sortedKeys_cons Entry.key).mp hs
    unfold insertNode upsert
    by_cases hlt : cur.key < entry.key
    · have hne : entry.key ≠ cur.key := ne_of_gt hlt
      rw [if_pos (entryCompare_neg.mpr hlt), if_pos hlt]
      simp only [run_bind, insertNode_run entry al hnext, ok_bind, List.map_cons, List.mem_cons,
        hne, false_or]
      by_cases hmem : entry.key ∈ next.map Entry.key
      · simp [hmem]
      · by_cases h0 : al 0 <;> simp [hmem, h0]
    · rw [if_neg (fun h => hlt (entryCompare_neg.mp h)), if_neg hlt]
      by_cases heq : cur.key = entry.key
      · rw [if_pos (entryCompare_eq_zero.mpr heq), if_pos heq]
        simp [heq]
      · rw [if_neg (fun h => heq (entryCompare_eq_zero.mp h)), if_neg heq]
        -- every key from `cur` on is larger, so the new one does not occur
        have hlt' : entry.key < cur.key := lt_of_le_of_ne (not_lt.mp hlt) (fun h => heq h.symm)
        have hmem : entry.key ∉ (cur :: next).map Entry.key := by
          intro hmem
          obtain ⟨e, he, hk⟩ := List.mem_map.mp hmem
          rcases List.mem_cons.mp he with rfl | he
          · exact heq hk
          · exact absurd hk (ne_of_gt (lt_trans hlt' (hcur e he)))
        rw [if_neg hmem]
        by_cases h0 : al 0 <;> simp [h0]

theorem getNode_eq_search (key : CStr) : ∀ nodes : List Entry,
    getNode key nodes = search Entry.key key nodes
  | [] => rfl
  | cur :: next => by
    unfold getNode search
    simp only [strcmp_eq_zero, gt_iff_lt, strcmp_pos, getNode_eq_search key next]

theorem removeNode_eq (key : CStr) : ∀ {nodes : List Entry}, SortedKeys Entry.key nodes →
    removeNode key nodes
      = (decide (key ∈ nodes.map Entry.key), SortedMap.remove Entry.key key nodes)
  | [], _ => by simp [removeNode, SortedMap.remove]
  | cur :: next, hs => by
    obtain ⟨hcur, hnext⟩ := (sortedKeys_cons Entry.key).mp hs
    unfold removeNode SortedMap.remove
    simp only [strcmp_eq_zero, gt_iff_lt, strcmp_pos]
    by_cases heq : cur.key = key
    · simp [heq]
    · by_cases hlt : key < cur.key
      · have hmem : key ∉ (cur :: next).map Entry.key := by
          intro hmem
          obtain ⟨e, he, hk⟩ := List.mem_map.mp hmem
          rcases List.mem_cons.mp he with rfl | he
          · exact heq hk
          · exact absurd hk (ne_of_gt (lt_trans hlt (hcur e he)))
        simp only [if_neg heq, if_pos hlt, decide_eq_false hmem]
      · have hne : key ≠ cur.key := fun h => heq h.symm
        simp only [if_neg heq, if_neg hlt, removeNode_eq key hnext, List.map_cons, List.mem_cons,
          hne, false_or]

/-- The ordered insertion of a key already present keeps the length. -/
theorem length_upsert_of_mem {entry : Entry} : ∀ {nodes : List Entry},
    SortedKeys Entry.key nodes → entry.key ∈ nodes.map Entry.key →
    (upsert Entry.key entry nodes).length = nodes.length
  | [], _, hmem => absurd hmem (by simp)
  | cur :: next, hs, hmem => by
    obtain ⟨hcur, hnext⟩ := (sortedKeys_cons Entry.key).mp hs
    unfold upsert
    rcases List.mem_cons.mp hmem with heq | hmem
    · simp [heq]
    · obtain ⟨e, he, hk⟩ := List.mem_map.mp hmem
      have hlt : cur.key < entry.key := hk ▸ hcur e he
      rw [if_pos hlt, List.length_cons, length_upsert_of_mem hnext (hk ▸ List.mem_map_of_mem he),
        List.length_cons]

/-- The ordered insertion of a new key adds one element. -/
theorem length_upsert_of_notMem {entry : Entry} : ∀ {nodes : List Entry},
    entry.key ∉ nodes.map Entry.key →
    (upsert Entry.key entry nodes).length = nodes.length + 1
  | [], _ => rfl
  | cur :: next, hmem => by
    rw [List.map_cons, List.mem_cons, not_or] at hmem
    unfold upsert
    by_cases hlt : cur.key < entry.key
    · rw [if_pos hlt, List.length_cons, length_upsert_of_notMem hmem.2, List.length_cons]
    · rw [if_neg hlt, if_neg (fun h => hmem.1 h.symm), List.length_cons]

theorem length_remove_of_mem {key : CStr} : ∀ {nodes : List Entry},
    SortedKeys Entry.key nodes → key ∈ nodes.map Entry.key →
    (SortedMap.remove Entry.key key nodes).length + 1 = nodes.length
  | [], _, hmem => absurd hmem (by simp)
  | cur :: next, hs, hmem => by
    obtain ⟨hcur, hnext⟩ := (sortedKeys_cons Entry.key).mp hs
    unfold SortedMap.remove
    by_cases heq : cur.key = key
    · simp [heq]
    · rcases List.mem_cons.mp hmem with h | hmem
      · exact absurd h.symm heq
      · obtain ⟨e, he, hk⟩ := List.mem_map.mp hmem
        have hlt : cur.key < key := hk ▸ hcur e he
        rw [if_neg heq, if_neg (not_lt.mpr (le_of_lt hlt)), List.length_cons, List.length_cons,
          length_remove_of_mem hnext (hk ▸ List.mem_map_of_mem he)]

theorem remove_of_notMem {key : CStr} : ∀ {nodes : List Entry},
    key ∉ nodes.map Entry.key → SortedMap.remove Entry.key key nodes = nodes
  | [], _ => rfl
  | cur :: next, hmem => by
    rw [List.map_cons, List.mem_cons, not_or] at hmem
    unfold SortedMap.remove
    by_cases hlt : key < cur.key
    · rw [if_neg (fun h => hmem.1 h.symm), if_pos hlt]
    · rw [if_neg (fun h => hmem.1 h.symm), if_neg hlt, remove_of_notMem hmem.2]

/-! ## Good lists -/

/-- Keys strictly increasing from head to tail, and a counter that is the
number of nodes as an `int` holds it. -/
structure EntryList.Good (l : EntryList) : Prop where
  sorted : SortedKeys Entry.key l.nodes
  size_eq : l.size = cint l.nodes.length

theorem good_nil : EntryList.Good ⟨0, []⟩ := ⟨sortedKeys_nil _, by decide⟩

/-- `list_add` on a good list, for every allocation outcome. -/
theorem listAdd_run {l : EntryList} (hl : l.Good) (entry : Entry) (al : Allocs) :
    ∃ l', l'.Good ∧
      listAdd l entry al
        = .ok (if entry.key ∈ l.nodes.map Entry.key then ((1, l'), al)
              else if al 0 then ((0, l'), fun i => al (i + 1))
              else ((-1, l'), fun i => al (i + 1))) ∧
      l'.nodes = if entry.key ∉ l.nodes.map Entry.key ∧ al 0 = false then l.nodes
        else upsert Entry.key entry l.nodes := by
  obtain ⟨hs, hsz⟩ := hl
  unfold listAdd
  simp only [run_bind, insertNode_run entry al hs, ok_bind, run_pure]
  by_cases hmem : entry.key ∈ l.nodes.map Entry.key
  · refine ⟨⟨l.size, upsert Entry.key entry l.nodes⟩, ⟨hs.upsert, ?_⟩, ?_, ?_⟩
    · rw [hsz, length_upsert_of_mem hs hmem]
    · simp [hmem]
    · simp [hmem]
  · cases h0 : al 0 with
    | true =>
      refine ⟨⟨cint (l.size + 1), upsert Entry.key entry l.nodes⟩, ⟨hs.upsert, ?_⟩, ?_, ?_⟩
      · rw [hsz, length_upsert_of_notMem hmem, cint_add_cint]
        push_cast
        rfl
      · simp [hmem]
      · simp
    | false =>
      refine ⟨l, ⟨hs, hsz⟩, ?_, ?_⟩
      · simp [hmem]
      · simp [hmem]

/-- `list_remove` on a good list. -/
theorem listRemove_eq {l : EntryList} (hl : l.Good) (key : CStr) :
    ∃ l', l'.Good ∧
      listRemove l key = (if key ∈ l.nodes.map Entry.key then 0 else 1, l') ∧
      l'.nodes = SortedMap.remove Entry.key key l.nodes := by
  obtain ⟨hs, hsz⟩ := hl
  unfold listRemove
  rw [removeNode_eq key hs]
  by_cases hmem : key ∈ l.nodes.map Entry.key
  · refine ⟨⟨cint (l.size - 1), SortedMap.remove Entry.key key l.nodes⟩, ⟨hs.remove, ?_⟩, ?_, rfl⟩
    · have hlen := length_remove_of_mem hs hmem
      have hpred : (l.nodes.length : Int) + -1
          = (SortedMap.remove Entry.key key l.nodes).length := by
        omega
      rw [hsz, Int.sub_eq_add_neg, cint_add_cint, hpred]
    · simp [hmem]
  · refine ⟨⟨l.size, SortedMap.remove Entry.key key l.nodes⟩, ⟨hs.remove, ?_⟩, ?_, rfl⟩
    · rw [remove_of_notMem hmem]
      exact hsz
    · simp [hmem]

/-- The keys of a chain as `list_get_keys` copies them. -/
def keyCopies (nodes : List Entry) : List (Option CStr) := nodes.map fun e => some e.key

theorem keyCopies_eq_map (nodes : List Entry) :
    keyCopies nodes = (nodes.map Entry.key).map some := by
  rw [List.map_map]
  rfl

@[simp] theorem keyCopies_nil : keyCopies [] = [] := rfl

@[simp] theorem keyCopies_cons (e : Entry) (nodes : List Entry) :
    keyCopies (e :: nodes) = some e.key :: keyCopies nodes := rfl

@[simp] theorem keyCopies_append (l₁ l₂ : List Entry) :
    keyCopies (l₁ ++ l₂) = keyCopies l₁ ++ keyCopies l₂ := List.map_append

@[simp] theorem length_keyCopies (nodes : List Entry) :
    (keyCopies nodes).length = nodes.length := List.length_map ..

theorem copyNodeKeys_allocated (cap : Int) : ∀ (nodes : List Entry) (keys : List (Option CStr)),
    (keys.length : Int) + nodes.length < cap →
    copyNodeKeys cap nodes keys allocated
      = .ok (keys ++ keyCopies nodes ++ [none], allocated)
  | [], keys, h => by
    unfold copyNodeKeys
    rw [arrayPut_of_lt (by simpa using h)]
    simp
  | cur :: next, keys, h => by
    rw [List.length_cons] at h
    push_cast at h
    have hrest := copyNodeKeys_allocated cap next (keys ++ [some cur.key])
      (by rw [List.length_append, List.length_singleton]; push_cast; omega)
    unfold copyNodeKeys
    simp only [run_bind, strdup_allocated, ok_bind]
    rw [arrayPut_of_lt (by omega)]
    simp only [run_pure, ok_bind, hrest, keyCopies_cons, List.append_assoc, List.singleton_append]

/-- An array with no room for the final NULL is left. -/
theorem copyNodeKeys_overrun (cap : Int) : ∀ (nodes : List Entry) (keys : List (Option CStr)),
    cap ≤ keys.length + nodes.length →
    copyNodeKeys cap nodes keys allocated = .error .outOfBounds
  | [], keys, h => by
    unfold copyNodeKeys arrayPut
    rw [if_neg (by simpa using h)]
    rfl
  | cur :: next, keys, h => by
    rw [List.length_cons] at h
    push_cast at h
    unfold copyNodeKeys arrayPut
    simp only [run_bind, strdup_allocated, ok_bind]
    split
    next hlt =>
      refine copyNodeKeys_overrun cap next (keys ++ [some cur.key]) ?_
      rw [List.length_append, List.length_singleton]
      push_cast
      omega
    next => rfl

/-- `list_get_keys` of a good list that is not empty, when memory suffices. -/
theorem listGetKeys_allocated {l : EntryList} (hl : l.Good) (hne : l.nodes ≠ [])
    (hlen : l.nodes.length < 2 ^ 31) :
    listGetKeys l allocated = .ok (some (keyCopies l.nodes ++ [none]), allocated) := by
  have hsz : l.size = l.nodes.length := by
    rw [hl.size_eq, cint_of_lt (by omega) (by omega)]
  have hcap : (l.nodes.length : Int) < ptrArrayCap (cint (l.size + 1)) := by
    rw [hsz]
    exact lt_ptrArrayCap hlen
  have hcopy := copyNodeKeys_allocated _ l.nodes [] (by simpa using hcap)
  unfold listGetKeys
  rw [if_neg hne]
  simp only [run_bind, malloc_allocated, ok_bind, if_true, hcopy, List.nil_append, run_pure]

/-! ## What the three operations report -/

/-- Keys strictly increasing in `strcmp` order, and a counter that is the number of nodes: the
list has as many as an `int` counts. -/
structure EntryList.Exact (l : EntryList) : Prop where
  sorted : SortedKeys Entry.key l.nodes
  size_eq : l.size = l.nodes.length
  size_lt : l.size < 2 ^ 31

theorem EntryList.Exact.good {l : EntryList} (h : l.Exact) : l.Good := by
  have hlt := h.size_lt
  have hsize := h.size_eq
  refine ⟨h.sorted, ?_⟩
  rw [cint_of_lt (by omega) (by omega), hsize]

/-- A good list of fewer than 2^31 nodes. -/
theorem EntryList.Good.exact {l : EntryList} (h : l.Good) (hlen : l.nodes.length < 2 ^ 31) :
    l.Exact := by
  have hsize : l.size = l.nodes.length := by rw [h.size_eq, cint_of_lt (by omega) (by omega)]
  exact ⟨h.sorted, hsize, by omega⟩

/-- `list_add` with memory available: the entries, and the counter where it can count them. -/
theorem listAdd_exact {l : EntryList} (hl : l.Exact) (entry : Entry) :
    ∃ l', listAdd l entry allocated
        = .ok ((if entry.key ∈ l.nodes.map Entry.key then 1 else 0, l'), allocated) ∧
      SortedKeys Entry.key l'.nodes ∧
      (∀ e, e ∈ l'.nodes ↔ e = entry ∨ e ∈ l.nodes ∧ e.key ≠ entry.key) ∧
      (entry.key ∈ l.nodes.map Entry.key ∨ l.nodes.length + 1 < 2 ^ 31 → l'.Exact) := by
  obtain ⟨l', hgood, hrun, hnodes⟩ := listAdd_run hl.good entry allocated
  have hupsert : l'.nodes = upsert Entry.key entry l.nodes := by simpa using hnodes
  refine ⟨l', ?_, hgood.sorted, ?_, ?_⟩
  · rw [hrun]
    split
    next => rfl
    next => rfl
  · intro e
    rw [hupsert]
    exact mem_upsert_iff Entry.key hl.sorted
  · intro hroom
    refine hgood.exact ?_
    have hlen := hl.size_eq
    have hlt := hl.size_lt
    rw [hupsert]
    by_cases hmem : entry.key ∈ l.nodes.map Entry.key
    · rw [length_upsert_of_mem hl.sorted hmem]
      omega
    · rw [length_upsert_of_notMem hmem]
      exact hroom.resolve_left hmem

theorem listRemove_exact {l : EntryList} (hl : l.Exact) (key : CStr) :
    ∃ l', listRemove l key = (if key ∈ l.nodes.map Entry.key then 0 else 1, l') ∧ l'.Exact ∧
      ∀ e, e ∈ l'.nodes ↔ e ∈ l.nodes ∧ e.key ≠ key := by
  obtain ⟨l', hgood, hrun, hnodes⟩ := listRemove_eq hl.good key
  have hmem : ∀ e, e ∈ l'.nodes ↔ e ∈ l.nodes ∧ e.key ≠ key := by
    intro e
    rw [hnodes]
    exact mem_remove_iff Entry.key hl.sorted
  refine ⟨l', hrun, hgood.exact ?_, hmem⟩
  have hlen := hl.size_eq
  have hlt := hl.size_lt
  by_cases hkey : key ∈ l.nodes.map Entry.key
  · have hremove := length_remove_of_mem hl.sorted hkey
    rw [hnodes]
    omega
  · rw [hnodes, remove_of_notMem hkey]
    omega

theorem listGet_eq_some_iff {l : EntryList} (hl : l.Exact) (key : CStr) (e : Entry) :
    listGet l key = some e ↔ e ∈ l.nodes ∧ e.key = key := by
  unfold listGet
  rw [getNode_eq_search]
  exact search_eq_some_iff Entry.key hl.sorted

/-- **The list operations report truthfully and keep the representation**, a new key as long
as there is room for it in the counter. -/
theorem list_operations {l : EntryList} (hl : l.Exact) :
    (∀ entry, ∃ l', listAdd l entry allocated
        = .ok ((if entry.key ∈ l.nodes.map Entry.key then 1 else 0, l'), allocated) ∧
      SortedKeys Entry.key l'.nodes ∧
      (∀ e, e ∈ l'.nodes ↔ e = entry ∨ e ∈ l.nodes ∧ e.key ≠ entry.key) ∧
      (entry.key ∈ l.nodes.map Entry.key ∨ l.nodes.length + 1 < 2 ^ 31 → l'.Exact)) ∧
    (∀ key, ∃ l', listRemove l key = (if key ∈ l.nodes.map Entry.key then 0 else 1, l') ∧
      l'.Exact ∧ ∀ e, e ∈ l'.nodes ↔ e ∈ l.nodes ∧ e.key ≠ key) ∧
    ∀ key, (∀ e, listGet l key = some e ↔ e ∈ l.nodes ∧ e.key = key) ∧
      (listGet l key = none ↔ key ∉ l.nodes.map Entry.key) := by
  refine ⟨listAdd_exact hl, listRemove_exact hl, fun key => ⟨listGet_eq_some_iff hl key, ?_⟩⟩
  rw [Option.eq_none_iff_forall_ne_some, List.mem_map, not_exists]
  exact forall_congr' fun e => not_congr (listGet_eq_some_iff hl key e)

/-- Three keys, the last one above 7 bits. -/
def threeNodes : EntryList :=
  ⟨3, [⟨⟨[120], by decide⟩, Block.ofBytes [1]⟩, ⟨⟨[122], by decide⟩, Block.ofBytes [2]⟩,
    ⟨⟨[195, 161], by decide⟩, Block.ofBytes [3]⟩]⟩

theorem threeNodes_exact : threeNodes.Exact where
  sorted := by
    unfold SortedKeys threeNodes
    decide
  size_eq := rfl
  size_lt := by decide

/-- A key between two others is added, the one in the middle replaced and removed, and the last one
found. -/
theorem list_operations_three :
    (∃ l', listAdd threeNodes ⟨⟨[121], by decide⟩, Block.ofBytes [4]⟩ allocated
        = .ok ((0, l'), allocated) ∧ l'.Exact) ∧
    (∃ l', listAdd threeNodes ⟨⟨[122], by decide⟩, Block.ofBytes [5]⟩ allocated
        = .ok ((1, l'), allocated) ∧ l'.Exact) ∧
    (∃ l', listRemove threeNodes ⟨[122], by decide⟩ = (0, l') ∧ l'.Exact) ∧
    (∃ l', listRemove threeNodes ⟨[121], by decide⟩ = (1, l') ∧
      ∀ e, e ∈ l'.nodes ↔ e ∈ threeNodes.nodes ∧ e.key ≠ ⟨[121], by decide⟩) ∧
    listGet threeNodes ⟨[195, 161], by decide⟩
      = some ⟨⟨[195, 161], by decide⟩, Block.ofBytes [3]⟩ := by
  have hb : (⟨[121], by decide⟩ : CStr) ∉ threeNodes.nodes.map Entry.key := by decide
  have hc : (⟨[122], by decide⟩ : CStr) ∈ threeNodes.nodes.map Entry.key := by decide
  obtain ⟨hadd, hremove, hget⟩ := list_operations threeNodes_exact
  obtain ⟨l₁, hrun₁, -, -, hexact₁⟩ := hadd ⟨⟨[121], by decide⟩, Block.ofBytes [4]⟩
  obtain ⟨l₂, hrun₂, -, -, hexact₂⟩ := hadd ⟨⟨[122], by decide⟩, Block.ofBytes [5]⟩
  obtain ⟨l₃, hrun₃, hexact₃, -⟩ := hremove ⟨[122], by decide⟩
  obtain ⟨l₄, hrun₄, -, hmem₄⟩ := hremove ⟨[121], by decide⟩
  rw [if_neg hb] at hrun₁ hrun₄
  rw [if_pos hc] at hrun₂ hrun₃
  refine ⟨⟨l₁, hrun₁, hexact₁ (Or.inr (by decide))⟩, ⟨l₂, hrun₂, hexact₂ (Or.inl hc)⟩,
    ⟨l₃, hrun₃, hexact₃⟩, ⟨l₄, hrun₄, hmem₄⟩, ?_⟩
  exact ((hget _).1 _).mpr ⟨by simp [threeNodes], rfl⟩

/-! ## More nodes than an `int` counts -/

/-- A short 7-bit key for every number: its digits in base 127, each plus one. -/
def numberedKey (i : Nat) : CStr where
  bytes := (Nat.digits 127 i).map fun d => Fin.ofNat 256 (d % 127 + 1)
  nul_free := by
    intro h0
    obtain ⟨d, -, hd⟩ := List.mem_map.mp h0
    have hval : (d % 127 + 1) % 256 = 0 := congrArg Fin.val hd
    omega

theorem numberedKey_injective : Function.Injective numberedKey := by
  intro i j h
  have hback : ∀ m, (numberedKey m).bytes.map (fun b => b.val - 1) = Nat.digits 127 m := by
    intro m
    show List.map _ (List.map _ (Nat.digits 127 m)) = Nat.digits 127 m
    rw [List.map_map]
    refine (List.map_congr_left fun d hd => ?_).trans (List.map_id _)
    have hlt := Nat.digits_lt_base (by omega) hd
    show (d % 127 + 1) % 256 - 1 = d
    omega
  have hdigits : Nat.digits 127 i = Nat.digits 127 j := by
    rw [← hback i, ← hback j, h]
  exact Nat.digits_inj_iff.mp hdigits

theorem numberedKey_sevenBit (i : Nat) : (numberedKey i).SevenBit := by
  intro b hb
  obtain ⟨d, -, rfl⟩ := List.mem_map.mp hb
  show (d % 127 + 1) % 256 < 128
  omega

theorem numberedKey_length {i : Nat} (hi : i < 127 ^ 5) : (numberedKey i).bytes.length ≤ 5 := by
  show (List.map _ _).length ≤ 5
  rw [List.length_map]
  exact (Nat.digits_length_le_iff (by omega) i).mpr hi

/-- A good list of any length, with short keys. -/
theorem good_numberedKeys : ∀ n : Nat, ∃ l : EntryList, l.Good ∧ l.nodes.length = n ∧
    ∀ key ∈ l.nodes.map Entry.key, ∃ i < n, key = numberedKey i
  | 0 => ⟨_, good_nil, rfl, List.forall_mem_nil _⟩
  | n + 1 => by
    obtain ⟨l, hl, hlen, hkeys⟩ := good_numberedKeys n
    obtain ⟨l', hl', -, hnodes⟩ :=
      listAdd_run hl ⟨numberedKey n, Block.ofBytes [1]⟩ allocated
    have hupsert : l'.nodes = upsert Entry.key ⟨numberedKey n, Block.ofBytes [1]⟩ l.nodes := by
      simpa using hnodes
    have hnew : numberedKey n ∉ l.nodes.map Entry.key := by
      intro hmem
      obtain ⟨i, hi, hkey⟩ := hkeys _ hmem
      exact absurd (numberedKey_injective hkey) (by omega)
    refine ⟨l', hl', ?_, ?_⟩
    · rw [hupsert, length_upsert_of_notMem hnew, hlen]
    · intro key hkey
      obtain ⟨e, he, rfl⟩ := List.mem_map.mp hkey
      rw [hupsert, mem_upsert_iff Entry.key hl.sorted] at he
      rcases he with rfl | ⟨he, -⟩
      · exact ⟨n, by omega, rfl⟩
      · obtain ⟨i, hi, hkey⟩ := hkeys _ (List.mem_map_of_mem he)
        exact ⟨i, by omega, hkey⟩

/-- With 2^31 - 1 nodes one more key makes the counter negative. -/
theorem listAdd_wraps : ∃ l : EntryList, l.Exact ∧ ∃ entry l',
    listAdd l entry allocated = .ok ((0, l'), allocated) ∧
      l'.nodes.length = 2 ^ 31 ∧ l'.size = -2 ^ 31 ∧ ¬ l'.Exact := by
  obtain ⟨l, hl, hlen, hkeys⟩ := good_numberedKeys (2 ^ 31 - 1)
  have hnew : numberedKey (2 ^ 31 - 1) ∉ l.nodes.map Entry.key := by
    intro hmem
    obtain ⟨i, hi, hkey⟩ := hkeys _ hmem
    exact absurd (numberedKey_injective hkey) (by omega)
  obtain ⟨l', hl', hrun, hnodes⟩ :=
    listAdd_run hl ⟨numberedKey (2 ^ 31 - 1), Block.ofBytes [1]⟩ allocated
  have hlen' : l'.nodes.length = 2 ^ 31 := by
    rw [hnodes, if_neg (by simp), length_upsert_of_notMem hnew, hlen]
    norm_num
  have hsize : l'.size = -2 ^ 31 := by
    rw [hl'.size_eq, hlen']
    decide
  refine ⟨l, hl.exact (by omega), ⟨numberedKey (2 ^ 31 - 1), Block.ofBytes [1]⟩, l', ?_, hlen',
    hsize, ?_⟩
  · rw [hrun, if_neg hnew]
    rfl
  · intro hexact
    have hcount := hexact.size_eq
    rw [hsize, hlen'] at hcount
    omega

end KvStorage
