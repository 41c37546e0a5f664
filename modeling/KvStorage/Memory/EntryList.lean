import KvStorage.Memory.Cells
import KvStorage.Data.EntryList

/-!
# The entry list in memory (`list.c`)

The traversals of `list.c` follow `next` pointers; `list_add` and `list_remove` keep the node before
the current one to relink it. The nodes a walk has passed are `behind` it and the others are a
`chain` from the current one on, so that each turn of a walk is one step of the recursion in
`KvStorage.Data.EntryList`, with which every function is compared here.

A traversal ends because there are only so many nodes; the loops have no other bound.
-/

namespace KvStorage.Memory

open CLib CLib.Heap CLib.Linked Assert

/-! ## The functions -/

/-- `list_create`. -/
def listCreate : HeapM Ptr := do
  let l ← malloc (.list none 0)
  if l = none then pure none
  else pure l

/-- The walk of `list_add`, with the node before the current one. -/
def addStep (entry : Ptr) : Ptr × Ptr → HeapM ((Ptr × Ptr) ⊕ (Ptr × Ptr))
  | (prev, cur) =>
    if cur = none then pure (.inr (prev, cur))
    else do
      let (e, next) ← read Cell.asNode cur
      let cmp ← entryCompare e entry
      if cmp < 0 then pure (.inl (cur, next))
      else pure (.inr (prev, cur))

/-- What comes after `prev`, or first where there is no node before, is `next` now. -/
def relink (l prev next : Ptr) : HeapM Unit :=
  if prev = none then write (Cell.setHead next) l
  else write (Cell.setNext next) prev

/-- The new node of `list_add`. -/
def addNode (l entry prev cur : Ptr) : HeapM Int := do
  let new ← malloc (.node entry cur)
  if new = none then pure (-1)
  else do
    relink l prev new
    let (_, size) ← read Cell.asList l
    write (Cell.setSize (cint (size + 1))) l
    pure 0

/-- `list_add`. -/
def listAdd (l entry : Ptr) : HeapM Int :=
  if l = none ∨ entry = none then pure (-1)
  else do
    let (head, _) ← read Cell.asList l
    let (prev, cur) ← loop (addStep entry) (none, head)
    if cur = none then addNode l entry prev cur
    else do
      let (e, _) ← read Cell.asNode cur
      let cmp ← entryCompare e entry
      if cmp = 0 then do
        let _ ← entryDestroy e
        write (Cell.setEntry entry) cur
        pure 1
      else addNode l entry prev cur

/-- `list_size`. -/
def listSize (l : Ptr) : HeapM Int :=
  if l = none then pure (-1)
  else do
    let (_, size) ← read Cell.asList l
    pure size

/-- `strcmp` of the key of an entry, as `list_get` and `list_remove` call it. -/
def compareKey (e key : Ptr) : HeapM Int := do
  let (k, _) ← read Cell.asEntry e
  strcmp k key

/-- The walk of `list_get`. -/
def getStep (key : Ptr) (cur : Ptr) : HeapM (Ptr ⊕ Ptr) :=
  if cur = none then pure (.inr none)
  else do
    let (e, next) ← read Cell.asNode cur
    let cmp ← compareKey e key
    if cmp = 0 then pure (.inr e)
    else if cmp > 0 then pure (.inr none)
    else pure (.inl next)

/-- `list_get`. -/
def listGet (l key : Ptr) : HeapM Ptr :=
  if l = none ∨ key = none then pure none
  else do
    let (head, _) ← read Cell.asList l
    loop (getStep key) head

/-- `strdup`. -/
def strdup (s : Ptr) : HeapM Ptr := do
  let s ← read Cell.asStr s
  malloc (.str s)

/-- `strdup` of the key of an entry. -/
def dupKey (e : Ptr) : HeapM Ptr := do
  let (k, _) ← read Cell.asEntry e
  strdup k

/-- `a[i] = p`, of an array that is filled from its beginning on. -/
def arraySet (a : Ptr) (i : Nat) (p : Ptr) : HeapM Unit := do
  let (cap, filled) ← read Cell.asArray a
  if i < filled.length then store a (.array cap (filled.set i p))
  else if i = filled.length ∧ (i : Int) < cap then store a (.array cap (filled ++ [p]))
  else fault .outOfBounds

/-- `a[i]`. -/
def arrayGet (a : Ptr) (i : Int) : HeapM Ptr := do
  let (_, filled) ← read Cell.asArray a
  if 0 ≤ i then
    match filled[i.toNat]? with
    | some p => pure p
    | none => fault .outOfBounds
  else fault .outOfBounds

/-- The walk of `list_get_keys`, with the next index. -/
def keysStep (keys : Ptr) : Nat × Ptr → HeapM ((Nat × Ptr) ⊕ Nat)
  | (idx, cur) =>
    if cur = none then pure (.inr idx)
    else do
      let (e, next) ← read Cell.asNode cur
      let copy ← dupKey e
      arraySet keys idx copy
      pure (.inl (idx + 1, next))

/-- `list_get_keys`. -/
def listGetKeys (l : Ptr) : HeapM Ptr :=
  if l = none then pure none
  else do
    let (head, size) ← read Cell.asList l
    if head = none then pure none
    else do
      let keys ← malloc (.array (ptrArrayCap (cint (size + 1))) [])
      if keys = none then pure none
      else do
        let idx ← loop (keysStep keys) (0, head)
        arraySet keys idx none
        pure keys

/-- The loop of `list_free_keys`. -/
def freeStep (keys : Ptr) (idx : Nat) : HeapM (Nat ⊕ Unit) := do
  let k ← arrayGet keys idx
  if k = none then pure (.inr ())
  else do
    free k
    pure (.inl (idx + 1))

/-- `list_free_keys`. -/
def listFreeKeys (keys : Ptr) : HeapM Int :=
  if keys = none then pure (-1)
  else do
    loop (freeStep keys) 0
    free keys
    pure 0

/-- One turn of `list_remove`, with the node before the current one. -/
def removeStep (l key : Ptr) : Ptr × Ptr → HeapM ((Ptr × Ptr) ⊕ Int)
  | (prev, cur) =>
    if cur = none then pure (.inr 1)
    else do
      let (e, next) ← read Cell.asNode cur
      let cmp ← compareKey e key
      if cmp = 0 then do
        let _ ← entryDestroy e
        relink l prev next
        free cur
        let (_, size) ← read Cell.asList l
        write (Cell.setSize (cint (size - 1))) l
        pure (.inr 0)
      else if cmp > 0 then pure (.inr 1)
      else pure (.inl (cur, next))

/-- `list_remove`. -/
def listRemove (l key : Ptr) : HeapM Int :=
  if l = none ∨ key = none then pure (-1)
  else do
    let (head, _) ← read Cell.asList l
    loop (removeStep l key) (none, head)

/-- The loop of `list_destroy`. -/
def destroyStep (cur : Ptr) : HeapM (Ptr ⊕ Unit) :=
  if cur = none then pure (.inr ())
  else do
    let (e, next) ← read Cell.asNode cur
    let _ ← entryDestroy e
    free cur
    pure (.inl next)

/-- `list_destroy`. -/
def listDestroy (l : Ptr) : HeapM Int :=
  if l = none then pure (-1)
  else do
    let (head, _) ← read Cell.asList l
    loop destroyStep head
    free l
    pure 0

/-! ## What is owned -/

/-- The nodes from `p` on. -/
abbrev nodesAt (p : Ptr) (nodes : List Entry) : Assert Cell := chain Cell.node ownEntry p nodes

/-- The nodes a walk has passed, latest first. -/
abbrev passedAt (head prev cur : Ptr) (passed : List Entry) : Assert Cell :=
  behind Cell.node ownEntry head prev cur passed

/-- A list with its first node at `head`. -/
def listAt (head l : Ptr) (L : EntryList) : Assert Cell :=
  cell l (.list head L.size) * nodesAt head L.nodes

/-- A list. -/
def ownList (l : Ptr) (L : EntryList) : Assert Cell := ⨆ head, listAt head l L

/-- An array of pointers, with what they own. -/
def arrayAt {ε : Type} (item : Ptr → ε → Assert Cell) (cap : Int) (a : Ptr) (vs : List ε) :
    Assert Cell := ⨆ ps : List Ptr, cell a (.array cap ps) * each item ps vs

/-- An array of keys, some of them NULL. -/
def ownKeys (a : Ptr) (keys : List (Option CStr)) : Assert Cell :=
  ⨆ cap, arrayAt (orNull strAt) cap a keys

/-! ## `list_create`, `list_add` -/

section

variable {γ δ : Type} {al : Allocs} {m : CM δ} {S : γ → δ → Assert Cell}

theorem listAt_le_own (head l : Ptr) (L : EntryList) : listAt head l L ≤ ownList l L :=
  le_iSup (fun head => listAt head l L) head

theorem listCreate_refines (al : Allocs) :
    Refines al 1 listCreate KvStorage.listCreate fun l r => orNull ownList l r := by
  unfold listCreate KvStorage.listCreate
  refine Refines.malloc_test (fun _ l => ?_) fun _ => ?_
  · refine Refines.pure (le_trans ?_ (listAt_le_own none (some l) ⟨0, []⟩))
    exact mul_le_mul_right (segment_nil (none : Ptr)).ge _
  · exact Refines.pure (orNull_none ownList).ge

/-- Whether the walk of `list_add` goes on past an entry. -/
def smaller (entry cur : Entry) : Bool := KvStorage.entryCompare cur entry < 0

/-- The walk of `list_add` stops at the first entry that is not smaller. -/
theorem addWalk (entry : Ptr) (e : Entry) (head : Ptr) {k : Ptr × Ptr → HeapM γ}
    (F : Assert Cell) (rest passed : List Entry) (prev cur : Ptr) (r : Nat) (hr : rest.length < r)
    (hF : F.Owns (keyAt entry e.key))
    (hk : ∀ prev' cur', Refines al
      (F * passedAt head prev' cur' ((rest.takeWhile (smaller e)).reverse ++ passed) *
        nodesAt cur' (rest.dropWhile (smaller e))) (k (prev', cur')) m S) :
    Refines al (F * passedAt head prev cur passed * nodesAt cur rest)
      (rounds (addStep entry) r (prev, cur) >>= k) m S := by
  induction rest generalizing passed prev cur r with
  | nil =>
    obtain _ | r := r
    · exact absurd hr (Nat.not_lt_zero _)
    refine Refines.shows (chain_nil_shows cur).mul_right fun hcur => Refines.turn ?_
    rw [addStep, if_pos hcur, pure_bind]
    exact hk prev cur
  | cons c rest ih =>
    obtain _ | r := r
    · exact absurd hr (Nat.not_lt_zero _)
    rw [mul_chain_cons]
    refine Refines.iSup fun q => Refines.iSup fun next => ?_
    refine Refines.shows (cell_shows cur _).mul_left fun hcur => Refines.turn ?_
    rw [addStep, if_neg hcur, bind_assoc]
    refine Refines.read (owns_refl _).mul_left rfl ?_
    dsimp only
    rw [bind_assoc]
    refine entryCompare_refines (ownEntry_owns_key q c).mul_left.mul_right
      hF.mul_left.mul_left.mul_right.mul_right ?_
    split
    next hlt =>
      have hsm : smaller e c = true := decide_eq_true hlt
      rw [List.takeWhile_cons_of_pos hsm, List.dropWhile_cons_of_pos hsm, List.reverse_cons,
        List.append_assoc] at hk
      rw [pure_bind]
      exact Refines.mono (ih (c :: passed) cur next r (Nat.lt_of_succ_lt_succ hr) hk)
        (behind_step _ _ _ _ _ _ _ _ _) fun _ _ => le_rfl
    next hlt =>
      have hsm : ¬ smaller e c = true := fun h => hlt (of_decide_eq_true h)
      rw [List.takeWhile_cons_of_neg hsm, List.dropWhile_cons_of_neg hsm] at hk
      rw [pure_bind]
      refine Refines.mono (hk prev cur) ?_ fun _ _ => le_rfl
      rw [List.reverse_nil, List.nil_append, mul_chain_cons]
      exact le_iSup_of_le q (le_iSup_of_le next le_rfl)

/-- Whichever pointer is changed, the passed nodes lead to `next` then. -/
theorem relink_refines {k : Unit → HeapM γ} (F : Assert Cell) (l head prev cur next : Ptr)
    (size : Int) (passed : List Entry)
    (hk : ∀ head', Refines al (cell l (.list head' size) *
      segment Cell.node ownEntry head' next passed.reverse * F) (k ()) m S) :
    Refines al (cell l (.list head size) * passedAt head prev cur passed * F)
      (relink l prev next >>= k) m S := by
  refine Refines.shows (behind_shows passed head prev cur).mul_right.mul_left fun hprev => ?_
  unfold relink
  cases passed with
  | nil =>
    rw [if_pos (hprev.mpr rfl)]
    refine Refines.write (passedAt head prev cur [] * F) (mul_assoc _ _ _).le rfl ?_
    refine Refines.mono (hk next) ?_ fun _ _ => le_rfl
    rw [← mul_assoc, List.reverse_nil, segment_nil]
    exact mul_le_mul_left (mul_le_mul_right (iSup_le fun _ => le_rfl) _) F
  | cons e passed =>
    rw [if_neg fun h => List.cons_ne_nil _ _ (hprev.mp h), passedAt, behind, Assert.mul_iSup]
    refine Refines.iSup_mul fun q => ?_
    have hsplit : ∀ next, cell l (.list head size) * (segment Cell.node ownEntry head prev
          passed.reverse * (cell prev (.node q next) * ownEntry q e)) * F
        = cell prev (.node q next) * (cell l (.list head size) *
          segment Cell.node ownEntry head prev passed.reverse * ownEntry q e * F) := by
      intro next
      ac_rfl
    refine Refines.write _ (hsplit cur).le rfl ?_
    rw [← hsplit next]
    refine Refines.mono (hk head) ?_ fun _ _ => le_rfl
    refine mul_le_mul_left (mul_le_mul_right (le_trans ?_ (behind_le_segment _ _ prev _)) _) F
    exact le_iSup (fun q => segment Cell.node ownEntry head prev passed.reverse *
      (cell prev (Cell.node q next) * ownEntry q e)) q

/-- The walk of `list_add` on values stops there too. -/
theorem insertNode_split (e : Entry) (nodes : List Entry) : KvStorage.insertNode e nodes = (do
    let (r, next) ← KvStorage.insertNode e (nodes.dropWhile (smaller e))
    pure (r, nodes.takeWhile (smaller e) ++ next)) := by
  induction nodes with
  | nil => exact (bind_pure _).symm
  | cons c nodes ih =>
    by_cases hlt : KvStorage.entryCompare c e < 0
    · have hsm : smaller e c = true := decide_eq_true hlt
      rw [List.takeWhile_cons_of_pos hsm, List.dropWhile_cons_of_pos hsm, insertNode, if_pos hlt,
        ih, bind_assoc]
      rfl
    · have hsm : ¬ smaller e c = true := fun h => hlt (of_decide_eq_true h)
      rw [List.takeWhile_cons_of_neg hsm, List.dropWhile_cons_of_neg hsm]
      exact (bind_pure _).symm

/-- A new node where the walk has stopped. -/
def linkValue (L : EntryList) (e : Entry) : CM (Int × EntryList) := do
  if ← CLib.malloc then
    pure (0, ⟨cint (L.size + 1),
      L.nodes.takeWhile (smaller e) ++ e :: L.nodes.dropWhile (smaller e)⟩)
  else pure (-1, L)

/-- `list_add` where the walk stops at an entry with the key. -/
theorem listAdd_found {L : EntryList} {e c : Entry} {rest : List Entry}
    (hstop : L.nodes.dropWhile (smaller e) = c :: rest) (hc : KvStorage.entryCompare c e = 0) :
    KvStorage.listAdd L e = pure (1, ⟨L.size, L.nodes.takeWhile (smaller e) ++ e :: rest⟩) := by
  rw [KvStorage.listAdd, insertNode_split, hstop, insertNode, if_neg (by omega), if_pos hc]
  rfl

/-- `list_add` where it stops elsewhere. -/
theorem listAdd_new {L : EntryList} {e : Entry}
    (hstop : ∀ c rest, L.nodes.dropWhile (smaller e) = c :: rest →
      KvStorage.entryCompare c e ≠ 0) :
    KvStorage.listAdd L e = linkValue L e := by
  have hnodes := List.takeWhile_append_dropWhile (p := smaller e) (l := L.nodes)
  have hinsert : KvStorage.insertNode e (L.nodes.dropWhile (smaller e)) = (do
      if ← CLib.malloc then pure (0, e :: L.nodes.dropWhile (smaller e))
      else pure (-1, L.nodes.dropWhile (smaller e))) := by
    cases hrest : L.nodes.dropWhile (smaller e) with
    | nil => rfl
    | cons c rest =>
      have hlt : ¬ KvStorage.entryCompare c e < 0 := fun h => by
        have hhead := List.head?_dropWhile_not (smaller e) L.nodes
        rw [hrest] at hhead
        simp [smaller, h] at hhead
      rw [insertNode, if_neg hlt, if_neg (hstop c rest hrest)]
  funext al
  rw [KvStorage.listAdd, insertNode_split, hinsert, linkValue]
  cases h0 : al 0 <;> simp [h0, hnodes]

/-- Who owns the entry after `list_add` answered `r`: it stays with the caller only where there was
no memory for the node. -/
def unlinked (entry : Ptr) (e : Entry) (r : Int) : Assert Cell :=
  if r = -1 then ownEntry entry e else 1

theorem addNode_refines (al : Allocs) (l head entry prev cur : Ptr) (L : EntryList) (e : Entry) :
    Refines al (cell l (.list head L.size) * ownEntry entry e *
        passedAt head prev cur (L.nodes.takeWhile (smaller e)).reverse *
        nodesAt cur (L.nodes.dropWhile (smaller e)))
      (addNode l entry prev cur) (linkValue L e)
      fun r res => ⨆ _ : r = res.1, ownList l res.2 * unlinked entry e r := by
  unfold addNode linkValue
  refine Refines.malloc_test (fun _ a => ?_) fun _ => ?_
  · have hsplit : cell (some a) (.node entry cur) * (cell l (.list head L.size) * ownEntry entry e *
          passedAt head prev cur (L.nodes.takeWhile (smaller e)).reverse *
          nodesAt cur (L.nodes.dropWhile (smaller e)))
        = cell l (.list head L.size) * passedAt head prev cur
          (L.nodes.takeWhile (smaller e)).reverse * (cell (some a) (.node entry cur) *
          (ownEntry entry e * nodesAt cur (L.nodes.dropWhile (smaller e)))) := by
      ac_rfl
    rw [hsplit]
    refine relink_refines _ l head prev cur (some a) L.size _ fun head' => ?_
    refine Refines.read (owns_refl _).mul_left.mul_left rfl ?_
    refine Refines.write _ (mul_assoc _ _ _).le rfl (Refines.pure (fact rfl ?_))
    rw [unlinked, if_neg (by decide), mul_one, List.reverse_reverse]
    refine le_trans (mul_le_mul_right ?_ _) (listAt_le_own head' l ⟨cint (L.size + 1),
      L.nodes.takeWhile (smaller e) ++ e :: L.nodes.dropWhile (smaller e)⟩)
    exact segment_mul_node_le_chain (L.nodes.takeWhile (smaller e)) _ e head' (some a) entry cur
  · refine Refines.pure (fact rfl ?_)
    have hnodes : passedAt head prev cur (L.nodes.takeWhile (smaller e)).reverse *
        nodesAt cur (L.nodes.dropWhile (smaller e)) ≤ nodesAt head L.nodes := by
      refine le_trans (mul_le_mul_left (behind_reverse_le_segment _ head prev cur) _)
        (le_trans (segment_mul_chain_le _ _ _ _) ?_)
      rw [List.takeWhile_append_dropWhile]
    rw [unlinked, if_pos rfl, mul_assoc, mul_right_comm]
    exact mul_le_mul_left (le_trans (mul_le_mul_right hnodes _) (listAt_le_own head l L)) _

theorem listAt_le_atLeast (head l : Ptr) (L : EntryList) (F : Assert Cell) :
    listAt head l L * F ≤ atLeast L.nodes.length := by
  have hnodes : nodesAt head L.nodes ≤ atLeast L.nodes.length :=
    segment_le_atLeast L.nodes head none
  have hle := atLeast_mul (atLeast_mul (atLeast_zero (P := cell l (.list head L.size))) hnodes)
    (atLeast_zero (P := F))
  rwa [Nat.zero_add, Nat.add_zero] at hle

theorem listAt_shows (head l : Ptr) (L : EntryList) : (listAt head l L).Shows (l ≠ none) :=
  (cell_shows l _).mul_left

theorem ownList_shows (l : Ptr) (L : EntryList) : (ownList l L).Shows (l ≠ none) :=
  shows_iSup fun head => listAt_shows head l L

theorem ownEntry_shows (p : Ptr) (e : Entry) : (ownEntry p e).Shows (p ≠ none) :=
  (ownEntry_owns_key p e).shows (keyAt_shows p e.key)

theorem listAdd_refines (al : Allocs) (l entry : Ptr) (L : EntryList) (e : Entry) :
    Refines al (ownList l L * ownEntry entry e) (listAdd l entry) (KvStorage.listAdd L e)
      fun r res => ⨆ _ : r = res.1, ownList l res.2 * unlinked entry e r := by
  refine Refines.iSup_mul fun head => ?_
  refine Refines.shows (listAt_shows head l L).mul_left fun hl => ?_
  refine Refines.shows (ownEntry_shows entry e).mul_right fun hentry => ?_
  unfold listAdd
  rw [if_neg (not_or.mpr ⟨hl, hentry⟩)]
  refine Refines.read (owns_refl _).mul_left.mul_left rfl ?_
  refine Refines.loop (listAt_le_atLeast head l L _) fun r hr => ?_
  have hstart : listAt head l L * ownEntry entry e = cell l (.list head L.size) * ownEntry entry e *
      passedAt head none head [] * nodesAt head L.nodes := by
    rw [passedAt, behind_start, listAt]
    ac_rfl
  rw [hstart]
  refine addWalk entry e head _ L.nodes [] none head r hr (ownEntry_owns_key entry e).mul_right
    fun prev cur => ?_
  rw [List.append_nil]
  dsimp only
  cases hrest : L.nodes.dropWhile (smaller e) with
  | nil =>
    rw [listAdd_new fun c rest hstop => by rw [hrest] at hstop; cases hstop]
    refine Refines.shows (chain_nil_shows cur).mul_right fun hcur => ?_
    rw [if_pos hcur, ← hrest]
    exact addNode_refines al l head entry prev cur L e
  | cons c rest =>
    refine Refines.shows (chain_cons_shows cur c rest).mul_right fun hcur => ?_
    rw [if_neg hcur, mul_chain_cons]
    refine Refines.iSup fun q => Refines.iSup fun next => ?_
    refine Refines.read (owns_refl _).mul_left rfl ?_
    dsimp only
    refine entryCompare_refines (ownEntry_owns_key q c).mul_left.mul_right
      (ownEntry_owns_key entry e).mul_right.mul_left.mul_left.mul_right.mul_right ?_
    by_cases hc : KvStorage.entryCompare c e = 0
    · rw [if_pos hc, listAdd_found hrest hc]
      refine Refines.run (entryDestroy_runs q c) _ (mul_left_comm _ _ _).le fun _ => ?_
      refine Refines.iSup_mul fun _ => ?_
      rw [one_mul]
      refine Refines.write _ le_rfl rfl (Refines.pure (fact rfl ?_))
      rw [unlinked, if_neg (by decide), mul_one]
      refine le_trans ?_ (listAt_le_own head l ⟨L.size, L.nodes.takeWhile (smaller e) ++ e :: rest⟩)
      calc cell cur (.node entry next) * (cell l (.list head L.size) * ownEntry entry e *
            passedAt head prev cur (L.nodes.takeWhile (smaller e)).reverse * nodesAt next rest)
          = cell l (.list head L.size) *
            (passedAt head prev cur (L.nodes.takeWhile (smaller e)).reverse *
            (cell cur (.node entry next) * (ownEntry entry e * nodesAt next rest))) := by ac_rfl
        _ ≤ cell l (.list head L.size) *
              nodesAt head (L.nodes.takeWhile (smaller e) ++ e :: rest) :=
            mul_le_mul_right (le_trans (mul_le_mul_left
              (behind_reverse_le_segment _ head prev cur) _)
              (segment_mul_node_le_chain _ rest e head cur entry next)) _
    · rw [if_neg hc]
      have hnew : ∀ c' rest', L.nodes.dropWhile (smaller e) = c' :: rest' →
          KvStorage.entryCompare c' e ≠ 0 := by
        intro c' rest' hstop
        rw [hrest] at hstop
        cases hstop
        exact hc
      rw [listAdd_new hnew]
      refine Refines.mono (addNode_refines al l head entry prev cur L e) ?_ fun _ _ => le_rfl
      rw [hrest, mul_chain_cons]
      exact le_iSup_of_le q (le_iSup_of_le next le_rfl)

/-! ## `list_size`, `list_get` -/

theorem listSize_refines {k : Int → HeapM γ} {P : Assert Cell} (l : Ptr) (L : EntryList)
    (hl : P.Owns (ownList l L)) (hk : Refines al P (k (KvStorage.listSize L)) m S) :
    Refines al P (listSize l >>= k) m S := by
  refine Refines.shows (hl.shows (ownList_shows l L)) fun hnull => ?_
  unfold listSize
  rw [if_neg hnull, bind_assoc]
  refine Refines.owns hl fun head => ?_
  refine Refines.read (owns_inf.trans (owns_refl _).mul_left) rfl ?_
  exact hk.mono inf_le_left fun _ _ => le_rfl

/-- What `list_get` answers: an entry of the list, which stays the list's. -/
def found (p : Ptr) (P : Assert Cell) : Option Entry → Assert Cell
  | none => ⨆ _ : p = none, P
  | some e => lent (ownEntry p e) P

theorem compareKey_refines {k : Int → HeapM γ} {P : Assert Cell} {p key : Ptr} {e : Entry}
    {s : CStr} (he : P.Owns (keyAt p e.key)) (hs : P.Owns (strAt key s))
    (hk : Refines al P (k (CLib.strcmp e.key s)) m S) :
    Refines al P (compareKey p key >>= k) m S := by
  unfold compareKey
  rw [bind_assoc]
  refine Refines.owns he fun kv => ?_
  refine Refines.read (owns_inf.trans (owns_refl _).mul_left) rfl ?_
  refine strcmp_refines (owns_inf.trans (owns_refl _).mul_right) (hs.mono inf_le_left) ?_
  exact hk.mono inf_le_left fun _ _ => le_rfl

theorem found_mono {p : Ptr} {P Q : Assert Cell} (h : P ≤ Q) (o : Option Entry) :
    found p P o ≤ found p Q o := by
  cases o with
  | none => exact iSup_mono fun _ => h
  | some e => exact lent_mono h

/-- The walk of `list_get`, with what else is owned. -/
theorem getWalk (F : Assert Cell) (key : Ptr) (s : CStr) (nodes : List Entry) (cur : Ptr) (r : Nat)
    (hr : nodes.length < r) (hs : F.Owns (strAt key s)) :
    Runs (F * nodesAt cur nodes) (rounds (getStep key) r cur) fun p =>
      found p (F * nodesAt cur nodes) (getNode s nodes) := by
  induction nodes generalizing F cur r with
  | nil =>
    obtain _ | r := r
    · exact absurd hr (Nat.not_lt_zero _)
    refine Runs.intro fun al => Refines.ret (Refines.turn ?_)
    refine Refines.shows (chain_nil_shows cur).mul_right fun hcur => ?_
    rw [getStep, if_pos hcur, pure_bind]
    exact Refines.pure (fact rfl le_rfl)
  | cons c nodes ih =>
    obtain _ | r := r
    · exact absurd hr (Nat.not_lt_zero _)
    refine Runs.intro fun al => Refines.ret (Refines.turn ?_)
    rw [mul_chain_cons]
    refine Refines.iSup fun q => Refines.iSup fun next => ?_
    refine Refines.shows (cell_shows cur _).mul_left fun hcur => ?_
    rw [getStep, if_neg hcur, bind_assoc]
    refine Refines.read (owns_refl _).mul_left rfl ?_
    dsimp only
    rw [bind_assoc]
    refine compareKey_refines (ownEntry_owns_key q c).mul_left.mul_right
      hs.mul_left.mul_right.mul_right ?_
    have hfold : cell cur (.node q next) * (ownEntry q c * (F * nodesAt next nodes))
        ≤ ⨆ (q : Ptr) (next : Ptr), cell cur (.node q next) *
          (ownEntry q c * (F * nodesAt next nodes)) :=
      le_iSup_of_le q (le_iSup_of_le next le_rfl)
    unfold getNode
    by_cases heq : CLib.strcmp c.key s = 0
    · rw [if_pos heq, if_pos heq, pure_bind]
      refine Refines.pure (le_trans ?_ (lent_mono hfold))
      rw [mul_left_comm]
      exact le_lent le_rfl
    · rw [if_neg heq, if_neg heq]
      by_cases hgt : CLib.strcmp c.key s > 0
      · rw [if_pos hgt, if_pos hgt, pure_bind]
        exact Refines.pure (fact rfl hfold)
      · rw [if_neg hgt, if_neg hgt, pure_bind]
        dsimp only
        rw [bind_pure]
        have hsplit : cell cur (.node q next) * (ownEntry q c * (F * nodesAt next nodes))
            = cell cur (.node q next) * ownEntry q c * F * nodesAt next nodes := by
          ac_rfl
        exact Runs.mono (ih _ next r (Nat.lt_of_succ_lt_succ hr) hs.mul_right) hsplit.le
          (fun p => found_mono (hsplit.ge.trans hfold) _) al

theorem listGet_runs (l key : Ptr) (L : EntryList) (s : CStr) :
    Runs (ownList l L * strAt key s) (listGet l key) fun p =>
      found p (ownList l L * strAt key s) (KvStorage.listGet L s) := by
  refine Runs.intro fun al => Refines.iSup_mul fun head => ?_
  refine Refines.shows (listAt_shows head l L).mul_left fun hl => ?_
  refine Refines.shows (cell_shows key (Cell.str s)).mul_right fun hkey => ?_
  unfold listGet
  rw [if_neg (not_or.mpr ⟨hl, hkey⟩)]
  refine Refines.read (owns_refl _).mul_left.mul_left rfl ?_
  refine Refines.ret (Refines.loop (listAt_le_atLeast head l L _) fun r hr => ?_)
  rw [bind_pure]
  have hsplit : listAt head l L * strAt key s
      = cell l (.list head L.size) * strAt key s * nodesAt head L.nodes := mul_right_comm _ _ _
  exact Runs.mono (getWalk _ key s L.nodes head r hr (owns_refl _).mul_right) hsplit.le
    (fun p => found_mono (hsplit.ge.trans (mul_le_mul_left (listAt_le_own head l L) _)) _) al

/-! ## `list_remove`, `list_destroy` -/

/-- A list whose nodes are those that were passed and those from `cur` on. -/
theorem passed_mul_nodes_le (F : Assert Cell) (l head prev cur : Ptr) (size : Int)
    (passed rest : List Entry) :
    cell l (.list head size) * F * passedAt head prev cur passed * nodesAt cur rest
      ≤ F * ownList l ⟨size, passed.reverse ++ rest⟩ := by
  calc cell l (.list head size) * F * passedAt head prev cur passed * nodesAt cur rest
      = F * (cell l (.list head size) * (passedAt head prev cur passed * nodesAt cur rest)) := by
        ac_rfl
    _ ≤ F * listAt head l ⟨size, passed.reverse ++ rest⟩ :=
        mul_le_mul_right (mul_le_mul_right (le_trans (mul_le_mul_left
          (behind_le_segment passed head prev cur) _) (segment_mul_chain_le _ rest _ _)) _) F
    _ ≤ F * ownList l ⟨size, passed.reverse ++ rest⟩ := mul_le_mul_right (listAt_le_own ..) F

/-- What `list_remove` does from `cur` on, in a list of which `passed` is the part before. -/
theorem removeWalk (F : Assert Cell) (l key : Ptr) (s : CStr) (head : Ptr) (size : Int)
    (rest passed : List Entry) (prev cur : Ptr) (r : Nat) (hr : rest.length < r)
    (hs : F.Owns (strAt key s)) :
    Runs (cell l (.list head size) * F * passedAt head prev cur passed * nodesAt cur rest)
      (rounds (removeStep l key) r (prev, cur)) fun res =>
        ⨆ _ : res = if (removeNode s rest).1 then 0 else 1,
          F * ownList l ⟨if (removeNode s rest).1 then cint (size - 1) else size,
            passed.reverse ++ (removeNode s rest).2⟩ := by
  induction rest generalizing passed prev cur r with
  | nil =>
    obtain _ | r := r
    · exact absurd hr (Nat.not_lt_zero _)
    refine Runs.intro fun al => Refines.ret (Refines.turn ?_)
    refine Refines.shows (chain_nil_shows cur).mul_right fun hcur => ?_
    rw [removeStep, if_pos hcur, pure_bind]
    exact Refines.pure (fact rfl (passed_mul_nodes_le F l head prev cur size passed []))
  | cons c rest ih =>
    obtain _ | r := r
    · exact absurd hr (Nat.not_lt_zero _)
    have hfold := passed_mul_nodes_le F l head prev cur size passed (c :: rest)
    refine Runs.intro fun al => Refines.ret (Refines.turn ?_)
    rw [mul_chain_cons] at hfold ⊢
    refine Refines.iSup fun q => Refines.iSup fun next => ?_
    refine Refines.shows (cell_shows cur _).mul_left fun hcur => ?_
    rw [removeStep, if_neg hcur, bind_assoc]
    refine Refines.read (owns_refl _).mul_left rfl ?_
    dsimp only
    rw [bind_assoc]
    refine compareKey_refines (ownEntry_owns_key q c).mul_left.mul_right
      hs.mul_right.mul_left.mul_left.mul_right.mul_right ?_
    unfold removeNode
    by_cases heq : CLib.strcmp c.key s = 0
    · rw [if_pos heq, bind_assoc]
      simp only [if_pos heq, if_true]
      refine Refines.run (entryDestroy_runs q c) _ (mul_left_comm _ _ _).le fun _ => ?_
      refine Refines.iSup_mul fun _ => ?_
      have hsplit : 1 * (cell cur (.node q next) * (cell l (.list head size) * F *
            passedAt head prev cur passed * nodesAt next rest))
          = cell l (.list head size) * passedAt head prev cur passed *
            (cell cur (.node q next) * (F * nodesAt next rest)) := by
        rw [one_mul]
        ac_rfl
      rw [hsplit, bind_assoc]
      refine relink_refines _ l head prev cur next size passed fun head' => ?_
      rw [bind_assoc]
      refine Refines.free _ (mul_left_comm _ _ _).le ?_
      rw [bind_assoc]
      refine Refines.read (owns_refl _).mul_left.mul_left rfl ?_
      dsimp only
      rw [bind_assoc]
      refine Refines.write _ (mul_assoc _ _ _).le rfl ?_
      rw [pure_bind]
      refine Refines.pure (fact rfl ?_)
      calc cell l (.list head' (cint (size - 1))) * (segment Cell.node ownEntry head' next
            passed.reverse * (F * nodesAt next rest))
          = F * (cell l (.list head' (cint (size - 1))) * (segment Cell.node ownEntry head' next
            passed.reverse * nodesAt next rest)) := by ac_rfl
        _ ≤ F * ownList l ⟨cint (size - 1), passed.reverse ++ rest⟩ :=
            mul_le_mul_right (le_trans (mul_le_mul_right (segment_mul_chain_le _ rest _ _) _)
              (listAt_le_own head' l ⟨cint (size - 1), passed.reverse ++ rest⟩)) F
    · rw [if_neg heq]
      simp only [if_neg heq]
      by_cases hgt : CLib.strcmp c.key s > 0
      · rw [if_pos hgt, pure_bind]
        simp only [if_pos hgt]
        refine Refines.pure (fact rfl (le_trans ?_ hfold))
        exact le_iSup_of_le q (le_iSup_of_le next le_rfl)
      · rw [if_neg hgt, pure_bind]
        simp only [if_neg hgt]
        rw [bind_pure]
        have ih' := ih (c :: passed) cur next r (Nat.lt_of_succ_lt_succ hr)
        rw [List.reverse_cons, List.append_assoc] at ih'
        exact Runs.mono ih' (behind_step _ _ _ _ _ _ _ _ _) (fun _ => le_rfl) al

theorem listRemove_runs (l key : Ptr) (L : EntryList) (s : CStr) :
    Runs (ownList l L * strAt key s) (listRemove l key) fun r =>
      ⨆ _ : r = (KvStorage.listRemove L s).1,
        ownList l (KvStorage.listRemove L s).2 * strAt key s := by
  refine Runs.intro fun al => Refines.iSup_mul fun head => ?_
  refine Refines.shows (listAt_shows head l L).mul_left fun hl => ?_
  refine Refines.shows (cell_shows key (Cell.str s)).mul_right fun hkey => ?_
  unfold listRemove
  rw [if_neg (not_or.mpr ⟨hl, hkey⟩)]
  refine Refines.read (owns_refl _).mul_left.mul_left rfl ?_
  refine Refines.ret (Refines.loop (listAt_le_atLeast head l L _) fun r hr => ?_)
  rw [bind_pure]
  have hsplit : listAt head l L * strAt key s = cell l (.list head L.size) * strAt key s *
      passedAt head none head [] * nodesAt head L.nodes := by
    rw [passedAt, behind_start, listAt]
    ac_rfl
  refine Runs.mono (removeWalk (strAt key s) l key s head L.size L.nodes [] none head r hr
    (owns_refl _)) hsplit.le (fun res => iSup_le fun hres => ?_) al
  unfold KvStorage.listRemove
  rcases hremove : removeNode s L.nodes with ⟨b, nodes⟩
  rw [hremove] at hres
  cases b <;> exact fact hres (mul_comm _ _).le

/-- The nodes from `cur` on are freed, with their entries. -/
theorem destroyWalk {k : Unit → HeapM γ} (F : Assert Cell) (nodes : List Entry) (cur : Ptr)
    (r : Nat) (hr : nodes.length < r) (hk : Refines al F (k ()) m S) :
    Refines al (F * nodesAt cur nodes) (rounds destroyStep r cur >>= k) m S := by
  induction nodes generalizing cur r with
  | nil =>
    obtain _ | r := r
    · exact absurd hr (Nat.not_lt_zero _)
    refine Refines.shows (chain_nil_shows cur).mul_right fun hcur => Refines.turn ?_
    rw [destroyStep, if_pos hcur, pure_bind, hcur, nodesAt, chain_none, iSup_pos rfl, mul_one]
    exact hk
  | cons c nodes ih =>
    obtain _ | r := r
    · exact absurd hr (Nat.not_lt_zero _)
    rw [mul_chain_cons]
    refine Refines.iSup fun q => Refines.iSup fun next => ?_
    refine Refines.shows (cell_shows cur _).mul_left fun hcur => Refines.turn ?_
    rw [destroyStep, if_neg hcur, bind_assoc]
    refine Refines.read (owns_refl _).mul_left rfl ?_
    dsimp only
    rw [bind_assoc]
    refine Refines.run (entryDestroy_runs q c) _ (mul_left_comm _ _ _).le fun _ => ?_
    refine Refines.iSup_mul fun _ => ?_
    rw [one_mul, bind_assoc]
    refine Refines.free _ le_rfl ?_
    rw [pure_bind]
    exact ih next r (Nat.lt_of_succ_lt_succ hr)

/-- Nothing is left of a list. -/
theorem listDestroy_runs (l : Ptr) (L : EntryList) :
    Runs (ownList l L) (listDestroy l) fun r => ⨆ _ : r = 0, 1 := by
  refine Runs.intro fun al => Refines.iSup fun head => ?_
  refine Refines.shows (listAt_shows head l L) fun hl => ?_
  unfold listDestroy
  rw [if_neg hl]
  refine Refines.read (owns_refl _).mul_left rfl ?_
  have hlen := listAt_le_atLeast head l L 1
  rw [mul_one] at hlen
  refine Refines.loop hlen fun r hr => ?_
  refine destroyWalk _ L.nodes head r hr ?_
  exact Refines.free 1 (mul_one _).ge (Refines.pure (fact rfl le_rfl))

/-! ## Arrays of pointers -/

theorem strdup_refines {k : Ptr → HeapM γ} {k' : Option CStr → CM δ} {P : Assert Cell} {p : Ptr}
    {s : CStr} (hs : P.Owns (strAt p s))
    (hk : ∀ al' q r, Refines al' (orNull strAt q r * P) (k q) (k' r) S) :
    Refines al P (strdup p >>= k) (CLib.strdup (some s) >>= k') S := by
  unfold strdup CLib.strdup
  rw [bind_assoc, deref_some, pure_bind, bind_assoc]
  refine Refines.read hs rfl (Refines.malloc (fun _ q => ?_) fun _ => ?_)
  · rw [if_pos rfl, pure_bind]
    exact hk _ (some q) (some s)
  · rw [if_neg Bool.false_ne_true, pure_bind]
    have hnone := hk (Allocs.drop al 1) none none
    rwa [orNull_none, one_mul] at hnone

theorem dupKey_refines {k : Ptr → HeapM γ} {k' : Option CStr → CM δ} {P : Assert Cell} {p : Ptr}
    {key : CStr} (he : P.Owns (keyAt p key))
    (hk : ∀ al' q r, Refines al' (orNull strAt q r * P) (k q) (k' r) S) :
    Refines al P (dupKey p >>= k) (CLib.strdup (some key) >>= k') S := by
  unfold dupKey
  rw [bind_assoc]
  refine Refines.owns he fun kv => ?_
  refine Refines.read (owns_inf.trans (owns_refl _).mul_left) rfl ?_
  refine strdup_refines (owns_inf.trans (owns_refl _).mul_right) fun al' q r => ?_
  exact (hk al' q r).mono (mul_le_mul_right inf_le_left _) fun _ _ => le_rfl

section Arrays

variable {ε : Type} {item : Ptr → ε → Assert Cell} {cap : Int} {a : Ptr} {vs : List ε}

/-- The next element of an array is written. -/
theorem arrayPush_refines {k : Unit → HeapM γ} {k' : List ε → CM δ} (F : Assert Cell) (p : Ptr)
    (v : ε) (hk : Refines al (arrayAt item cap a (vs ++ [v]) * F) (k ()) (k' (vs ++ [v])) S) :
    Refines al (arrayAt item cap a vs * (item p v * F)) (arraySet a vs.length p >>= k)
      (CLib.arrayPut cap vs v >>= k') S := by
  refine Refines.iSup_mul fun ps => ?_
  refine Refines.shows (each_shows_length ps vs).mul_right.mul_left fun hlen => ?_
  unfold arraySet CLib.arrayPut
  rw [bind_assoc]
  refine Refines.read (owns_refl _).mul_left.mul_left rfl ?_
  dsimp only
  rw [if_neg (by omega)]
  by_cases hcap : (vs.length : Int) < cap
  · rw [if_pos ⟨hlen.symm, hcap⟩, if_pos hcap, pure_bind]
    refine Refines.store (each item ps vs * (item p v * F)) (mul_assoc _ _ _).le ?_
    refine Refines.mono hk ?_ fun _ _ => le_rfl
    rw [← mul_assoc, ← mul_assoc, mul_assoc (cell a _)]
    refine mul_le_mul_left (le_trans (mul_le_mul_right (each_concat ps vs p v) _) ?_) F
    exact le_iSup (fun ps => cell a (.array cap ps) * each item ps (vs ++ [v])) (ps ++ [p])
  · rw [if_neg hcap]
    exact Refines.throw_bind

/-- The final NULL is written. -/
theorem arrayNull_refines {vs : List (Option ε)} {k : Unit → HeapM γ}
    {k' : List (Option ε) → CM δ} (F : Assert Cell)
    (hk : Refines al (arrayAt (orNull item) cap a (vs ++ [none]) * F) (k ())
      (k' (vs ++ [none])) S) :
    Refines al (arrayAt (orNull item) cap a vs * F) (arraySet a vs.length none >>= k)
      (CLib.arrayPut cap vs none >>= k') S := by
  have hpush := arrayPush_refines F none none hk
  rwa [orNull_none, one_mul] at hpush

/-- An element of an array is read. -/
theorem arrayGet_refines {k : Ptr → HeapM γ} {k' : ε → CM δ} {i : Int} (F : Assert Cell)
    (hk : ∀ ps p v, 0 ≤ i → ps[i.toNat]? = some p → vs[i.toNat]? = some v →
      Refines al (cell a (.array cap ps) * each item ps vs * F) (k p) (k' v) S) :
    Refines al (arrayAt item cap a vs * F) (arrayGet a i >>= k) (CLib.arrayGet vs i >>= k') S := by
  refine Refines.iSup_mul fun ps => ?_
  refine Refines.shows (each_shows_length ps vs).mul_right.mul_left fun hlen => ?_
  unfold arrayGet CLib.arrayGet
  rw [bind_assoc]
  refine Refines.read (owns_refl _).mul_left.mul_left rfl ?_
  dsimp only
  split
  next hi =>
    cases hv : vs[i.toNat]? with
    | none => exact Refines.throw_bind
    | some v =>
      obtain ⟨hlt, -⟩ := List.getElem?_eq_some_iff.mp hv
      rw [List.getElem?_eq_getElem (by omega)]
      exact hk ps _ v hi (List.getElem?_eq_getElem (by omega)) hv
  next => exact Refines.throw_bind

end Arrays

/-! ## `list_get_keys`, `list_free_keys` -/

/-- The walk of `list_get_keys`. The nodes before `cur` are part of `F`; all of them are in `G`. -/
theorem keysWalk {keys : Ptr} {cap : Int} {c : HeapM γ} {k' : List (Option CStr) → CM δ}
    (G : Assert Cell) (hk : ∀ al' ks,
      Refines al' (arrayAt (orNull strAt) cap keys ks * G) c (k' ks) S)
    (rest : List Entry) : ∀ (al : Allocs) (filled : List (Option CStr)) (cur : Ptr) (r : Nat)
    (F : Assert Cell), rest.length < r → F * nodesAt cur rest ≤ G →
    Refines al (arrayAt (orNull strAt) cap keys filled * (F * nodesAt cur rest))
      (rounds (keysStep keys) r (filled.length, cur) >>= fun idx =>
        arraySet keys idx none >>= fun _ => c)
      (copyNodeKeys cap rest filled >>= k') S := by
  induction rest with
  | nil =>
    intro al filled cur r F hr hG
    obtain _ | r := r
    · exact absurd hr (Nat.not_lt_zero _)
    refine Refines.shows (chain_nil_shows cur).mul_right.mul_right fun hcur => Refines.turn ?_
    rw [keysStep, if_pos hcur, pure_bind, copyNodeKeys]
    exact Refines.mono (arrayNull_refines G (hk al _)) (mul_le_mul_right hG _) fun _ _ => le_rfl
  | cons c' rest ih =>
    intro al filled cur r F hr hG
    obtain _ | r := r
    · exact absurd hr (Nat.not_lt_zero _)
    rw [← mul_assoc, mul_chain_cons]
    rw [mul_chain_cons] at hG
    refine Refines.iSup fun q => Refines.iSup fun next => ?_
    have hG' := (le_iSup_of_le q (le_iSup_of_le next le_rfl)).trans hG
    refine Refines.shows (cell_shows cur _).mul_left fun hcur => Refines.turn ?_
    rw [keysStep, if_neg hcur, bind_assoc, copyNodeKeys, bind_assoc]
    refine Refines.read (owns_refl _).mul_left rfl ?_
    dsimp only
    rw [bind_assoc]
    refine dupKey_refines (ownEntry_owns_key q c').mul_left.mul_right fun al' copy o => ?_
    have hsplit : orNull strAt copy o * (cell cur (.node q next) * (ownEntry q c' *
          (arrayAt (orNull strAt) cap keys filled * F * nodesAt next rest)))
        = arrayAt (orNull strAt) cap keys filled * (orNull strAt copy o *
          (cell cur (.node q next) * ownEntry q c' * F * nodesAt next rest)) := by
      ac_rfl
    rw [hsplit, bind_assoc, bind_assoc]
    refine arrayPush_refines _ copy o ?_
    rw [pure_bind]
    have hrest := ih al' (filled ++ [o]) next r (cell cur (.node q next) * ownEntry q c' * F)
      (Nat.lt_of_succ_lt_succ hr) (by rwa [mul_assoc, mul_assoc])
    rwa [List.length_append] at hrest

theorem listGetKeys_refines (al : Allocs) (l : Ptr) (L : EntryList) :
    Refines al (ownList l L) (listGetKeys l) (KvStorage.listGetKeys L)
      fun q r => orNull ownKeys q r * ownList l L := by
  refine Refines.iSup fun head => ?_
  refine Refines.shows (listAt_shows head l L) fun hl => ?_
  unfold listGetKeys KvStorage.listGetKeys
  rw [if_neg hl]
  refine Refines.read (owns_refl _).mul_left rfl ?_
  dsimp only
  have hhead : (listAt head l L).Shows (head = none ↔ L.nodes = []) := Shows.mul_right (by
    cases L.nodes with
    | nil => exact fun h hmem => iff_of_true (chain_nil_shows head h hmem) rfl
    | cons c rest =>
      exact fun h hmem => iff_of_false (chain_cons_shows head c rest h hmem) (List.cons_ne_nil _ _))
  refine Refines.shows hhead fun hhead => Refines.ite hhead (fun _ => ?_) fun _ => ?_
  · refine Refines.pure ?_
    rw [orNull_none, one_mul]
    exact listAt_le_own head l L
  · refine Refines.malloc_test (fun _ keys => ?_) fun _ => ?_
    · have hsplit : cell (some keys) (.array (ptrArrayCap (cint (L.size + 1))) []) * listAt head l L
          ≤ arrayAt (orNull strAt) (ptrArrayCap (cint (L.size + 1))) (some keys) [] *
            (cell l (.list head L.size) * nodesAt head L.nodes) := by
        refine mul_le_mul_left (le_iSup_of_le [] ?_) _
        exact (mul_one _).ge
      refine Refines.mono ?_ hsplit fun _ _ => le_rfl
      have hlen := atLeast_mul (atLeast_zero (P := arrayAt (orNull strAt)
        (ptrArrayCap (cint (L.size + 1))) (some keys) [])) (listAt_le_atLeast head l L 1)
      rw [mul_one, Nat.zero_add] at hlen
      refine Refines.loop hlen fun r hr => ?_
      refine keysWalk (listAt head l L) (fun al' ks => Refines.pure ?_) L.nodes _ [] head r _ hr
        le_rfl
      exact mul_le_mul' (le_iSup (fun cap => arrayAt (orNull strAt) cap (some keys) ks) _)
        (listAt_le_own head l L)
    · refine Refines.pure ?_
      rw [orNull_none, one_mul]
      exact listAt_le_own head l L

/-- The strings after the first NULL. -/
def afterNull : List (Option CStr) → Nat
  | [] => 0
  | none :: keys => (keys.filter Option.isSome).length
  | some _ :: keys => afterNull keys

/-- The strings before it. -/
def beforeNull (keys : List (Option CStr)) : Nat := (keys.takeWhile Option.isSome).length

theorem each_le_garbage (ps : List Ptr) (keys : List (Option CStr)) :
    each (orNull strAt) ps keys ≤ garbage (keys.filter Option.isSome).length := by
  induction keys generalizing ps with
  | nil =>
    cases ps with
    | nil => exact garbage_zero.ge
    | cons p ps => exact bot_le
  | cons key keys ih =>
    cases ps with
    | nil => exact bot_le
    | cons p ps =>
      cases key with
      | none =>
        refine le_trans (iSup_mul _ _).le (iSup_le fun _ => ?_)
        rw [one_mul]
        exact ih ps
      | some s =>
        have hle := mul_le_garbage (cell_le_garbage p (Cell.str s)) (ih ps)
        rwa [Nat.add_comm] at hle

theorem each_le_atLeast (ps : List Ptr) (keys : List (Option CStr)) :
    each (orNull strAt) ps keys ≤ atLeast (beforeNull keys) := by
  induction keys generalizing ps with
  | nil => exact atLeast_zero
  | cons key keys ih =>
    cases ps with
    | nil => exact bot_le
    | cons p ps =>
      cases key with
      | none => exact atLeast_zero
      | some s =>
        have hle := atLeast_mul (cell_le_atLeast p (Cell.str s)) (ih ps)
        rwa [Nat.add_comm] at hle

/-- The strings up to the first NULL are freed; the array still holds their addresses. -/
theorem freeWalk {k : Unit → HeapM γ} {a : Ptr} {cap : Int} (keys : List (Option CStr)) :
    ∀ (done ps : List Ptr) (r : Nat), beforeNull keys < r → none ∈ keys →
    (∀ all, Refines al (cell a (.array cap all) * garbage (afterNull keys)) (k ()) m S) →
    Refines al (cell a (.array cap (done ++ ps)) * each (orNull strAt) ps keys)
      (rounds (freeStep a) r done.length >>= k) m S := by
  induction keys with
  | nil => exact fun _ _ _ _ hmem => absurd hmem List.not_mem_nil
  | cons key keys ih =>
    intro done ps r hr hmem hk
    obtain _ | r := r
    · exact absurd hr (Nat.not_lt_zero _)
    refine Refines.shows (each_shows_length ps (key :: keys)).mul_right fun hlen => Refines.turn ?_
    obtain _ | ⟨p, ps⟩ := ps
    · cases hlen
    unfold freeStep arrayGet
    rw [bind_assoc, bind_assoc]
    refine Refines.read (owns_refl _).mul_left rfl ?_
    dsimp only
    rw [if_pos (Int.natCast_nonneg _), Int.toNat_natCast, List.getElem?_append_right le_rfl,
      Nat.sub_self, List.getElem?_cons_zero]
    dsimp only
    rw [pure_bind]
    cases key with
    | none =>
      refine Refines.shows (orNull_none_shows strAt p).mul_left.mul_right fun hp => ?_
      rw [if_pos hp, pure_bind]
      refine Refines.mono (hk (done ++ p :: ps)) (mul_le_mul_right ?_ _) fun _ _ => le_rfl
      refine le_trans (iSup_mul _ _).le (iSup_le fun _ => ?_)
      rw [one_mul]
      exact each_le_garbage ps keys
    | some s =>
      refine Refines.shows (cell_shows p (Cell.str s)).mul_left.mul_right fun hp => ?_
      rw [if_neg hp, bind_assoc]
      refine Refines.free _ (mul_left_comm _ _ _).le ?_
      rw [pure_bind]
      have hrest := ih (done ++ [p]) ps r (Nat.lt_of_succ_lt_succ hr)
        ((List.mem_cons.mp hmem).resolve_left (by simp)) hk
      rwa [List.append_assoc, List.length_append] at hrest

/-- `list_free_keys` frees the array and the keys before its first NULL. -/
theorem listFreeKeys_runs (a : Ptr) {keys : List (Option CStr)} (hnull : none ∈ keys) :
    Runs (ownKeys a keys) (listFreeKeys a) fun r => ⨆ _ : r = 0, garbage (afterNull keys) := by
  refine Runs.intro fun al => Refines.iSup fun cap => Refines.iSup fun ps => ?_
  refine Refines.shows (cell_shows a _).mul_left fun ha => ?_
  unfold listFreeKeys
  rw [if_neg ha]
  have hlen := atLeast_mul (atLeast_zero (P := cell a (Cell.array cap ps)))
    (each_le_atLeast ps keys)
  rw [Nat.zero_add] at hlen
  refine Refines.loop hlen fun r hr => freeWalk keys [] ps r hr hnull fun all => ?_
  exact Refines.free _ le_rfl (Refines.pure (fact rfl le_rfl))

end

end KvStorage.Memory
