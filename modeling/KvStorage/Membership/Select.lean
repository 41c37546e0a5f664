import KvStorage.Lib.CMonad

/-!
# Choosing a neighbour

The loops over the child list: in a server, `set_next_server` looks for the least
child above its own node id and `set_antecessor` for the greatest one below it;
in a client, `set_head_tail` looks for the least and the greatest child.
Children are compared by `strcmp`, so the order is the one of `CStr`, and what
the loops find does not depend on the order of the list.

The handle that `set_next_server` leaves is on the server whose address is the
data of the chosen child. What ZooKeeper and `rtable_connect` answer for a child
is a parameter (`connect`): the server that was reached, if any.
-/

namespace KvStorage

open CLib

variable {ι : Type}

/-- The loop of `set_next_server`, with `novo_sucessor` so far. -/
def novoSucessor (nodeId : CStr) : Option CStr → List CStr → Option CStr
  | novo, [] => novo
  | novo, child :: rest =>
    if 0 < strcmp child nodeId then
      match novo with
      | none => novoSucessor nodeId (some child) rest
      | some n =>
        if strcmp child n < 0 then novoSucessor nodeId (some child) rest
        else novoSucessor nodeId (some n) rest
    else novoSucessor nodeId novo rest

/-- The loop of `set_antecessor`, with `antecessor` so far. -/
def antecessor (nodeId : CStr) : Option CStr → List CStr → Option CStr
  | found, [] => found
  | found, child :: rest =>
    if strcmp child nodeId < 0 then
      match found with
      | none => antecessor nodeId (some child) rest
      | some a =>
        if 0 < strcmp child a then antecessor nodeId (some child) rest
        else antecessor nodeId (some a) rest
    else antecessor nodeId found rest

/-- The loop of `set_head_tail`, with `max` and `min` so far. -/
def maxMin (max min : CStr) : List CStr → CStr × CStr
  | [] => (max, min)
  | child :: rest =>
    maxMin (if 0 < strcmp child max then child else max)
      (if strcmp child min < 0 then child else min) rest

/-- The children a client connects its `head` and its `tail` to. -/
structure HeadTail where
  head : CStr
  tail : CStr

/-- The selection of `set_head_tail`. The loop starts from `data[0]`, which an empty child
list does not have. -/
def setHeadTail : List CStr → CM HeadTail
  | [] => throw .outOfBounds
  | first :: rest =>
    let (max, min) := maxMin first first rest
    pure ⟨min, max⟩

/-- The handle after `set_next_server`: NULL without a greater child, or where
the chosen one cannot be reached. -/
def setNextServer (nodeId : CStr) (connect : CStr → Option ι) (children : List CStr) : Option ι :=
  (novoSucessor nodeId none children).bind connect

/-- The loop keeps the least candidate: `novo` with the greater children. -/
theorem novoSucessor_eq_some {nodeId c : CStr} {children : List CStr} {novo : Option CStr}
    (hnovo : ∀ n, novo = some n → nodeId < n) :
    novoSucessor nodeId novo children = some c ↔
      (novo = some c ∨ c ∈ children ∧ nodeId < c) ∧
      (∀ n, novo = some n → c ≤ n) ∧ ∀ d ∈ children, nodeId < d → c ≤ d := by
  induction children generalizing novo with
  | nil =>
    unfold novoSucessor
    constructor
    · intro h
      refine ⟨Or.inl h, fun n hn => ?_, by simp⟩
      rw [h] at hn
      cases hn
      exact le_rfl
    · rintro ⟨h | ⟨hmem, -⟩, -⟩
      · exact h
      · cases hmem
  | cons child rest ih =>
    unfold novoSucessor
    by_cases hgt : nodeId < child
    · rw [if_pos (strcmp_pos.mpr hgt)]
      cases novo with
      | none =>
        dsimp only
        rw [ih (by simpa using hgt)]
        grind
      | some n =>
        dsimp only
        have hn := hnovo n rfl
        by_cases hlt : child < n
        · rw [if_pos (strcmp_neg.mpr hlt), ih (by simpa using hgt)]
          grind
        · rw [if_neg fun h => hlt (strcmp_neg.mp h), ih hnovo]
          grind
    · rw [if_neg fun h => hgt (strcmp_pos.mp h), ih hnovo]
      grind

/-- The loop keeps the greatest candidate: `found` with the smaller children. -/
theorem antecessor_eq_some {nodeId c : CStr} {children : List CStr} {found : Option CStr}
    (hfound : ∀ a, found = some a → a < nodeId) :
    antecessor nodeId found children = some c ↔
      (found = some c ∨ c ∈ children ∧ c < nodeId) ∧
      (∀ a, found = some a → a ≤ c) ∧ ∀ d ∈ children, d < nodeId → d ≤ c := by
  induction children generalizing found with
  | nil =>
    unfold antecessor
    constructor
    · intro h
      refine ⟨Or.inl h, fun a ha => ?_, by simp⟩
      rw [h] at ha
      cases ha
      exact le_rfl
    · rintro ⟨h | ⟨hmem, -⟩, -⟩
      · exact h
      · cases hmem
  | cons child rest ih =>
    unfold antecessor
    by_cases hlt : child < nodeId
    · rw [if_pos (strcmp_neg.mpr hlt)]
      cases found with
      | none =>
        dsimp only
        rw [ih (by simpa using hlt)]
        grind
      | some a =>
        dsimp only
        have ha := hfound a rfl
        by_cases hgt : a < child
        · rw [if_pos (strcmp_pos.mpr hgt), ih (by simpa using hlt)]
          grind
        · rw [if_neg fun h => hgt (strcmp_pos.mp h), ih hfound]
          grind
    · rw [if_neg fun h => hlt (strcmp_neg.mp h), ih hfound]
      grind

/-- The loop keeps the greatest and the least child. -/
theorem maxMin_spec (children : List CStr) : ∀ max min : CStr,
    ((maxMin max min children).1 ∈ max :: children ∧
      ∀ d ∈ max :: children, d ≤ (maxMin max min children).1) ∧
    (maxMin max min children).2 ∈ min :: children ∧
      ∀ d ∈ min :: children, (maxMin max min children).2 ≤ d := by
  induction children with
  | nil =>
    intro max min
    simp [maxMin]
  | cons child rest ih =>
    intro max min
    unfold maxMin
    obtain ⟨⟨hmaxMem, hmaxLe⟩, hminMem, hminLe⟩ :=
      ih (if 0 < strcmp child max then child else max) (if strcmp child min < 0 then child else min)
    generalize maxMin _ _ rest = ends at hmaxMem hmaxLe hminMem hminLe
    simp only [List.mem_cons, forall_eq_or_imp] at hmaxMem hmaxLe hminMem hminLe ⊢
    simp only [strcmp_pos, strcmp_neg] at hmaxMem hmaxLe hminMem hminLe
    grind

/-- Node ids of one digit. -/
def digitId (k : Nat) : CStr := ⟨[⟨48 + k % 10, by omega⟩], by simp⟩

end KvStorage
