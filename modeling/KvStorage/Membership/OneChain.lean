import KvStorage.Lib.Neighbours
import KvStorage.Membership.Select

/-!
# One chain

Servers and clients read the same child list and each looks for its own part of it: a
server for its successor and its predecessor, a client for the head and the tail. The
loops were written separately. On every list of distinct children they describe one
chain: the successor loop and the predecessor loop are inverse to each other, they end
at the client's tail and head, and the successors lead from the head through every child
to the tail.
-/

namespace KvStorage

open CLib Neighbours

/-- The child `set_next_server` selects in the server `nodeId`. -/
def successor (children : List CStr) (nodeId : CStr) : Option CStr :=
  novoSucessor nodeId none children

/-- The child `set_antecessor` selects in the server `nodeId`. -/
def predecessor (children : List CStr) (nodeId : CStr) : Option CStr :=
  antecessor nodeId none children

variable {children : List CStr}

/-! ## What the loops select -/

/-- The loop of `set_next_server` finds the least of the greater names. -/
theorem successor_eq_some {x y : CStr} : successor children x = some y ↔ IsNext children x y := by
  unfold successor
  rw [novoSucessor_eq_some (by simp)]
  constructor
  · rintro ⟨h | ⟨hmem, hgt⟩, -, hleast⟩
    · cases h
    · exact ⟨hmem, hgt, hleast⟩
  · intro h
    exact ⟨Or.inr ⟨h.mem, h.above⟩, fun n hn => (nomatch hn), h.least⟩

/-- The loop of `set_antecessor` finds the greatest of the smaller names. -/
theorem predecessor_eq_some {x y : CStr} :
    predecessor children y = some x ↔ IsPrev children y x := by
  unfold predecessor
  rw [antecessor_eq_some (by simp)]
  constructor
  · rintro ⟨h | ⟨hmem, hlt⟩, -, hgreatest⟩
    · cases h
    · exact ⟨hmem, hlt, hgreatest⟩
  · intro h
    exact ⟨Or.inr ⟨h.mem, h.below⟩, fun n hn => (nomatch hn), h.greatest⟩

/-- Only the greatest has no successor. -/
theorem successor_eq_none {x : CStr} : successor children x = none ↔ ∀ d ∈ children, d ≤ x := by
  constructor
  · intro h d hd
    by_contra hgt
    obtain ⟨y, hy⟩ := exists_isNext hd (not_le.mp hgt)
    rw [← successor_eq_some, h] at hy
    cases hy
  · intro h
    cases hsucc : successor children x with
    | none => rfl
    | some y =>
      have hy := successor_eq_some.mp hsucc
      exact absurd hy.above (not_lt.mpr (h y hy.mem))

theorem predecessor_eq_none {y : CStr} :
    predecessor children y = none ↔ ∀ d ∈ children, y ≤ d := by
  constructor
  · intro h d hd
    by_contra hlt
    obtain ⟨x, hx⟩ := exists_isPrev hd (not_le.mp hlt)
    rw [← predecessor_eq_some, h] at hx
    cases hx
  · intro h
    cases hpred : predecessor children y with
    | none => rfl
    | some x =>
      have hx := predecessor_eq_some.mp hpred
      exact absurd hx.below (not_lt.mpr (h x hx.mem))

/-- The least and the greatest child. -/
structure HeadTail.Ends (ends : HeadTail) (children : List CStr) : Prop where
  head_mem : ends.head ∈ children
  head_le : ∀ d ∈ children, ends.head ≤ d
  tail_mem : ends.tail ∈ children
  le_tail : ∀ d ∈ children, d ≤ ends.tail

/-- The loop starts from the first child, so it needs one. -/
theorem setHeadTail_run (hne : children ≠ []) (al : Allocs) :
    ∃ ends, setHeadTail children al = .ok (ends, al) ∧ ends.Ends children := by
  cases children with
  | nil => exact absurd rfl hne
  | cons first rest =>
    obtain ⟨⟨hmaxMem, hmaxLe⟩, hminMem, hminLe⟩ := maxMin_spec rest first first
    exact ⟨_, rfl, ⟨hminMem, hminLe, hmaxMem, hmaxLe⟩⟩

/-- There is one such pair of ends. -/
theorem HeadTail.Ends.unique {ends ends' : HeadTail} (h : ends.Ends children)
    (h' : ends'.Ends children) : ends = ends' := by
  have hhead : ends.head = ends'.head :=
    le_antisymm (h.head_le _ h'.head_mem) (h'.head_le _ h.head_mem)
  have htail : ends.tail = ends'.tail :=
    le_antisymm (h'.le_tail _ h.tail_mem) (h.le_tail _ h'.tail_mem)
  cases ends
  cases ends'
  cases hhead
  cases htail
  rfl

/-! ## The order of the list -/

section Order

variable {children' : List CStr} (hp : children'.Perm children)

include hp

theorem successor_perm (x : CStr) : successor children' x = successor children x := by
  refine Option.ext fun y => ?_
  rw [successor_eq_some, successor_eq_some, isNext_perm hp]

theorem predecessor_perm (y : CStr) : predecessor children' y = predecessor children y := by
  refine Option.ext fun x => ?_
  rw [predecessor_eq_some, predecessor_eq_some, isPrev_perm hp]

theorem ends_perm {ends : HeadTail} (h : ends.Ends children') : ends.Ends children where
  head_mem := hp.mem_iff.mp h.head_mem
  head_le d hd := h.head_le d (hp.mem_iff.mpr hd)
  tail_mem := hp.mem_iff.mp h.tail_mem
  le_tail d hd := h.le_tail d (hp.mem_iff.mpr hd)

/-- The order in which the children are listed does not matter. -/
theorem setHeadTail_perm (al : Allocs) : setHeadTail children' al = setHeadTail children al := by
  by_cases hne : children = []
  · subst hne
    rw [List.perm_nil.mp hp]
  · have hne' : children' ≠ [] := by
      intro hnil
      subst hnil
      exact hne (List.nil_perm.mp hp)
    obtain ⟨ends, hrun, hends⟩ := setHeadTail_run hne al
    obtain ⟨ends', hrun', hends'⟩ := setHeadTail_run hne' al
    rw [hrun, hrun', (ends_perm hp hends').unique hends]

end Order

/-- **One chain.** On every non-empty list of distinct children the selections of servers
and clients agree, whatever the order of the list. -/
theorem one_chain (hne : children ≠ []) (hnd : children.Nodup) (al : Allocs) :
    ∃ ends, setHeadTail children al = .ok (ends, al) ∧
      (∀ x ∈ children, ∀ y ∈ children,
        successor children x = some y ↔ predecessor children y = some x) ∧
      (∀ x ∈ children, successor children x = none ↔ x = ends.tail) ∧
      (∀ y ∈ children, predecessor children y = none ↔ y = ends.head) ∧
      (∃ path : List CStr, path.Perm children ∧ path.getLast? = some ends.tail ∧
        ∀ k, walk (successor children) ends.head k = path[k]?) ∧
      ∀ children' : List CStr, children'.Perm children →
        setHeadTail children' al = setHeadTail children al ∧
        ∀ x, successor children' x = successor children x ∧
          predecessor children' x = predecessor children x := by
  obtain ⟨ends, hrun, hends⟩ := setHeadTail_run hne al
  refine ⟨ends, hrun, ?_, ?_, ?_, ?_, ?_⟩
  · intro x hx y hy
    rw [successor_eq_some, predecessor_eq_some, isNext_iff_isPrev hx hy]
  · intro x hx
    rw [successor_eq_none]
    constructor
    · intro h
      exact le_antisymm (hends.le_tail x hx) (h _ hends.tail_mem)
    · intro h
      subst h
      exact hends.le_tail
  · intro y hy
    rw [predecessor_eq_none]
    constructor
    · intro h
      exact le_antisymm (h _ hends.head_mem) (hends.head_le y hy)
    · intro h
      subst h
      exact hends.head_le
  · exact walk_visits hnd (fun x _ y => successor_eq_some) hends.head_mem hends.head_le
      hends.tail_mem hends.le_tail
  · intro children' hp
    exact ⟨setHeadTail_perm hp al, fun x => ⟨successor_perm hp x, predecessor_perm hp x⟩⟩

/-- Three children, out of order. -/
theorem one_chain_three : ∃ ends,
    setHeadTail [digitId 2, digitId 0, digitId 1] allocated = .ok (ends, allocated) ∧
    ∃ path : List CStr, path.Perm [digitId 2, digitId 0, digitId 1] ∧
      path.getLast? = some ends.tail ∧
      ∀ k, walk (successor [digitId 2, digitId 0, digitId 1]) ends.head k = path[k]? := by
  have hnd : [digitId 2, digitId 0, digitId 1].Nodup := by decide
  obtain ⟨ends, hrun, -, -, -, hpath, -⟩ := one_chain (List.cons_ne_nil _ _) hnd allocated
  exact ⟨ends, hrun, hpath⟩

end KvStorage
