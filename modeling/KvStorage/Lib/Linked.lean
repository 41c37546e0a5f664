import KvStorage.Lib.Heap

/-!
# Linked lists and arrays of pointers

What a chain of nodes owns, by recursion on the values it holds: `segment` from one pointer up to
another, `chain` up to NULL. `behind` is the part a walk with a trailing pointer has passed: its
last node is taken out, since that is the one that is relinked. `each` is for an array that owns
what its pointers point to.

The node type and what a payload pointer owns are parameters.
-/

namespace CLib.Linked

open Assert

variable {ν ε : Type}

section Segment

variable (node : Ptr → Ptr → ν) (item : Ptr → ε → Assert ν)

/-- The nodes from `p` up to `r`, without the one at `r`. -/
def segment : Ptr → Ptr → List ε → Assert ν
  | p, r, [] => ⨆ _ : p = r, 1
  | p, r, e :: es =>
    ⨆ (q : Ptr) (next : Ptr), cell p (node q next) * item q e * segment next r es

/-- The nodes from `p` on. -/
def chain (p : Ptr) (es : List ε) : Assert ν := segment node item p none es

/-- The nodes from `head` up to `cur` that a walk has passed, latest first; `prev` is the last of
them, or NULL. -/
def behind (head prev cur : Ptr) : List ε → Assert ν
  | [] => ⨆ _ : prev = none ∧ head = cur, 1
  | e :: passed =>
    ⨆ q : Ptr, segment node item head prev passed.reverse * (cell prev (node q cur) * item q e)

variable {node item}

theorem segment_nil (p : Ptr) : segment node item p p [] = 1 := iSup_pos rfl

theorem segment_append (es es' : List ε) (p r : Ptr) : segment node item p r (es ++ es')
    = ⨆ q : Ptr, segment node item p q es * segment node item q r es' := by
  induction es generalizing p with
  | nil =>
    simp only [segment, iSup_mul, one_mul, List.nil_append]
    exact (iSup_iSup_eq_right (f := fun q _ => segment node item q r es')).symm
  | cons e es ih =>
    simp only [List.cons_append, segment, ih, iSup_mul, mul_iSup, mul_assoc]
    -- the pointer to the second part is chosen last on the left and first on the right
    calc _ = ⨆ (q : Ptr) (mid : Ptr) (next : Ptr), _ := iSup_congr fun q => iSup_comm
      _ = ⨆ (mid : Ptr) (q : Ptr) (next : Ptr), _ := iSup_comm

theorem segment_le_atLeast (es : List ε) (p r : Ptr) :
    segment node item p r es ≤ atLeast es.length := by
  induction es generalizing p with
  | nil => exact atLeast_zero
  | cons e es ih =>
    refine iSup_le fun q => iSup_le fun next => ?_
    rw [List.length_cons, Nat.add_comm]
    exact atLeast_mul (atLeast_mul (cell_le_atLeast p _) atLeast_zero) (ih next)

/-- What was passed is the segment up to the current node. -/
theorem behind_le_segment (passed : List ε) (head prev cur : Ptr) :
    behind node item head prev cur passed ≤ segment node item head cur passed.reverse := by
  cases passed with
  | nil => exact iSup_le fun h => le_iSup_of_le h.2 le_rfl
  | cons e passed =>
    refine iSup_le fun q => ?_
    rw [List.reverse_cons, segment_append]
    refine le_iSup_of_le prev (mul_le_mul_right ?_ _)
    refine le_iSup_of_le q (le_iSup_of_le cur ?_)
    rw [segment_nil, mul_one]

theorem behind_reverse_le_segment (es : List ε) (head prev cur : Ptr) :
    behind node item head prev cur es.reverse ≤ segment node item head cur es := by
  have hle : behind node item head prev cur es.reverse ≤ segment node item head cur _ :=
    behind_le_segment es.reverse head prev cur
  rwa [List.reverse_reverse] at hle

/-- One step of the walk, with what else is owned. -/
theorem behind_step (F G : Assert ν) (passed : List ε) (e : ε) (head prev cur q next : Ptr) :
    cell cur (node q next) * (item q e * (F * behind node item head prev cur passed * G))
      ≤ F * behind node item head cur next (e :: passed) * G := by
  have hstep : behind node item head prev cur passed * (cell cur (node q next) * item q e)
      ≤ behind node item head cur next (e :: passed) :=
    le_iSup_of_le q (mul_le_mul_left (behind_le_segment passed head prev cur) _)
  calc cell cur (node q next) * (item q e * (F * behind node item head prev cur passed * G))
      = F * (behind node item head prev cur passed * (cell cur (node q next) * item q e)) * G := by
        ac_rfl
    _ ≤ F * behind node item head cur next (e :: passed) * G :=
        mul_le_mul_left (mul_le_mul_right hstep F) G

theorem behind_start (head : Ptr) : behind node item head none head [] = 1 :=
  iSup_pos ⟨rfl, rfl⟩

/-- The last node that was passed, or that there is none. -/
theorem behind_shows (passed : List ε) (head prev cur : Ptr) :
    (behind node item head prev cur passed).Shows (prev = none ↔ passed = []) := by
  cases passed with
  | nil => exact shows_iSup fun hnull _ _ => iff_of_true hnull.1 rfl
  | cons e passed =>
    refine shows_iSup fun q => Shows.mul_right (Shows.mul_left ?_)
    exact fun h hmem => iff_of_false (cell_shows prev _ h hmem) (List.cons_ne_nil _ _)

/-- NULL ends a chain, and nothing else does. -/
theorem chain_none (es : List ε) : chain node item none es = ⨆ _ : es = [], 1 := by
  cases es with
  | nil => rw [chain, segment_nil, iSup_pos rfl]
  | cons e es => simp [chain, segment]

/-- The first node, its payload, and the rest. -/
theorem mul_chain_cons (F : Assert ν) (p : Ptr) (e : ε) (es : List ε) :
    F * chain node item p (e :: es) = ⨆ (q : Ptr) (next : Ptr),
      cell p (node q next) * (item q e * (F * chain node item next es)) := by
  simp only [chain, segment, mul_iSup]
  exact iSup_congr fun q => iSup_congr fun next => by ac_rfl

theorem segment_mul_chain_le (es es' : List ε) (p q : Ptr) :
    segment node item p q es * chain node item q es' ≤ chain node item p (es ++ es') := by
  unfold chain
  rw [segment_append]
  exact le_iSup_of_le q le_rfl

/-- A segment, a node after it, and the rest. -/
theorem segment_mul_node_le_chain (es es' : List ε) (e : ε) (p q i next : Ptr) :
    segment node item p q es * (cell q (node i next) * (item i e * chain node item next es'))
      ≤ chain node item p (es ++ e :: es') := by
  refine le_trans (mul_le_mul_right ?_ _) (segment_mul_chain_le es (e :: es') p q)
  rw [← mul_assoc]
  exact le_iSup_of_le i (le_iSup_of_le next le_rfl)

theorem chain_nil_shows (p : Ptr) : (chain node item p []).Shows (p = none) :=
  shows_iSup fun hp _ _ => hp

theorem chain_cons_shows (p : Ptr) (e : ε) (es : List ε) :
    (chain node item p (e :: es)).Shows (p ≠ none) :=
  shows_iSup fun _ => shows_iSup fun _ => (cell_shows p _).mul_left.mul_left

end Segment

/-! ## Pointers that may be NULL -/

section OrNull

variable (item : Ptr → ε → Assert ν)

/-- What a pointer owns that is NULL where there is no value. -/
def orNull (p : Ptr) : Option ε → Assert ν
  | none => ⨆ _ : p = none, 1
  | some e => item p e

@[simp] theorem orNull_some (p : Ptr) (e : ε) : orNull item p (some e) = item p e := rfl

theorem orNull_none : orNull item none (none : Option ε) = 1 := iSup_pos rfl

theorem orNull_shows (hitem : ∀ p e, (item p e).Shows (p ≠ none)) (p : Ptr) (o : Option ε) :
    (orNull item p o).Shows (p = none ↔ o = none) := by
  cases o with
  | none => exact shows_iSup fun hp _ _ => iff_of_true hp rfl
  | some e => exact fun h hmem => iff_of_false (hitem p e h hmem) (Option.some_ne_none e)

theorem orNull_none_shows (p : Ptr) : (orNull item p (none : Option ε)).Shows (p = none) :=
  shows_iSup fun hp _ _ => hp

/-- `free` of a pointer that may be NULL. -/
theorem free_orNull {γ δ : Type} {al : Allocs} {P : Assert ν} {p : Ptr} {contents : ε → ν}
    {o : Option ε} {k : Unit → HM ν γ} {m : CM δ} {S : γ → δ → Assert ν} (F : Assert ν)
    (hP : P ≤ orNull (fun p e => cell p (contents e)) p o * F) (hk : Refines al F (k ()) m S) :
    Refines al P (Heap.free p >>= k) m S := by
  cases o with
  | none =>
    refine Refines.mono ?_ hP fun _ _ => le_rfl
    refine Refines.shows (orNull_none_shows _ p).mul_left fun hp => ?_
    rw [hp, orNull_none, one_mul]
    exact hk
  | some e => exact Refines.free F hP hk

end OrNull

/-! ## Arrays of pointers -/

section Each

variable (item : Ptr → ε → Assert ν)

/-- What the pointers of an array own. -/
def each : List Ptr → List ε → Assert ν
  | [], [] => 1
  | p :: ps, e :: es => item p e * each ps es
  | _, _ => ⊥

/-- What all of them but the one at `i` own. -/
def eachBut : Nat → List Ptr → List ε → Assert ν
  | 0, _ :: ps, _ :: es => each item ps es
  | i + 1, p :: ps, e :: es => item p e * eachBut i ps es
  | _, _, _ => ⊥

variable {item}

theorem each_append (ps qs : List Ptr) (es fs : List ε) :
    each item ps es * each item qs fs ≤ each item (ps ++ qs) (es ++ fs) := by
  induction ps generalizing es with
  | nil =>
    cases es with
    | nil => exact (one_mul _).le
    | cons e es => exact (Quantale.bot_mul ..).le.trans bot_le
  | cons p ps ih =>
    cases es with
    | nil => exact (Quantale.bot_mul ..).le.trans bot_le
    | cons e es =>
      simp only [each, List.cons_append, mul_assoc]
      exact mul_le_mul_right (ih es) _

/-- One more pointer. -/
theorem each_concat (ps : List Ptr) (es : List ε) (p : Ptr) (e : ε) :
    each item ps es * item p e ≤ each item (ps ++ [p]) (es ++ [e]) := by
  have h : each item ps es * each item [p] [e] ≤ _ := each_append ps [p] es [e]
  simpa only [each, mul_one] using h

theorem each_shows_length (ps : List Ptr) (es : List ε) :
    (each item ps es).Shows (ps.length = es.length) := by
  induction ps generalizing es with
  | nil =>
    cases es with
    | nil => exact fun _ _ => rfl
    | cons e es => exact fun _ hno => hno.elim
  | cons p ps ih =>
    cases es with
    | nil => exact fun _ hno => hno.elim
    | cons e es => exact fun h hmem => congrArg (· + 1) ((ih es).mul_right h hmem)

theorem each_getElem {i : Nat} {ps : List Ptr} {es : List ε} {p : Ptr} {e : ε}
    (hp : ps[i]? = some p) (he : es[i]? = some e) :
    each item ps es = item p e * eachBut item i ps es := by
  induction i generalizing ps es with
  | zero =>
    cases ps with
    | nil => cases hp
    | cons p' ps =>
      cases es with
      | nil => cases he
      | cons e' es =>
        cases hp
        cases he
        rfl
  | succ i ih =>
    cases ps with
    | nil => cases hp
    | cons p' ps =>
      cases es with
      | nil => cases he
      | cons e' es =>
        simp only [each, eachBut, ih hp he]
        exact mul_left_comm _ _ _

theorem eachBut_set (i : Nat) (ps : List Ptr) (es : List ε) (p : Ptr) (e : ε) :
    eachBut item i (ps.set i p) (es.set i e) = eachBut item i ps es := by
  induction i generalizing ps es with
  | zero => cases ps <;> cases es <;> rfl
  | succ i ih =>
    cases ps with
    | nil => rfl
    | cons p' ps =>
      cases es with
      | nil => rfl
      | cons e' es => exact congrArg (item p' e' * ·) (ih ps es)

/-- Another pointer and value at one position. -/
theorem each_set {i : Nat} {ps : List Ptr} {es : List ε} (hps : i < ps.length)
    (hes : i < es.length) (p : Ptr) (e : ε) :
    item p e * eachBut item i ps es = each item (ps.set i p) (es.set i e) := by
  rw [each_getElem (List.getElem?_set_self hps) (List.getElem?_set_self hes), eachBut_set]

end Each

end CLib.Linked
