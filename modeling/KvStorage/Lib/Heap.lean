import KvStorage.Lib.CMonad
import Mathlib

/-!
# Memory

What C code does with memory that it allocates, links and frees. A heap is a finite map from
addresses to objects; reading, writing or freeing where nothing lives is a fault. `malloc`
returns NULL or an address where nothing lives, which one is up to the allocator (`Places`), so
an address may be given out again after it was freed.

Assertions say which objects a piece of code owns. With the separating product they are a
commutative quantale, so Mathlib's rules for products and suprema are the rules for splitting
a heap and for existentials. `Refines` compares code on a heap with code on values: from any
heap with the objects of `P`, and whatever else there is, it does what the value-level code
does for the same outcomes of `malloc`, ends with the objects of `R`, and leaves the rest alone.
-/

namespace CLib

/-- Where an object lives. -/
abbrev Addr := Nat

/-- A pointer; `none` is NULL. -/
abbrev Ptr := Option Addr

/-- The objects that are allocated. -/
abbrev Heap (ν : Type) := Finmap fun _ : Addr => ν

/-- What C leaves undefined, and a loop that cannot end. -/
inductive MemFault
  | nullDeref
  | dangling
  | invalidFree
  | wrongType
  | outOfBounds
  | diverges
  deriving DecidableEq, Repr

/-- What the calls of `malloc` to come return: NULL, or the address the allocator picks; where
something lives there already, it is another one. -/
abbrev Places := Nat → Option Addr

/-- Which of these calls succeed. -/
def Places.outcomes (places : Places) : Allocs := fun i => (places i).isSome

/-- Code on a heap of objects `ν`. -/
abbrev HM (ν : Type) := StateT (Heap ν) (StateT Places (Except MemFault))

namespace Heap

variable {ν α β : Type}

/-- An address where nothing lives, `a` if it is one. -/
def place (h : Heap ν) (a : Addr) : Addr := if a ∈ h then h.keys.sup id + 1 else a

/-- `malloc`, and what is written into the object at once. -/
def malloc (v : ν) : HM ν Ptr := fun h places =>
  match places 0 with
  | none => .ok ((none, h), fun i => places (i + 1))
  | some a => .ok ((some (h.place a), h.insert (h.place a) v), fun i => places (i + 1))

/-- Read an object. -/
def load (p : Ptr) : HM ν ν := fun h places =>
  match p with
  | none => .error .nullDeref
  | some a =>
    match h.lookup a with
    | none => .error .dangling
    | some v => .ok ((v, h), places)

/-- Write an object. -/
def store (p : Ptr) (v : ν) : HM ν Unit := fun h places =>
  match p with
  | none => .error .nullDeref
  | some a => if a ∈ h then .ok (((), h.insert a v), places) else .error .dangling

/-- `free`; NULL is allowed. -/
def free (p : Ptr) : HM ν Unit := fun h places =>
  match p with
  | none => .ok (((), h), places)
  | some a => if a ∈ h then .ok (((), h.erase a), places) else .error .invalidFree

/-- Stop with a fault. -/
def fault (e : MemFault) : HM ν α := fun _ _ => .error e

/-- Read an object that is to be of one kind. -/
def read (kind : ν → Option α) (p : Ptr) : HM ν α := do
  match kind (← load p) with
  | some a => pure a
  | none => fault .wrongType

/-- Write a part of an object that is to be of one kind. -/
def write (change : ν → Option ν) (p : Ptr) : HM ν Unit := do
  match change (← load p) with
  | some v => store p v
  | none => fault .wrongType

/-- `n` rounds of a loop with a counter, which is `i` in the first of them. -/
def count (body : Nat → α → HM ν α) : (n i : Nat) → α → HM ν α
  | 0, _, a => pure a
  | n + 1, i, a => do
    let a ← body i a
    count body n (i + 1) a

/-- At most `n` rounds of a loop. -/
def rounds (body : α → HM ν (α ⊕ β)) : Nat → α → HM ν β
  | 0, _ => fault .diverges
  | n + 1, a => do
    match ← body a with
    | .inl a => rounds body n a
    | .inr b => pure b

/-- A loop along pointers. One that has gone through more rounds than there are objects has come
back to where it was, and does not end. -/
def loop (body : α → HM ν (α ⊕ β)) (a : α) : HM ν β := fun h places =>
  rounds body (h.keys.card + 1) a h places

/-- An address that is given out is free. -/
theorem place_notMem (h : Heap ν) (a : Addr) : h.place a ∉ h := by
  unfold place
  split
  next =>
    intro hmem
    have hle := Finset.le_sup (f := id) (Finmap.mem_keys.mpr hmem)
    exact absurd hle (Nat.not_succ_le_self _)
  next hmem => exact hmem

end Heap

/-! ## Assertions -/

/-- What a piece of code owns. -/
def Assert (ν : Type) := Set (Heap ν)

namespace Assert

variable {ν : Type}

instance : CompleteLattice (Assert ν) := inferInstanceAs (CompleteLattice (Set (Heap ν)))

instance : Membership (Heap ν) (Assert ν) := inferInstanceAs (Membership (Heap ν) (Set (Heap ν)))

/-- The separating product: both, on disjoint parts. -/
instance : Mul (Assert ν) :=
  ⟨fun P Q => {h | ∃ h₁ ∈ P, ∃ h₂ ∈ Q, h₁.Disjoint h₂ ∧ h₁ ∪ h₂ = h}⟩

/-- Nothing. -/
instance : One (Assert ν) := ⟨({∅} : Set (Heap ν))⟩

variable {P Q R : Assert ν} {h : Heap ν}

theorem mem_mul : h ∈ P * Q ↔ ∃ h₁ ∈ P, ∃ h₂ ∈ Q, h₁.Disjoint h₂ ∧ h₁ ∪ h₂ = h := Iff.rfl

@[simp] theorem mem_one : h ∈ (1 : Assert ν) ↔ h = ∅ := Iff.rfl

theorem mem_iSup {ι : Sort*} {P : ι → Assert ν} : h ∈ ⨆ i, P i ↔ ∃ i, h ∈ P i := Set.mem_iUnion

theorem le_def : P ≤ Q ↔ ∀ h ∈ P, h ∈ Q := Iff.rfl

theorem ext (h : ∀ h, h ∈ P ↔ h ∈ Q) : P = Q := Set.ext h

instance : CommMonoid (Assert ν) where
  mul_assoc P Q R := by
    refine ext fun h => ?_
    constructor
    · rintro ⟨_, ⟨h₁, hP, h₂, hQ, hd, rfl⟩, h₃, hR, hd', rfl⟩
      obtain ⟨h13, h23⟩ := (Finmap.disjoint_union_left ..).mp hd'
      exact ⟨h₁, hP, h₂ ∪ h₃, ⟨h₂, hQ, h₃, hR, h23, rfl⟩,
        (Finmap.disjoint_union_right ..).mpr ⟨hd, h13⟩, Finmap.union_assoc.symm⟩
    · rintro ⟨h₁, hP, _, ⟨h₂, hQ, h₃, hR, hd, rfl⟩, hd', rfl⟩
      obtain ⟨h12, h13⟩ := (Finmap.disjoint_union_right ..).mp hd'
      exact ⟨h₁ ∪ h₂, ⟨h₁, hP, h₂, hQ, h12, rfl⟩, h₃, hR,
        (Finmap.disjoint_union_left ..).mpr ⟨h13, hd⟩, Finmap.union_assoc⟩
  one_mul P := by
    refine ext fun h => ?_
    constructor
    · rintro ⟨_, rfl, h₂, hP, -, rfl⟩
      rwa [Finmap.empty_union]
    · intro hP
      exact ⟨∅, rfl, h, hP, Finmap.disjoint_empty h, Finmap.empty_union⟩
  mul_one P := by
    refine ext fun h => ?_
    constructor
    · rintro ⟨h₁, hP, _, rfl, -, rfl⟩
      rwa [Finmap.union_empty]
    · intro hP
      exact ⟨h, hP, ∅, rfl, (Finmap.disjoint_empty h).symm, Finmap.union_empty⟩
  mul_comm P Q := by
    refine ext fun h => ?_
    constructor
    · rintro ⟨h₁, hP, h₂, hQ, hd, rfl⟩
      exact ⟨h₂, hQ, h₁, hP, hd.symm, (Finmap.union_comm_of_disjoint hd).symm⟩
    · rintro ⟨h₁, hQ, h₂, hP, hd, rfl⟩
      exact ⟨h₂, hP, h₁, hQ, hd.symm, (Finmap.union_comm_of_disjoint hd).symm⟩

instance : IsQuantale (Assert ν) where
  mul_sSup_distrib P S := by
    refine ext fun h => ?_
    simp only [mem_iSup, mem_mul]
    constructor
    · rintro ⟨h₁, hP, h₂, ⟨Q, hQS, hQ⟩, hd, rfl⟩
      exact ⟨Q, hQS, h₁, hP, h₂, hQ, hd, rfl⟩
    · rintro ⟨Q, hQS, h₁, hP, h₂, hQ, hd, rfl⟩
      exact ⟨h₁, hP, h₂, ⟨Q, hQS, hQ⟩, hd, rfl⟩
  sSup_mul_distrib S P := by
    refine ext fun h => ?_
    simp only [mem_iSup, mem_mul]
    constructor
    · rintro ⟨h₁, ⟨Q, hQS, hQ⟩, h₂, hP, hd, rfl⟩
      exact ⟨Q, hQS, h₁, hQ, h₂, hP, hd, rfl⟩
    · rintro ⟨Q, hQS, h₁, hQ, h₂, hP, hd, rfl⟩
      exact ⟨h₁, ⟨Q, hQS, hQ⟩, h₂, hP, hd, rfl⟩

/-- One object. -/
def cell (p : Ptr) (v : ν) : Assert ν := {h : Heap ν | ∃ a, p = some a ∧ h = Finmap.singleton a v}

theorem mem_cell {p : Ptr} {v : ν} : h ∈ cell p v ↔ ∃ a, p = some a ∧ h = Finmap.singleton a v :=
  Iff.rfl

/-- Nothing lives at NULL. -/
@[simp] theorem cell_none (v : ν) : cell none v = ⊥ := by
  refine ext fun h => iff_of_false ?_ id
  rintro ⟨a, hnull, -⟩
  cases hnull

/-- At least `n` objects. -/
def atLeast (n : Nat) : Assert ν := {h : Heap ν | n ≤ h.keys.card}

/-- As many objects as `n`, whichever they are. -/
def garbage (n : Nat) : Assert ν := {h : Heap ν | h.keys.card = n}

/-- Heaps apart from each other are counted one after the other. -/
theorem card_union {h₁ h₂ : Heap ν} (hd : h₁.Disjoint h₂) :
    (h₁ ∪ h₂).keys.card = h₁.keys.card + h₂.keys.card := by
  rw [Finmap.keys_union, Finset.card_union_of_disjoint]
  exact Finset.disjoint_left.mpr fun a h₁ h₂ => hd a (Finmap.mem_keys.mp h₁) (Finmap.mem_keys.mp h₂)

theorem garbage_zero : (garbage 0 : Assert ν) = 1 := by
  refine ext fun h => ?_
  show h.keys.card = 0 ↔ h = ∅
  rw [Finset.card_eq_zero]
  constructor
  · intro hkeys
    refine Finmap.ext_lookup fun a => ?_
    rw [Finmap.lookup_empty, Finmap.lookup_eq_none, ← Finmap.mem_keys, hkeys]
    exact Finset.notMem_empty a
  · rintro rfl
    exact Finmap.keys_empty

theorem cell_le_garbage (p : Ptr) (v : ν) : cell p v ≤ garbage 1 := by
  rintro _ ⟨a, -, rfl⟩
  show (Finmap.singleton a v).keys.card = 1
  rw [Finmap.keys_singleton, Finset.card_singleton]

theorem cell_le_atLeast (p : Ptr) (v : ν) : cell p v ≤ atLeast 1 :=
  fun _ hmem => (cell_le_garbage p v hmem).ge

theorem atLeast_mul {m n : Nat} (hP : P ≤ atLeast m) (hQ : Q ≤ atLeast n) :
    P * Q ≤ atLeast (m + n) := by
  rintro _ ⟨h₁, h₁P, h₂, h₂Q, hd, rfl⟩
  exact (Nat.add_le_add (hP h₁P) (hQ h₂Q)).trans (card_union hd).ge

theorem atLeast_zero : P ≤ atLeast 0 := fun _ _ => Nat.zero_le _

theorem mul_le_garbage {m n : Nat} (hP : P ≤ garbage m) (hQ : Q ≤ garbage n) :
    P * Q ≤ garbage (m + n) := by
  rintro _ ⟨h₁, h₁P, h₂, h₂Q, hd, rfl⟩
  exact (card_union hd).trans (congrArg₂ (· + ·) (hP h₁P) (hQ h₂Q))

theorem garbage_mul_garbage (m n : Nat) : garbage m * garbage n ≤ (garbage (m + n) : Assert ν) :=
  mul_le_garbage le_rfl le_rfl

theorem iSup_mul {ι : Sort*} (P : ι → Assert ν) (Q : Assert ν) :
    (⨆ i, P i) * Q = ⨆ i, P i * Q := by
  refine ext fun h => ?_
  simp only [mem_mul, mem_iSup]
  constructor
  · rintro ⟨h₁, ⟨i, hP⟩, h₂, hQ, hd, rfl⟩
    exact ⟨i, h₁, hP, h₂, hQ, hd, rfl⟩
  · rintro ⟨i, h₁, hP, h₂, hQ, hd, rfl⟩
    exact ⟨h₁, ⟨i, hP⟩, h₂, hQ, hd, rfl⟩

theorem mul_iSup {ι : Sort*} (P : ι → Assert ν) (Q : Assert ν) :
    Q * (⨆ i, P i) = ⨆ i, Q * P i := by
  rw [mul_comm, iSup_mul]
  exact iSup_congr fun i => mul_comm _ _

theorem singleton_union (a : Addr) (v : ν) (h : Heap ν) :
    Finmap.singleton a v ∪ h = h.insert a v := by
  refine Finmap.ext_lookup fun b => ?_
  by_cases hb : b = a
  · subst hb
    rw [Finmap.lookup_union_left ((Finmap.mem_singleton ..).mpr rfl), Finmap.lookup_singleton_eq,
      Finmap.lookup_insert]
  · rw [Finmap.lookup_union_right fun h => hb ((Finmap.mem_singleton ..).mp h),
      Finmap.lookup_insert_of_ne _ hb]

/-- An object and the rest. -/
theorem mem_cell_mul {a : Addr} {v : ν} {F : Assert ν} :
    h ∈ cell (some a) v * F ↔ ∃ h' ∈ F, a ∉ h' ∧ h = h'.insert a v := by
  constructor
  · rintro ⟨_, ⟨b, hb, rfl⟩, h', hF, hd, rfl⟩
    cases hb
    exact ⟨h', hF, hd a ((Finmap.mem_singleton ..).mpr rfl), singleton_union a v h'⟩
  · rintro ⟨h', hF, hnot, rfl⟩
    refine ⟨_, ⟨a, rfl, rfl⟩, h', hF, ?_, singleton_union a v h'⟩
    intro b hb
    rw [Finmap.mem_singleton] at hb
    rwa [hb]

/-- There is no object at NULL. -/
theorem cell_mul_none {v : ν} {F : Assert ν} : cell none v * F = ⊥ := by
  rw [cell_none, Quantale.bot_mul]

theorem fact {φ : Prop} (hφ : φ) (h : P ≤ Q) : P ≤ ⨆ _ : φ, Q := le_iSup_of_le hφ h

/-- Whoever owns `P` knows `φ`. -/
def Shows (P : Assert ν) (φ : Prop) : Prop := ∀ h ∈ P, φ

section Shows

variable {φ : Prop}

theorem Shows.mono (hQ : Q.Shows φ) (h : P ≤ Q) : P.Shows φ := fun heap hmem => hQ heap (h hmem)

theorem Shows.mul_left (h : P.Shows φ) : (P * Q).Shows φ := by
  rintro _ ⟨h₁, hP, -⟩
  exact h h₁ hP

theorem Shows.mul_right (h : Q.Shows φ) : (P * Q).Shows φ := by
  rw [mul_comm]
  exact h.mul_left

theorem shows_iSup {ι : Sort*} {P : ι → Assert ν} (h : ∀ i, (P i).Shows φ) :
    (⨆ i, P i).Shows φ := by
  intro heap hmem
  obtain ⟨i, hmem⟩ := mem_iSup.mp hmem
  exact h i heap hmem

theorem cell_shows (p : Ptr) (v : ν) : (cell p v).Shows (p ≠ none) := by
  rintro _ ⟨a, rfl, -⟩
  exact Option.some_ne_none a

end Shows

/-- Among what `P` owns are the objects of `Q`. -/
def Owns (P Q : Assert ν) : Prop := P ≤ Q * ⊤

section Owns

variable {S : Assert ν}

theorem owns_refl (P : Assert ν) : P.Owns P := by
  have hle := mul_le_mul_right (le_top : (1 : Assert ν) ≤ ⊤) P
  rwa [mul_one] at hle

theorem Owns.mono (hQ : Q.Owns S) (h : P ≤ Q) : P.Owns S := h.trans hQ

theorem Owns.mul_left (h : P.Owns S) : (P * Q).Owns S := by
  have hle := mul_le_mul_left h Q
  rw [mul_assoc] at hle
  exact hle.trans (mul_le_mul_right le_top _)

theorem Owns.mul_right (h : Q.Owns S) : (P * Q).Owns S := by
  rw [mul_comm]
  exact h.mul_left

theorem Owns.trans (h : P.Owns Q) (hQ : Q.Owns S) : P.Owns S :=
  Owns.mono (Owns.mul_left hQ) h

theorem owns_iSup {ι : Sort*} (Q : ι → Assert ν) (i : ι) : (Q i).Owns (⨆ i, Q i) :=
  (owns_refl _).mono (le_iSup Q i)

theorem Owns.shows {φ : Prop} (h : P.Owns Q) (hQ : Q.Shows φ) : P.Shows φ := hQ.mul_left.mono h

theorem owns_inf : (P ⊓ Q * ⊤).Owns Q := inf_le_right

/-- An object that is owned is found in the heap. -/
theorem Owns.lookup {p : Ptr} {v : ν} {heap : Heap ν} (hP : P.Owns (cell p v)) (hmem : heap ∈ P) :
    ∃ a, p = some a ∧ heap.lookup a = some v := by
  have hmem' := hP hmem
  cases p with
  | none =>
    rw [cell_mul_none] at hmem'
    exact hmem'.elim
  | some a =>
    obtain ⟨h', -, -, rfl⟩ := mem_cell_mul.mp hmem'
    exact ⟨a, rfl, Finmap.lookup_insert h'⟩

end Owns

/-- These objects. -/
def exactly (h : Heap ν) : Assert ν := ({h} : Set (Heap ν))

@[simp] theorem mem_exactly {h h' : Heap ν} : h' ∈ exactly h ↔ h' = h := Iff.rfl

/-- Two heaps apart from each other are one. -/
theorem exactly_mul {h₁ h₂ : Heap ν} (hd : h₁.Disjoint h₂) :
    exactly h₁ * exactly h₂ = exactly (h₁ ∪ h₂) := by
  refine ext fun h => ?_
  constructor
  · rintro ⟨_, rfl, _, rfl, -, rfl⟩
    rfl
  · rintro rfl
    exact ⟨h₁, rfl, h₂, rfl, hd, rfl⟩

/-- Only one collection of objects will do. -/
def Fixed (P : Assert ν) : Prop := ∀ h₁ ∈ P, ∀ h₂ ∈ P, h₁ = h₂

section Fixed

variable {φ : Prop}

theorem fixed_one : (1 : Assert ν).Fixed := by
  rintro _ rfl _ rfl
  rfl

theorem fixed_cell (p : Ptr) (v : ν) : (cell p v).Fixed := by
  rintro _ ⟨a, rfl, rfl⟩ _ ⟨b, hb, rfl⟩
  cases hb
  rfl

theorem Fixed.fact (h : P.Fixed) : (⨆ _ : φ, P).Fixed := by
  intro h₁ hmem₁ h₂ hmem₂
  obtain ⟨-, hmem₁⟩ := mem_iSup.mp hmem₁
  obtain ⟨-, hmem₂⟩ := mem_iSup.mp hmem₂
  exact h h₁ hmem₁ h₂ hmem₂

theorem Fixed.mul (hP : P.Fixed) (hQ : Q.Fixed) : (P * Q).Fixed := by
  rintro _ ⟨h₁, hP₁, h₂, hQ₁, -, rfl⟩ _ ⟨h₃, hP₂, h₄, hQ₂, -, rfl⟩
  rw [hP h₁ hP₁ h₃ hP₂, hQ h₂ hQ₁ h₄ hQ₂]

/-- A heap that has such objects is these and the rest of it. -/
theorem Fixed.split (hP : P.Fixed) {h : Heap ν} (hmem : h ∈ P * ⊤) :
    ∃ F, exactly h = P * F := by
  obtain ⟨h₁, hP₁, h₂, -, hd, rfl⟩ := hmem
  have hP' : P = exactly h₁ :=
    ext fun h => ⟨fun hmem => hP h hmem h₁ hP₁, fun hmem => mem_exactly.mp hmem ▸ hP₁⟩
  exact ⟨exactly h₂, by rw [hP', exactly_mul hd]⟩

end Fixed

/-- `Q`, with `P` lent out of it. -/
def lent (P Q : Assert ν) : Assert ν := P * Quantale.rightMulResiduation P Q

/-- What was lent comes back. -/
theorem lent_le : lent P Q ≤ Q := Quantale.rightMulResiduation_le_iff_mul_le.mp le_rfl

theorem lent_mono (h : Q ≤ R) : lent P Q ≤ lent P R :=
  mul_le_mul_right (sSup_le_sSup fun _ hle => le_trans hle h) P

theorem le_lent {F : Assert ν} (h : P * F ≤ Q) : P * F ≤ lent P Q :=
  mul_le_mul_right (Quantale.rightMulResiduation_le_iff_mul_le.mpr h) P

/-- What is owned beside does not matter. -/
theorem lent_mul_le (F : Assert ν) : lent P Q * F ≤ lent P (Q * F) := by
  have hle : lent P Q * F ≤ Q * F := mul_le_mul_left lent_le F
  unfold lent at hle ⊢
  rw [mul_assoc] at hle ⊢
  exact le_lent hle

end Assert

/-! ## Code on a heap and code on values -/

open Assert

section Refines

variable {ν α β γ δ : Type}

/-- From the objects of `P`, with whatever else there is, `c` does what `m` does where `malloc`
succeeds and fails as `al` says, and owns `R` of the two results then. -/
def Refines (al : Allocs) (P : Assert ν) (c : HM ν α) (m : CM β) (R : α → β → Assert ν) : Prop :=
  ∀ (F : Assert ν) (h : Heap ν) (places : Places) (b : β) (al' : Allocs),
    places.outcomes = al → h ∈ P * F → m al = .ok (b, al') →
    ∃ a h' places', c h places = .ok ((a, h'), places') ∧ places'.outcomes = al' ∧ h' ∈ R a b * F

/-- Code that allocates nothing. -/
def Runs (P : Assert ν) (c : HM ν α) (Q : α → Assert ν) : Prop :=
  ∀ al, Refines al P c (pure ()) fun a _ => Q a

namespace Refines

variable {al : Allocs} {P P' Q : Assert ν} {c : HM ν α} {m : CM β} {R R' : α → β → Assert ν}
  {k : α → HM ν γ} {k' : β → CM δ} {S : γ → δ → Assert ν}

theorem mono (h : Refines al P c m R) (hP : P' ≤ P) (hR : ∀ a b, R a b ≤ R' a b) :
    Refines al P' c m R' := by
  intro F heap places b al' hal hmem hrun
  obtain ⟨a, heap', places', hc, hal', hmem'⟩ :=
    h F heap places b al' hal (mul_le_mul_left hP F hmem) hrun
  exact ⟨a, heap', places', hc, hal', mul_le_mul_left (hR a b) F hmem'⟩

/-- What the code does not own stays. -/
theorem frame (h : Refines al P c m R) (G : Assert ν) :
    Refines al (P * G) c m fun a b => R a b * G := by
  intro F heap places b al' hal hmem hrun
  rw [mul_assoc] at hmem
  obtain ⟨a, heap', places', hc, hal', hmem'⟩ := h (G * F) heap places b al' hal hmem hrun
  exact ⟨a, heap', places', hc, hal', by rwa [mul_assoc]⟩

/-- What the code does on one heap. -/
theorem exec (h : Refines al P c m R) {heap : Heap ν} (hmem : heap ∈ P) {places : Places}
    (hal : places.outcomes = al) {b : β} {al' : Allocs} (hrun : m al = .ok (b, al')) :
    ∃ a heap' places', c heap places = .ok ((a, heap'), places') ∧ places'.outcomes = al' ∧
      heap' ∈ R a b := by
  obtain ⟨a, heap', places', hc, hal', hmem'⟩ := h 1 heap places b al' hal (by rwa [mul_one]) hrun
  exact ⟨a, heap', places', hc, hal', by rwa [mul_one] at hmem'⟩

theorem pure {a : α} {b : β} (h : P ≤ R a b) : Refines al P (Pure.pure a) (Pure.pure b) R := by
  intro F heap places b' al' hal hmem hrun
  cases hrun
  exact ⟨a, heap, places, rfl, hal, mul_le_mul_left h F hmem⟩

theorem bind (hc : Refines al P c m R)
    (hk : ∀ a b al', m al = .ok (b, al') → Refines al' (R a b) (k a) (k' b) S) :
    Refines al P (c >>= k) (m >>= k') S := by
  intro F heap places d al₂ hal hmem hrun
  obtain ⟨⟨b, al₁⟩, hm, hrest⟩ := bind_eq_ok.mp hrun
  obtain ⟨a, heap₁, places₁, hrun₁, hal₁, hmem₁⟩ := hc F heap places b al₁ hal hmem hm
  obtain ⟨g, heap₂, places₂, hrun₂, hal₂, hmem₂⟩ :=
    hk a b al₁ hm F heap₁ places₁ d al₂ hal₁ hmem₁ hrest
  refine ⟨g, heap₂, places₂, ?_, hal₂, hmem₂⟩
  show (c heap places).bind _ = _
  rw [hrun₁]
  exact hrun₂

/-- A step that has no counterpart. -/
theorem step {Q : α → Assert ν} {m : CM δ} (hc : Runs P c Q)
    (hk : ∀ a, Refines al (Q a) (k a) m S) : Refines al P (c >>= k) m S := by
  have h : Refines al P (c >>= k) (Pure.pure () >>= fun _ => m) S :=
    bind (hc al) fun a _ al' hal' => by
      cases hal'
      exact hk a
  rwa [pure_bind] at h

/-- Where the value-level code faults there is nothing to show. -/
theorem throw {e : Fault} : Refines al P c (MonadExcept.throw e : CM β) R := by
  intro F heap places b al' hal hmem hrun
  cases hrun

/-- Value-level code that faults promises nothing. -/
theorem throw_bind {c : HM ν γ} {e : Fault} :
    Refines al P c ((MonadExcept.throw e : CM β) >>= k') S := by
  intro F heap places d al' hal hmem hrun
  cases hrun

theorem iSup {ι : Sort*} {P : ι → Assert ν} (h : ∀ i, Refines al (P i) c m R) :
    Refines al (⨆ i, P i) c m R := by
  intro F heap places b al' hal hmem hrun
  rw [iSup_mul] at hmem
  obtain ⟨i, hmem⟩ := mem_iSup.mp hmem
  exact h i F heap places b al' hal hmem hrun

theorem iSup_mul {ι : Sort*} {P : ι → Assert ν} (h : ∀ i, Refines al (P i * Q) c m R) :
    Refines al ((⨆ i, P i) * Q) c m R := by
  rw [Assert.iSup_mul]
  exact iSup h

theorem mul_iSup {ι : Sort*} {P : ι → Assert ν} (h : ∀ i, Refines al (Q * P i) c m R) :
    Refines al (Q * ⨆ i, P i) c m R := by
  rw [Assert.mul_iSup]
  exact iSup h

theorem bot : Refines al ⊥ c m R := by
  intro F heap places b al' hal hmem hrun
  obtain ⟨h₁, hno, -⟩ := hmem
  exact hno.elim

/-- A call of a function, with the rest of what is owned as its frame. -/
theorem call {P₀ : Assert ν} (hc : Refines al P₀ c m R) (F : Assert ν) (hP : P ≤ P₀ * F)
    (hk : ∀ a b al', m al = .ok (b, al') → Refines al' (R a b * F) (k a) (k' b) S) :
    Refines al P (c >>= k) (m >>= k') S := ((hc.frame F).mono hP fun _ _ => le_rfl).bind hk

/-- A `malloc` on both levels. -/
theorem malloc {v : ν} {k : Ptr → HM ν γ} {k' : Bool → CM δ}
    (hok : al 0 = true → ∀ a : Addr, Refines (Allocs.drop al 1) (cell (some a) v * P) (k (some a))
      (k' true) S)
    (hno : al 0 = false → Refines (Allocs.drop al 1) P (k none) (k' false) S) :
    Refines al P (Heap.malloc v >>= k) (CLib.malloc >>= k') S := by
  intro F heap places d al₂ hal hmem hrun
  have hal₁ : Places.outcomes (fun i => places (i + 1)) = Allocs.drop al 1 := by
    rw [← hal]
    rfl
  have hal₀ : al 0 = (places 0).isSome := by
    rw [← hal]
    rfl
  have hrun' : k' (al 0) (Allocs.drop al 1) = .ok (d, al₂) := hrun
  show ∃ a h' places', (Heap.malloc v heap places).bind _ = _ ∧ _
  unfold Heap.malloc
  cases hplace : places 0 with
  | none =>
    rw [hplace] at hal₀
    rw [hal₀] at hrun'
    exact hno hal₀ F heap _ d al₂ hal₁ hmem hrun'
  | some a =>
    rw [hplace] at hal₀
    rw [hal₀] at hrun'
    refine hok hal₀ (heap.place a) F _ _ d al₂ hal₁ ?_ hrun'
    rw [mul_assoc]
    exact mem_cell_mul.mpr ⟨heap, hmem, heap.place_notMem a, rfl⟩

/-- A `malloc` and the test of its result. -/
theorem malloc_test {v : ν} {c₀ : HM ν γ} {c₁ : Ptr → HM ν γ} {m₀ m₁ : CM δ}
    (hok : al 0 = true → ∀ a : Addr, Refines (Allocs.drop al 1) (cell (some a) v * P) (c₁ (some a))
      m₁ S)
    (hno : al 0 = false → Refines (Allocs.drop al 1) P c₀ m₀ S) :
    Refines al P (Heap.malloc v >>= fun q => if q = none then c₀ else c₁ q)
      (CLib.malloc >>= fun ok => if ok = true then m₁ else m₀) S :=
  malloc
    (fun h0 a => by
      rw [if_neg (Option.some_ne_none a), if_pos rfl]
      exact hok h0 a)
    fun h0 => by
      rw [if_pos rfl, if_neg Bool.false_ne_true]
      exact hno h0

variable {m : CM δ} {p : Ptr} {v w : ν}

/-- Reading leaves everything as it is. -/
theorem load {k : ν → HM ν γ} (hP : P.Owns (cell p v)) (hk : Refines al P (k v) m S) :
    Refines al P (Heap.load p >>= k) m S := by
  intro G heap places d al₂ hal hmem hrun
  obtain ⟨a, rfl, hlookup⟩ := Owns.lookup hP.mul_left hmem
  obtain ⟨g, heap₂, places₂, hk, hrest⟩ := hk G heap places d al₂ hal hmem hrun
  refine ⟨g, heap₂, places₂, ?_, hrest⟩
  show (Heap.load (some a) heap places).bind _ = _
  unfold Heap.load
  dsimp only
  rw [hlookup]
  exact hk

/-- A heap with a cell, taken apart there. -/
theorem split_cell {F G : Assert ν} {heap : Heap ν} (hP : P ≤ cell p v * F)
    (hmem : heap ∈ P * G) :
    ∃ a h', p = some a ∧ h' ∈ F * G ∧ a ∉ h' ∧ heap = h'.insert a v := by
  have hmem' := mul_le_mul_left hP G hmem
  cases p with
  | none =>
    rw [cell_mul_none, Quantale.bot_mul] at hmem'
    exact hmem'.elim
  | some a =>
    rw [mul_assoc] at hmem'
    obtain ⟨h', hF, hnot, rfl⟩ := mem_cell_mul.mp hmem'
    exact ⟨a, h', rfl, hF, hnot, rfl⟩

theorem store {k : Unit → HM ν γ} (F : Assert ν) (hP : P ≤ cell p v * F)
    (hk : Refines al (cell p w * F) (k ()) m S) : Refines al P (Heap.store p w >>= k) m S := by
  intro G heap places d al₂ hal hmem hrun
  obtain ⟨a, h', rfl, hF, hnot, rfl⟩ := split_cell hP hmem
  have hnew : h'.insert a w ∈ cell (some a) w * F * G := by
    rw [mul_assoc]
    exact mem_cell_mul.mpr ⟨h', hF, hnot, rfl⟩
  obtain ⟨g, heap₂, places₂, hk, hrest⟩ := hk G _ places d al₂ hal hnew hrun
  refine ⟨g, heap₂, places₂, ?_, hrest⟩
  show (Heap.store (some a) w _ places).bind _ = _
  unfold Heap.store
  dsimp only
  rw [if_pos (Finmap.mem_insert.mpr (Or.inl rfl)), Finmap.insert_insert]
  exact hk

theorem free {k : Unit → HM ν γ} (F : Assert ν) (hP : P ≤ cell p v * F)
    (hk : Refines al F (k ()) m S) : Refines al P (Heap.free p >>= k) m S := by
  intro G heap places d al₂ hal hmem hrun
  obtain ⟨a, h', rfl, hF, hnot, rfl⟩ := split_cell hP hmem
  obtain ⟨g, heap₂, places₂, hk, hrest⟩ := hk G _ places d al₂ hal hF hrun
  have herase : (h'.insert a v).erase a = h' := by
    refine Finmap.ext_lookup fun b => ?_
    by_cases hb : b = a
    · subst hb
      rw [Finmap.lookup_erase, Finmap.lookup_eq_none.mpr hnot]
    · rw [Finmap.lookup_erase_ne hb, Finmap.lookup_insert_of_ne _ hb]
  refine ⟨g, heap₂, places₂, ?_, hrest⟩
  show (Heap.free (some a) _ places).bind _ = _
  unfold Heap.free
  dsimp only
  rw [if_pos (Finmap.mem_insert.mpr (Or.inl rfl)), herase]
  exact hk

theorem read {kind : ν → Option α} {k : α → HM ν γ} {a : α} (hP : P.Owns (cell p v))
    (hv : kind v = some a) (hk : Refines al P (k a) m S) :
    Refines al P (Heap.read kind p >>= k) m S := by
  unfold Heap.read
  rw [bind_assoc]
  refine load hP ?_
  rw [hv, pure_bind]
  exact hk

theorem write {change : ν → Option ν} {k : Unit → HM ν γ} (F : Assert ν) (hP : P ≤ cell p v * F)
    (hv : change v = some w) (hk : Refines al (cell p w * F) (k ()) m S) :
    Refines al P (Heap.write change p >>= k) m S := by
  unfold Heap.write
  rw [bind_assoc]
  refine load ((owns_refl _).mul_left.mono hP) ?_
  rw [hv]
  exact store F hP hk

theorem ite {φ ψ : Prop} [Decidable φ] [Decidable ψ] {c₁ c₂ : HM ν α} {m₁ m₂ : CM β}
    {R : α → β → Assert ν} (h : φ ↔ ψ) (h₁ : φ → Refines al P c₁ m₁ R)
    (h₂ : ¬ φ → Refines al P c₂ m₂ R) :
    Refines al P (if φ then c₁ else c₂) (if ψ then m₁ else m₂) R := by
  by_cases hφ : φ
  · rw [if_pos hφ, if_pos (h.mp hφ)]
    exact h₁ hφ
  · rw [if_neg hφ, if_neg fun hψ => hφ (h.mpr hψ)]
    exact h₂ hφ

/-- What the objects show may be used. -/
theorem shows {φ : Prop} {m : CM β} {R : α → β → Assert ν} (hP : P.Shows φ)
    (h : φ → Refines al P c m R) : Refines al P c m R := by
  intro F heap places b al' hal hmem hrun
  obtain ⟨h₁, h₁P, hrest⟩ := hmem
  exact h (hP h₁ h₁P) F heap places b al' hal ⟨h₁, h₁P, hrest⟩ hrun

/-- What is owned may be named, one thing it can be after the other. -/
theorem owns {ι : Sort*} {Q : ι → Assert ν} {m : CM β} {R : α → β → Assert ν}
    (hP : P.Owns (⨆ i, Q i)) (h : ∀ i, Refines al (P ⊓ Q i * ⊤) c m R) : Refines al P c m R := by
  refine mono (iSup h) ?_ fun _ _ => le_rfl
  intro heap hmem
  have hmem' := hP hmem
  rw [Assert.iSup_mul] at hmem'
  obtain ⟨i, hi⟩ := mem_iSup.mp hmem'
  exact mem_iSup.mpr ⟨i, hmem, hi⟩

theorem ret {R : α → β → Assert ν} {m : CM β} (h : Refines al P (c >>= Pure.pure) m R) :
    Refines al P c m R := by
  rwa [bind_pure] at h

/-- One turn of a counted loop. -/
theorem count_succ {body : Nat → α → HM ν α} {n i : Nat} {a : α} {k : α → HM ν γ}
    (h : Refines al P (body i a >>= fun a => Heap.count body n (i + 1) a >>= k) m S) :
    Refines al P (Heap.count body (n + 1) i a >>= k) m S := by
  unfold Heap.count
  rwa [bind_assoc]

/-- One turn of a loop. -/
theorem turn {body : β → HM ν (β ⊕ α)} {a : β} {k : α → HM ν γ} {n : Nat}
    (h : Refines al P (body a >>= fun r => match r with
      | .inl a => Heap.rounds body n a >>= k
      | .inr b => k b) m S) :
    Refines al P (Heap.rounds body (n + 1) a >>= k) m S := by
  unfold Heap.rounds
  rw [bind_assoc]
  refine cast (congrArg (fun c => Refines al P c m S) ?_) h
  refine congrArg _ (funext fun r => ?_)
  cases r with
  | inl a => rfl
  | inr b => exact (pure_bind b k).symm

/-- A loop that is done after at most `n` rounds, there being `n` objects to go through. -/
theorem loop {body : β → HM ν (β ⊕ α)} {a : β} {k : α → HM ν γ} {n : Nat} (hP : P ≤ atLeast n)
    (h : ∀ r, n < r → Refines al P (Heap.rounds body r a >>= k) m S) :
    Refines al P (Heap.loop body a >>= k) m S := by
  intro F heap places d al₂ hal hmem hrun
  have hcard : n ≤ heap.keys.card := atLeast_mul hP atLeast_zero hmem
  exact h _ (Nat.lt_succ_of_le hcard) F heap places d al₂ hal hmem hrun

end Refines

namespace Runs

variable {P P' : Assert ν} {c : HM ν α} {Q Q' : α → Assert ν}

theorem intro (h : ∀ al, Refines al P c (Pure.pure ()) fun a _ => Q a) : Runs P c Q := h

theorem mono (h : Runs P c Q) (hP : P' ≤ P) (hQ : ∀ a, Q a ≤ Q' a) : Runs P' c Q' :=
  fun al => (h al).mono hP fun a _ => hQ a

theorem frame (h : Runs P c Q) (F : Assert ν) : Runs (P * F) c fun a => Q a * F :=
  fun al => (h al).frame F

theorem pure {a : α} (h : P ≤ Q a) : Runs P (Pure.pure a) Q := fun _ => Refines.pure h

end Runs

/-- A call of a function that allocates nothing. -/
theorem Refines.run {al : Allocs} {P P₀ : Assert ν} {c : HM ν α} {Q₀ : α → Assert ν}
    {k : α → HM ν γ} {m : CM δ} {S : γ → δ → Assert ν} (hc : Runs P₀ c Q₀) (F : Assert ν)
    (hP : P ≤ P₀ * F) (hk : ∀ a, Refines al (Q₀ a * F) (k a) m S) :
    Refines al P (c >>= k) m S :=
  Refines.step ((hc.frame F).mono hP fun _ => le_rfl) hk

end Refines

end CLib
