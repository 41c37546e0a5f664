import KvStorage.Lib.CString

/-!
# Allocation outcomes and faults

C code whose control flow depends on `malloc` is a function of the outcomes of
the allocations to come. `CM` threads that stream through the code and stops at
the first fault (a NULL dereference, an access outside an array), which C leaves
undefined and which a caller therefore never observes as a result.

A statement about "every pattern of success and failure" quantifies over the
stream; "allocations succeed" is the stream `allocated`, which `malloc` leaves
as it is.
-/

namespace CLib

/-- What C leaves undefined. -/
inductive Fault
  | nullDeref
  | outOfBounds
  deriving DecidableEq, Repr

/-- The outcomes of the allocations to come: `true` is a success. -/
abbrev Allocs := Nat → Bool

/-- The outcomes after the first `n`. -/
def Allocs.drop (al : Allocs) (n : Nat) : Allocs := fun i => al (i + n)

/-- Every allocation to come succeeds. -/
def allocated : Allocs := fun _ => true

/-- Code that allocates and may fault. -/
abbrev CM := StateT Allocs (Except Fault)

/-- One `malloc`: whether it returned memory. -/
def malloc : CM Bool := fun al => .ok (al 0, fun i => al (i + 1))

/-- Reading through a pointer that may be NULL. -/
def deref {α : Type} : Option α → CM α
  | some a => pure a
  | none => throw .nullDeref

/-- Element `i` of an array. -/
def arrayGet {α : Type} (l : List α) (i : Int) : CM α :=
  if 0 ≤ i then
    match l[i.toNat]? with
    | some a => pure a
    | none => throw .outOfBounds
  else throw .outOfBounds

/-- The number of pointers in an array of `n * sizeof(char *)` bytes; the
product is computed in a 64-bit `size_t`. -/
def ptrArrayCap (n : Int) : Int := 8 * n % 2 ^ 64 / 8

/-- Room for `m` pointers and a final NULL, for every count an `int` holds. At
the largest one the `int` sum wraps, and the `size_t` it becomes is larger still. -/
theorem lt_ptrArrayCap {m : Nat} (h : m < 2 ^ 31) : (m : Int) < ptrArrayCap (cint (m + 1)) := by
  unfold ptrArrayCap cint
  rw [Int.bmod_def]
  omega

/-- Fill the next element of a `malloc`ed array of `cap` elements. -/
def arrayPut {α : Type} (cap : Int) (filled : List α) (a : α) : CM (List α) :=
  if (filled.length : Int) < cap then pure (filled ++ [a]) else throw .outOfBounds

/-- The first `n` bytes of a buffer, as `memcpy` reads them. -/
def memcpy (src : List Byte) (n : Int) : CM (List Byte) :=
  if 0 ≤ n ∧ n ≤ src.length then pure (src.take n.toNat) else throw .outOfBounds

/-- `strdup`: a copy, or NULL when memory ran out. -/
def strdup (s : Option CStr) : CM (Option CStr) := do
  let s ← deref s
  if ← malloc then pure (some s) else pure none

/-! ## Running -/

section Run

variable {α β : Type} {al : Allocs}

@[simp] theorem run_pure (a : α) : (pure a : CM α) al = .ok (a, al) := rfl

/-- Code stops at the first fault. -/
@[simp] theorem run_bind (m : CM α) (f : α → CM β) :
    (m >>= f) al = (m al).bind fun p => f p.1 p.2 := rfl

@[simp] theorem run_map (f : α → β) (m : CM α) :
    (f <$> m) al = (m al).bind fun p => .ok (f p.1, p.2) := rfl

@[simp] theorem run_discard (m : CM α) :
    (discard m) al = (m al).bind fun p => .ok ((), p.2) := rfl

@[simp] theorem run_throw (e : Fault) : (throw e : CM α) al = .error e := rfl

/-- One outcome is used up. -/
@[simp] theorem malloc_run : malloc al = .ok (al 0, fun i => al (i + 1)) := rfl

/-- Where memory suffices the stream stays as it is. -/
@[simp] theorem malloc_allocated : malloc allocated = .ok (true, allocated) := rfl

@[simp] theorem allocated_zero : allocated 0 = true := rfl

theorem allocated_shift : (fun i => allocated (i + 1)) = allocated := rfl

@[simp] theorem allocated_drop (n : Nat) : Allocs.drop allocated n = allocated := rfl

@[simp] theorem deref_some (a : α) : deref (some a) = (pure a : CM α) := rfl

@[simp] theorem deref_none : deref none = (throw .nullDeref : CM α) := rfl

@[simp] theorem ok_bind {ε : Type} (a : α) (f : α → Except ε β) :
    (Except.ok a).bind f = f a := rfl

@[simp] theorem error_bind {ε : Type} (e : ε) (f : α → Except ε β) :
    (Except.error e).bind f = .error e := rfl

/-- Code that ran to its end ran its parts to their ends. -/
theorem bind_eq_ok {ε γ : Type} {x : Except ε α} {f : α → Except ε γ} {b : γ} :
    x.bind f = .ok b ↔ ∃ a, x = .ok a ∧ f a = .ok b := by
  cases x with
  | error e => simp
  | ok a => simp

/-- Outcomes are used up in order. -/
theorem Allocs.drop_drop (al : Allocs) (m n : Nat) :
    Allocs.drop (Allocs.drop al m) n = Allocs.drop al (m + n) := by
  funext i
  unfold Allocs.drop
  congr 1
  omega

/-- The first `m + n` allocations are the first `m` and `n` more. -/
theorem Allocs.forall_lt_add {al : Allocs} {m n : Nat} :
    (∀ i < m + n, al i = true) ↔ (∀ i < m, al i = true) ∧ ∀ i < n, Allocs.drop al m i = true := by
  constructor
  · intro h
    exact ⟨fun i hi => h i (by omega), fun i hi => h (i + m) (by omega)⟩
  · intro ⟨hfirst, hrest⟩ i hi
    rcases Nat.lt_or_ge i m with hlow | hhigh
    · exact hfirst i hlow
    · have hlater := hrest (i - m) (by omega)
      rwa [Allocs.drop, Nat.sub_add_cancel hhigh] at hlater

/-- One step of a run, when its outcome is known. -/
theorem run_bind_ok {m : CM α} {f : α → CM β} {a : α} {al' : Allocs} (h : m al = .ok (a, al')) :
    (m >>= f) al = f a al' := by
  rw [run_bind, h, ok_bind]

/-- An index inside the array. -/
theorem arrayGet_nat {l : List α} {i : Nat} (h : i < l.length) :
    arrayGet l i = (pure l[i] : CM α) := by
  unfold arrayGet
  rw [if_pos (Int.natCast_nonneg i), Int.toNat_natCast, List.getElem?_eq_getElem h]

theorem arrayPut_of_lt {cap : Int} {filled : List α} {a : α} (h : (filled.length : Int) < cap) :
    arrayPut cap filled a = pure (filled ++ [a]) := by
  unfold arrayPut
  rw [if_pos h]

/-- As many bytes as the source has, or fewer. -/
theorem memcpy_of_le {src : List Byte} {n : Nat} (h : n ≤ src.length) :
    memcpy src n = pure (src.take n) := by
  unfold memcpy
  rw [if_pos ⟨Int.natCast_nonneg n, by exact_mod_cast h⟩, Int.toNat_natCast]

@[simp] theorem strdup_allocated (s : CStr) :
    strdup (some s) allocated = .ok (some s, allocated) := rfl

end Run

/-! ## Running with more state -/

section RunState

variable {σ α β : Type} {s : σ} {al : Allocs}

@[simp] theorem state_pure (a : α) : (pure a : StateT σ CM α) s al = .ok ((a, s), al) := rfl

/-- The state and the outcomes go from one statement to the next. -/
@[simp] theorem state_bind (p : StateT σ CM α) (f : α → StateT σ CM β) :
    (p >>= f) s al = (p s al).bind fun r => f r.1.1 r.1.2 r.2 := rfl

@[simp] theorem state_map (f : α → β) (p : StateT σ CM α) :
    (f <$> p) s al = (p s al).bind fun r => .ok ((f r.1.1, r.1.2), r.2) := rfl

@[simp] theorem state_discard (p : StateT σ CM α) :
    (discard p) s al = (p s al).bind fun r => .ok (((), r.1.2), r.2) := rfl

/-- Code that does not see the state leaves it as it is. -/
@[simp] theorem state_lift (p : CM α) :
    (liftM p : StateT σ CM α) s al = (p al).bind fun r => .ok ((r.1, s), r.2) := rfl

@[simp] theorem state_get : (get : StateT σ CM σ) s al = .ok ((s, s), al) := rfl

theorem state_bind_ok {p : StateT σ CM α} {f : α → StateT σ CM β} {a : α} {s' : σ} {al' : Allocs}
    (h : p s al = .ok ((a, s'), al')) : (p >>= f) s al = f a s' al' := by
  rw [state_bind, h, ok_bind]

theorem state_lift_ok {p : CM α} {a : α} {al' : Allocs} (h : p al = .ok (a, al')) :
    (liftM p : StateT σ CM α) s al = .ok ((a, s), al') := by
  rw [state_lift, h, ok_bind]

theorem state_lift_eq_ok {p : CM α} {a : α} {s' : σ} {al' : Allocs} :
    (liftM p : StateT σ CM α) s al = .ok ((a, s'), al') ↔ p al = .ok (a, al') ∧ s' = s := by
  rw [state_lift, bind_eq_ok]
  constructor
  · intro ⟨r, hrun, heq⟩
    cases heq
    exact ⟨hrun, rfl⟩
  · intro ⟨hrun, hs⟩
    exact ⟨(a, al'), hrun, by rw [hs]⟩

end RunState

/-! ## Frame conditions -/

section Keeps

variable {σ τ α β : Type}

/-- Code that leaves one reading of the state as it was. -/
def Keeps (f : σ → τ) (p : StateT σ CM α) : Prop :=
  ∀ s al a s' al', p s al = .ok ((a, s'), al') → f s' = f s

variable {f : σ → τ} {p q : StateT σ CM α}

theorem keeps_pure (a : α) : Keeps f (pure a : StateT σ CM α) := by
  intro s al b s' al' hrun
  cases hrun
  rfl

/-- Two statements that leave a part alone. -/
theorem keeps_bind {g : α → StateT σ CM β} (hp : Keeps f p) (hg : ∀ a, Keeps f (g a)) :
    Keeps f (p >>= g) := by
  intro s al b s' al' hrun
  rw [state_bind, bind_eq_ok] at hrun
  obtain ⟨⟨⟨a, s₁⟩, al₁⟩, h₁, h₂⟩ := hrun
  exact (hg a _ _ _ _ _ h₂).trans (hp _ _ _ _ _ h₁)

theorem keeps_lift (p : CM α) : Keeps f (liftM p : StateT σ CM α) := by
  intro s al b s' al' hrun
  rw [state_lift, bind_eq_ok] at hrun
  obtain ⟨⟨a, al₁⟩, -, heq⟩ := hrun
  cases heq
  rfl

theorem keeps_get : Keeps f (get : StateT σ CM σ) := by
  intro s al b s' al' hrun
  cases hrun
  rfl

theorem keeps_modify {u : σ → σ} (hu : ∀ s, f (u s) = f s) :
    Keeps f (modify u : StateT σ CM Unit) := by
  intro s al b s' al' hrun
  cases hrun
  exact hu s

theorem keeps_ite {P : Prop} [Decidable P] (hp : Keeps f p) (hq : Keeps f q) :
    Keeps f (if P then p else q) := by
  split
  · exact hp
  · exact hq

/-- Code that changes one reading of the state by a fixed function. -/
def Acts (f : σ → τ) (g : τ → τ) (p : StateT σ CM α) : Prop :=
  ∀ s al a s' al', p s al = .ok ((a, s'), al') → f s' = g (f s)

variable {g h : τ → τ}

theorem acts_modify {u : σ → σ} (hu : ∀ s, f (u s) = g (f s)) :
    Acts f g (modify u : StateT σ CM Unit) := by
  intro s al b s' al' hrun
  cases hrun
  exact hu s

theorem acts_of_keeps_bind {r : α → StateT σ CM β} (hp : Keeps f p) (hr : ∀ a, Acts f g (r a)) :
    Acts f g (p >>= r) := by
  intro s al b s' al' hrun
  rw [state_bind, bind_eq_ok] at hrun
  obtain ⟨⟨⟨a, s₁⟩, al₁⟩, h₁, h₂⟩ := hrun
  rw [hr a _ _ _ _ _ h₂, hp _ _ _ _ _ h₁]

/-- What follows the change leaves the part alone. -/
theorem acts_of_bind_keeps {r : α → StateT σ CM β} (hp : Acts f g p) (hr : ∀ a, Keeps f (r a)) :
    Acts f g (p >>= r) := by
  intro s al b s' al' hrun
  rw [state_bind, bind_eq_ok] at hrun
  obtain ⟨⟨⟨a, s₁⟩, al₁⟩, h₁, h₂⟩ := hrun
  rw [hr a _ _ _ _ _ h₂, hp _ _ _ _ _ h₁]

/-- A change and, later, its inverse. -/
theorem keeps_of_acts {r : α → StateT σ CM β} (hp : Acts f g p) (hr : ∀ a, Acts f h (r a))
    (hinv : ∀ x, h (g x) = x) : Keeps f (p >>= r) := by
  intro s al b s' al' hrun
  rw [state_bind, bind_eq_ok] at hrun
  obtain ⟨⟨⟨a, s₁⟩, al₁⟩, h₁, h₂⟩ := hrun
  rw [hr a _ _ _ _ _ h₂, hp _ _ _ _ _ h₁, hinv]

end Keeps

/-! ## Running with memory available -/

section RunsTo

variable {σ α β : Type}

/-- With memory available the code ends with a result that meets `post`, or at an access
outside an array, but at no NULL pointer. -/
def RunsTo (p : CM α) (post : α → Prop) : Prop :=
  p allocated = .error .outOfBounds ∨ ∃ a, p allocated = .ok (a, allocated) ∧ post a

/-- A result known in full. -/
theorem runsTo_of_run {p : CM α} {post : α → Prop} {a : α} (hrun : p allocated = .ok (a, allocated))
    (ha : post a) : RunsTo p post := Or.inr ⟨a, hrun, ha⟩

theorem runsTo_pure {post : α → Prop} {a : α} (ha : post a) : RunsTo (pure a) post :=
  runsTo_of_run (run_pure a) ha

/-- The rule for two statements: what holds in between is for the prover to name. -/
theorem runsTo_bind {p : CM α} {f : α → CM β} {mid : α → Prop} {post : β → Prop}
    (hp : RunsTo p mid) (hf : ∀ a, mid a → RunsTo (f a) post) : RunsTo (p >>= f) post := by
  rcases hp with hfault | ⟨a, hrun, ha⟩
  · left
    rw [run_bind, hfault, error_bind]
  · unfold RunsTo
    rw [run_bind_ok hrun]
    exact hf a ha

/-- The rule of consequence. -/
theorem RunsTo.imp {p : CM α} {mid post : α → Prop} (hp : RunsTo p mid)
    (himp : ∀ a, mid a → post a) : RunsTo p post :=
  hp.imp_right fun ⟨a, hrun, ha⟩ => ⟨a, hrun, himp a ha⟩

/-- Each branch under its condition. -/
theorem runsTo_ite {P : Prop} [Decidable P] {p q : CM α} {post : α → Prop}
    (hp : P → RunsTo p post) (hq : ¬ P → RunsTo q post) : RunsTo (if P then p else q) post := by
  split
  next h => exact hp h
  next h => exact hq h

theorem RunsTo.ne_nullDeref {p : CM α} {post : α → Prop} (hp : RunsTo p post) :
    p allocated ≠ .error .nullDeref := by
  rcases hp with hrun | ⟨a, hrun, -⟩ <;> rw [hrun] <;> exact nofun

theorem RunsTo.post {p : CM α} {post : α → Prop} (hp : RunsTo p post) {a : α} {al : Allocs}
    (hrun : p allocated = .ok (a, al)) : post a := by
  rcases hp with hfault | ⟨a', hrun', ha⟩
  · rw [hfault] at hrun
    cases hrun
  · rw [hrun'] at hrun
    cases hrun
    exact ha

theorem runsTo_malloc : RunsTo malloc fun ok => ok = true := runsTo_of_run malloc_allocated rfl

theorem runsTo_deref {a : Option α} (ha : a ≠ none) : RunsTo (deref a) fun b => a = some b := by
  cases a with
  | none => exact absurd rfl ha
  | some a => exact runsTo_pure rfl

theorem runsTo_strdup (s : CStr) : RunsTo (strdup (some s)) fun s' => s' = some s :=
  runsTo_of_run (strdup_allocated s) rfl

/-- A value that was read is that of an element. -/
theorem runsTo_arrayGet (l : List α) (i : Int) : RunsTo (arrayGet l i) fun a => 0 ≤ i ∧
    l[i.toNat]? = some a := by
  unfold arrayGet
  split
  next hi =>
    cases hget : l[i.toNat]? with
    | none => exact Or.inl rfl
    | some a => exact runsTo_pure ⟨hi, rfl⟩
  next => exact Or.inl rfl

theorem runsTo_arrayPut (cap : Int) (filled : List α) (a : α) :
    RunsTo (arrayPut cap filled a) fun filled' => filled' = filled ++ [a] := by
  unfold arrayPut
  split
  next => exact runsTo_pure rfl
  next => exact Or.inl rfl

/-! Code with more state is such code from each state on. -/

theorem runsTo_state_bind {p : StateT σ CM α} {f : α → StateT σ CM β} {s : σ} {mid : α × σ → Prop}
    {post : β × σ → Prop} (hp : RunsTo (p s) mid)
    (hf : ∀ a s', mid (a, s') → RunsTo (f a s') post) : RunsTo ((p >>= f) s) post :=
  runsTo_bind hp fun r hr => hf r.1 r.2 hr

theorem runsTo_state_pure {s : σ} {a : α} {post : α × σ → Prop} (ha : post (a, s)) :
    RunsTo ((pure a : StateT σ CM α) s) post := runsTo_pure ha

/-- A statement whose result is known in full. -/
theorem runsTo_state_step {p : StateT σ CM α} {f : α → StateT σ CM β} {s s' : σ} {a : α}
    {post : β × σ → Prop} (hrun : p s allocated = .ok ((a, s'), allocated))
    (hf : RunsTo (f a s') post) : RunsTo ((p >>= f) s) post := by
  unfold RunsTo
  rw [state_bind_ok hrun]
  exact hf

theorem runsTo_state_lift {p : CM α} {f : α → StateT σ CM β} {s : σ} {mid : α → Prop}
    {post : β × σ → Prop} (hp : RunsTo p mid) (hf : ∀ a, mid a → RunsTo (f a s) post) :
    RunsTo ((liftM p >>= f) s) post := by
  rcases hp with hfault | ⟨a, hrun, ha⟩
  · left
    rw [state_bind, state_lift, hfault]
    rfl
  · exact runsTo_state_step (state_lift_ok hrun) (hf a ha)

theorem runsTo_state_liftM {p : CM α} {s : σ} {post : α → Prop} (hp : RunsTo p post) :
    RunsTo ((liftM p : StateT σ CM α) s) fun r => post r.1 := by
  rcases hp with hfault | ⟨a, hrun, ha⟩
  · left
    rw [state_lift, hfault]
    rfl
  · exact runsTo_of_run (state_lift_ok hrun) ha

end RunsTo

end CLib
