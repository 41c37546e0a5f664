import Mathlib.Data.Set.Card

/-!
# A reader/writer monitor

Two counters and the threads that brought them where they are. `Counts` says
that the counters are the numbers of threads in a read and in a write section,
that at most one thread writes and that nobody reads meanwhile. The guards of
the two entry procedures and the two exit procedures keep it; a step of a thread
inside or outside its section does too (`Counts.congr`).

Threads are any type, finitely many of them inside a section.

`Attended` is the other half: whoever sleeps on the condition variable and has
not been notified still has to wait. It survives a change of the shared data that
lets nobody through, and every change after which all sleepers are notified.
-/

namespace Monitor

/-- Where a thread is with respect to the monitor. -/
inductive Section
  | outside
  | read
  | write
  deriving DecidableEq

variable {κ : Type*}

/-- The counters count. -/
structure Counts (nReaders nWriters : Int) (inside : κ → Section) : Prop where
  readers : ∃ R : Finset κ, (∀ k, k ∈ R ↔ inside k = .read) ∧ nReaders = R.card
  writers : ∃ W : Finset κ, (∀ k, k ∈ W ↔ inside k = .write) ∧ nWriters = W.card
  one_writer : ∀ k k', inside k = .write → inside k' = .write → k = k'
  exclusion : ∀ k k', inside k = .write → inside k' ≠ .read

namespace Counts

variable {nReaders nWriters : Int} {inside inside' : κ → Section}

theorem initial : Counts (κ := κ) 0 0 fun _ => .outside where
  readers := ⟨∅, by simp⟩
  writers := ⟨∅, by simp⟩
  one_writer := by simp
  exclusion := by simp

theorem congr (h : Counts nReaders nWriters inside) (heq : ∀ k, inside' k = inside k) :
    Counts nReaders nWriters inside' := by
  rw [show inside' = inside from funext heq]
  exact h

/-- The counters are signed, but they count threads. -/
theorem nReaders_nonneg (h : Counts nReaders nWriters inside) : 0 ≤ nReaders := by
  obtain ⟨R, -, hR⟩ := h.readers
  omega

/-- Whoever is in a read section has been counted. -/
theorem nReaders_pos (h : Counts nReaders nWriters inside) {k : κ} (hk : inside k = .read) :
    0 < nReaders := by
  obtain ⟨R, hmem, hR⟩ := h.readers
  have hpos : 0 < R.card := Finset.card_pos.mpr ⟨k, (hmem k).mpr hk⟩
  omega

theorem nWriters_pos (h : Counts nReaders nWriters inside) {k : κ} (hk : inside k = .write) :
    0 < nWriters := by
  obtain ⟨W, hmem, hW⟩ := h.writers
  have hpos : 0 < W.card := Finset.card_pos.mpr ⟨k, (hmem k).mpr hk⟩
  omega

/-- A counter above zero is somebody's doing. -/
theorem exists_reader (h : Counts nReaders nWriters inside) (hpos : 0 < nReaders) :
    ∃ k, inside k = .read := by
  obtain ⟨R, hmem, hR⟩ := h.readers
  obtain ⟨k, hk⟩ : R.Nonempty := Finset.card_pos.mp (by omega)
  exact ⟨k, (hmem k).mp hk⟩

theorem exists_writer (h : Counts nReaders nWriters inside) (hpos : 0 < nWriters) :
    ∃ k, inside k = .write := by
  obtain ⟨W, hmem, hW⟩ := h.writers
  obtain ⟨k, hk⟩ : W.Nonempty := Finset.card_pos.mp (by omega)
  exact ⟨k, (hmem k).mp hk⟩

theorem nWriters_nonneg (h : Counts nReaders nWriters inside) : 0 ≤ nWriters := by
  obtain ⟨W, -, hW⟩ := h.writers
  omega

/-- A writer keeps every other one out, so the second counter is 0 or 1. -/
theorem nWriters_le_one (h : Counts nReaders nWriters inside) : nWriters ≤ 1 := by
  obtain ⟨W, hmem, hW⟩ := h.writers
  have hcard : W.card ≤ 1 := by
    rw [Finset.card_le_one]
    intro k hk k' hk'
    exact h.one_writer k k' ((hmem k).mp hk) ((hmem k').mp hk')
  omega

/-- Nobody reads while somebody writes. -/
theorem not_both (h : Counts nReaders nWriters inside) : ¬ (0 < nReaders ∧ 0 < nWriters) := by
  intro hboth
  obtain ⟨k, hk⟩ := h.exists_writer hboth.2
  obtain ⟨k', hk'⟩ := h.exists_reader hboth.1
  exact h.exclusion k k' hk hk'

/-- The counters as numbers of threads. -/
theorem ncard (h : Counts nReaders nWriters inside) :
    ({k | inside k = .read}.Finite ∧ nReaders = {k | inside k = .read}.ncard) ∧
      {k | inside k = .write}.Finite ∧ nWriters = {k | inside k = .write}.ncard := by
  have hset : ∀ {F : Finset κ} {p : κ → Prop}, (∀ k, k ∈ F ↔ p k) → {k | p k} = (F : Set κ) := by
    intro F p hF
    ext k
    exact (hF k).symm
  obtain ⟨R, hmem, hR⟩ := h.readers
  obtain ⟨W, hmemW, hW⟩ := h.writers
  rw [hset hmem, hset hmemW, Set.ncard_coe_finset, Set.ncard_coe_finset]
  exact ⟨⟨R.finite_toSet, hR⟩, W.finite_toSet, hW⟩

/-! ## Entering and leaving

One thread moves, the others stay. -/

section Moves

variable [DecidableEq κ] {k : κ} (h : Counts nReaders nWriters inside)
  (hother : ∀ k', k' ≠ k → inside' k' = inside k')

include h hother

/-- Entering to read where nobody writes. -/
theorem startRead (hk : inside k = .outside) (hk' : inside' k = .read) (hfree : ¬ 0 < nWriters) :
    Counts (nReaders + 1) nWriters inside' := by
  have hnone : ∀ j, inside j ≠ .write := fun j hj => hfree (h.nWriters_pos hj)
  have hnone' : ∀ j, inside' j ≠ .write := by
    intro j
    by_cases hj : j = k
    · rw [hj, hk']
      decide
    · rw [hother j hj]
      exact hnone j
  obtain ⟨R, hmem, hR⟩ := h.readers
  obtain ⟨W, hmemW, hW⟩ := h.writers
  have hknot : k ∉ R := by
    intro hin
    have hread := (hmem k).mp hin
    rw [hk] at hread
    exact absurd hread (by decide)
  refine ⟨⟨insert k R, fun j => ?_, ?_⟩, ⟨W, fun j => ?_, hW⟩, fun j _ hj => absurd hj (hnone' j),
    fun j _ hj => absurd hj (hnone' j)⟩
  · by_cases hj : j = k
    · simp [hj, hk']
    · simp [hj, hmem, hother j hj]
  · rw [Finset.card_insert_of_notMem hknot, hR]
    push_cast
    rfl
  · rw [hmemW]
    exact iff_of_false (hnone j) (hnone' j)

/-- Leaving the read section: the counter goes down by the thread that leaves. -/
theorem endRead (hk : inside k = .read) (hk' : inside' k = .outside) :
    Counts (nReaders - 1) nWriters inside' := by
  have hwrite : ∀ j, inside' j = .write ↔ inside j = .write := by
    intro j
    by_cases hj : j = k
    · simp [hj, hk, hk']
    · rw [hother j hj]
  obtain ⟨R, hmem, hR⟩ := h.readers
  obtain ⟨W, hmemW, hW⟩ := h.writers
  have hkin : k ∈ R := (hmem k).mpr hk
  have hpos : 0 < R.card := Finset.card_pos.mpr ⟨k, hkin⟩
  refine ⟨⟨R.erase k, fun j => ?_, ?_⟩, ⟨W, fun j => ?_, hW⟩, fun i j hi hj => ?_,
    fun i j hi hj => ?_⟩
  · by_cases hj : j = k
    · simp [hj, hk']
    · simp [hj, hmem, hother j hj]
  · rw [Finset.card_erase_of_mem hkin]
    omega
  · rw [hmemW, hwrite]
  · exact h.one_writer i j ((hwrite i).mp hi) ((hwrite j).mp hj)
  · exact h.exclusion i k ((hwrite i).mp hi) hk

/-- Entering to write where nobody is inside. -/
theorem startWrite (hk' : inside' k = .write)
    (hfree : ¬ (0 < nReaders ∨ 0 < nWriters)) : Counts nReaders (nWriters + 1) inside' := by
  have houtside : ∀ j, inside j ≠ .read ∧ inside j ≠ .write := fun j =>
    ⟨fun hj => hfree (Or.inl (h.nReaders_pos hj)), fun hj => hfree (Or.inr (h.nWriters_pos hj))⟩
  have honly : ∀ j, inside' j = .write ↔ j = k := by
    intro j
    by_cases hj : j = k
    · simp [hj, hk']
    · rw [hother j hj]
      exact iff_of_false (houtside j).2 hj
  have hread : ∀ j, inside' j ≠ .read := by
    intro j
    by_cases hj : j = k
    · rw [hj, hk']
      decide
    · rw [hother j hj]
      exact (houtside j).1
  obtain ⟨R, hmem, hR⟩ := h.readers
  obtain ⟨W, hmemW, hW⟩ := h.writers
  have hknot : k ∉ W := fun hin => (houtside k).2 ((hmemW k).mp hin)
  refine ⟨⟨R, fun j => ?_, hR⟩, ⟨insert k W, fun j => ?_, ?_⟩, fun i j hi hj => ?_,
    fun _ j _ hj => absurd hj (hread j)⟩
  · rw [hmem]
    exact iff_of_false (houtside j).1 (hread j)
  · rw [Finset.mem_insert, hmemW, honly]
    exact or_iff_left (houtside j).2
  · rw [Finset.card_insert_of_notMem hknot, hW]
    push_cast
    rfl
  · rw [(honly i).mp hi, (honly j).mp hj]

/-- Leaving the write section leaves nobody in a write section. -/
theorem endWrite (hk : inside k = .write) (hk' : inside' k = .outside) :
    Counts nReaders (nWriters - 1) inside' := by
  have hnone : ∀ j, inside' j ≠ .write := by
    intro j
    by_cases hj : j = k
    · rw [hj, hk']
      decide
    · rw [hother j hj]
      exact fun hw => hj (h.one_writer j k hw hk)
  have hread : ∀ j, inside j ≠ .read ∧ inside' j ≠ .read := by
    intro j
    have hj := h.exclusion k j hk
    refine ⟨hj, ?_⟩
    by_cases hjk : j = k
    · rw [hjk, hk']
      decide
    · rw [hother j hjk]
      exact hj
  obtain ⟨R, hmem, hR⟩ := h.readers
  obtain ⟨W, hmemW, hW⟩ := h.writers
  have hkin : k ∈ W := (hmemW k).mpr hk
  have hpos : 0 < W.card := Finset.card_pos.mpr ⟨k, hkin⟩
  refine ⟨⟨R, fun j => ?_, hR⟩, ⟨W.erase k, fun j => ?_, ?_⟩, fun i _ hi => absurd hi (hnone i),
    fun i _ hi => absurd hi (hnone i)⟩
  · rw [hmem]
    exact iff_of_false (hread j).1 (hread j).2
  · rw [Finset.mem_erase, hmemW]
    refine iff_of_false (fun ⟨hjk, hw⟩ => hjk (h.one_writer j k hw hk)) (hnone j)
  · rw [Finset.card_erase_of_mem hkin]
    omega

end Moves

end Counts

/-! ## Sleeping -/

section Sleeping

variable {α δ : Type*} {waits : α → δ → Prop} {d d' : δ} {asleep asleep' : κ → Option α}

/-- Every thread that sleeps un-notified, for a reason `a`, has to wait. -/
def Attended (waits : α → δ → Prop) (d : δ) (asleep : κ → Option α) : Prop :=
  ∀ k a, asleep k = some a → waits a d

theorem Attended.nobody : Attended waits d fun _ : κ => none := nofun

/-- Nobody else goes to sleep, and nobody who sleeps is let through. -/
theorem Attended.mono (h : Attended waits d asleep) (hd : ∀ a, waits a d → waits a d')
    (hs : ∀ k a, asleep' k = some a → asleep k = some a) : Attended waits d' asleep' :=
  fun k a hk => hd a (h k a (hs k a hk))

/-- Thread `k` goes to sleep because it has to wait. -/
theorem Attended.sleep [DecidableEq κ] (h : Attended waits d asleep) {k : κ} {a : α}
    (ha : waits a d) (hs : asleep' = Function.update asleep k (some a)) :
    Attended waits d asleep' := by
  subst hs
  intro k' a' hk'
  by_cases hk : k' = k
  · subst hk
    rw [Function.update_self] at hk'
    cases hk'
    exact ha
  · rw [Function.update_of_ne hk] at hk'
    exact h k' a' hk'

end Sleeping

end Monitor
