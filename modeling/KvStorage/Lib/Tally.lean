import Mathlib.Data.Finsupp.Weight
import Mathlib.Data.Set.Card

/-!
# What many threads add up to

A counter that any number of threads change, each by a known amount, is the sum of what the
threads stand for. `Tally R part x` says that each thread's part stands for an amount (`R`),
zero for all but finitely many of them, and that these add up to `x`. When one thread moves,
the sum changes by the difference of its two amounts (`Tally.update`).
-/

variable {κ δ M : Type*} [AddCommGroup M]

/-- The parts of all threads add up to `x`. -/
def Tally (R : δ → M → Prop) (part : κ → δ) (x : M) : Prop :=
  ∃ amount : κ →₀ M, (∀ k, R (part k) (amount k)) ∧ amount.degree = x

namespace Tally

variable {R : δ → M → Prop} {part : κ → δ} {x : M}

theorem zero (h : ∀ k, R (part k) 0) : Tally R part 0 := ⟨0, h, map_zero _⟩

/-- Where every part stands for nothing. -/
theorem eq_zero (h : Tally R part x) (hzero : ∀ k y, R (part k) y → y = 0) : x = 0 := by
  obtain ⟨amount, hamount, rfl⟩ := h
  have hall : amount = 0 := Finsupp.ext fun k => hzero k _ (hamount k)
  rw [hall, map_zero]

/-- One thread moves. -/
theorem update [DecidableEq κ] (h : Tally R part x) (k : κ) : ∃ y, R (part k) y ∧
    ∀ d z, R d z → Tally R (Function.update part k d) (x - y + z) := by
  obtain ⟨amount, hamount, rfl⟩ := h
  refine ⟨amount k, hamount k, fun d z hd => ?_⟩
  refine ⟨amount - Finsupp.single k (amount k) + Finsupp.single k z, fun j => ?_, ?_⟩
  · by_cases hj : j = k
    · subst hj
      simpa using hd
    · simpa [Function.update_of_ne hj, Finsupp.single_eq_of_ne hj] using hamount j
  · rw [map_add, map_sub, Finsupp.degree_single, Finsupp.degree_single]

/-- One thread moves to a part that stands for the same. -/
theorem update_same [DecidableEq κ] (h : Tally R part x) {k : κ} {d : δ}
    (hd : ∀ y, R (part k) y → R d y) : Tally R (Function.update part k d) x := by
  obtain ⟨y, hy, hmove⟩ := h.update k
  have hsame := hmove d y (hd y hy)
  rwa [sub_add_cancel] at hsame

end Tally

/-- Threads of one kind, counted. -/
theorem tally_ncard {p : δ → Prop} [DecidablePred p] {part : κ → δ} {n : ℤ}
    (h : Tally (fun d y => y = if p d then 1 else 0) part n) :
    {k | p (part k)}.Finite ∧ n = {k | p (part k)}.ncard := by
  obtain ⟨amount, hamount, rfl⟩ := h
  have hsupport : {k | p (part k)} = (amount.support : Set κ) := by
    ext k
    simp [hamount k]
  rw [hsupport, Set.ncard_coe_finset, Finsupp.degree_apply]
  refine ⟨amount.support.finite_toSet, ?_⟩
  have hone : ∀ k ∈ amount.support, amount k = 1 := by
    intro k hk
    rw [Finsupp.mem_support_iff, hamount k] at hk
    rw [hamount k]
    simpa using hk
  rw [Finset.sum_congr rfl hone, Finset.sum_const, nsmul_one]
