import Mathlib.Data.List.Sort
import Mathlib.Data.Finset.Max

/-!
# Neighbours in a finite linear order

A list without repetitions over a linear order, in any order of its elements. Each
element but the greatest has a next one, each but the least a previous one, and the two
notions are inverse to each other (`isNext_iff_isPrev`). A function that picks the next
element leads from the least one through all of them to the greatest (`walk_sorted`):
its values in turn are the sorted list.
-/

namespace Neighbours

variable {α : Type} [LinearOrder α]

/-- `y` is the least element of `l` above `x`. -/
structure IsNext (l : List α) (x y : α) : Prop where
  mem : y ∈ l
  above : x < y
  least : ∀ d ∈ l, x < d → y ≤ d

/-- `x` is the greatest element of `l` below `y`. -/
structure IsPrev (l : List α) (y x : α) : Prop where
  mem : x ∈ l
  below : x < y
  greatest : ∀ d ∈ l, d < y → d ≤ x

variable {l : List α} {x y : α}

theorem isNext_iff_isPrev (hx : x ∈ l) (hy : y ∈ l) : IsNext l x y ↔ IsPrev l y x := by
  constructor
  · intro h
    refine ⟨hx, h.above, ?_⟩
    intro d hd hlt
    by_contra hgt
    exact absurd hlt (not_lt.mpr (h.least d hd (not_le.mp hgt)))
  · intro h
    refine ⟨hy, h.below, ?_⟩
    intro d hd hgt
    by_contra hlt
    exact absurd hgt (not_lt.mpr (h.greatest d hd (not_le.mp hlt)))

theorem exists_isNext {d : α} (hd : d ∈ l) (hlt : x < d) : ∃ y, IsNext l x y := by
  have hne : (l.toFinset.filter (x < ·)).Nonempty :=
    ⟨d, Finset.mem_filter.mpr ⟨List.mem_toFinset.mpr hd, hlt⟩⟩
  obtain ⟨hmem, habove⟩ := Finset.mem_filter.mp (Finset.min'_mem _ hne)
  refine ⟨_, List.mem_toFinset.mp hmem, habove, ?_⟩
  intro e he hxe
  exact Finset.min'_le _ e (Finset.mem_filter.mpr ⟨List.mem_toFinset.mpr he, hxe⟩)

theorem exists_isPrev {d : α} (hd : d ∈ l) (hlt : d < y) : ∃ x, IsPrev l y x := by
  have hne : (l.toFinset.filter (· < y)).Nonempty :=
    ⟨d, Finset.mem_filter.mpr ⟨List.mem_toFinset.mpr hd, hlt⟩⟩
  obtain ⟨hmem, hbelow⟩ := Finset.mem_filter.mp (Finset.max'_mem _ hne)
  refine ⟨_, List.mem_toFinset.mp hmem, hbelow, ?_⟩
  intro e he hey
  exact Finset.le_max' _ e (Finset.mem_filter.mpr ⟨List.mem_toFinset.mpr he, hey⟩)

/-! The order of the list does not matter. -/

theorem isNext_perm {l' : List α} (hp : l'.Perm l) : IsNext l' x y ↔ IsNext l x y := by
  constructor
  · intro h
    exact ⟨hp.mem_iff.mp h.mem, h.above, fun d hd => h.least d (hp.mem_iff.mpr hd)⟩
  · intro h
    exact ⟨hp.mem_iff.mpr h.mem, h.above, fun d hd => h.least d (hp.mem_iff.mp hd)⟩

theorem isPrev_perm {l' : List α} (hp : l'.Perm l) : IsPrev l' y x ↔ IsPrev l y x := by
  constructor
  · intro h
    exact ⟨hp.mem_iff.mp h.mem, h.below, fun d hd => h.greatest d (hp.mem_iff.mpr hd)⟩
  · intro h
    exact ⟨hp.mem_iff.mpr h.mem, h.below, fun d hd => h.greatest d (hp.mem_iff.mp hd)⟩

/-! ## Following the next element -/

/-- The element reached after `k` steps, while there is one. -/
def walk (next : α → Option α) (first : α) : Nat → Option α
  | 0 => some first
  | k + 1 => (walk next first k).bind next

/-- Positions in a sorted list are ordered like the elements. -/
theorem index_lt_of_lt {path : List α} (hsorted : path.Pairwise (· < ·)) {i j : Nat}
    {hi : i < path.length} {hj : j < path.length} (hlt : path[i] < path[j]) : i < j := by
  by_contra hle
  rcases Nat.lt_or_eq_of_le (Nat.le_of_not_lt hle) with hji | hji
  · exact absurd hlt (lt_asymm (List.pairwise_iff_getElem.mp hsorted j i hj hi hji))
  · subst hji
    exact absurd hlt (lt_irrefl _)

/-- In a sorted list the next element of each is the one behind it. -/
theorem next_of_sorted {next : α → Option α} {path : List α} (hsorted : path.Pairwise (· < ·))
    (hnext : ∀ x ∈ path, ∀ y, next x = some y ↔ IsNext path x y) (k : Nat) :
    path[k]?.bind next = path[k + 1]? := by
  have hpairs := List.pairwise_iff_getElem.mp hsorted
  by_cases hk : k < path.length
  · rw [List.getElem?_eq_getElem hk, Option.bind_some]
    by_cases hk' : k + 1 < path.length
    · rw [List.getElem?_eq_getElem hk', hnext _ (List.getElem_mem hk)]
      refine ⟨List.getElem_mem hk', hpairs k (k + 1) hk hk' (by omega), ?_⟩
      intro d hd hlt
      obtain ⟨j, hj, rfl⟩ := List.getElem_of_mem hd
      -- `d` stands behind position `k`, since those up to `k` are not greater
      have hkj : k < j := index_lt_of_lt hsorted hlt
      rcases Nat.lt_or_eq_of_le (Nat.succ_le_of_lt hkj) with hjk | hjk
      · exact le_of_lt (hpairs (k + 1) j hk' hj hjk)
      · subst hjk
        exact le_rfl
    · rw [List.getElem?_eq_none (Nat.le_of_not_lt hk')]
      cases hlast : next path[k] with
      | none => rfl
      | some y =>
        have hy := (hnext _ (List.getElem_mem hk) y).mp hlast
        obtain ⟨j, hj, rfl⟩ := List.getElem_of_mem hy.mem
        have hkj : k < j := index_lt_of_lt hsorted hy.above
        omega
  · rw [List.getElem?_eq_none (Nat.le_of_not_lt hk), List.getElem?_eq_none (by omega)]
    rfl

theorem walk_sorted {next : α → Option α} {path : List α} (hsorted : path.Pairwise (· < ·))
    (hnext : ∀ x ∈ path, ∀ y, next x = some y ↔ IsNext path x y) {first : α}
    (hfirst : path[0]? = some first) (k : Nat) : walk next first k = path[k]? := by
  induction k with
  | zero => exact hfirst.symm
  | succ k ih =>
    unfold walk
    rw [ih]
    exact next_of_sorted hsorted hnext k

/-- The elements in increasing order. -/
theorem exists_sorted (hnd : l.Nodup) : ∃ path : List α, path.Perm l ∧ path.Pairwise (· < ·) := by
  refine ⟨l.insertionSort (· ≤ ·), List.perm_insertionSort _ l, ?_⟩
  have hle := List.pairwise_insertionSort (· ≤ ·) l
  have hne : (l.insertionSort (· ≤ ·)).Nodup := (List.perm_insertionSort _ l).nodup_iff.mpr hnd
  exact (hle.and hne).imp fun h => lt_of_le_of_ne h.1 h.2

/-- **The walk.** From the least element the next ones lead through all elements to the
greatest. -/
theorem walk_visits {next : α → Option α} (hnd : l.Nodup)
    (hnext : ∀ x ∈ l, ∀ y, next x = some y ↔ IsNext l x y) {first last : α} (hfirst : first ∈ l)
    (hleast : ∀ d ∈ l, first ≤ d) (hlast : last ∈ l) (hgreatest : ∀ d ∈ l, d ≤ last) :
    ∃ path : List α, path.Perm l ∧ path.getLast? = some last ∧
      ∀ k, walk next first k = path[k]? := by
  obtain ⟨path, hperm, hsorted⟩ := exists_sorted hnd
  have hpos : 0 < path.length := List.length_pos_of_mem (hperm.mem_iff.mpr hfirst)
  have hpairs := List.pairwise_iff_getElem.mp hsorted
  have hzero : path[0]? = some first := by
    obtain ⟨j, hj, heq⟩ := List.getElem_of_mem (hperm.mem_iff.mpr hfirst)
    rcases Nat.eq_zero_or_pos j with rfl | hj'
    · rw [List.getElem?_eq_getElem hj, heq]
    · have hlt := hpairs 0 j hpos hj hj'
      rw [heq] at hlt
      exact absurd hlt (not_lt.mpr (hleast _ (hperm.mem_iff.mp (List.getElem_mem hpos))))
  have hend : path.getLast? = some last := by
    obtain ⟨j, hj, heq⟩ := List.getElem_of_mem (hperm.mem_iff.mpr hlast)
    rw [List.getLast?_eq_getElem?]
    rcases Nat.lt_or_eq_of_le (show j ≤ path.length - 1 by omega) with hj' | hj'
    · have hlt := hpairs j (path.length - 1) hj (by omega) hj'
      rw [heq] at hlt
      exact absurd hlt (not_lt.mpr (hgreatest _ (hperm.mem_iff.mp (List.getElem_mem _))))
    · rw [← hj', List.getElem?_eq_getElem hj, heq]
  refine ⟨path, hperm, hend, walk_sorted hsorted ?_ hzero⟩
  intro x hx y
  rw [hnext x (hperm.mem_iff.mp hx), isNext_perm hperm]

end Neighbours
