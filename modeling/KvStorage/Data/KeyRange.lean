import KvStorage.Data.TableMap

/-!
# The positions keys hash to

`hashValue` adds the bytes of the key as signed `char`s, and C's remainder has the
sign of the sum. For a key with bytes from 128 on the sum can be negative, and then
so is the index, unless the number of lists divides the sum
(`key_in_range_iff`). The sum itself never overflows for a key that fits a frame.
-/

namespace KvStorage

open CLib Table

/-! ## The sum -/

/-- The exact sum of the signed bytes. -/
def scharSum (bs : List Byte) : Int := (bs.map schar).sum

/-- What an `int` holds. -/
def InInt (x : Int) : Prop := -2 ^ 31 ≤ x ∧ x < 2 ^ 31

theorem cint_of_inInt {x : Int} (h : InInt x) : cint x = x := by
  unfold InInt at h
  unfold cint
  rw [Int.bmod_def]
  omega

theorem schar_bounds (b : Byte) : -128 ≤ schar b ∧ schar b ≤ 127 := by
  have hlt := b.isLt
  unfold schar
  split <;> omega

theorem scharSum_bounds (bs : List Byte) :
    -128 * (bs.length : Int) ≤ scharSum bs ∧ scharSum bs ≤ 127 * bs.length := by
  induction bs with
  | nil => simp [scharSum]
  | cons b bs ih =>
    have hb := schar_bounds b
    unfold scharSum at ih ⊢
    rw [List.map_cons, List.sum_cons, List.length_cons]
    push_cast
    omega

theorem inInt_scharSum {bs : List Byte} (h : bs.length ≤ 65535) : InInt (scharSum bs) := by
  have hbounds := scharSum_bounds bs
  unfold InInt
  omega

/-- The loop of `hashValue` from a sum so far, while no sum overflows. -/
theorem foldl_schar (bs : List Byte) (acc : Int)
    (h : ∀ k ≤ bs.length, InInt (acc + scharSum (bs.take k))) :
    bs.foldl (fun soma b => cint (soma + schar b)) acc = acc + scharSum bs := by
  induction bs generalizing acc with
  | nil => simp [scharSum]
  | cons b bs ih =>
    have hone : InInt (acc + schar b) := by
      have h1 := h 1 (by simp)
      simpa [scharSum] using h1
    rw [List.foldl_cons, cint_of_inInt hone, ih]
    · simp only [scharSum, List.map_cons, List.sum_cons, Int.add_assoc]
    · intro k hk
      have hnext := h (k + 1) (by simpa using hk)
      simpa [scharSum, Int.add_assoc] using hnext

theorem soma_eq_scharSum {bs : List Byte} (h : bs.length ≤ 65535) : soma bs = scharSum bs := by
  have hfold := foldl_schar bs 0 fun k hk => by
    rw [Int.zero_add]
    refine inInt_scharSum ?_
    rw [List.length_take]
    omega
  rw [Int.zero_add] at hfold
  exact hfold

/-- C's remainder is negative for a negative dividend that the divisor does not
divide. -/
theorem tmod_nonneg_iff {a n : Int} : 0 ≤ a.tmod n ↔ 0 ≤ a ∨ n ∣ a := by
  constructor
  · intro h
    by_cases ha : 0 ≤ a
    · exact Or.inl ha
    · have hneg : 0 ≤ (-a).tmod n := Int.tmod_nonneg n (by omega)
      rw [Int.neg_tmod] at hneg
      exact Or.inr (Int.dvd_of_tmod_eq_zero (by omega))
  · rintro (ha | hdvd)
    · exact Int.tmod_nonneg n ha
    · rw [Int.tmod_eq_zero_of_dvd hdvd]

/-! ## Accesses to the array -/

/-- The calls that hash `key` stay inside the array of any table with `n` lists,
whatever the allocations. -/
def AccessesInside (n : Int) (key : CStr) : Prop :=
  ∀ t : Table, t.WF → t.size = n → ∀ al,
    tableGet t key al ≠ .error .outOfBounds ∧ tableRemove t key al ≠ .error .outOfBounds ∧
      ∀ b : Block, b.Valid → tablePut t key (some b) al ≠ .error .outOfBounds

theorem tableGet_ne_fault {t : Table} (h : t.WF) {key : CStr} (hk : t.Indexes key) (al : Allocs)
    (e : Fault) : tableGet t key al ≠ .error e := by
  unfold tableGet
  simp only [run_bind, h.arrayGet_hash hk, run_pure, ok_bind]
  cases hlist : t.listOf key with
  | none => simp
  | some lista =>
    dsimp only
    rw [listGet, getNode_eq_search]
    cases hsearch : SortedMap.search Entry.key key lista.nodes with
    | none => simp
    | some entrada =>
      obtain ⟨v, hv, hblock⟩ :=
        h.stored_of_mem hlist entrada (SortedMap.search_mem Entry.key hsearch).1
      dsimp only
      rw [hblock, blockDuplicate_run (Block.ofBytes_valid hv)]
      split
      · split <;> simp
      · simp

theorem accessesInside_of_index {n : Int} {key : CStr} (h : 0 ≤ hashValue key n) :
    AccessesInside n key := by
  intro t ht hn al
  have hk : t.Indexes key := by
    unfold Indexes
    rw [hn]
    exact h
  refine ⟨tableGet_ne_fault ht hk al _, ?_, fun b hb => ?_⟩
  · obtain ⟨r, t', hrun, -⟩ := tableRemove_run ht hk al
    rw [hrun]
    exact nofun
  · obtain ⟨t', hrun, -⟩ := tablePut_run ht hk hb al
    rw [hrun]
    exact nofun

/-! ## The range -/

/-- No sum overflows, the index is one of the array, and the table operations
access existing positions only. -/
structure KeyInRange (n : Int) (key : CStr) : Prop where
  sums : ∀ k ≤ key.bytes.length, InInt (scharSum (key.bytes.take k))
  soma_eq : soma key.bytes = scharSum key.bytes
  nonneg : 0 ≤ hashValue key n
  lt : hashValue key n < n
  accesses : AccessesInside n key

/-- **Which keys hash into the table.** For a key that fits a frame the sum does
not overflow; the index is inside the table exactly when the sum of the signed
bytes is not negative or is a multiple of the number of lists. -/
theorem key_in_range_iff {n : Int} (hn : 0 < n) {key : CStr} (hlen : key.bytes.length ≤ 65535) :
    KeyInRange n key ↔ 0 ≤ scharSum key.bytes ∨ n ∣ scharSum key.bytes := by
  have hsoma := soma_eq_scharSum hlen
  have hindex : 0 ≤ hashValue key n ↔ 0 ≤ scharSum key.bytes ∨ n ∣ scharSum key.bytes := by
    unfold hashValue
    rw [hsoma]
    exact tmod_nonneg_iff
  constructor
  · intro h
    exact hindex.mp h.nonneg
  · intro h
    refine ⟨fun k _ => ?_, hsoma, hindex.mpr h, Int.tmod_lt_of_pos _ hn,
      accessesInside_of_index (hindex.mpr h)⟩
    refine inInt_scharSum ?_
    rw [List.length_take]
    omega

/-- The key "é" in UTF-8: two bytes whose signed values add up to -148. -/
def keyAccented : CStr := ⟨[195, 169], by decide⟩

/-- Four lists divide -148. -/
theorem key_in_range_iff_accented : KeyInRange 4 keyAccented :=
  (key_in_range_iff (by decide) (by decide)).mpr (Or.inr (by decide))

/-- Three do not. -/
theorem accented_key_out_of_range : hashValue keyAccented 3 = -1 ∧ ¬ KeyInRange 3 keyAccented ∧
    tablePut ⟨[none, none, none], 3⟩ keyAccented (some (Block.ofBytes [1])) allocated
      = .error .outOfBounds :=
  ⟨by decide, fun h => absurd h.nonneg (by decide), rfl⟩

end KvStorage
