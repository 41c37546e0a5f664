import KvStorage.Lib.CString
import Mathlib.Data.List.TakeWhile
import Mathlib.Data.Nat.Digits.Defs
import Mathlib.Data.Nat.Digits.Lemmas

/-!
# Numbers in strings

`%d` of a positive number, and the way back: `strtol` stops at the first byte that is
no digit and stays in the range of a `long`, `atoi` keeps the low 32 bits of what it gives.
Numbers below 2^31 come back as they were written (`atoi_decimal`).

`inet_pton` takes four numbers of one to three digits with dots between them, so no string it
takes is longer than 15 bytes (`length_of_inetPton`).
-/

namespace CLib

def isDigit (b : Byte) : Bool := 48 ≤ b.val ∧ b.val ≤ 57

/-- The number at the beginning of a string. -/
def digitsValue (s : List Byte) : Nat :=
  (s.takeWhile isDigit).foldl (fun n b => 10 * n + (b.val - 48)) 0

/-- `strtol` with base 10: blanks, a sign, digits. -/
def strtol (s : List Byte) : Int :=
  match s.dropWhile fun b => b.val = 32 ∨ 9 ≤ b.val ∧ b.val ≤ 13 with
  | 45 :: rest => max (-digitsValue rest) (-2 ^ 63)
  | 43 :: rest => min (digitsValue rest) (2 ^ 63 - 1)
  | rest => min (digitsValue rest) (2 ^ 63 - 1)

/-- `atoi`: the `long` of `strtol` as an `int`. -/
def atoi (s : List Byte) : Int := cint (strtol s)

/-- `%d` of a positive number. -/
def decimal (n : Nat) : List Byte := (Nat.digits 10 n).reverse.map fun d => Fin.ofNat 256 (48 + d)

/-- The character `.`. -/
def dot : Byte := 46

/-- One of the four numbers of an address. -/
def isOctet (s : List Byte) : Bool :=
  0 < s.length ∧ s.length ≤ 3 ∧ s.all isDigit ∧ (1 < s.length → s.head? ≠ some 48) ∧
    digitsValue s ≤ 255

/-- Whether `inet_pton` takes the string for an IPv4 address. -/
def inetPton (s : List Byte) : Bool :=
  (s.splitOn dot).length = 4 ∧ (s.splitOn dot).all isOctet

/-! ## Writing and reading -/

theorem isDigit_digit {d : Nat} (h : d < 10) : isDigit (Fin.ofNat 256 (48 + d)) := by
  have hval : (Fin.ofNat 256 (48 + d)).val = 48 + d := Nat.mod_eq_of_lt (by omega)
  unfold isDigit
  rw [hval]
  simp only [decide_eq_true_eq]
  omega

theorem isDigit_of_mem_decimal {n : Nat} : ∀ b ∈ decimal n, isDigit b := by
  intro b hb
  obtain ⟨d, hd, rfl⟩ := List.mem_map.mp hb
  exact isDigit_digit (Nat.digits_lt_base (by omega) (List.mem_reverse.mp hd))

theorem nul_notMem_decimal (n : Nat) : (0 : Byte) ∉ decimal n :=
  fun hmem => absurd (isDigit_of_mem_decimal _ hmem) (by decide)

/-- How many bytes `%d` writes. -/
theorem length_decimal_le_iff {n k : Nat} : (decimal n).length ≤ k ↔ n < 10 ^ k := by
  unfold decimal
  rw [List.length_map, List.length_reverse]
  exact Nat.digits_length_le_iff (by decide) n

theorem digitsValue_of_digits {s : List Byte} (hs : ∀ b ∈ s, isDigit b) :
    digitsValue s = s.foldl (fun n b => 10 * n + (b.val - 48)) 0 := by
  unfold digitsValue
  rw [List.takeWhile_eq_self_iff.mpr hs]

theorem digitsValue_decimal (n : Nat) : digitsValue (decimal n) = n := by
  rw [digitsValue_of_digits isDigit_of_mem_decimal, decimal, List.foldl_map, List.foldl_reverse]
  have hfold : ∀ ds : List Nat, (∀ d ∈ ds, d < 10) →
      ds.foldr (fun d n => 10 * n + ((Fin.ofNat 256 (48 + d)).val - 48)) 0
        = Nat.ofDigits 10 ds := by
    intro ds
    induction ds with
    | nil => exact fun _ => rfl
    | cons d ds ih =>
      intro hds
      have hd := hds d (List.mem_cons_self ..)
      have hval : (Fin.ofNat 256 (48 + d)).val = 48 + d := Nat.mod_eq_of_lt (by omega)
      rw [List.foldr_cons, ih fun d' hd' => hds d' (List.mem_cons_of_mem _ hd'), hval,
        Nat.ofDigits_cons]
      omega
  rw [hfold _ fun d hd => Nat.digits_lt_base (by omega) hd, Nat.ofDigits_digits]

/-- Digits alone have neither blanks nor a sign in front of them. -/
theorem strtol_of_digits {s : List Byte} (hs : ∀ b ∈ s, isDigit b) :
    strtol s = min (digitsValue s : Int) (2 ^ 63 - 1) := by
  cases s with
  | nil => rfl
  | cons b s =>
    have hb := hs b (List.mem_cons_self ..)
    unfold isDigit at hb
    rw [decide_eq_true_eq] at hb
    have hblank : ¬ (b.val = 32 ∨ 9 ≤ b.val ∧ b.val ≤ 13) := by omega
    unfold strtol
    rw [List.dropWhile_cons_of_neg (by simpa using hblank)]
    split
    next heq =>
      cases heq
      exact absurd hb.1 (by decide)
    next heq =>
      cases heq
      exact absurd hb.1 (by decide)
    next => rfl

theorem atoi_of_digits {s : List Byte} (hs : ∀ b ∈ s, isDigit b) (hlt : digitsValue s < 2 ^ 31) :
    atoi s = digitsValue s := by
  unfold atoi
  rw [strtol_of_digits hs, min_eq_left (by omega), cint_of_lt (by omega) (by omega)]

/-- `atoi` reads back what `%d` wrote. -/
theorem atoi_decimal {n : Nat} (hlt : n < 2 ^ 31) : atoi (decimal n) = n := by
  have hvalue := digitsValue_decimal n
  rw [atoi_of_digits isDigit_of_mem_decimal (by rw [hvalue]; exact hlt), hvalue]

/-! ## Addresses of four numbers -/

theorem length_le_of_isOctet {s : List Byte} (h : isOctet s = true) : s.length ≤ 3 := by
  unfold isOctet at h
  rw [decide_eq_true_eq] at h
  exact h.2.1

theorem length_of_inetPton {s : List Byte} (h : inetPton s = true) : s.length ≤ 15 := by
  unfold inetPton at h
  rw [decide_eq_true_eq, List.all_eq_true] at h
  obtain ⟨hfour, hoctets⟩ := h
  have hjoin : [dot].intercalate (s.splitOn dot) = s := List.intercalate_splitOn dot
  match hparts : s.splitOn dot, hfour with
  | [a, b, c, d], _ =>
    rw [hparts] at hjoin hoctets
    have ha := length_le_of_isOctet (hoctets a (by simp))
    have hb := length_le_of_isOctet (hoctets b (by simp))
    have hc := length_le_of_isOctet (hoctets c (by simp))
    have hd := length_le_of_isOctet (hoctets d (by simp))
    rw [← hjoin]
    simp only [List.intercalate_cons_cons, List.intercalate_singleton, List.length_append,
      List.length_singleton]
    omega

end CLib
