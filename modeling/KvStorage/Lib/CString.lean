import Mathlib.Algebra.GroupWithZero.Nat
import Mathlib.Algebra.Ring.Int.Defs
import Mathlib.Data.List.Lex
import Mathlib.Order.Fin.Basic

/-!
# C bytes, `int` and NUL-terminated strings

The fragment of C that the hash-table code computes with: bytes, the signed
`char`, a 32-bit `int` that wraps as it does on the x86-64 build, and strings
kept without their terminating NUL.

`strcmp` compares bytes as unsigned and stops at the first difference or at the
shorter string's NUL. Only the sign of its answer is specified by C, and the
three lemmas `strcmp_eq_zero`, `strcmp_neg`, `strcmp_pos` say that this sign is
the lexicographic order on the byte lists — which is where the NUL-freeness
carried by `CStr` is needed: the NUL of the shorter string is smaller than
every byte of the longer one.
-/

namespace CLib

/-- An unsigned byte. -/
abbrev Byte := Fin 256

instance byteNeZero : NeZero 256 := ⟨by decide⟩

/-- The value of a byte read through a signed `char`. -/
def schar (b : Byte) : Int := if b.val < 128 then b.val else (b.val : Int) - 256

/-- An exact integer as a 32-bit `int` holds it. -/
def cint (x : Int) : Int := Int.bmod x (2 ^ 32)

/-- What fits is what it was. -/
theorem cint_of_lt {x : Int} (h0 : 0 ≤ x) (h : x < 2 ^ 31) : cint x = x := by
  unfold cint
  rw [Int.bmod_def]
  omega

/-- Wrapping early is harmless for a sum. -/
theorem cint_add_cint (x y : Int) : cint (cint x + y) = cint (x + y) := by
  unfold cint
  exact Int.bmod_add_bmod

/-! ## Strings -/

/-- A C string: its bytes before the terminating NUL. -/
structure CStr where
  bytes : List Byte
  nul_free : (0 : Byte) ∉ bytes

namespace CStr

@[ext] theorem ext {s t : CStr} (h : s.bytes = t.bytes) : s = t := by
  cases s
  cases t
  subst h
  rfl

/-- The proof that there is no NUL inside carries nothing else. -/
theorem bytes_injective : Function.Injective CStr.bytes := fun _ _ h => ext h

/-- Strings are ordered as byte lists, shorter prefixes first. -/
instance : LinearOrder CStr := LinearOrder.lift' CStr.bytes bytes_injective

theorem nul_notMem_nil : (0 : Byte) ∉ [] := List.not_mem_nil

instance : Inhabited CStr := ⟨⟨[], nul_notMem_nil⟩⟩

/-- Every byte below 128. -/
def SevenBit (s : CStr) : Prop := ∀ b ∈ s.bytes, b.val < 128

instance (s : CStr) : Decidable s.SevenBit :=
  inferInstanceAs (Decidable (∀ b ∈ s.bytes, b.val < 128))

end CStr

/-! ## `strcmp` -/

/-- The loop of `strcmp` over what is left of the two strings; the empty list
stands for the NUL, whose value is 0. -/
def strcmpBytes : List Byte → List Byte → Int
  | [], [] => 0
  | [], b :: _ => -(b.val : Int)
  | a :: _, [] => a.val
  | a :: as, b :: bs => if a = b then strcmpBytes as bs else (a.val : Int) - b.val

/-- C's `strcmp`. -/
def strcmp (s t : CStr) : Int := strcmpBytes s.bytes t.bytes

private theorem pos_of_nul_free {b : Byte} {l : List Byte} (h : (0 : Byte) ∉ b :: l) :
    0 < b.val := by
  have hb : b ≠ 0 := fun he => h (by rw [he]; exact List.mem_cons_self ..)
  exact Nat.pos_of_ne_zero fun h0 => hb (Fin.ext h0)

theorem strcmpBytes_eq_zero : ∀ {s t : List Byte}, (0 : Byte) ∉ s → (0 : Byte) ∉ t →
    (strcmpBytes s t = 0 ↔ s = t)
  | [], [], _, _ => by simp [strcmpBytes]
  | [], b :: t, _, ht => by
    have hb := pos_of_nul_free ht
    simp only [strcmpBytes, reduceCtorEq, iff_false]
    omega
  | a :: s, [], hs, _ => by
    have ha := pos_of_nul_free hs
    simp only [strcmpBytes, reduceCtorEq, iff_false]
    omega
  | a :: s, b :: t, hs, ht => by
    have ih := strcmpBytes_eq_zero (s := s) (t := t)
      (fun h => hs (List.mem_cons_of_mem _ h)) (fun h => ht (List.mem_cons_of_mem _ h))
    unfold strcmpBytes
    by_cases hab : a = b
    · subst hab
      rw [if_pos rfl, ih, List.cons.injEq]
      exact ⟨fun h => ⟨rfl, h⟩, fun h => h.2⟩
    · rw [if_neg hab, List.cons.injEq]
      have hv : a.val ≠ b.val := fun h => hab (Fin.ext h)
      constructor
      · intro h
        omega
      · intro h
        exact absurd h.1 hab

/-- At the first difference the bytes decide, and where one string ends its NUL is the smaller. -/
theorem strcmpBytes_neg : ∀ {s t : List Byte}, (0 : Byte) ∉ s → (0 : Byte) ∉ t →
    (strcmpBytes s t < 0 ↔ s < t)
  | [], [], _, _ => by simp [strcmpBytes]
  | [], b :: t, _, ht => by
    have hb := pos_of_nul_free ht
    simp only [strcmpBytes, List.nil_lt_cons, iff_true]
    omega
  | a :: s, [], hs, _ => by
    simp only [strcmpBytes, List.not_lt_nil, iff_false]
    omega
  | a :: s, b :: t, hs, ht => by
    have ih := strcmpBytes_neg (s := s) (t := t)
      (fun h => hs (List.mem_cons_of_mem _ h)) (fun h => ht (List.mem_cons_of_mem _ h))
    unfold strcmpBytes
    by_cases hab : a = b
    · subst hab
      rw [if_pos rfl, ih, List.cons_lt_cons_iff]
      exact ⟨fun h => Or.inr ⟨rfl, h⟩, fun h => h.elim (fun hlt => absurd hlt (lt_irrefl a)) (·.2)⟩
    · rw [if_neg hab, List.cons_lt_cons_iff, Fin.lt_def]
      constructor
      · intro h
        left
        omega
      · rintro (h | ⟨h, -⟩)
        · omega
        · exact absurd h hab

/-- Only the order of the arguments decides the sign. -/
theorem strcmpBytes_swap : ∀ s t : List Byte, strcmpBytes t s = -strcmpBytes s t
  | [], [] => by simp [strcmpBytes]
  | [], _ :: _ => by simp [strcmpBytes]
  | _ :: _, [] => by simp [strcmpBytes]
  | a :: s, b :: t => by
    unfold strcmpBytes
    by_cases hab : a = b
    · rw [if_pos hab, if_pos hab.symm]
      exact strcmpBytes_swap s t
    · rw [if_neg hab, if_neg (fun h => hab h.symm)]
      omega

theorem strcmp_eq_zero {s t : CStr} : strcmp s t = 0 ↔ s = t :=
  (strcmpBytes_eq_zero s.nul_free t.nul_free).trans
    ⟨fun h => CStr.ext h, fun h => congrArg CStr.bytes h⟩

theorem strcmp_neg {s t : CStr} : strcmp s t < 0 ↔ s < t :=
  strcmpBytes_neg s.nul_free t.nul_free

theorem strcmp_pos {s t : CStr} : 0 < strcmp s t ↔ t < s := by
  rw [← strcmp_neg (s := t) (t := s)]
  unfold strcmp
  rw [strcmpBytes_swap s.bytes t.bytes]
  omega

end CLib
