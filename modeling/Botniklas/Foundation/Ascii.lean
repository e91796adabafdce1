import Mathlib.Data.Nat.Digits.Defs
import Mathlib.Data.Nat.Digits.Lemmas
import Mathlib.Data.List.TakeWhile

/-! Bytes as the C locale reads and prints them. -/
namespace Botniklas.Foundation

abbrev Bytes := List UInt8

@[simp] abbrev nul : UInt8 := 0
@[simp] abbrev lf : UInt8 := 10
@[simp] abbrev cr : UInt8 := 13
@[simp] abbrev space : UInt8 := 32
@[simp] abbrev bang : UInt8 := 33
@[simp] abbrev slash : UInt8 := 47
@[simp] abbrev colon : UInt8 := 58
@[simp] abbrev atSign : UInt8 := 64

/-- The bytes of a string literal. -/
def ascii (s : String) : Bytes := s.toList.map fun c => UInt8.ofNat c.toNat

def isdigit (b : UInt8) : Bool := 48 ≤ b && b ≤ 57

def isspace (b : UInt8) : Bool := b = 32 || (9 ≤ b && b ≤ 13)

def digit (b : UInt8) : Nat := b.toNat - 48

/-- Value of a run of decimal digits. -/
def digitsValue (w : Bytes) : Nat := w.foldl (fun n b => 10 * n + digit b) 0

/-- `%u` and the digits of `%lld`. -/
def decimal (n : Nat) : Bytes :=
  if n = 0 then [48] else (Nat.digits 10 n).reverse.map fun d => UInt8.ofNat (48 + d)

/-- `%lld`. -/
def decimalInt (i : Int) : Bytes :=
  if i < 0 then 45 :: decimal i.natAbs else decimal i.toNat

def llongMax : Int := 9223372036854775807
def llongMin : Int := -9223372036854775808

/-- Saturate at the range of `long long`; the flag is errno = ERANGE. -/
def clampLong (v : Int) : Int × Bool :=
  if v > llongMax then (llongMax, true)
  else if v < llongMin then (llongMin, true)
  else (v, false)

/-- `strtoll` in base ten. -/
def strtoll (s : Bytes) : Int × Bool :=
  match s.dropWhile isspace with
  | 45 :: t => clampLong (-(digitsValue (t.takeWhile isdigit) : Int))
  | 43 :: t => clampLong (digitsValue (t.takeWhile isdigit))
  | t => clampLong (digitsValue (t.takeWhile isdigit))

theorem digit_ofNat {d : Nat} (hd : d < 10) :
    isdigit (UInt8.ofNat (48 + d)) = true ∧ digit (UInt8.ofNat (48 + d)) = d := by
  have : ∀ d < 10, isdigit (UInt8.ofNat (48 + d)) = true ∧ digit (UInt8.ofNat (48 + d)) = d := by
    decide
  exact this d hd

theorem isdigit_ne {b c : UInt8} (hb : isdigit b = true) (hc : isdigit c = false) : b ≠ c := by
  rintro rfl
  simp [hb] at hc

theorem decimal_ne_nil (n : Nat) : decimal n ≠ [] := by
  unfold decimal
  split
  · simp
  · rename_i h
    simpa [Nat.digits_eq_nil_iff_eq_zero] using h

theorem isdigit_of_mem_decimal {n : Nat} {b : UInt8} (hb : b ∈ decimal n) : isdigit b = true := by
  unfold decimal at hb
  split at hb
  · rw [List.mem_singleton.mp hb]
    decide
  · obtain ⟨d, hd, rfl⟩ := List.mem_map.mp hb
    exact (digit_ofNat (Nat.digits_lt_base (by omega) (List.mem_reverse.mp hd))).1

private theorem digitsValue_reverse (l : List Nat) (hl : ∀ d ∈ l, d < 10) :
    digitsValue (l.reverse.map fun d => UInt8.ofNat (48 + d)) = Nat.ofDigits 10 l := by
  induction l with
  | nil => rfl
  | cons d l ih =>
    simp only [List.mem_cons, forall_eq_or_imp] at hl
    have := ih hl.2
    unfold digitsValue at this ⊢
    rw [List.reverse_cons, List.map_append, List.foldl_append, this]
    simp only [List.map_cons, List.map_nil, List.foldl_cons, List.foldl_nil,
      (digit_ofNat hl.1).2, Nat.ofDigits_cons]
    omega

/-- Printing a number in decimal and reading it back. -/
theorem digitsValue_decimal (n : Nat) : digitsValue (decimal n) = n := by
  unfold decimal
  split
  · subst n
    decide
  · rw [digitsValue_reverse _ fun d hd => Nat.digits_lt_base (by omega) hd, Nat.ofDigits_digits]

theorem decimalInt_of_nonneg {i : Int} (h : 0 ≤ i) : decimalInt i = decimal i.toNat :=
  if_neg (by omega)

theorem isspace_of_isdigit {b : UInt8} (hb : isdigit b = true) : isspace b = false := by
  simp only [isdigit, isspace, Bool.and_eq_true, decide_eq_true_eq, Bool.or_eq_false_iff,
    decide_eq_false_iff_not, Bool.and_eq_false_iff, UInt8.le_iff_toNat_le,
    ← UInt8.toNat_inj] at *
  simp only [UInt8.reduceToNat] at *
  omega

/-- On a string that is digits alone, only the upper end of the range is reached. -/
theorem strtoll_digits {w : Bytes} (hne : w ≠ []) (hd : ∀ b ∈ w, isdigit b = true) :
    strtoll w = if (digitsValue w : Int) > llongMax then (llongMax, true)
      else ((digitsValue w : Int), false) := by
  have hw : w.takeWhile isdigit = w := List.takeWhile_eq_self_iff.mpr hd
  obtain ⟨b, t, rfl⟩ := List.exists_cons_of_ne_nil hne
  have hb := hd b (by simp)
  have hs : (b :: t).dropWhile isspace = b :: t :=
    List.dropWhile_cons_of_neg (by simp [isspace_of_isdigit hb])
  have hlow : ¬ (digitsValue (b :: t) : Int) < llongMin := by unfold llongMin; omega
  unfold strtoll
  rw [hs]
  split
  · exact absurd (by decide : isdigit 45 = false) (by simp_all)
  · exact absurd (by decide : isdigit 43 = false) (by simp_all)
  · rw [hw, clampLong, if_neg hlow]

end Botniklas.Foundation
