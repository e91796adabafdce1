import Botniklas.Foundation.Ascii
import Botniklas.Foundation.Calendar
import Mathlib.Data.Bool.AllAny

/-! A broken down time as `strftime` prints it for `%c` in the C locale, and its reader. -/
namespace Botniklas.Foundation
open Calendar

/-- `%a`, with Sunday as 0. -/
def dayName : Nat → Bytes
  | 0 => ascii "Sun"
  | 1 => ascii "Mon"
  | 2 => ascii "Tue"
  | 3 => ascii "Wed"
  | 4 => ascii "Thu"
  | 5 => ascii "Fri"
  | _ => ascii "Sat"

/-- `%b`, with January as 0. -/
def monthName : Nat → Bytes
  | 0 => ascii "Jan"
  | 1 => ascii "Feb"
  | 2 => ascii "Mar"
  | 3 => ascii "Apr"
  | 4 => ascii "May"
  | 5 => ascii "Jun"
  | 6 => ascii "Jul"
  | 7 => ascii "Aug"
  | 8 => ascii "Sep"
  | 9 => ascii "Oct"
  | 10 => ascii "Nov"
  | _ => ascii "Dec"

/-- Two places for a number below one hundred. -/
def twoPlaces (pad : UInt8) (n : Nat) : Bytes :=
  if n < 10 then [pad, UInt8.ofNat (48 + n)]
  else [UInt8.ofNat (48 + n / 10), UInt8.ofNat (48 + n % 10)]

/-- `%a %b %e %H:%M:%S %Y`. -/
def timestamp (wday : Nat) (tm : Tm) : Bytes :=
  dayName wday ++ space :: (monthName tm.mon.toNat ++ space ::
    (twoPlaces space tm.mday.toNat ++ space :: (twoPlaces 48 tm.hour.toNat ++ colon ::
      (twoPlaces 48 tm.min.toNat ++ colon :: (twoPlaces 48 tm.sec.toNat ++ space ::
        decimalInt (tm.year + 1900))))))

/-- `tm_wday` of a time in seconds: the epoch was a Thursday. -/
def weekday (t : Int) : Nat := ((t / 86400 + 4) % 7).toNat

/-! Reading it back. -/

def readMonth (w : Bytes) : Option Nat := (List.range 12).find? fun m => monthName m = w

/-- The pad of a single digit counts as no digit. -/
def readPlaces (a b : UInt8) : Nat := if a = space then digit b else 10 * digit a + digit b

/-- The time, and what comes after it. The day of the week is skipped. -/
def readTimestamp : Bytes → Option (Tm × Bytes)
  | _ :: _ :: _ :: _ :: m₁ :: m₂ :: m₃ :: _ :: d₁ :: d₂ :: _ :: h₁ :: h₂ :: _ :: n₁ :: n₂ :: _ ::
      s₁ :: s₂ :: _ :: rest => do
    let mon ← readMonth [m₁, m₂, m₃]
    some (⟨readPlaces s₁ s₂, readPlaces n₁ n₂, readPlaces h₁ h₂, readPlaces d₁ d₂, mon,
      digitsValue (rest.takeWhile isdigit) - 1900⟩, rest.dropWhile isdigit)
  | _ => none

theorem dayName_eq (n : Nat) : ∃ a b c, dayName n = [a, b, c] := by
  unfold dayName
  split
  all_goals exact ⟨_, _, _, rfl⟩

theorem monthName_eq (n : Nat) : ∃ a b c, monthName n = [a, b, c] := by
  unfold monthName
  split
  all_goals exact ⟨_, _, _, rfl⟩

theorem readMonth_monthName {m : Nat} (h : m < 12) : readMonth (monthName m) = some m := by
  have hall : ∀ m < 12, readMonth (monthName m) = some m := by decide
  exact hall m h

theorem twoPlaces_eq {pad : UInt8} {n : Nat} (hpad : pad = space ∨ pad = 48) (h : n < 100) :
    ∃ a b, twoPlaces pad n = [a, b] ∧ readPlaces a b = n := by
  have hall : ∀ pad ∈ [space, (48 : UInt8)], ∀ n < 100, ∃ a ∈ (twoPlaces pad n)[0]?,
      ∃ b ∈ (twoPlaces pad n)[1]?, twoPlaces pad n = [a, b] ∧ readPlaces a b = n := by
    decide +kernel
  obtain ⟨a, -, b, -, hab⟩ := hall pad (by simpa using hpad) n h
  exact ⟨a, b, hab⟩

/-- A number before something else. -/
theorem span_decimal (n : Nat) {rest : Bytes} (hrest : ∀ b ∈ rest.head?, isdigit b = false) :
    (decimal n ++ rest).takeWhile isdigit = decimal n ∧
      (decimal n ++ rest).dropWhile isdigit = rest := by
  have hdigits : ∀ b ∈ decimal n, isdigit b = true := fun b hb => isdigit_of_mem_decimal hb
  rw [List.takeWhile_append_of_pos hdigits, List.dropWhile_append_of_pos hdigits]
  cases rest with
  | nil => exact ⟨List.append_nil _, rfl⟩
  | cons b rest =>
    have hb : isdigit b = false := hrest b rfl
    rw [List.takeWhile_cons_of_neg (by simp [hb]), List.dropWhile_cons_of_neg (by simp [hb])]
    exact ⟨List.append_nil _, rfl⟩

theorem monthLength_le (leap : Bool) (m : Nat) : monthLength leap m ≤ 31 := by
  unfold monthLength
  split
  all_goals cases leap
  all_goals decide

section RoundTrip
variable {tm : Tm} {rest : Bytes}

/-- The twenty bytes before the year. -/
theorem timestamp_eq (h : tm.InRange) (wday : Nat) :
    ∃ w₁ w₂ w₃ m₁ m₂ m₃ d₁ d₂ h₁ h₂ n₁ n₂ s₁ s₂,
      timestamp wday tm = w₁ :: w₂ :: w₃ :: space :: m₁ :: m₂ :: m₃ :: space :: d₁ :: d₂ :: space ::
        h₁ :: h₂ :: colon :: n₁ :: n₂ :: colon :: s₁ :: s₂ :: space :: decimalInt (tm.year + 1900) ∧
      readMonth [m₁, m₂, m₃] = some tm.mon.toNat ∧ readPlaces d₁ d₂ = tm.mday.toNat ∧
      readPlaces h₁ h₂ = tm.hour.toNat ∧ readPlaces n₁ n₂ = tm.min.toNat ∧
      readPlaces s₁ s₂ = tm.sec.toNat := by
  have hlen := monthLength_le (isLeap (tm.year + 1900)) tm.mon.toNat
  have hday := h.mday
  have hmon := h.mon
  have hhour := h.hour
  have hmin := h.min
  have hsec := h.sec
  obtain ⟨w₁, w₂, w₃, hw⟩ := dayName_eq wday
  obtain ⟨m₁, m₂, m₃, hm⟩ := monthName_eq tm.mon.toNat
  obtain ⟨d₁, d₂, hd, hd'⟩ := @twoPlaces_eq space tm.mday.toNat (.inl rfl) (by omega)
  obtain ⟨h₁, h₂, hh, hh'⟩ := @twoPlaces_eq 48 tm.hour.toNat (.inr rfl) (by omega)
  obtain ⟨n₁, n₂, hn, hn'⟩ := @twoPlaces_eq 48 tm.min.toNat (.inr rfl) (by omega)
  obtain ⟨s₁, s₂, hs, hs'⟩ := @twoPlaces_eq 48 tm.sec.toNat (.inr rfl) (by omega)
  have hread := @readMonth_monthName tm.mon.toNat (by omega)
  rw [hm] at hread
  refine ⟨w₁, w₂, w₃, m₁, m₂, m₃, d₁, d₂, h₁, h₂, n₁, n₂, s₁, s₂, ?_, hread, hd', hh', hn', hs'⟩
  unfold timestamp
  rw [hw, hm, hd, hh, hn, hs]
  rfl

/-- What is printed is read back, whatever comes after it. -/
theorem readTimestamp_timestamp (h : tm.InRange) (hyear : 0 ≤ tm.year + 1900)
    (hrest : ∀ b ∈ rest.head?, isdigit b = false) (wday : Nat) :
    readTimestamp (timestamp wday tm ++ rest) = some (tm, rest) := by
  obtain ⟨_, _, _, _, _, _, _, _, _, _, _, _, _, _, hprint, hmon, hmday, hhour, hmin, hsec⟩ :=
    timestamp_eq h wday
  obtain ⟨htake, hdrop⟩ := span_decimal (tm.year + 1900).toNat hrest
  have hmon0 := h.mon
  have hmday0 := h.mday
  have hhour0 := h.hour
  have hmin0 := h.min
  have hsec0 := h.sec
  rw [hprint, decimalInt_of_nonneg hyear]
  simp only [List.cons_append]
  unfold readTimestamp
  dsimp only
  rw [hmon, hmday, hhour, hmin, hsec, htake, hdrop, digitsValue_decimal]
  obtain ⟨sec, min, hour, mday, mon, year⟩ := tm
  dsimp only at *
  simp only [Option.bind_eq_bind, Option.bind_some, Option.some.injEq, Prod.mk.injEq, Tm.mk.injEq,
    and_true]
  omega

end RoundTrip

theorem length_decimal_le {n k : Nat} (hk : 0 < k) (h : n < 10 ^ k) : (decimal n).length ≤ k := by
  unfold decimal
  split
  · exact hk
  · rw [List.length_map, List.length_reverse]
    exact (Nat.digits_length_le_iff (by decide) n).mpr h

theorem length_timestamp {tm : Tm} (h : tm.InRange) (hyear : 0 ≤ tm.year + 1900) (wday : Nat) :
    (timestamp wday tm).length = 20 + (decimal (tm.year + 1900).toNat).length := by
  obtain ⟨_, _, _, _, _, _, _, _, _, _, _, _, _, _, hprint, -⟩ := timestamp_eq h wday
  rw [hprint, decimalInt_of_nonneg hyear]
  simp only [List.length_cons]
  omega

theorem twoPlaces_printable {pad : UInt8} {n : Nat} (hpad : 32 ≤ pad) (hn : n < 100) :
    ∀ b ∈ twoPlaces pad n, 32 ≤ b := by
  have hdigit : ∀ d < 10, 32 ≤ UInt8.ofNat (48 + d) := by decide
  unfold twoPlaces
  split_ifs with hsmall
  · exact List.forall_mem_cons.mpr ⟨hpad, List.forall_mem_singleton.mpr (hdigit n hsmall)⟩
  · exact List.forall_mem_cons.mpr ⟨hdigit _ (by omega),
      List.forall_mem_singleton.mpr (hdigit _ (by omega))⟩

/-- No byte of it is a control character. -/
theorem timestamp_printable {tm : Tm} (h : tm.InRange) (hyear : 0 ≤ tm.year + 1900) (wday : Nat) :
    ∀ b ∈ timestamp wday tm, 32 ≤ b := by
  have hday : ∀ n, ∀ b ∈ dayName n, 32 ≤ b := by
    intro n
    unfold dayName
    split
    all_goals exact List.all_iff_forall_prop.mp rfl
  have hmonth : ∀ n, ∀ b ∈ monthName n, 32 ≤ b := by
    intro n
    unfold monthName
    split
    all_goals exact List.all_iff_forall_prop.mp rfl
  have hdecimal : ∀ n, ∀ b ∈ decimal n, 32 ≤ b := by
    intro n b hb
    have hdigit := isdigit_of_mem_decimal hb
    simp only [isdigit, Bool.and_eq_true, decide_eq_true_eq, UInt8.le_iff_toNat_le] at hdigit ⊢
    simp only [UInt8.reduceToNat] at *
    omega
  have hlen := monthLength_le (isLeap (tm.year + 1900)) tm.mon.toNat
  have hmday := h.mday
  have hhour := h.hour
  have hmin := h.min
  have hsec := h.sec
  unfold timestamp
  rw [decimalInt_of_nonneg hyear]
  simp only [List.forall_mem_append, List.forall_mem_cons]
  exact ⟨hday _, by decide, hmonth _, by decide, twoPlaces_printable (by decide) (by omega),
    by decide, twoPlaces_printable (by decide) (by omega), by decide,
    twoPlaces_printable (by decide) (by omega), by decide,
    twoPlaces_printable (by decide) (by omega), by decide, hdecimal _⟩

end Botniklas.Foundation
