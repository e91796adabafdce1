import Mathlib.Logic.Function.Basic
import Mathlib.Data.Nat.ModEq

/-! Byte memory behind an address map. Several addresses may name one physical
byte, so a store is framed by the physical bytes it can reach. -/
namespace Botniklas.Foundation

/-- The mapped addresses are those below `size`; `phys` is the byte each names. -/
structure Layout where
  size : Nat
  phys : Nat → Nat

namespace Layout

/-- One address per byte. -/
def flat (size : Nat) : Layout := ⟨size, id⟩

/-- One page mapped twice, side by side. -/
def mirror (page : Nat) : Layout := ⟨2 * page, (· % page)⟩

/-- No two addresses of the window name the same byte. -/
def Distinct (L : Layout) (lo hi : Nat) : Prop :=
  ∀ i j, lo ≤ i → i < hi → lo ≤ j → j < hi → L.phys i = L.phys j → i = j

theorem Distinct.mono {L : Layout} {lo hi lo' hi' : Nat} (h : L.Distinct lo hi)
    (hlo : lo ≤ lo') (hhi : hi' ≤ hi) : L.Distinct lo' hi' := fun i j hi1 hi2 hj1 hj2 he =>
  h i j (hlo.trans hi1) (hi2.trans_le hhi) (hlo.trans hj1) (hj2.trans_le hhi) he

theorem flat_distinct (size lo hi : Nat) : (flat size).Distinct lo hi :=
  fun _ _ _ _ _ _ he => he

private theorem mod_window {p i j : Nat} (hle : i ≤ j) (hlt : j < i + p)
    (he : i % p = j % p) : i = j := by
  have hd : p ∣ j - i := (Nat.modEq_iff_dvd' hle).mp he
  have hz := Nat.eq_zero_of_dvd_of_lt hd (by omega)
  omega

/-- A window of at most one page never meets itself through the mirror. -/
theorem mirror_distinct (page lo hi : Nat) (h : hi ≤ lo + page) :
    (mirror page).Distinct lo hi := by
  intro i j hi1 hi2 hj1 hj2 he
  rcases Nat.le_total i j with hij | hij
  · exact mod_window hij (by omega) he
  · exact (mod_window hij (by omega) he.symm).symm

end Layout

/-- The contents of memory under a layout. -/
structure Mem (L : Layout) where
  byte : Nat → UInt8

namespace Mem
variable {L : Layout}

def load (m : Mem L) (i : Nat) : UInt8 := m.byte (L.phys i)

def store (m : Mem L) (i : Nat) (b : UInt8) : Mem L :=
  ⟨Function.update m.byte (L.phys i) b⟩

/-- Store consecutive bytes, as a read from a file descriptor does. -/
def storeAll (m : Mem L) : Nat → List UInt8 → Mem L
  | _, [] => m
  | i, b :: data => (m.store i b).storeAll (i + 1) data

/-- Step forward to the first byte that satisfies `stop`; none if the mapped
addresses end first. -/
def scan (m : Mem L) (stop : UInt8 → Bool) : (fuel cur : Nat) → Option Nat
  | 0, _ => none
  | fuel + 1, cur => if stop (m.load cur) then some cur else m.scan stop fuel (cur + 1)

def find (m : Mem L) (stop : UInt8 → Bool) (cur : Nat) : Option Nat :=
  m.scan stop (L.size - cur) cur

private def collect (m : Mem L) : (fuel cur : Nat) → List UInt8
  | 0, _ => []
  | fuel + 1, cur => if m.load cur = 0 then [] else m.load cur :: m.collect fuel (cur + 1)

/-- The string a pointer names: its bytes up to the terminator. -/
def cstr (m : Mem L) (cur : Nat) : List UInt8 := m.collect (L.size - cur) cur

/-- The `n` bytes from `cur` on. -/
def slice (m : Mem L) : (cur n : Nat) → List UInt8
  | _, 0 => []
  | cur, n + 1 => m.load cur :: m.slice (cur + 1) n

/-- The bytes from `p` on are `w`. -/
def Holds (m : Mem L) : Nat → List UInt8 → Prop
  | _, [] => True
  | p, b :: w => m.load p = b ∧ m.Holds (p + 1) w

/-- `p` points to the terminated string `s`. -/
def CStr (m : Mem L) (p : Nat) (s : List UInt8) : Prop := m.Holds p (s ++ [0]) ∧ 0 ∉ s

/-- Only bytes that the window names may differ. -/
def Within (lo hi : Nat) (m m' : Mem L) : Prop :=
  ∀ q, (∀ j, lo ≤ j → j < hi → L.phys j ≠ q) → m'.byte q = m.byte q

@[simp] theorem holds_nil (m : Mem L) (p : Nat) : m.Holds p [] := trivial

@[simp] theorem holds_cons (m : Mem L) (p : Nat) (b : UInt8) (w : List UInt8) :
    m.Holds p (b :: w) ↔ m.load p = b ∧ m.Holds (p + 1) w := Iff.rfl

theorem holds_append (m : Mem L) (p : Nat) (a b : List UInt8) :
    m.Holds p (a ++ b) ↔ m.Holds p a ∧ m.Holds (p + a.length) b := by
  induction a generalizing p with
  | nil => simp
  | cons x a ih =>
    simp only [List.cons_append, holds_cons, ih, List.length_cons, and_assoc]
    rw [show p + 1 + a.length = p + (a.length + 1) by omega]

theorem holds_iff (m : Mem L) (p : Nat) (w : List UInt8) :
    m.Holds p w ↔ ∀ i (h : i < w.length), m.load (p + i) = w[i] := by
  induction w generalizing p with
  | nil => simp
  | cons b w ih =>
    rw [holds_cons, ih]
    constructor
    · rintro ⟨h0, h⟩ i hi
      cases i with
      | zero => exact h0
      | succ i =>
        have := h i (by simpa using hi)
        rwa [show p + (i + 1) = p + 1 + i by omega]
    · intro h
      refine ⟨h 0 (by simp), fun i hi => ?_⟩
      have := h (i + 1) (by simpa using hi)
      rwa [show p + 1 + i = p + (i + 1) by omega]

theorem holds_congr {m m' : Mem L} {p : Nat} {w : List UInt8}
    (h : ∀ i, p ≤ i → i < p + w.length → m'.load i = m.load i) (hw : m.Holds p w) :
    m'.Holds p w := by
  rw [holds_iff] at hw ⊢
  intro i hi
  rw [h (p + i) (by omega) (by omega), hw i hi]

theorem slice_of_holds {m : Mem L} {p : Nat} {w : List UInt8} (h : m.Holds p w) :
    m.slice p w.length = w := by
  induction w generalizing p with
  | nil => rfl
  | cons b w ih => rw [List.length_cons, slice, h.1, ih h.2]

@[simp] theorem length_slice (m : Mem L) (p n : Nat) : (m.slice p n).length = n := by
  induction n generalizing p with
  | zero => rfl
  | succ n ih => simp [slice, ih]

/-! Stores and their frame. -/

@[simp] theorem load_store_self (m : Mem L) (i : Nat) (b : UInt8) :
    (m.store i b).load i = b := by simp [load, store]

/-- A byte written over and back. -/
theorem store_store_load {m : Mem L} {i : Nat} {b c : UInt8} (h : m.load i = c) :
    (m.store i b).store i c = m := by
  unfold store
  dsimp only
  rw [Function.update_idem, ← h]
  exact congrArg Mem.mk (Function.update_eq_self _ _)

theorem Within.refl (lo hi : Nat) (m : Mem L) : Within lo hi m m := fun _ _ => rfl

theorem Within.trans {lo hi : Nat} {a b c : Mem L} (h : Within lo hi a b)
    (h' : Within lo hi b c) : Within lo hi a c := fun q hq => (h' q hq).trans (h q hq)

theorem Within.mono {lo hi lo' hi' : Nat} {a b : Mem L} (h : Within lo hi a b)
    (hlo : lo' ≤ lo) (hhi : hi ≤ hi') : Within lo' hi' a b := fun q hq =>
  h q fun j hj hj' => hq j (hlo.trans hj) (hj'.trans_le hhi)

theorem within_store (m : Mem L) {lo hi i : Nat} (b : UInt8) (hlo : lo ≤ i) (hhi : i < hi) :
    Within lo hi m (m.store i b) := by
  intro q hq
  simp [store, Function.update_of_ne (hq i hlo hhi).symm]

theorem Within.load {lo hi a b i : Nat} {m m' : Mem L} (h : Within a b m m')
    (hd : L.Distinct lo hi) (ha : lo ≤ a) (hb : b ≤ hi) (hlo : lo ≤ i) (hhi : i < hi)
    (hout : i < a ∨ b ≤ i) : m'.load i = m.load i := by
  apply h
  intro j hj hj' he
  have := hd j i (by omega) (by omega) hlo hhi he
  omega

theorem Within.holds {lo hi a b p : Nat} {w : List UInt8} {m m' : Mem L}
    (h : Within a b m m') (hd : L.Distinct lo hi) (ha : lo ≤ a) (hb : b ≤ hi) (hlo : lo ≤ p)
    (hhi : p + w.length ≤ hi) (hout : p + w.length ≤ a ∨ b ≤ p) (hw : m.Holds p w) :
    m'.Holds p w :=
  holds_congr (fun i hi hi' => h.load hd ha hb (by omega) (by omega) (by omega)) hw

theorem Within.cstr {lo hi a b p : Nat} {s : List UInt8} {m m' : Mem L}
    (h : Within a b m m') (hd : L.Distinct lo hi) (ha : lo ≤ a) (hb : b ≤ hi) (hlo : lo ≤ p)
    (hhi : p + s.length < hi) (hout : p + s.length < a ∨ b ≤ p) (hs : m.CStr p s) :
    m'.CStr p s :=
  ⟨h.holds hd ha hb hlo (by simp; omega) (by simp; omega) hs.1, hs.2⟩

theorem within_storeAll (m : Mem L) {lo hi : Nat} (i : Nat) (data : List UInt8)
    (hlo : lo ≤ i) (hhi : i + data.length ≤ hi) : Within lo hi m (m.storeAll i data) := by
  induction data generalizing m i with
  | nil => exact .refl _ _ _
  | cons b data ih =>
    simp only [List.length_cons] at hhi
    exact (within_store m b hlo (by omega)).trans (ih (m.store i b) (i + 1) (by omega) (by omega))

theorem holds_storeAll (m : Mem L) (i : Nat) (data : List UInt8)
    (hd : L.Distinct i (i + data.length)) : (m.storeAll i data).Holds i data := by
  induction data generalizing m i with
  | nil => trivial
  | cons b data ih =>
    simp only [List.length_cons] at hd
    refine ⟨?_, ih _ _ (hd.mono (by omega) (by omega))⟩
    have hw := within_storeAll (m.store i b) (i + 1) data (le_refl _) (le_refl _)
    rw [storeAll, hw.load hd (by omega) (by omega) (le_refl _) (by omega) (by omega),
      load_store_self]

/-! Loops over terminated strings. -/

private theorem scan_eq (m : Mem L) (stop : UInt8 → Bool) (fuel p : Nat) (u : List UInt8)
    (c : UInt8) (hu : ∀ b ∈ u, stop b = false) (hc : stop c = true)
    (hm : m.Holds p (u ++ [c])) (hf : u.length < fuel) :
    m.scan stop fuel p = some (p + u.length) := by
  induction u generalizing p fuel with
  | nil =>
    obtain ⟨fuel, rfl⟩ : ∃ k, fuel = k + 1 := ⟨fuel - 1, by simp at hf; omega⟩
    simp only [List.nil_append, holds_cons] at hm
    simp [scan, hm.1, hc]
  | cons b u ih =>
    obtain ⟨fuel, rfl⟩ : ∃ k, fuel = k + 1 := ⟨fuel - 1, by simp at hf; omega⟩
    simp only [List.length_cons] at hf
    rw [scan, hm.1, hu b (by simp), if_neg (by simp),
      ih fuel (p + 1) (fun x hx => hu x (by simp [hx])) hm.2 (by omega)]
    simp only [List.length_cons]
    congr 1
    omega

/-- A loop that passes `u` and stops at the byte after it. -/
theorem find_eq (m : Mem L) (stop : UInt8 → Bool) {p : Nat} {u : List UInt8} {c : UInt8}
    (hm : m.Holds p (u ++ [c])) (hu : ∀ b ∈ u, stop b = false) (hc : stop c = true)
    (hp : p + u.length < L.size) : m.find stop p = some (p + u.length) :=
  scan_eq m stop _ p u c hu hc hm (by omega)

/-- A loop that passes everything up to the end of the mapped addresses. -/
theorem find_none (m : Mem L) (stop : UInt8 → Bool) {p : Nat} {u : List UInt8} (hm : m.Holds p u)
    (hu : ∀ b ∈ u, stop b = false) (hp : p + u.length = L.size) : m.find stop p = none := by
  have hscan : ∀ fuel p, m.Holds p u → fuel = u.length → m.scan stop fuel p = none := by
    clear hm hp
    induction u with
    | nil =>
      rintro _ p - rfl
      rfl
    | cons b u ih =>
      rintro _ p hm rfl
      simp only [List.mem_cons, forall_eq_or_imp] at hu
      rw [List.length_cons, scan, hm.1, hu.1, if_neg (by simp)]
      exact ih hu.2 _ _ hm.2 rfl
  exact hscan _ p hm (by omega)

private theorem collect_eq (m : Mem L) (fuel p : Nat) (s : List UInt8) (hs : m.CStr p s)
    (hf : s.length < fuel) : m.collect fuel p = s := by
  induction s generalizing p fuel with
  | nil =>
    obtain ⟨fuel, rfl⟩ : ∃ k, fuel = k + 1 := ⟨fuel - 1, by simp at hf; omega⟩
    simp [collect, hs.1.1]
  | cons b s ih =>
    obtain ⟨fuel, rfl⟩ : ∃ k, fuel = k + 1 := ⟨fuel - 1, by simp at hf; omega⟩
    simp only [List.length_cons] at hf
    obtain ⟨hh, hz⟩ := hs
    simp only [List.mem_cons, not_or] at hz
    rw [collect, hh.1, if_neg (fun he => hz.1 he.symm), ih fuel (p + 1) ⟨hh.2, hz.2⟩ (by omega)]

theorem cstr_eq {m : Mem L} {p : Nat} {s : List UInt8} (hs : m.CStr p s)
    (hp : p + s.length < L.size) : m.cstr p = s :=
  collect_eq m _ p s hs (by omega)

/-- A suffix of a terminated string is one. -/
theorem CStr.drop {m : Mem L} {p : Nat} {a b : List UInt8} (h : m.CStr p (a ++ b)) :
    m.CStr (p + a.length) b := by
  obtain ⟨hh, hz⟩ := h
  rw [List.append_assoc, holds_append] at hh
  exact ⟨hh.2, fun hb => hz (List.mem_append_right _ hb)⟩

/-- Writing a terminator over a separator makes two strings of one. -/
theorem CStr.cut {m : Mem L} {p : Nat} {a b : List UInt8} {c : UInt8}
    (h : m.CStr p (a ++ c :: b)) (hd : L.Distinct p (p + (a ++ c :: b).length + 1)) :
    (m.store (p + a.length) 0).CStr p a ∧ (m.store (p + a.length) 0).CStr (p + a.length + 1) b := by
  obtain ⟨hh, hz⟩ := h
  simp only [List.length_append, List.length_cons] at hd
  simp only [List.append_assoc, List.cons_append, holds_append, holds_cons, List.mem_append,
    List.mem_cons, not_or] at hh hz
  have hw : Within (p + a.length) (p + a.length + 1) m (m.store (p + a.length) 0) :=
    within_store m 0 le_rfl (by omega)
  constructor
  · refine ⟨(holds_append _ _ _ _).mpr ⟨?_, load_store_self _ _ _, trivial⟩, hz.1⟩
    exact hw.holds hd (by omega) (by omega) le_rfl (by omega) (by omega) hh.1
  · refine ⟨(holds_append _ _ _ _).mpr ⟨?_, ?_, trivial⟩, hz.2.2⟩
    · exact hw.holds hd (by omega) (by omega) (by omega) (by omega) (by omega) hh.2.2.1
    · rw [hw.load hd (by omega) (by omega) (by omega) (by omega) (by omega)]
      exact hh.2.2.2.1

/-- The first part of a string, once its end has become a terminator and nothing
before that has changed. -/
theorem CStr.closed {m m' : Mem L} {p : Nat} {a b w : List UInt8} (h : m.CStr p w)
    (hw : a ++ b = w) (hd : L.Distinct p (p + w.length + 1))
    (hwi : Within (p + a.length) (p + w.length + 1) m m') (h0 : m'.load (p + a.length) = 0) :
    m'.CStr p a := by
  subst hw
  obtain ⟨hh, hz⟩ := h
  rw [List.append_assoc, holds_append] at hh
  simp only [List.length_append] at hd hwi
  refine ⟨(holds_append _ _ _ _).mpr ⟨?_, h0, trivial⟩, fun ha => hz (List.mem_append_left _ ha)⟩
  exact hwi.holds hd (by omega) (by omega) le_rfl (by omega) (by omega) hh.1

/-! Strings laid out one after the other. -/

/-- Each string of the list stands before the next, all of them inside the window. -/
def Placed (m : Mem L) (hi : Nat) : Nat → List (Nat × List UInt8) → Prop
  | lo, [] => lo ≤ hi
  | lo, (p, s) :: l => lo ≤ p ∧ m.CStr p s ∧ m.Placed hi (p + s.length + 1) l

theorem Placed.le {m : Mem L} {hi lo : Nat} {l : List (Nat × List UInt8)}
    (h : m.Placed hi lo l) : lo ≤ hi := by
  induction l generalizing lo with
  | nil => exact h
  | cons x l ih =>
    have := ih h.2.2
    have := h.1
    omega

theorem Placed.mono {m : Mem L} {hi lo lo' : Nat} {l : List (Nat × List UInt8)}
    (h : m.Placed hi lo l) (hle : lo' ≤ lo) : m.Placed hi lo' l := by
  cases l with
  | nil => exact hle.trans h
  | cons x l => exact ⟨hle.trans h.1, h.2⟩

theorem Placed.append {m : Mem L} {hi mid lo : Nat} {l l' : List (Nat × List UInt8)}
    (h : m.Placed mid lo l) (h' : m.Placed hi mid l') : m.Placed hi lo (l ++ l') := by
  induction l generalizing lo with
  | nil => exact h'.mono h
  | cons x l ih => exact ⟨h.1, h.2.1, ih h.2.2⟩

/-- A string of the list, with those before and after it. -/
theorem Placed.split {m : Mem L} {hi lo p : Nat} {s : List UInt8} {l l' : List (Nat × List UInt8)}
    (h : m.Placed hi lo (l ++ (p, s) :: l')) :
    m.Placed p lo l ∧ m.CStr p s ∧ m.Placed hi (p + s.length + 1) l' := by
  induction l generalizing lo with
  | nil => exact h
  | cons x l ih =>
    obtain ⟨h1, h2, h3⟩ := h
    obtain ⟨h4, h5⟩ := ih h3
    exact ⟨⟨h1, h2, h4⟩, h5⟩

theorem Placed.congr {m m' : Mem L} {hi lo : Nat} {l : List (Nat × List UInt8)}
    (h : m.Placed hi lo l) (he : ∀ i, lo ≤ i → i < hi → m'.load i = m.load i) :
    m'.Placed hi lo l := by
  induction l generalizing lo with
  | nil => exact h
  | cons x l ih =>
    have hle := h.2.2.le
    have h1 := h.1
    refine ⟨h1, ⟨holds_congr (fun i hi hi' => he i (by omega) ?_) h.2.1.1, h.2.1.2⟩,
      ih h.2.2 (fun i hi hi' => he i (by omega) hi')⟩
    simp only [List.length_append, List.length_singleton] at hi'
    omega

theorem Placed.mem {m : Mem L} {hi lo : Nat} {l : List (Nat × List UInt8)}
    (h : m.Placed hi lo l) {p : Nat} {s : List UInt8} (hp : (p, s) ∈ l) :
    m.CStr p s ∧ lo ≤ p ∧ p + s.length < hi := by
  induction l generalizing lo with
  | nil => cases hp
  | cons x l ih =>
    rcases List.mem_cons.mp hp with rfl | hp
    · have hle := h.2.2.le
      exact ⟨h.2.1, h.1, hle⟩
    · obtain ⟨hc, hlo, hhi⟩ := ih h.2.2 hp
      have := h.1
      exact ⟨hc, by omega, hhi⟩

end Mem
end Botniklas.Foundation
