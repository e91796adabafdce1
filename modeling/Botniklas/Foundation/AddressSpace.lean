import Botniklas.Foundation.Memory

/-! The address space of a process: mappings of memory objects, one of which may be
mapped more than once, and accesses that fault outside them. -/
namespace Botniklas.Foundation

/-- What an address stands for. -/
inductive Mapping where
  | unmapped
  | noAccess
  | byte (object offset : Nat)
  deriving DecidableEq, Repr

structure AddressSpace where
  mapping : Nat → Mapping
  size : Nat → Nat
  byte : Nat → Nat → UInt8

namespace AddressSpace

/-- Maps the addresses from `lo` on, whatever they stood for before. -/
def map (s : AddressSpace) (lo length : Nat) (f : Nat → Mapping) : AddressSpace :=
  { s with mapping := fun a => if lo ≤ a ∧ a < lo + length then f (a - lo) else s.mapping a }

/-- Sets the size of an object. What lies beyond the old one is zero. -/
def truncate (s : AddressSpace) (object size : Nat) : AddressSpace :=
  { s with
    size := Function.update s.size object size
    byte := Function.update s.byte object fun i =>
      if i < s.size object then s.byte object i else 0 }

/-- None is a fault: no access is given, or the object ends before. -/
def load (s : AddressSpace) (a : Nat) : Option UInt8 :=
  match s.mapping a with
  | .byte object i => if i < s.size object then some (s.byte object i) else none
  | _ => none

def store (s : AddressSpace) (a : Nat) (b : UInt8) : Option AddressSpace :=
  match s.mapping a with
  | .byte object i =>
    if i < s.size object then
      some { s with byte := Function.update s.byte object (Function.update (s.byte object) i b) }
    else none
  | _ => none

def storeAll (s : AddressSpace) : Nat → List UInt8 → Option AddressSpace
  | _, [] => some s
  | a, b :: data => do (← s.store a b).storeAll (a + 1) data

section Map
variable (s : AddressSpace) {lo length a : Nat} (f : Nat → Mapping)

theorem map_inside {i : Nat} (h : i < length) : (s.map lo length f).mapping (lo + i) = f i := by
  unfold map
  dsimp only
  rw [if_pos ⟨by omega, by omega⟩, Nat.add_sub_cancel_left]

theorem map_outside (h : a < lo ∨ lo + length ≤ a) :
    (s.map lo length f).mapping a = s.mapping a :=
  if_neg (by omega)

end Map

/-- What is read depends on the object an address stands for. -/
theorem load_congr {s s' : AddressSpace} {a : Nat} (hmap : s'.mapping a = s.mapping a)
    (h : ∀ object i, s.mapping a = .byte object i →
      s'.size object = s.size object ∧ s'.byte object = s.byte object) :
    s'.load a = s.load a := by
  unfold load
  rw [hmap]
  cases ha : s.mapping a with
  | unmapped => rfl
  | noAccess => rfl
  | byte object i =>
    obtain ⟨hsize, hbyte⟩ := h object i ha
    dsimp only
    rw [hsize, hbyte]

/-- Only bytes of the object differ. -/
structure Stores (object : Nat) (s s' : AddressSpace) : Prop where
  mapping : s'.mapping = s.mapping
  size : s'.size = s.size
  byte : ∀ other ≠ object, s'.byte other = s.byte other

section Stores
variable {object a : Nat} {s s' s'' : AddressSpace}

theorem Stores.refl : Stores object s s := ⟨rfl, rfl, fun _ _ => rfl⟩

theorem Stores.trans (h : Stores object s s') (h' : Stores object s' s'') : Stores object s s'' :=
  ⟨h'.mapping.trans h.mapping, h'.size.trans h.size, fun other hne =>
    (h'.byte other hne).trans (h.byte other hne)⟩

/-- What does not stand for a byte of the object is as before. -/
theorem Stores.load (h : Stores object s s') (ha : ∀ i, s.mapping a ≠ .byte object i) :
    s'.load a = s.load a := by
  refine load_congr (congrFun h.mapping a) fun other i hother => ?_
  refine ⟨congrFun h.size other, h.byte other ?_⟩
  rintro rfl
  exact ha i hother

/-- A store changes bytes of the object it reaches. -/
theorem store_stores {b : UInt8} {i : Nat} (ha : s.mapping a = .byte object i)
    (h : s.store a b = some s') : Stores object s s' := by
  unfold store at h
  rw [ha] at h
  dsimp only at h
  split_ifs at h
  cases h
  exact ⟨rfl, rfl, fun other hne => Function.update_of_ne hne _ _⟩

end Stores

/-- The addresses from `base` on stand for bytes of one object, as the layout says. -/
structure Maps (s : AddressSpace) (base object : Nat) (L : Layout) : Prop where
  mapping : ∀ i < L.size, s.mapping (base + i) = .byte object (L.phys i)
  size : ∀ i < L.size, L.phys i < s.size object

/-- What is read at the addresses from `base` on is the memory `m`. -/
def Shows (s : AddressSpace) (base : Nat) {L : Layout} (m : Mem L) : Prop :=
  ∀ i < L.size, s.load (base + i) = some (m.load i)

section Window
variable {s s' : AddressSpace} {base object i : Nat} {L : Layout} {m : Mem L}

theorem Maps.stores (h : s.Maps base object L) (h' : Stores object s s') :
    s'.Maps base object L :=
  ⟨fun i hi => by rw [h'.mapping, h.mapping i hi], fun i hi => by rw [h'.size]; exact h.size i hi⟩

theorem Maps.load (h : s.Maps base object L) (hi : i < L.size) :
    s.load (base + i) = some (s.byte object (L.phys i)) := by
  unfold AddressSpace.load
  rw [h.mapping i hi]
  exact if_pos (h.size i hi)

/-- There is memory that a window shows. -/
theorem Maps.shows (h : s.Maps base object L) : s.Shows base (⟨s.byte object⟩ : Mem L) :=
  fun _ hi => h.load hi

/-- A store at one address shows at all that name the same byte. -/
theorem Maps.store (h : s.Maps base object L) (hm : s.Shows base m) (b : UInt8)
    (hi : i < L.size) :
    ∃ s', s.store (base + i) b = some s' ∧ Stores object s s' ∧ s'.Shows base (m.store i b) := by
  have hstore : s.store (base + i) b = some { s with
      byte := Function.update s.byte object (Function.update (s.byte object) (L.phys i) b) } := by
    unfold AddressSpace.store
    rw [h.mapping i hi]
    exact if_pos (h.size i hi)
  have hkept := store_stores (h.mapping i hi) hstore
  refine ⟨_, hstore, hkept, fun j hj => ?_⟩
  have hold := hm j hj
  rw [h.load hj] at hold
  rw [(h.stores hkept).load hj]
  dsimp only
  rw [Function.update_self]
  unfold Mem.store Mem.load at *
  dsimp only
  by_cases he : L.phys j = L.phys i
  · rw [he, Function.update_self, Function.update_self]
  · rw [Function.update_of_ne he, Function.update_of_ne he]
    exact hold

theorem Maps.storeAll (h : s.Maps base object L) (hm : s.Shows base m) (data : List UInt8)
    (hi : i + data.length ≤ L.size) :
    ∃ s', s.storeAll (base + i) data = some s' ∧ Stores object s s' ∧
      s'.Shows base (m.storeAll i data) := by
  induction data generalizing s m i with
  | nil => exact ⟨s, rfl, .refl, hm⟩
  | cons b data ih =>
    rw [List.length_cons] at hi
    have hlt : i < L.size := by omega
    obtain ⟨s₁, hstore, hkept, hshows⟩ := h.store hm b hlt
    obtain ⟨s₂, hrest, hkept', hshows'⟩ := ih (h.stores hkept) hshows (i := i + 1) (by omega)
    refine ⟨s₂, ?_, hkept.trans hkept', hshows'⟩
    unfold AddressSpace.storeAll
    rw [hstore]
    exact hrest

end Window

/-! An object mapped twice, side by side. -/

/-- Both halves of the window stand for the same page. -/
theorem maps_mirror {s : AddressSpace} {base object page : Nat} (hsize : page ≤ s.size object) :
    ((s.map base page (.byte object)).map (base + page) page (.byte object)).Maps base object
      (.mirror page) := by
  have hpos : ∀ i < (Layout.mirror page).size, 0 < page := fun i hi => by
    change i < 2 * page at hi
    omega
  refine ⟨fun i hi => ?_, fun i hi => (Nat.mod_lt i (hpos i hi)).trans_le hsize⟩
  change i < 2 * page at hi
  change _ = Mapping.byte object (i % page)
  by_cases hfirst : i < page
  · rw [map_outside _ _ (by omega), map_inside _ _ hfirst, Nat.mod_eq_of_lt hfirst]
  · have hi' : base + i = base + page + (i - page) := by omega
    rw [hi', map_inside _ _ (by omega), Nat.mod_eq_sub_mod (by omega), Nat.mod_eq_of_lt (by omega)]

end AddressSpace

namespace Mem
variable {L : Layout} {m m' : Mem L} {lo n : Nat}

theorem holds_slice (m : Mem L) (p n : Nat) : m.Holds p (m.slice p n) := by
  induction n generalizing p with
  | zero => trivial
  | succ n ih => exact ⟨rfl, ih (p + 1)⟩

/-- Changes inside a window are made by storing what the window then holds. -/
theorem storeAll_slice (hd : L.Distinct lo (lo + n)) (h : Within lo (lo + n) m m') :
    m.storeAll lo (m'.slice lo n) = m' := by
  have hlen := length_slice m' lo n
  have hwithin := within_storeAll m lo (m'.slice lo n) (le_refl _) (le_refl _)
  have hnew := holds_storeAll m lo (m'.slice lo n) (by rw [hlen]; exact hd)
  have hold := holds_slice m' lo n
  rw [holds_iff] at hnew hold
  rw [hlen] at hwithin
  obtain ⟨byte⟩ := m
  obtain ⟨byte'⟩ := m'
  refine congrArg Mem.mk (funext fun q => ?_)
  by_cases hq : ∃ j, lo ≤ j ∧ j < lo + n ∧ L.phys j = q
  · obtain ⟨j, hj, hj', rfl⟩ := hq
    have h1 := hnew (j - lo) (by omega)
    have h2 := hold (j - lo) (by omega)
    rw [show lo + (j - lo) = j by omega] at h1 h2
    exact h1.trans h2.symm
  · have hout : ∀ j, lo ≤ j → j < lo + n → L.phys j ≠ q := fun j hj hj' he => hq ⟨j, hj, hj', he⟩
    exact (hwithin q hout).trans (h q hout).symm

end Mem
end Botniklas.Foundation
