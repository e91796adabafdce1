import Mathlib.Data.List.AList
import Mathlib.Data.List.Nodup
import Mathlib.Data.List.TakeWhile

/-! Singly linked lists in memory, changed through the place a pointer is kept at: the
start of the list or the link of a cell. -/
namespace Botniklas.Foundation

structure Cell (α : Type) where
  next : Option Nat
  val : α
  deriving DecidableEq, Repr

/-- The pointer to the first cell, and the cells allocated by their addresses. -/
structure CellStore (α : Type) where
  start : Option Nat
  cells : AList fun _ : Nat => Cell α

inductive Place where
  | start
  | next (p : Nat)
  deriving DecidableEq, Repr

/-- Where the pointer that follows some cells is kept. -/
def Place.after {α : Type} (l : List (Nat × α)) : Place :=
  match l.getLast? with
  | none => .start
  | some (p, _) => .next p

@[simp] theorem Place.after_nil {α : Type} : Place.after ([] : List (Nat × α)) = .start := rfl

@[simp] theorem Place.after_concat {α : Type} (l : List (Nat × α)) (p : Nat) (v : α) :
    Place.after (l ++ [(p, v)]) = .next p := by
  unfold Place.after
  rw [List.getLast?_concat]

namespace CellStore
variable {α : Type}

def empty : CellStore α := ⟨none, ∅⟩

/-- None if the place lies in no cell. -/
def load (s : CellStore α) : Place → Option (Option Nat)
  | .start => some s.start
  | .next p => (s.cells.lookup p).map Cell.next

def store (s : CellStore α) (q : Option Nat) : Place → Option (CellStore α)
  | .start => some { s with start := q }
  | .next p => (s.cells.lookup p).map fun cell =>
      { s with cells := s.cells.insert p { cell with next := q } }

/-- Sets the cell at an address, which may be new. -/
def set (s : CellStore α) (p : Nat) (cell : Cell α) : CellStore α :=
  { s with cells := s.cells.insert p cell }

theorem set_set (s : CellStore α) (p : Nat) (cell cell' : Cell α) :
    (s.set p cell).set p cell' = s.set p cell' := by
  unfold set
  dsimp only
  rw [AList.insert_insert]

/-- None if nothing is allocated at the address. -/
def free (s : CellStore α) (p : Nat) : Option (CellStore α) :=
  if p ∈ s.cells then some { s with cells := s.cells.erase p } else none

/-- From a place on to the first that holds NULL or a cell that does not pass. -/
def seek (s : CellStore α) (pass : α → Bool) : (rounds : Nat) → Place → Option Place
  | 0, _ => none
  | rounds + 1, cur => do
    match ← s.load cur with
    | none => some cur
    | some p =>
      let cell ← s.cells.lookup p
      if pass cell.val then s.seek pass rounds (.next p) else some cur

/-- Frees the cells from a pointer on, reading each link before its cell goes. -/
def freeFrom (s : CellStore α) : (rounds : Nat) → Option Nat → Option (CellStore α)
  | _, none => some s
  | 0, some _ => none
  | rounds + 1, some p => do
    let cell ← s.cells.lookup p
    (← s.free p).freeFrom rounds cell.next

/-- From the pointer `p` these cells follow one another, the last linked to `q`. -/
def Seg (cells : AList fun _ : Nat => Cell α) : Option Nat → List (Nat × α) → Option Nat → Prop
  | p, [], q => p = q
  | p, (a, v) :: l, q => p = some a ∧ ∃ next, cells.lookup a = some ⟨next, v⟩ ∧ Seg cells next l q

section Segments
variable {cells cells' : AList fun _ : Nat => Cell α} {p q : Option Nat} {l l' : List (Nat × α)}

theorem seg_append :
    Seg cells p (l ++ l') q ↔ ∃ r, Seg cells p l r ∧ Seg cells r l' q := by
  induction l generalizing p with
  | nil => simp [Seg]
  | cons c l ih =>
    obtain ⟨a, v⟩ := c
    constructor
    · rintro ⟨rfl, next, hcell, h⟩
      obtain ⟨r, h1, h2⟩ := ih.mp h
      exact ⟨r, ⟨rfl, next, hcell, h1⟩, h2⟩
    · rintro ⟨r, ⟨rfl, next, hcell, h1⟩, h2⟩
      exact ⟨rfl, next, hcell, ih.mpr ⟨r, h1, h2⟩⟩

/-- Other cells do not matter. -/
theorem Seg.congr (h : Seg cells p l q)
    (hsame : ∀ a ∈ l.map Prod.fst, cells'.lookup a = cells.lookup a) : Seg cells' p l q := by
  induction l generalizing p with
  | nil => exact h
  | cons c l ih =>
    obtain ⟨a, v⟩ := c
    obtain ⟨rfl, next, hcell, hrest⟩ := h
    rw [List.map_cons, List.forall_mem_cons] at hsame
    exact ⟨rfl, next, hsame.1.trans hcell, ih hrest hsame.2⟩

theorem Seg.head (h : Seg cells p l none) : p = l.head?.map Prod.fst := by
  cases l with
  | nil => exact h
  | cons c l => exact h.1

/-- The pointers determine the cells. -/
theorem Seg.unique (h : Seg cells p l none) (h' : Seg cells p l' none) : l = l' := by
  induction l generalizing p l' with
  | nil =>
    cases h
    cases l' with
    | nil => rfl
    | cons c l' => cases h'.1
  | cons c l ih =>
    obtain ⟨a, v⟩ := c
    obtain ⟨rfl, next, hcell, hrest⟩ := h
    cases l' with
    | nil => cases h'
    | cons c' l' =>
      obtain ⟨a', v'⟩ := c'
      obtain ⟨hp, next', hcell', hrest'⟩ := h'
      cases hp
      rw [hcell] at hcell'
      cases hcell'
      rw [ih hrest hrest']

/-- A list that ends does not come back to a cell: from there it would go on twice as
long as it does. -/
theorem Seg.nodup (h : Seg cells p l none) : (l.map Prod.fst).Nodup := by
  induction l generalizing p with
  | nil => exact List.nodup_nil
  | cons c l ih =>
    obtain ⟨a, v⟩ := c
    obtain ⟨rfl, next, hcell, hrest⟩ := h
    rw [List.map_cons, List.nodup_cons]
    refine ⟨fun ha => ?_, ih hrest⟩
    obtain ⟨⟨a', v'⟩, hmem, rfl⟩ := List.mem_map.mp ha
    obtain ⟨l₁, l₂, rfl⟩ := List.append_of_mem hmem
    obtain ⟨r, -, hagain⟩ := seg_append.mp hrest
    obtain ⟨rfl, -⟩ := id hagain
    have hwhole : Seg cells (some a') ((a', v) :: (l₁ ++ (a', v') :: l₂)) none :=
      ⟨rfl, next, hcell, hrest⟩
    have hlen := congrArg List.length (hwhole.unique hagain)
    simp only [List.length_cons, List.length_append] at hlen
    omega

/-- The last cell of a segment linked anew. -/
theorem Seg.relink {a : Nat} {v : α} (h : Seg cells p (l ++ [(a, v)]) q)
    (hnew : a ∉ l.map Prod.fst) (q' : Option Nat) :
    Seg (cells.insert a ⟨q', v⟩) p (l ++ [(a, v)]) q' := by
  obtain ⟨r, h1, rfl, next, hcell, rfl⟩ := seg_append.mp h
  refine seg_append.mpr ⟨some a, h1.congr fun b hb => ?_, rfl, q', AList.lookup_insert _, rfl⟩
  exact AList.lookup_insert_ne fun he => hnew (he ▸ hb)

end Segments

/-- The cells allocated are those of the list, and no others. -/
structure IsList (s : CellStore α) (l : List (Nat × α)) : Prop where
  seg : Seg s.cells s.start l none
  owned : ∀ a, a ∈ s.cells ↔ a ∈ l.map Prod.fst

section Lists
variable {s : CellStore α} {l l' : List (Nat × α)}

theorem empty_isList : (empty : CellStore α).IsList [] :=
  ⟨rfl, fun a => by simp [empty, AList.notMem_empty]⟩

theorem IsList.length_le (h : s.IsList l) : l.length ≤ s.cells.keys.length := by
  rw [← List.length_map Prod.fst]
  exact (List.subperm_of_subset h.seg.nodup fun a ha =>
    AList.mem_keys.mp ((h.owned a).mpr ha)).length_le

theorem load_after (h : Seg s.cells s.start (l ++ l') none) :
    s.load (.after l) = some (l'.head?.map Prod.fst) := by
  rcases List.eq_nil_or_concat' l with rfl | ⟨l, ⟨a, v⟩, rfl⟩
  · exact congrArg some h.head
  · obtain ⟨r, h1, h2⟩ := seg_append.mp h
    obtain ⟨_, -, -, next, hcell, rfl⟩ := seg_append.mp h1
    rw [Place.after_concat, load, hcell, ← h2.head]
    rfl

/-- The search stops behind the cells that pass, whatever it has passed before. -/
theorem seek_after (pass : α → Bool) {rounds : Nat} (h : Seg s.cells s.start (l ++ l') none)
    (hrounds : l'.length < rounds) :
    s.seek pass rounds (.after l) = some (.after (l ++ l'.takeWhile fun c => pass c.2)) := by
  induction l' generalizing l rounds with
  | nil =>
    obtain ⟨rounds, rfl⟩ := Nat.exists_eq_succ_of_ne_zero (Nat.ne_zero_of_lt hrounds)
    rw [seek, load_after h, List.takeWhile_nil, List.append_nil]
    rfl
  | cons c l' ih =>
    obtain ⟨a, v⟩ := c
    obtain ⟨rounds, rfl⟩ := Nat.exists_eq_succ_of_ne_zero (Nat.ne_zero_of_lt hrounds)
    obtain ⟨r, -, rfl, next, hcell, -⟩ := seg_append.mp h
    rw [seek, load_after h]
    simp only [List.head?_cons, Option.map_some, Option.bind_eq_bind, Option.bind_some, hcell]
    rw [List.append_cons] at h
    by_cases hpass : pass v = true
    · have hnext := ih h (Nat.lt_of_succ_lt_succ hrounds)
      rw [Place.after_concat] at hnext
      rw [if_pos hpass, hnext, List.takeWhile_cons_of_pos (by exact hpass), ← List.append_cons]
    · rw [if_neg hpass, List.takeWhile_cons_of_neg (by exact hpass), List.append_nil]

/-- A new cell, linked in behind some cells of the list. -/
theorem IsList.link (h : s.IsList (l ++ l')) {new : Nat} (hnew : new ∉ s.cells) (v : α) :
    ∃ s', (s.set new ⟨l'.head?.map Prod.fst, v⟩).store (some new) (.after l) = some s' ∧
      s'.IsList (l ++ (new, v) :: l') := by
  have hfresh : ∀ a ∈ (l ++ l').map Prod.fst, a ≠ new := fun a ha he =>
    hnew (he ▸ (h.owned a).mpr ha)
  have hseg : Seg (s.cells.insert new ⟨l'.head?.map Prod.fst, v⟩) s.start (l ++ l') none :=
    h.seg.congr fun a ha => AList.lookup_insert_ne (hfresh a ha)
  have hnodup := h.seg.nodup
  have hself := AList.lookup_insert (a := new) (b := Cell.mk (l'.head?.map Prod.fst) v) s.cells
  rw [List.map_append] at hfresh hnodup
  obtain ⟨r, h1, h2⟩ := seg_append.mp hseg
  obtain rfl := h2.head
  rcases List.eq_nil_or_concat' l with rfl | ⟨l, ⟨a, u⟩, rfl⟩
  · refine ⟨_, rfl, ⟨rfl, _, hself, h2⟩, fun b => ?_⟩
    unfold set
    rw [AList.mem_insert, h.owned]
    simp
  · obtain ⟨_, -, -, next, hcell, -⟩ := seg_append.mp h1
    rw [Place.after_concat, store, set]
    dsimp only
    rw [hcell]
    have hlast : a ∉ l.map Prod.fst ∧ a ∉ l'.map Prod.fst := by
      rw [List.map_append, List.append_assoc, List.nodup_append] at hnodup
      obtain ⟨-, hrest, hne⟩ := hnodup
      refine ⟨fun ha => hne a ha a (by simp) rfl, ?_⟩
      exact (List.nodup_cons.mp hrest).1
    have hne : new ≠ a := fun he => hfresh a (by simp) he.symm
    have hkeep : ∀ b ≠ a, ((s.cells.insert new ⟨l'.head?.map Prod.fst, v⟩).insert a
        ⟨some new, u⟩).lookup b = (s.cells.insert new ⟨l'.head?.map Prod.fst, v⟩).lookup b :=
      fun b hb => AList.lookup_insert_ne hb
    refine ⟨_, rfl, seg_append.mpr ⟨some new, h1.relink hlast.1 _, rfl, _,
      (hkeep new hne).trans hself, h2.congr fun b hb => hkeep b fun he => hlast.2 (he ▸ hb)⟩,
      fun b => ?_⟩
    rw [AList.mem_insert, AList.mem_insert, h.owned]
    simp only [List.map_append, List.mem_append, List.map_cons, List.mem_cons, List.map_nil,
      List.not_mem_nil, or_false]
    tauto

/-- Without its first cell the list is the rest of it. -/
private theorem erase_first {a : Nat} {v : α} {p : Option Nat}
    (hseg : Seg s.cells p ((a, v) :: l) none)
    (howned : ∀ b, b ∈ s.cells ↔ b ∈ ((a, v) :: l).map Prod.fst) :
    p = some a ∧ s.cells.lookup a = some ⟨l.head?.map Prod.fst, v⟩ ∧
      s.free a = some { s with cells := s.cells.erase a } ∧
      Seg (s.cells.erase a) (l.head?.map Prod.fst) l none ∧
      ∀ b, b ∈ s.cells.erase a ↔ b ∈ l.map Prod.fst := by
  obtain ⟨hp, next, hcell, hrest⟩ := id hseg
  obtain rfl := hrest.head
  obtain ⟨hnew, -⟩ := List.nodup_cons.mp hseg.nodup
  have hmem : a ∈ s.cells := (howned a).mpr (by simp)
  refine ⟨hp, hcell, if_pos hmem, ?_, fun b => ?_⟩
  · exact hrest.congr fun b hb => AList.lookup_erase_ne fun he => hnew (he ▸ hb)
  · rw [AList.mem_erase, howned, List.map_cons, List.mem_cons]
    constructor
    · rintro ⟨hne, rfl | hb⟩
      · exact absurd rfl hne
      · exact hb
    · intro hb
      exact ⟨fun he => hnew (he ▸ hb), .inr hb⟩

/-- The first cell is unlinked and freed. -/
theorem IsList.pop {a : Nat} {v : α} (h : s.IsList ((a, v) :: l)) :
    s.start = some a ∧ s.cells.lookup a = some ⟨l.head?.map Prod.fst, v⟩ ∧
    ∃ s', ({ s with start := l.head?.map Prod.fst } : CellStore α).free a = some s' ∧
      s'.IsList l := by
  obtain ⟨hstart, hcell, -, hseg, howned⟩ := erase_first h.seg h.owned
  exact ⟨hstart, hcell, _, if_pos ((h.owned a).mpr (by simp)), hseg, howned⟩

/-- Freeing the cells from the first on leaves nothing allocated. -/
theorem freeFrom_all {p : Option Nat} (hseg : Seg s.cells p l none)
    (howned : ∀ a, a ∈ s.cells ↔ a ∈ l.map Prod.fst) {rounds : Nat} (hrounds : l.length ≤ rounds) :
    ∃ s', s.freeFrom rounds p = some s' ∧ ∀ a, a ∉ s'.cells := by
  induction l generalizing s p rounds with
  | nil =>
    cases hseg
    refine ⟨s, ?_, fun a ha => by simpa using (howned a).mp ha⟩
    cases rounds with
    | zero => rfl
    | succ rounds => rfl
  | cons c l ih =>
    obtain ⟨a, v⟩ := c
    obtain ⟨rounds, rfl⟩ := Nat.exists_eq_succ_of_ne_zero (Nat.ne_zero_of_lt hrounds)
    obtain ⟨rfl, hcell, hfree, hseg', howned'⟩ := erase_first hseg howned
    obtain ⟨s', hs', hnone⟩ := @ih { s with cells := s.cells.erase a } _ hseg' howned' rounds
      (Nat.le_of_succ_le_succ hrounds)
    refine ⟨s', ?_, hnone⟩
    rw [CellStore.freeFrom, hcell, hfree]
    exact hs'

end Lists
end CellStore
end Botniklas.Foundation
