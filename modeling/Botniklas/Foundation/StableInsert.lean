import Mathlib.Order.Lattice
import Mathlib.Data.List.Pairwise
import Mathlib.Data.List.Perm.Basic

/-! Insertion behind the elements with an equal or smaller key. A list built
this way is sorted, and equal keys keep the order of insertion. -/
namespace Botniklas.Foundation
variable {α κ : Type} [LinearOrder κ] (key : α → κ)

def insertAfter (x : α) : List α → List α
  | [] => [x]
  | y :: l => if key y ≤ key x then y :: insertAfter x l else x :: y :: l

def SortedBy (l : List α) : Prop := l.Pairwise fun a b => key a ≤ key b

/-- `s` holds the elements of `l`, sorted, with the order of `l` among equals. -/
structure StableSort (l s : List α) : Prop where
  sorted : SortedBy key s
  stable : ∀ k, s.filter (key · = k) = l.filter (key · = k)

variable {key} {x y : α} {l s : List α}

theorem insertAfter_cons_of_le (h : key y ≤ key x) :
    insertAfter key x (y :: l) = y :: insertAfter key x l := if_pos h

theorem insertAfter_cons_of_lt (h : key x < key y) :
    insertAfter key x (y :: l) = x :: y :: l := if_neg h.not_ge

/-- The element stands behind all that are not greater, up to the first that is. -/
theorem insertAfter_eq : insertAfter key x l =
    (l.takeWhile fun y => key y ≤ key x) ++ x :: l.dropWhile fun y => key y ≤ key x := by
  induction l with
  | nil => rfl
  | cons y l ih =>
    rcases le_or_gt (key y) (key x) with h | h
    · rw [insertAfter_cons_of_le h, ih, List.takeWhile_cons_of_pos (by simpa using h),
        List.dropWhile_cons_of_pos (by simpa using h)]
      rfl
    · rw [insertAfter_cons_of_lt h, List.takeWhile_cons_of_neg (by simpa using h),
        List.dropWhile_cons_of_neg (by simpa using h)]
      rfl

theorem insertAfter_perm : (insertAfter key x l).Perm (x :: l) := by
  induction l with
  | nil => exact .refl _
  | cons y l ih =>
    rcases le_or_gt (key y) (key x) with h | h
    · rw [insertAfter_cons_of_le h]
      exact (ih.cons y).trans (.swap _ _ _)
    · rw [insertAfter_cons_of_lt h]

theorem mem_insertAfter : y ∈ insertAfter key x l ↔ y = x ∨ y ∈ l := by
  rw [insertAfter_perm.mem_iff, List.mem_cons]

/-- Insertion depends on the keys alone. -/
theorem map_insertAfter {β : Type} {key' : β → κ} {f : β → α} (hf : ∀ b, key (f b) = key' b) (b : β)
    (l : List β) : (insertAfter key' b l).map f = insertAfter key (f b) (l.map f) := by
  induction l with
  | nil => rfl
  | cons y l ih =>
    unfold insertAfter
    rw [List.map_cons]
    simp only [hf]
    split
    · rw [List.map_cons, ih]
    · rfl

theorem SortedBy.insertAfter (h : SortedBy key l) : SortedBy key (insertAfter key x l) := by
  induction l with
  | nil => exact List.pairwise_singleton _ _
  | cons y l ih =>
    obtain ⟨hy, hl⟩ := List.pairwise_cons.mp h
    rcases le_or_gt (key y) (key x) with hle | hlt
    · rw [insertAfter_cons_of_le hle]
      refine List.pairwise_cons.mpr ⟨fun z hz => ?_, ih hl⟩
      rcases mem_insertAfter.mp hz with rfl | hz
      · exact hle
      · exact hy z hz
    · rw [insertAfter_cons_of_lt hlt]
      refine List.pairwise_cons.mpr ⟨fun z hz => ?_, h⟩
      rcases List.mem_cons.mp hz with rfl | hz
      · exact hlt.le
      · exact hlt.le.trans (hy z hz)

/-- The new element goes last among its equals. -/
theorem filter_insertAfter (h : SortedBy key l) (k : κ) :
    (Foundation.insertAfter key x l).filter (key · = k) = (l ++ [x]).filter (key · = k) := by
  induction l with
  | nil => rfl
  | cons y l ih =>
    obtain ⟨hy, hl⟩ := List.pairwise_cons.mp h
    rcases le_or_gt (key y) (key x) with hle | hlt
    · rw [insertAfter_cons_of_le hle, List.filter_cons, ih hl, List.cons_append, List.filter_cons]
    · rw [insertAfter_cons_of_lt hlt, List.filter_append]
      by_cases hk : key x = k
      · -- every element that follows has a larger key
        have hnone : (y :: l).filter (key · = k) = [] := by
          apply List.filter_eq_nil_iff.mpr
          intro z hz
          have hle : key y ≤ key z := by
            rcases List.mem_cons.mp hz with rfl | hz
            · exact le_rfl
            · exact hy z hz
          simpa [← hk] using (hlt.trans_le hle).ne'
        rw [List.filter_cons, hnone]
        simp [hk]
      · simp [List.filter_cons, hk]

theorem filter_insertAfter_of_neg {p : α → Bool} (hx : p x = false) (l : List α) :
    (Foundation.insertAfter key x l).filter p = l.filter p := by
  induction l with
  | nil => simp [Foundation.insertAfter, hx]
  | cons y l ih =>
    rcases le_or_gt (key y) (key x) with hle | hlt
    · rw [insertAfter_cons_of_le hle, List.filter_cons, List.filter_cons, ih]
    · rw [insertAfter_cons_of_lt hlt, List.filter_cons_of_neg (by simp [hx])]

/-- A relation between equals that the new element closes survives the insertion. -/
theorem pairwise_insertAfter {R : α → α → Prop} (h : SortedBy key l)
    (hl : l.Pairwise fun a b => key a = key b → R a b) (hx : ∀ y ∈ l, R y x) :
    (Foundation.insertAfter key x l).Pairwise fun a b => key a = key b → R a b := by
  induction l with
  | nil => exact List.pairwise_singleton _ _
  | cons y l ih =>
    obtain ⟨hy, hsorted⟩ := List.pairwise_cons.mp h
    obtain ⟨hR, htail⟩ := List.pairwise_cons.mp hl
    obtain ⟨hyx, hlx⟩ := List.forall_mem_cons.mp hx
    rcases le_or_gt (key y) (key x) with hle | hlt
    · rw [insertAfter_cons_of_le hle]
      refine List.pairwise_cons.mpr ⟨fun z hz he => ?_, ih hsorted htail hlx⟩
      rcases mem_insertAfter.mp hz with rfl | hz
      · exact hyx
      · exact hR z hz he
    · rw [insertAfter_cons_of_lt hlt]
      refine List.pairwise_cons.mpr ⟨fun z hz he => ?_, hl⟩
      -- every element that follows has a larger key
      have hle : key y ≤ key z := by
        rcases List.mem_cons.mp hz with rfl | hz
        · exact le_rfl
        · exact hy z hz
      exact absurd he (hlt.trans_le hle).ne

theorem StableSort.nil : StableSort key ([] : List α) [] := ⟨List.Pairwise.nil, fun _ => rfl⟩

theorem StableSort.insertAfter (h : StableSort key l s) :
    StableSort key (l ++ [x]) (Foundation.insertAfter key x s) :=
  ⟨h.sorted.insertAfter, fun k => by
    rw [filter_insertAfter h.sorted, List.filter_append, List.filter_append, h.stable k]⟩

/-- Inserting the elements of a list one by one sorts it stably. -/
theorem StableSort.foldl (h : StableSort key l s) (xs : List α) :
    StableSort key (l ++ xs) (xs.foldl (fun s x => Foundation.insertAfter key x s) s) := by
  induction xs generalizing l s with
  | nil => simpa using h
  | cons x xs ih => simpa using ih h.insertAfter

end Botniklas.Foundation
