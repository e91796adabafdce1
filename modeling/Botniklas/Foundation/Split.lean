import Mathlib.Data.List.TakeWhile

/-! Cutting a list at the first occurrence of an element. -/
namespace Botniklas.Foundation
variable {α : Type} [DecidableEq α] {c : α} {u w r : List α}

/-- The part before the first `c`, or all of it. -/
def before (c : α) (w : List α) : List α := w.takeWhile (· != c)

/-- The part from the first `c` on, or nothing. -/
def after (c : α) (w : List α) : List α := w.dropWhile (· != c)

theorem before_append_after (c : α) (w : List α) : before c w ++ after c w = w :=
  List.takeWhile_append_dropWhile

theorem length_before_add (c : α) (w : List α) :
    (before c w).length + (after c w).length = w.length := by
  rw [← List.length_append, before_append_after]

theorem not_mem_before (c : α) (w : List α) : c ∉ before c w := fun h => by
  simpa using List.mem_takeWhile_imp h

theorem mem_of_mem_before {x : α} (h : x ∈ before c w) : x ∈ w :=
  (List.takeWhile_sublist _).subset h

theorem mem_of_mem_after {x : α} (h : x ∈ after c w) : x ∈ w :=
  (List.dropWhile_sublist _).subset h

theorem after_cases (c : α) (w : List α) : after c w = [] ∨ ∃ r, after c w = c :: r := by
  induction w with
  | nil => exact .inl rfl
  | cons x w ih =>
    by_cases hx : x = c
    · exact .inr ⟨w, by simp [after, hx]⟩
    · simpa [after, hx] using ih

theorem head_after {x : α} (h : after c w = x :: r) : x = c := by
  rcases after_cases c w with h' | ⟨r', h'⟩
  · simp [h'] at h
  · rw [h'] at h
    exact (List.cons.inj h).1.symm

theorem before_of_not_mem (h : c ∉ w) : before c w = w := by
  apply List.takeWhile_eq_self_iff.mpr
  intro x hx
  simpa using fun he : x = c => h (he ▸ hx)

theorem after_of_not_mem (h : c ∉ w) : after c w = [] := by
  have := before_append_after c w
  rw [before_of_not_mem h] at this
  simpa using this

theorem before_append_cons (h : c ∉ u) : before c (u ++ c :: r) = u := by
  induction u with
  | nil => simp [before]
  | cons x u ih =>
    simp only [List.mem_cons, not_or] at h
    have := ih h.2
    simp_all [before, Ne.symm h.1]

theorem after_append_cons (h : c ∉ u) : after c (u ++ c :: r) = c :: r := by
  have := before_append_after c (u ++ c :: r)
  rw [before_append_cons h] at this
  exact List.append_cancel_left this

theorem cut_cases (c : α) (w : List α) : c ∉ w ∨ ∃ u r, w = u ++ c :: r ∧ c ∉ u := by
  by_cases h : c ∈ w
  · exact .inr (by simpa using List.eq_append_cons_of_mem h)
  · exact .inl h

/-- Cutting at `c` is the only way to write `w` with the first `c` in the middle. -/
theorem append_cons_inj {u' r' : List α} (hu : c ∉ u) (hu' : c ∉ u')
    (he : u ++ c :: r = u' ++ c :: r') : u = u' ∧ r = r' := by
  have h1 := before_append_cons (r := r) hu
  rw [he, before_append_cons hu'] at h1
  have h2 := after_append_cons (r := r) hu
  rw [he, after_append_cons hu'] at h2
  exact ⟨h1.symm, (List.cons.inj h2).2.symm⟩

end Botniklas.Foundation
