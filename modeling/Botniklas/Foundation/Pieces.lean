import Mathlib.Data.List.Basic

/-! Cutting a list at every separator: the complete pieces, and what comes after
the last separator. -/
namespace Botniklas.Foundation
variable {α : Type} (sep : α → Bool)

def pieces : List α → List (List α) × List α
  | [] => ([], [])
  | b :: w =>
    match pieces w with
    | (ps, t) =>
      if sep b then ([] :: ps, t)
      else match ps with
        | [] => ([], b :: t)
        | p :: ps => ((b :: p) :: ps, t)

variable {sep} {u w r : List α} {c : α}

theorem pieces_of_open (h : ∀ b ∈ u, sep b = false) : pieces sep u = ([], u) := by
  induction u with
  | nil => rfl
  | cons b u ih =>
    simp only [List.mem_cons, forall_eq_or_imp] at h
    simp [pieces, ih h.2, h.1]

theorem pieces_cut (h : ∀ b ∈ u, sep b = false) (hc : sep c = true) :
    pieces sep (u ++ c :: r) = (u :: (pieces sep r).1, (pieces sep r).2) := by
  induction u with
  | nil => simp [pieces, hc]
  | cons b u ih =>
    simp only [List.mem_cons, forall_eq_or_imp] at h
    simp [pieces, ih h.2, h.1]

/-- The first separator of a list, if there is one. -/
theorem open_or_cut (sep : α → Bool) (w : List α) :
    (∀ b ∈ w, sep b = false) ∨
    ∃ u c r, w = u ++ c :: r ∧ (∀ b ∈ u, sep b = false) ∧ sep c = true := by
  induction w with
  | nil => exact .inl (by simp)
  | cons b w ih =>
    cases hb : sep b with
    | true => exact .inr ⟨[], b, w, rfl, by simp, hb⟩
    | false =>
      rcases ih with h | ⟨u, c, r, rfl, hu, hc⟩
      · exact .inl (by simpa [hb] using h)
      · exact .inr ⟨b :: u, c, r, rfl, by simpa [hb] using hu, hc⟩

/-- Induction over a list from one separator to the next. -/
theorem cut_induction {motive : List α → Prop} (sep : α → Bool)
    (rest : ∀ u, (∀ b ∈ u, sep b = false) → motive u)
    (cut : ∀ u c r, (∀ b ∈ u, sep b = false) → sep c = true → motive r → motive (u ++ c :: r))
    (w : List α) : motive w := by
  induction h : w.length using Nat.strongRecOn generalizing w with
  | ind n ih =>
    rcases open_or_cut sep w with hw | ⟨u, c, r, rfl, hu, hc⟩
    · exact rest w hw
    · exact cut u c r hu hc (ih r.length (by simp at h; omega) r rfl)

theorem pieces_tail (w : List α) : ∀ b ∈ (pieces sep w).2, sep b = false := by
  induction w using cut_induction sep with
  | rest u hu => rwa [pieces_of_open hu]
  | cut u c r hu hc ih => rwa [pieces_cut hu hc]

theorem mem_pieces {p : List α} (h : p ∈ (pieces sep w).1) : ∀ b ∈ p, sep b = false ∧ b ∈ w := by
  induction w using cut_induction sep with
  | rest u hu => simp [pieces_of_open hu] at h
  | cut u c r hu hc ih =>
    rw [pieces_cut hu hc] at h
    intro b hb
    rcases List.mem_cons.mp h with rfl | h
    · exact ⟨hu b hb, List.mem_append_left _ hb⟩
    · obtain ⟨h1, h2⟩ := ih h b hb
      exact ⟨h1, by simp [h2]⟩

/-- Cutting a list that arrives in two parts: what the first leaves over comes
before the second. -/
theorem pieces_append (a b : List α) : pieces sep (a ++ b) =
    ((pieces sep a).1 ++ (pieces sep ((pieces sep a).2 ++ b)).1,
      (pieces sep ((pieces sep a).2 ++ b)).2) := by
  induction a using cut_induction sep with
  | rest u hu => simp [pieces_of_open hu]
  | cut u c r hu hc ih =>
    rw [List.append_assoc, List.cons_append, pieces_cut hu hc, pieces_cut hu hc, ih]
    simp

/-- Records with a separator after each. -/
theorem pieces_records (hc : sep c = true) {records : List (List α)}
    (hopen : ∀ record ∈ records, ∀ b ∈ record, sep b = false) :
    pieces sep (records.flatMap (· ++ [c])) = (records, []) := by
  induction records with
  | nil => rfl
  | cons record records ih =>
    obtain ⟨hrecord, hopen⟩ := List.forall_mem_cons.mp hopen
    rw [List.flatMap_cons, List.append_assoc, List.singleton_append, pieces_cut hrecord hc,
      ih hopen]

/-- Records with a separator after each, as far as they have come: the first of them, and a
part of the next. -/
theorem pieces_prefix (hc : sep c = true) {records : List (List α)}
    (hopen : ∀ record ∈ records, ∀ b ∈ record, sep b = false)
    (hw : w <+: records.flatMap (· ++ [c])) :
    ∃ come left, records = come ++ left ∧ (pieces sep w).1 = come ∧
      (pieces sep w).2 <+: left.headD [] := by
  induction records generalizing w with
  | nil =>
    rw [List.prefix_nil.mp hw]
    exact ⟨[], [], rfl, rfl, List.nil_prefix⟩
  | cons record records ih =>
    obtain ⟨hrecord, hopen⟩ := List.forall_mem_cons.mp hopen
    rw [List.flatMap_cons, List.append_assoc, List.singleton_append] at hw
    obtain ⟨later, hlater⟩ := hw
    rcases List.append_eq_append_iff.mp hlater with ⟨more, rfl, -⟩ | ⟨more, rfl, hmore⟩
    · rw [pieces_of_open fun b hb => hrecord b (List.mem_append_left _ hb)]
      exact ⟨[], (w ++ more) :: records, rfl, rfl, List.prefix_append _ _⟩
    · cases more with
      | nil =>
        rw [List.append_nil, pieces_of_open hrecord]
        exact ⟨[], record :: records, rfl, rfl, List.prefix_rfl⟩
      | cons d more =>
        obtain ⟨rfl, hrest⟩ := List.cons.inj hmore
        obtain ⟨come, left, rfl, hcome, hleft⟩ := ih hopen ⟨later, hrest.symm⟩
        rw [pieces_cut hrecord hc, hcome]
        exact ⟨record :: come, left, rfl, rfl, hleft⟩

end Botniklas.Foundation
