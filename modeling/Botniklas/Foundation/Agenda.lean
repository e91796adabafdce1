import Botniklas.Foundation.StableInsert

/-! An agenda: things arrive, none after its time, and the first of those pending is
done once its time has come. What has been done and what is pending are together the
stable sort of what has arrived. -/
namespace Botniklas.Foundation
variable {α κ : Type} [LinearOrder κ] {key : α → κ} {x y : α} {arrived done pending : List α}
  {now now' : κ}

theorem insertAfter_append_of_le (h : ∀ y ∈ done, key y ≤ key x) :
    insertAfter key x (done ++ pending) = done ++ insertAfter key x pending := by
  induction done with
  | nil => rfl
  | cons y done ih =>
    obtain ⟨hy, hdone⟩ := List.forall_mem_cons.mp h
    rw [List.cons_append, insertAfter_cons_of_le hy, ih hdone]
    rfl

section FilterMap
variable {β : Type} {key' : β → κ} {f : α → Option β}

omit [LinearOrder κ] in
/-- What a key decides is the same before and after, if the key is kept. -/
theorem filter_filterMap_key (hf : ∀ a b, f a = some b → key' b = key a) (p : κ → Bool) (l : List α) :
    (l.filterMap f).filter (fun b => p (key' b)) = (l.filter fun a => p (key a)).filterMap f := by
  induction l with
  | nil => rfl
  | cons a l ih =>
    cases hb : f a with
    | none =>
      rw [List.filterMap_cons_none hb, ih, List.filter_cons]
      split_ifs
      · rw [List.filterMap_cons_none hb]
      · rfl
    | some b =>
      rw [List.filterMap_cons_some hb, List.filter_cons, List.filter_cons, hf a b hb, ih]
      split_ifs
      · rw [List.filterMap_cons_some hb]
      · rfl

theorem StableSort.filterMap {l s : List α} (h : StableSort key l s)
    (hf : ∀ a b, f a = some b → key' b = key a) :
    StableSort key' (l.filterMap f) (s.filterMap f) := by
  refine ⟨?_, fun k => ?_⟩
  · refine List.Pairwise.filterMap f (fun a a' hle b hb b' hb' => ?_) h.sorted
    rw [hf a b hb, hf a' b' hb']
    exact hle
  · rw [filter_filterMap_key hf (fun x => decide (x = k)), h.stable k,
      filter_filterMap_key hf fun x => decide (x = k)]

end FilterMap

/-- What has been done by the time `now`, and what is pending, of what has arrived. -/
structure Agenda (key : α → κ) (now : κ) (arrived done pending : List α) : Prop where
  sort : StableSort key arrived (done ++ pending)
  past : ∀ x ∈ done, key x ≤ now

namespace Agenda

theorem init : Agenda key now [] [] [] := ⟨.nil, fun _ h => nomatch h⟩

theorem later (h : Agenda key now arrived done pending) (hnow : now ≤ now') :
    Agenda key now' arrived done pending :=
  ⟨h.sort, fun x hx => (h.past x hx).trans hnow⟩

/-- What arrives is not due before what is done, so it goes among the pending. -/
theorem arrive (h : Agenda key now arrived done pending) (hx : now ≤ key x) :
    Agenda key now (arrived ++ [x]) done (insertAfter key x pending) := by
  refine ⟨?_, h.past⟩
  rw [← insertAfter_append_of_le fun y hy => (h.past y hy).trans hx]
  exact h.sort.insertAfter

theorem serve (h : Agenda key now arrived done (x :: pending)) (hx : key x ≤ now) :
    Agenda key now arrived (done ++ [x]) pending := by
  refine ⟨?_, List.forall_mem_append.mpr ⟨h.past, List.forall_mem_singleton.mpr hx⟩⟩
  rw [List.append_assoc]
  exact h.sort

/-- While the first of the pending is not due, all that was due has been done. -/
theorem all_due (h : Agenda key now arrived done pending) (hnext : ∀ x ∈ pending.head?, now < key x) :
    StableSort key (arrived.filter (key · ≤ now)) done := by
  have hsorted := List.pairwise_append.mp h.sort.sorted
  have hlate : ∀ x ∈ pending, ¬ key x ≤ now := by
    intro x hx
    cases pending with
    | nil => cases hx
    | cons first rest =>
      have hfirst := hnext first rfl
      rcases List.mem_cons.mp hx with rfl | hx
      · exact hfirst.not_ge
      · exact (hfirst.trans_le ((List.pairwise_cons.mp hsorted.2.1).1 x hx)).not_ge
  have hdone : (done ++ pending).filter (key · ≤ now) = done := by
    rw [List.filter_append, List.filter_eq_self.mpr fun x hx => by simpa using h.past x hx,
      List.filter_eq_nil_iff.mpr fun x hx => by simpa using hlate x hx, List.append_nil]
  refine ⟨hsorted.1, fun k => ?_⟩
  have hk := congrArg (List.filter fun x => decide (key x ≤ now)) (h.sort.stable k)
  rw [List.filter_filter, List.filter_filter] at hk
  calc done.filter (key · = k)
    _ = ((done ++ pending).filter (key · ≤ now)).filter (key · = k) := by rw [hdone]
    _ = (arrived.filter (key · ≤ now)).filter (key · = k) := by
      rw [List.filter_filter, List.filter_filter]
      simpa only [Bool.and_comm] using hk

end Agenda
end Botniklas.Foundation
