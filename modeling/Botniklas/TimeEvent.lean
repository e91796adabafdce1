import Botniklas.Foundation.StableInsert
import Mathlib.Data.Int.Order.Basic
import Mathlib.Data.Multiset.ZeroCons

/-! The list of timed events and the timer armed for its head. Handlers may add
events while their own node still stands at the head. -/
namespace Botniklas
open Foundation

/-- A node; `id` is its identity as an allocation. -/
structure TimeEvent (η δ : Type) where
  id : Nat
  when : Int
  handler : η
  data : δ
  deriving DecidableEq, Repr

/-- timerfd as last set, and how often it has been set. -/
structure Timer where
  deadline : Int
  settings : Nat
  deriving DecidableEq, Repr

structure EventList (η δ : Type) where
  start : List (TimeEvent η δ)
  fresh : Nat
  timer : Timer
  deriving DecidableEq, Repr

/-- The arguments of `add_time_event`. -/
structure Registration (η δ : Type) where
  when : Int
  handler : η
  data : δ
  deriving DecidableEq, Repr

/-- The arguments a node was made from. -/
def TimeEvent.registration {η δ : Type} (event : TimeEvent η δ) : Registration η δ :=
  ⟨event.when, event.handler, event.data⟩

namespace EventList
variable {η δ : Type}

def empty : EventList η δ := ⟨[], 0, ⟨0, 0⟩⟩

def armTimer (q : EventList η δ) (event : TimeEvent η δ) : EventList η δ :=
  { q with timer := ⟨event.when, q.timer.settings + 1⟩ }

/-- The node made for a registration. -/
def node (q : EventList η δ) (r : Registration η δ) : TimeEvent η δ :=
  ⟨q.fresh, r.when, r.handler, r.data⟩

def addTimeEvent (q : EventList η δ) (r : Registration η δ) : EventList η δ :=
  let new := q.node r
  let q := { q with start := insertAfter TimeEvent.when new q.start, fresh := q.fresh + 1 }
  -- the list starts with the new node
  if q.start.head?.map TimeEvent.id = some new.id then q.armTimer new else q

def addAll (q : EventList η δ) (rs : List (Registration η δ)) : EventList η δ :=
  rs.foldl addTimeEvent q

/-- Drop the node at the head and rearm the timer for the next one, if any. -/
def dropStart (q : EventList η δ) : Option (EventList η δ) :=
  match q.start with
  | [] => none
  | _ :: rest =>
    let q := { q with start := rest }
    match rest with
    | [] => some q
    | event :: _ => some (q.armTimer event)

end EventList

/-- Where a state keeps its event list. -/
structure QueueIn (σ η δ : Type) where
  get : σ → EventList η δ
  set : σ → EventList η δ → σ
  get_set : ∀ s q, get (set s q) = q

/-- Run the handler of the head, then remove what stands at the head. None
stands for the NULL that an empty list dereferences. -/
def handleTimeEvent {σ η δ : Type} (L : QueueIn σ η δ) (call : η → δ → σ → σ) (s : σ) :
    Option σ :=
  match (L.get s).start with
  | [] => none
  | event :: _ =>
    let s := call event.handler event.data s
    ((L.get s).dropStart).map (L.set s)

namespace EventList
variable {η δ : Type} {q : EventList η δ}

/-- What every list built by the operations satisfies. -/
structure Good (q : EventList η δ) : Prop where
  sorted : SortedBy TimeEvent.when q.start
  fresh : ∀ e ∈ q.start, e.id < q.fresh
  stable : q.start.Pairwise fun a b => a.when = b.when → a.id < b.id
  armed : ∀ e ∈ q.start.head?, q.timer.deadline = e.when ∧ 0 < q.timer.settings

theorem empty_good : (empty : EventList η δ).Good :=
  ⟨List.Pairwise.nil, by simp [empty], List.Pairwise.nil, by simp [empty]⟩

@[simp] theorem addTimeEvent_start (r : Registration η δ) :
    (q.addTimeEvent r).start = insertAfter TimeEvent.when (q.node r) q.start := by
  unfold addTimeEvent
  dsimp only
  split <;> rfl

@[simp] theorem addTimeEvent_fresh (r : Registration η δ) :
    (q.addTimeEvent r).fresh = q.fresh + 1 := by
  unfold addTimeEvent
  dsimp only
  split <;> rfl

/-- The new event is due before the head, so it becomes the head. -/
theorem addTimeEvent_timer_of_first {r : Registration η δ}
    (h : ∀ e ∈ q.start.head?, r.when < e.when) :
    (q.addTimeEvent r).timer = ⟨r.when, q.timer.settings + 1⟩ ∧
      (q.addTimeEvent r).start = q.node r :: q.start := by
  have hs : insertAfter TimeEvent.when (q.node r) q.start = q.node r :: q.start := by
    cases hq : q.start with
    | nil => rfl
    | cons e rest => exact insertAfter_cons_of_lt (h e (by simp [hq]))
  refine ⟨?_, by rw [addTimeEvent_start, hs]⟩
  unfold addTimeEvent
  dsimp only
  rw [hs]
  exact congrArg EventList.timer (if_pos rfl)

/-- The head is due no later than the new event, so it stays and so does the timer. -/
theorem addTimeEvent_timer_of_le (hf : ∀ e ∈ q.start, e.id < q.fresh) {r : Registration η δ}
    {event : TimeEvent η δ} {rest : List (TimeEvent η δ)} (hs : q.start = event :: rest)
    (h : event.when ≤ r.when) :
    (q.addTimeEvent r).timer = q.timer ∧
      (q.addTimeEvent r).start = event :: insertAfter TimeEvent.when (q.node r) rest := by
  have hi : insertAfter TimeEvent.when (q.node r) q.start =
      event :: insertAfter TimeEvent.when (q.node r) rest := by
    rw [hs]
    exact insertAfter_cons_of_le h
  refine ⟨?_, by rw [addTimeEvent_start, hi]⟩
  have hne := Nat.ne_of_lt (hf event (by simp [hs]))
  unfold addTimeEvent
  dsimp only
  rw [hi, if_neg (by simpa [node] using hne)]

/-- Where the new node goes and what becomes of the timer. -/
theorem addTimeEvent_cases (hf : ∀ e ∈ q.start, e.id < q.fresh) (r : Registration η δ) :
    ((q.addTimeEvent r).timer = ⟨r.when, q.timer.settings + 1⟩ ∧
      (q.addTimeEvent r).start = q.node r :: q.start) ∨
    ∃ event rest, q.start = event :: rest ∧ event.when ≤ r.when ∧
      (q.addTimeEvent r).timer = q.timer ∧
      (q.addTimeEvent r).start = event :: insertAfter TimeEvent.when (q.node r) rest := by
  cases hq : q.start with
  | nil => exact .inl (hq ▸ addTimeEvent_timer_of_first (by simp [hq]))
  | cons event rest =>
    rcases le_or_gt event.when r.when with hle | hlt
    · exact .inr ⟨event, rest, rfl, hle, addTimeEvent_timer_of_le hf hq hle⟩
    · exact .inl (hq ▸ addTimeEvent_timer_of_first (by simpa [hq] using hlt))

theorem Good.addTimeEvent (h : q.Good) (r : Registration η δ) : (q.addTimeEvent r).Good := by
  refine ⟨?_, ?_, ?_, ?_⟩
  · rw [addTimeEvent_start]
    exact h.sorted.insertAfter
  · intro e he
    rw [addTimeEvent_start] at he
    rw [addTimeEvent_fresh]
    rcases mem_insertAfter.mp he with rfl | he
    · exact Nat.lt_succ_self _
    · exact Nat.lt_succ_of_lt (h.fresh e he)
  · rw [addTimeEvent_start]
    exact pairwise_insertAfter h.sorted h.stable h.fresh
  · intro e he
    rcases addTimeEvent_cases h.fresh r with ⟨ht, hs⟩ | ⟨event, rest, hq, -, ht, hs⟩
    · rw [hs] at he
      cases he
      rw [ht]
      exact ⟨rfl, Nat.succ_pos _⟩
    · rw [hs] at he
      cases he
      rw [ht]
      exact h.armed e (by simp [hq])

theorem Good.addAll (h : q.Good) (rs : List (Registration η δ)) : (q.addAll rs).Good := by
  induction rs generalizing q with
  | nil => exact h
  | cons r rs ih => exact ih (h.addTimeEvent r)

theorem Good.dropStart (h : q.Good) {q' : EventList η δ} (hq : q.dropStart = some q') :
    q'.Good ∧ q'.start = q.start.tail ∧ q'.fresh = q.fresh := by
  unfold EventList.dropStart at hq
  cases hs : q.start with
  | nil => simp [hs] at hq
  | cons event rest =>
    have h1 := h.sorted
    have h2 := h.fresh
    have h3 := h.stable
    rw [hs] at hq h1 h2 h3
    cases rest with
    | nil =>
      cases hq
      exact ⟨⟨List.Pairwise.nil, by simp, List.Pairwise.nil, by simp⟩, rfl, rfl⟩
    | cons next rest =>
      cases hq
      refine ⟨⟨(List.pairwise_cons.mp h1).2, fun e he => h2 e (List.mem_cons_of_mem _ he),
        (List.pairwise_cons.mp h3).2, fun e he => ?_⟩, rfl, rfl⟩
      cases he
      exact ⟨rfl, Nat.succ_pos _⟩

/-- Dropping the last event leaves the timer alone; otherwise it is set again. -/
theorem dropStart_timer {event : TimeEvent η δ} {rest : List (TimeEvent η δ)} {q' : EventList η δ}
    (hs : q.start = event :: rest) (hq : q.dropStart = some q') :
    q'.start = rest ∧ q'.timer.settings = q.timer.settings + if rest = [] then 0 else 1 := by
  unfold EventList.dropStart at hq
  rw [hs] at hq
  cases rest with
  | nil =>
    cases hq
    exact ⟨rfl, rfl⟩
  | cons next rest =>
    cases hq
    exact ⟨rfl, rfl⟩

theorem settings_le_addTimeEvent (r : Registration η δ) :
    q.timer.settings ≤ (q.addTimeEvent r).timer.settings := by
  unfold addTimeEvent
  dsimp only
  split
  · exact Nat.le_succ _
  · exact Nat.le_refl _

theorem settings_le_addAll (rs : List (Registration η δ)) :
    q.timer.settings ≤ (q.addAll rs).timer.settings := by
  induction rs generalizing q with
  | nil => exact Nat.le_refl _
  | cons r rs ih => exact (settings_le_addTimeEvent r).trans ih

/-- An empty list gets an event only together with a timer set for it. -/
theorem settings_lt_addAll (hs : q.start = []) {rs : List (Registration η δ)} (hrs : rs ≠ []) :
    q.timer.settings < (q.addAll rs).timer.settings := by
  obtain ⟨r, rs, rfl⟩ := List.exists_cons_of_ne_nil hrs
  have hfirst := (addTimeEvent_timer_of_first (q := q) (r := r) (by simp [hs])).1
  have hle : (q.addTimeEvent r).timer.settings ≤ ((q.addTimeEvent r).addAll rs).timer.settings :=
    settings_le_addAll rs
  rw [hfirst] at hle
  exact hle

/-- The nodes made for a list of registrations, in order. -/
def nodes (q : EventList η δ) : List (Registration η δ) → List (TimeEvent η δ)
  | [] => []
  | r :: rs => q.node r :: (q.addTimeEvent r).nodes rs

theorem addAll_perm (rs : List (Registration η δ)) :
    (q.addAll rs).start.Perm (q.start ++ q.nodes rs) := by
  induction rs generalizing q with
  | nil => simp [addAll, nodes]
  | cons r rs ih =>
    apply (ih (q := q.addTimeEvent r)).trans
    rw [addTimeEvent_start]
    exact (insertAfter_perm.append_right _).trans (List.perm_middle.symm)

/-- Without the identities of the nodes, the list is the registrations inserted
one by one. -/
theorem map_addAll (rs : List (Registration η δ)) :
    (q.addAll rs).start.map TimeEvent.registration =
      rs.foldl (fun l r => insertAfter Registration.when r l)
        (q.start.map TimeEvent.registration) := by
  induction rs generalizing q with
  | nil => rfl
  | cons r rs ih =>
    apply (ih (q := q.addTimeEvent r)).trans
    have hkey : ∀ e : TimeEvent η δ, e.registration.when = e.when := fun _ => rfl
    rw [addTimeEvent_start, map_insertAfter hkey]
    rfl

theorem nodes_registration (rs : List (Registration η δ)) :
    (q.nodes rs).map TimeEvent.registration = rs := by
  induction rs generalizing q with
  | nil => rfl
  | cons r rs ih => rw [nodes, List.map_cons, ih]; rfl

theorem addAll_eq_nil {rs : List (Registration η δ)} (h : (q.addAll rs).start = []) :
    q.start = [] ∧ rs = [] := by
  have hp := q.addAll_perm rs
  rw [h] at hp
  obtain ⟨hs, hn⟩ := List.append_eq_nil_iff.mp hp.symm.eq_nil
  refine ⟨hs, ?_⟩
  rw [← nodes_registration (q := q) rs, hn]
  rfl

theorem mem_nodes {rs : List (Registration η δ)} {r : Registration η δ} (hr : r ∈ rs) :
    ∃ e ∈ q.nodes rs, e.when = r.when := by
  rw [← nodes_registration (q := q) rs] at hr
  obtain ⟨e, he, rfl⟩ := List.mem_map.mp hr
  exact ⟨e, he, rfl⟩

/-- Events no earlier than the head leave it at the head and the timer alone. -/
theorem Good.addAll_of_le (h : q.Good) {rs : List (Registration η δ)} {event : TimeEvent η δ}
    {rest : List (TimeEvent η δ)} (hs : q.start = event :: rest)
    (hle : ∀ r ∈ rs, event.when ≤ r.when) :
    ∃ rest', (q.addAll rs).start = event :: rest' ∧ rest'.Perm (rest ++ q.nodes rs) ∧
      (q.addAll rs).timer = q.timer := by
  induction rs generalizing q rest with
  | nil => exact ⟨rest, hs, by simp [nodes], rfl⟩
  | cons r rs ih =>
    simp only [List.mem_cons, forall_eq_or_imp] at hle
    obtain ⟨ht, hs'⟩ := addTimeEvent_timer_of_le h.fresh hs hle.1
    obtain ⟨rest', h1, h2, h3⟩ := ih (h.addTimeEvent r) hs' hle.2
    refine ⟨rest', h1, h2.trans ?_, h3.trans ht⟩
    exact (insertAfter_perm.append_right _).trans List.perm_middle.symm

end EventList

/-- Handlers together with what they register. They reach the list through
`add_time_event` alone. -/
structure Handlers {σ η δ : Type} (L : QueueIn σ η δ) where
  call : η → δ → σ → σ
  registers : η → δ → σ → List (Registration η δ)
  get_call : ∀ h d s, L.get (call h d s) = (L.get s).addAll (registers h d s)

section Handling
variable {σ η δ : Type} {L : QueueIn σ η δ} (H : Handlers L)

/-- One call runs the handler of the head, which is due first and registered
first among equals, and afterwards the pending events are the previous ones
less that event and with the ones its handler registered. -/
def RemovesItsEvent (s : σ) : Prop :=
  ∀ event rest, (L.get s).start = event :: rest →
    (∀ e ∈ rest, event.when < e.when ∨ (event.when = e.when ∧ event.id < e.id)) ∧
    ∃ s', handleTimeEvent L H.call s = some s' ∧
      (L.get s').start.Perm (rest ++ (L.get s).nodes (H.registers event.handler event.data s))

/-- The registrations of a handler keep clear of the time of its own event. -/
def RegistersNoEarlier (s : σ) : Prop :=
  ∀ event ∈ (L.get s).start.head?, ∀ r ∈ H.registers event.handler event.data s,
    event.when ≤ r.when

theorem head_first {q : EventList η δ} (h : q.Good) {event : TimeEvent η δ}
    {rest : List (TimeEvent η δ)} (hs : q.start = event :: rest) :
    ∀ e ∈ rest, event.when < e.when ∨ (event.when = e.when ∧ event.id < e.id) := by
  intro e he
  have h1 := h.sorted
  have h2 := h.stable
  rw [hs] at h1 h2
  have hle := (List.pairwise_cons.mp h1).1 e he
  have hid := (List.pairwise_cons.mp h2).1 e he
  omega

theorem handleTimeEvent_cons {s : σ} {event : TimeEvent η δ} {rest : List (TimeEvent η δ)}
    (hs : (L.get s).start = event :: rest) :
    handleTimeEvent L H.call s =
      (((L.get s).addAll (H.registers event.handler event.data s)).dropStart).map
        (L.set (H.call event.handler event.data s)) := by
  unfold handleTimeEvent
  rw [hs]
  dsimp only
  rw [H.get_call]

private theorem dropStart_isSome {q : EventList η δ} (h : q.start ≠ []) :
    ∃ q', q.dropStart = some q' := by
  unfold EventList.dropStart
  cases hs : q.start with
  | nil => exact absurd hs h
  | cons event rest => cases rest <;> exact ⟨_, rfl⟩

/-- What one call does when nothing earlier is registered. -/
theorem handleTimeEvent_of_noEarlier {s : σ} (hg : (L.get s).Good) {event : TimeEvent η δ}
    {rest : List (TimeEvent η δ)} (hs : (L.get s).start = event :: rest)
    (hle : ∀ r ∈ H.registers event.handler event.data s, event.when ≤ r.when) :
    ∃ s', handleTimeEvent L H.call s = some s' ∧ (L.get s').Good ∧
      (L.get s').start.Perm (rest ++ (L.get s).nodes (H.registers event.handler event.data s)) ∧
      (L.get s').fresh = ((L.get s).addAll (H.registers event.handler event.data s)).fresh := by
  obtain ⟨rest', hstart, hperm, -⟩ := hg.addAll_of_le hs hle
  obtain ⟨q', hq'⟩ := dropStart_isSome
    (q := (L.get s).addAll (H.registers event.handler event.data s)) (by simp [hstart])
  obtain ⟨hg', htail, hfresh⟩ := (hg.addAll _).dropStart hq'
  refine ⟨L.set (H.call event.handler event.data s) q', ?_, ?_, ?_, ?_⟩
  · rw [handleTimeEvent_cons H hs, hq']
    rfl
  all_goals rw [L.get_set]
  · exact hg'
  · rw [htail, hstart]
    exact hperm
  · exact hfresh

/-- An event registered for an earlier time comes to stand at the head, so the
node of the event that ran is not the one removed. -/
private theorem RemovesItsEvent.registersNoEarlier {s : σ} (hg : (L.get s).Good)
    (h : RemovesItsEvent H s) : RegistersNoEarlier H s := by
  intro event hev r hr
  obtain ⟨rest, hs⟩ := List.head?_eq_some_iff.mp hev
  obtain ⟨-, s', hs', hperm⟩ := h event rest hs
  rw [handleTimeEvent_cons H hs] at hs'
  obtain ⟨q', hq', rfl⟩ := Option.map_eq_some_iff.mp hs'
  obtain ⟨-, htail, -⟩ := (hg.addAll _).dropStart hq'
  rw [L.get_set, htail] at hperm
  -- the list after the handler, with the registered event somewhere in it
  have hall := (L.get s).addAll_perm (H.registers event.handler event.data s)
  have hsorted := (hg.addAll (H.registers event.handler event.data s)).sorted
  generalize (L.get s).addAll (H.registers event.handler event.data s) = q at hperm hall hsorted
  obtain ⟨e, he, hew⟩ := EventList.mem_nodes (q := L.get s) hr
  cases hstart : q.start with
  | nil =>
    rw [hstart, hs] at hall
    exact absurd hall.length_eq (by simp)
  | cons first more =>
    rw [hstart] at hsorted hperm hall
    rw [hs] at hall
    have hfirst : first = event := by
      have hcons : (first :: more).Perm (event :: more) := hall.trans (hperm.symm.cons event)
      exact (Multiset.cons_inj_left (more : Multiset (TimeEvent η δ))).mp
        (Multiset.coe_eq_coe.mpr hcons)
    have hmem : e ∈ first :: more := hall.mem_iff.mpr (List.mem_append_right _ he)
    rw [← hew, ← hfirst]
    rcases List.mem_cons.mp hmem with rfl | hmem
    · exact le_rfl
    · exact (List.pairwise_cons.mp hsorted).1 e hmem

/-- `handle_time_event` removes the event it ran exactly when that event's
handler registers nothing earlier than it. -/
theorem removesItsEvent_iff {s : σ} (hg : (L.get s).Good) :
    RemovesItsEvent H s ↔ RegistersNoEarlier H s := by
  refine ⟨RemovesItsEvent.registersNoEarlier H hg, fun h event rest hs => ?_⟩
  obtain ⟨s', hs', -, hperm, -⟩ := handleTimeEvent_of_noEarlier H hg hs (h event (by simp [hs]))
  exact ⟨head_first hg hs, s', hs', hperm⟩

/-! Whole runs, with the nodes registered and the events whose handlers have
been called so far. -/

/-- Every handler called on the way keeps clear of earlier times. -/
inductive Run : σ → (registered called : List (TimeEvent η δ)) → Prop where
  | init {s : σ} : (L.get s).start = [] → (L.get s).fresh = 0 → Run s [] []
  | other {s s' : σ} {reg called} : Run s reg called → L.get s' = L.get s → Run s' reg called
  | add {s s' : σ} {reg called} (r : Registration η δ) : Run s reg called →
      L.get s' = (L.get s).addTimeEvent r → Run s' (reg ++ [(L.get s).node r]) called
  | handle {s s' : σ} {reg called} {event : TimeEvent η δ} {rest : List (TimeEvent η δ)} :
      Run s reg called → (L.get s).start = event :: rest → RegistersNoEarlier H s →
      handleTimeEvent L H.call s = some s' →
      Run s' (reg ++ (L.get s).nodes (H.registers event.handler event.data s)) (called ++ [event])

end Handling

namespace EventList
variable {η δ : Type} {q : EventList η δ}

theorem nodes_ids (rs : List (Registration η δ)) :
    (q.nodes rs).map TimeEvent.id = List.range' q.fresh rs.length ∧
      (q.addAll rs).fresh = q.fresh + rs.length := by
  induction rs generalizing q with
  | nil => exact ⟨rfl, rfl⟩
  | cons r rs ih =>
    obtain ⟨h1, h2⟩ := ih (q := q.addTimeEvent r)
    rw [addTimeEvent_fresh] at h1 h2
    refine ⟨?_, ?_⟩
    · rw [nodes, List.map_cons, h1, List.length_cons, List.range'_succ]
      rfl
    · change ((q.addTimeEvent r).addAll rs).fresh = _
      rw [h2, List.length_cons]
      omega

end EventList

section Handling
variable {σ η δ : Type} {L : QueueIn σ η δ} {H : Handlers L}

/-- What every reachable state keeps. -/
structure Run.Inv (s : σ) (reg called : List (TimeEvent η δ)) : Prop where
  good : (L.get s).Good
  ids : reg.map TimeEvent.id = List.range (L.get s).fresh
  perm : (called ++ (L.get s).start).Perm reg

theorem Run.inv {s : σ} {reg called : List (TimeEvent η δ)} (h : Run H s reg called) :
    Run.Inv (L := L) s reg called := by
  induction h with
  | init hs hf =>
    refine ⟨⟨?_, ?_, ?_, ?_⟩, ?_, ?_⟩ <;> simp [hs, hf, SortedBy]
  | other _ he ih =>
    exact ⟨he ▸ ih.good, he ▸ ih.ids, he ▸ ih.perm⟩
  | @add s s' reg called r _ he ih =>
    refine ⟨he ▸ ih.good.addTimeEvent r, ?_, ?_⟩
    · rw [he, EventList.addTimeEvent_fresh, List.map_append, ih.ids, List.range_succ]
      rfl
    · rw [he, EventList.addTimeEvent_start]
      refine ((insertAfter_perm.append_left called).trans ?_).trans (ih.perm.append_right _)
      exact List.perm_middle.trans (List.perm_append_singleton _ _).symm
  | @handle s s' reg called event rest _ hs hno hrun ih =>
    obtain ⟨s'', hs'', hg, hperm, hfresh⟩ :=
      handleTimeEvent_of_noEarlier H ih.good hs (hno event (by simp [hs]))
    rw [hrun] at hs''
    cases hs''
    obtain ⟨hids, hlen⟩ := (L.get s).nodes_ids (H.registers event.handler event.data s)
    refine ⟨hg, ?_, ?_⟩
    · rw [hfresh, hlen, List.map_append, ih.ids, hids, List.range_eq_range', List.range_eq_range',
        ← List.range'_append_1, Nat.zero_add]
    · have hp := ih.perm
      rw [hs] at hp
      rw [List.append_assoc]
      apply ((hperm.cons event).append_left called).trans
      rw [← List.cons_append, ← List.append_assoc]
      exact hp.append_right _

/-- `handle_time_event` removes exactly the event it ran if and only if the
handler registers nothing earlier; and in a run of such calls every registered
event is called at most once and is pending until it is called. -/
theorem handleTimeEvent_removes_iff (H : Handlers L) :
    (∀ s, (L.get s).Good → (RemovesItsEvent H s ↔ RegistersNoEarlier H s)) ∧
    (∀ s reg called, Run H s reg called →
      (called.map TimeEvent.id).Nodup ∧ (called ++ (L.get s).start).Perm reg) := by
  refine ⟨fun s hg => removesItsEvent_iff H hg, fun s reg called h => ?_⟩
  have hi := h.inv
  refine ⟨?_, hi.perm⟩
  have hn : (reg.map TimeEvent.id).Nodup := by
    rw [hi.ids]
    exact List.nodup_range
  have := ((hi.perm.map TimeEvent.id).nodup_iff).mpr hn
  rw [List.map_append] at this
  exact (List.nodup_append.mp this).1

end Handling

/-! A handler that registers an event for a time already passed. -/

def plainQueue : QueueIn (EventList Nat Unit) Nat Unit := ⟨id, fun _ q => q, fun _ _ => rfl⟩

/-- Handler 0 registers handler 1 for time 50. -/
def backdating : Handlers plainQueue where
  call h _ q := q.addAll (if h = 0 then [⟨50, 1, ()⟩] else [])
  registers h _ _ := if h = 0 then [⟨50, 1, ()⟩] else []
  get_call _ _ _ := rfl

/-- Run at time 100, handler 0 is pending again afterwards, and the event it
registered has left the list without a call. -/
theorem backdated_event_lost :
    ¬ RemovesItsEvent backdating (EventList.empty.addTimeEvent ⟨100, 0, ()⟩) := by
  intro h
  obtain ⟨-, s', hs', hperm⟩ := h _ _ rfl
  obtain rfl := Option.some.inj hs'
  have hmem := hperm.mem_iff (a := ⟨1, 50, 1, ()⟩)
  revert hmem
  decide

/-- Handler 0 registers handler 1 for its own time and for a later one. -/
def repeating : Handlers plainQueue where
  call h _ q := q.addAll (if h = 0 then [⟨100, 1, ()⟩, ⟨150, 1, ()⟩] else [])
  registers h _ _ := if h = 0 then [⟨100, 1, ()⟩, ⟨150, 1, ()⟩] else []
  get_call _ _ _ := rfl

/-- The handler registers an event for the time it is called at, and one for the time of the
event after it. -/
theorem removesItsEvent_of_repeating : RemovesItsEvent repeating
    ((EventList.empty.addTimeEvent ⟨100, 0, ()⟩).addTimeEvent ⟨150, 1, ()⟩) := by
  have hgood := (EventList.empty_good.addTimeEvent (⟨100, 0, ()⟩ : Registration Nat Unit)).addTimeEvent
    ⟨150, 1, ()⟩
  refine ((handleTimeEvent_removes_iff repeating).1 _ hgood).mpr ?_
  rintro _ ⟨rfl⟩ r hr
  change r ∈ [(⟨100, 1, ()⟩ : Registration Nat Unit), ⟨150, 1, ()⟩] at hr
  simp only [List.mem_cons, List.not_mem_nil, or_false] at hr
  rcases hr with rfl | rfl
  · decide
  · decide

end Botniklas
