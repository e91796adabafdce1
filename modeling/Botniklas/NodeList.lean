import Botniklas.Armed
import Botniklas.Foundation.LinkedList
import Mathlib.Data.Finset.Range

/-! The event list in memory: nodes that `malloc` hands out, linked by their `next`
pointers and freed once they have run. -/
namespace Botniklas
open Foundation

/-- The nodes with the pointer `start`, and the timer. -/
structure NodeList (η δ : Type) where
  nodes : CellStore (Registration η δ)
  timer : Timer

/-- A call of `malloc`: the address, and what stands in the memory there. -/
structure Malloc (η δ : Type) where
  address : Nat
  block : Cell (Registration η δ)

namespace NodeList
variable {η δ : Type}

def empty : NodeList η δ := ⟨.empty, ⟨0, 0⟩⟩

/-- More than there are nodes. -/
def rounds (s : NodeList η δ) : Nat := s.nodes.cells.keys.length + 1

/-- None for a pointer to no node, here and below. -/
def armTimer (s : NodeList η δ) (event : Nat) : Option (NodeList η δ) := do
  let node ← s.nodes.cells.lookup event
  return { s with timer := ⟨node.val.when, s.timer.settings + 1⟩ }

def addTimeEvent (s : NodeList η δ) (new : Malloc η δ) (r : Registration η δ) :
    Option (NodeList η δ) := do
  let nodes := s.nodes.set new.address new.block
  let cur ← nodes.seek (fun event => event.when ≤ r.when) s.rounds .start
  let next ← nodes.load cur
  let nodes ← (nodes.set new.address ⟨next, r⟩).store (some new.address) cur
  let s := { s with nodes }
  if s.nodes.start = some new.address then s.armTimer new.address else return s

def addAll (s : NodeList η δ) : List (Malloc η δ × Registration η δ) → Option (NodeList η δ)
  | [] => some s
  | (new, r) :: adds => do (← s.addTimeEvent new r).addAll adds

/-- The handler of the first node is called, and `adds` is what it registers. -/
def handleTimeEvent (s : NodeList η δ) (adds : List (Malloc η δ × Registration η δ)) :
    Option (NodeList η δ) := do
  let event ← s.nodes.start
  let _ ← s.nodes.cells.lookup event
  let s ← s.addAll adds
  let oldStart ← s.nodes.start
  let node ← s.nodes.cells.lookup oldStart
  let nodes ← ({ s.nodes with start := node.next } : CellStore _).free oldStart
  let s := { s with nodes }
  match s.nodes.start with
  | none => return s
  | some event => s.armTimer event

/-- The loop of `free_time_event`, which leaves `start` as it is. -/
def freeTimeEvent (s : NodeList η δ) : Option (CellStore (Registration η δ)) :=
  s.nodes.freeFrom s.rounds s.nodes.start

end NodeList

/-- What is asked of the event list, with the registrations of the handler called. -/
inductive EventOp (η δ : Type) where
  | add (r : Registration η δ)
  | handle (rs : List (Registration η δ))

def EventOp.registers {η δ : Type} : EventOp η δ → List (Registration η δ)
  | .add r => [r]
  | .handle rs => rs

/-- None for handling an empty list. -/
def EventList.perform {η δ : Type} (q : EventList η δ) : EventOp η δ → Option (EventList η δ)
  | .add r => some (q.addTimeEvent r)
  | .handle rs => if q.start = [] then none else (q.addAll rs).dropStart

/-- The nodes in memory are those of the list, in its order, and no others. -/
structure Represents {η δ : Type} (s : NodeList η δ) (q : EventList η δ) : Prop where
  good : q.Good
  nodes : ∃ l, s.nodes.IsList l ∧ l.map Prod.snd = q.start.map TimeEvent.registration
  timer : s.timer = q.timer

namespace Represents
variable {η δ : Type} {s s' : NodeList η δ} {q : EventList η δ}

theorem empty : Represents (.empty : NodeList η δ) .empty :=
  ⟨EventList.empty_good, ⟨[], CellStore.empty_isList, rfl⟩, rfl⟩

/-- The timer is set for the new node exactly if that has become the first. -/
private theorem timer_addTimeEvent (h : q.Good) {l : List (Nat × Registration η δ)}
    (hmap : l.map Prod.snd = q.start.map TimeEvent.registration) (r : Registration η δ) :
    (q.addTimeEvent r).timer =
      if (l.takeWhile fun c => c.2.when ≤ r.when) = [] then ⟨r.when, q.timer.settings + 1⟩
      else q.timer := by
  cases hs : q.start with
  | nil =>
    rw [hs, List.map_nil, List.map_eq_nil_iff] at hmap
    rw [hmap, List.takeWhile_nil, if_pos rfl]
    exact (EventList.addTimeEvent_timer_of_first (by simp [hs])).1
  | cons event rest =>
    rw [hs, List.map_cons] at hmap
    obtain ⟨c, l, rfl, hc, -⟩ := List.map_eq_cons_iff.mp hmap
    have hwhen : c.2.when = event.when := congrArg Registration.when hc
    rcases le_or_gt event.when r.when with hle | hlt
    · rw [List.takeWhile_cons_of_pos (by simpa [hwhen] using hle), if_neg (List.cons_ne_nil _ _)]
      exact (EventList.addTimeEvent_timer_of_le h.fresh hs hle).1
    · rw [List.takeWhile_cons_of_neg (by simpa [hwhen] using hlt), if_pos rfl]
      exact (EventList.addTimeEvent_timer_of_first (by simpa [hs] using hlt)).1

private theorem registrations_addTimeEvent {l : List (Nat × Registration η δ)}
    (hmap : l.map Prod.snd = q.start.map TimeEvent.registration) (new : Nat)
    (r : Registration η δ) :
    ((l.takeWhile fun c => c.2.when ≤ r.when) ++
      (new, r) :: l.dropWhile fun c => c.2.when ≤ r.when).map Prod.snd =
        (q.addTimeEvent r).start.map TimeEvent.registration := by
  have hcells : ∀ c : Nat × Registration η δ, c.2.when = c.2.when := fun _ => rfl
  have hevents : ∀ e : TimeEvent η δ, e.registration.when = e.when := fun _ => rfl
  rw [EventList.addTimeEvent_start, map_insertAfter hevents, ← hmap,
    show (q.node r).registration = (new, r).2 from rfl, ← map_insertAfter hcells, insertAfter_eq]

/-- One node more, at the place of the list. -/
theorem addTimeEvent (h : Represents s q) {new : Malloc η δ}
    (hnew : new.address ∉ s.nodes.cells) (r : Registration η δ) :
    ∃ s', s.addTimeEvent new r = some s' ∧ Represents s' (q.addTimeEvent r) ∧
      ∀ a, a ∈ s'.nodes.cells ↔ a = new.address ∨ a ∈ s.nodes.cells := by
  obtain ⟨l, hl, hmap⟩ := h.nodes
  have hfresh : ∀ a ∈ l.map Prod.fst, a ≠ new.address := fun a ha he =>
    hnew (he ▸ (hl.owned a).mpr ha)
  -- the new block is no part of the list while the place is sought
  have hseg : CellStore.Seg (s.nodes.set new.address new.block).cells
      (s.nodes.set new.address new.block).start ([] ++ l) none :=
    hl.seg.congr fun a ha => AList.lookup_insert_ne (hfresh a ha)
  have hseek := CellStore.seek_after (fun event : Registration η δ => event.when ≤ r.when) hseg
    (show l.length < s.rounds from Nat.lt_succ_of_le hl.length_le)
  rw [Place.after_nil, List.nil_append] at hseek
  have hsplit := List.takeWhile_append_dropWhile (p := fun c => decide (c.2.when ≤ r.when)) (l := l)
  have htimer := timer_addTimeEvent h.good hmap r
  have hsorted := registrations_addTimeEvent hmap new.address r
  generalize (l.takeWhile fun c => c.2.when ≤ r.when) = before at hseek hsplit htimer hsorted
  generalize (l.dropWhile fun c => c.2.when ≤ r.when) = behind at hsplit hsorted
  subst hsplit
  rw [List.nil_append] at hseg
  have hload := CellStore.load_after hseg
  obtain ⟨nodes, hlink, hlist⟩ := hl.link hnew r
  have hmem : ∀ a, a ∈ nodes.cells ↔ a = new.address ∨ a ∈ s.nodes.cells := by
    intro a
    rw [hlist.owned, hl.owned]
    simp only [List.map_append, List.map_cons, List.mem_append, List.mem_cons]
    tauto
  have hstart := hlist.seg.head
  unfold NodeList.addTimeEvent
  simp only [hseek, hload, CellStore.set_set, hlink, Option.bind_eq_bind, Option.bind_some]
  cases before with
  | nil =>
    obtain ⟨-, next, hcell, -⟩ := hlist.seg
    rw [if_pos (show nodes.start = some new.address from hstart), NodeList.armTimer]
    dsimp only
    rw [hcell]
    refine ⟨_, rfl, ⟨h.good.addTimeEvent r, ⟨_, hlist, hsorted⟩, ?_⟩, hmem⟩
    rw [htimer, if_pos rfl, ← h.timer]
  | cons c before =>
    have hother : nodes.start ≠ some new.address := by
      rw [hstart]
      intro he
      exact hfresh c.1 (by simp) (Option.some.inj he)
    rw [if_neg hother]
    refine ⟨_, rfl, ⟨h.good.addTimeEvent r, ⟨_, hlist, hsorted⟩, ?_⟩, hmem⟩
    rw [htimer, if_neg (List.cons_ne_nil _ _), ← h.timer]

/-- What a handler registers. -/
theorem addAll (h : Represents s q) {adds : List (Malloc η δ × Registration η δ)}
    (hnew : (adds.map fun add => add.1.address).Nodup)
    (hfree : ∀ add ∈ adds, add.1.address ∉ s.nodes.cells) :
    ∃ s', s.addAll adds = some s' ∧ Represents s' (q.addAll (adds.map Prod.snd)) := by
  induction adds generalizing s q with
  | nil => exact ⟨s, rfl, h⟩
  | cons add adds ih =>
    obtain ⟨new, r⟩ := add
    rw [List.map_cons, List.nodup_cons] at hnew
    obtain ⟨hfirst, hrest⟩ := List.forall_mem_cons.mp hfree
    obtain ⟨s₁, hadd, h₁, hmem⟩ := h.addTimeEvent hfirst r
    obtain ⟨s', hadds, h'⟩ := ih h₁ hnew.2 fun add ha hin => by
      rcases (hmem _).mp hin with he | hin
      · exact hnew.1 (he ▸ List.mem_map_of_mem ha)
      · exact hrest add ha hin
    refine ⟨s', ?_, h'⟩
    rw [NodeList.addAll, hadd]
    exact hadds

/-- The node at the head after the handler is unlinked and freed. -/
theorem handleTimeEvent (h : Represents s q) {adds : List (Malloc η δ × Registration η δ)}
    (hnew : (adds.map fun add => add.1.address).Nodup)
    (hfree : ∀ add ∈ adds, add.1.address ∉ s.nodes.cells) (hne : q.start ≠ []) :
    ∃ s' q', s.handleTimeEvent adds = some s' ∧ q.perform (.handle (adds.map Prod.snd)) = some q' ∧
      Represents s' q' := by
  obtain ⟨l, hl, hmap⟩ := h.nodes
  obtain ⟨s₁, hadds, h₁⟩ := h.addAll hnew hfree
  obtain ⟨l₁, hl₁, hmap₁⟩ := h₁.nodes
  have hsome : (q.addAll (adds.map Prod.snd)).start ≠ [] := fun hnil =>
    hne (EventList.addAll_eq_nil hnil).1
  generalize hq₁ : q.addAll (adds.map Prod.snd) = q₁ at h₁ hmap₁ hsome
  obtain ⟨event, rest, hs⟩ := List.exists_cons_of_ne_nil hne
  obtain ⟨event₁, rest₁, hs₁⟩ := List.exists_cons_of_ne_nil hsome
  rw [hs, List.map_cons] at hmap
  rw [hs₁, List.map_cons] at hmap₁
  obtain ⟨⟨a, e⟩, l, rfl, -, -⟩ := List.map_eq_cons_iff.mp hmap
  obtain ⟨⟨a₁, e₁⟩, l₁, rfl, -, hrest⟩ := List.map_eq_cons_iff.mp hmap₁
  obtain ⟨hstart, hcell, -⟩ := hl.pop
  obtain ⟨hstart₁, hcell₁, nodes, hpop, hlist⟩ := hl₁.pop
  have hperform : q.perform (.handle (adds.map Prod.snd)) = q₁.dropStart := by
    unfold EventList.perform
    dsimp only
    rw [if_neg hne, hq₁]
  have hhandle : s.handleTimeEvent adds = match nodes.start with
      | none => some { s₁ with nodes }
      | some event => ({ s₁ with nodes } : NodeList η δ).armTimer event := by
    unfold NodeList.handleTimeEvent
    simp only [hstart, hcell, hadds, hstart₁, hcell₁, hpop, Option.bind_eq_bind, Option.bind_some]
    rfl
  have hnext := hlist.seg.head
  rw [hhandle, hperform]
  cases l₁ with
  | nil =>
    obtain rfl : rest₁ = [] := List.map_eq_nil_iff.mp hrest.symm
    have hdrop : q₁.dropStart = some { q₁ with start := [] } := by
      unfold EventList.dropStart
      rw [hs₁]
    rw [hdrop, hnext]
    exact ⟨_, _, rfl, rfl, (h₁.good.dropStart hdrop).1, ⟨[], hlist, rfl⟩, h₁.timer⟩
  | cons c l₁ =>
    obtain ⟨next, rest₂, rfl, hwhen, -⟩ := List.map_eq_cons_iff.mp hrest.symm
    have hdrop : q₁.dropStart = some (({ q₁ with start := next :: rest₂ } : EventList η δ).armTimer
        next) := by
      unfold EventList.dropStart
      rw [hs₁]
    obtain ⟨-, link, hcell₂, -⟩ := hlist.seg
    rw [hdrop, hnext]
    dsimp only [List.head?_cons, Option.map_some]
    unfold NodeList.armTimer
    dsimp only
    rw [hcell₂]
    refine ⟨_, _, rfl, rfl, (h₁.good.dropStart hdrop).1, ⟨_, hlist, hrest⟩, ?_⟩
    dsimp only [EventList.armTimer]
    rw [h₁.timer, ← hwhen]
    rfl

/-- At the end every node is freed, once. -/
theorem freeTimeEvent (h : Represents s q) :
    ∃ nodes, s.freeTimeEvent = some nodes ∧ ∀ a, a ∉ nodes.cells := by
  obtain ⟨l, hl, -⟩ := h.nodes
  exact CellStore.freeFrom_all hl.seg hl.owned (hl.length_le.trans (Nat.le_succ _))

end Represents

/-- Runs of the functions from the empty list, with any addresses that `malloc` may hand
out at the time: none of them holds another node. -/
inductive InMemory {η δ : Type} : List (EventOp η δ) → NodeList η δ → Prop where
  | init : InMemory [] .empty
  | add {ops : List (EventOp η δ)} {s s' : NodeList η δ} (new : Malloc η δ)
      (r : Registration η δ) : InMemory ops s → new.address ∉ s.nodes.cells →
      s.addTimeEvent new r = some s' → InMemory (ops ++ [.add r]) s'
  | handle {ops : List (EventOp η δ)} {s s' : NodeList η δ}
      (adds : List (Malloc η δ × Registration η δ)) : InMemory ops s →
      (adds.map fun add => add.1.address).Nodup → (∀ add ∈ adds, add.1.address ∉ s.nodes.cells) →
      s.handleTimeEvent adds = some s' → InMemory (ops ++ [.handle (adds.map Prod.snd)]) s'

section Runs
variable {η δ : Type}

theorem NodeList.handleTimeEvent_nil {s : NodeList η δ} {q : EventList η δ} (h : Represents s q)
    (hs : q.start = []) (adds : List (Malloc η δ × Registration η δ)) :
    s.handleTimeEvent adds = none := by
  obtain ⟨l, hl, hmap⟩ := h.nodes
  rw [hs, List.map_nil, List.map_eq_nil_iff] at hmap
  have hstart := hl.seg.head
  rw [hmap] at hstart
  unfold NodeList.handleTimeEvent
  rw [hstart]
  rfl

theorem InMemory.represents {ops : List (EventOp η δ)} {s : NodeList η δ} (h : InMemory ops s) :
    ∃ q, ops.foldlM EventList.perform .empty = some q ∧ Represents s q := by
  induction h with
  | init => exact ⟨_, rfl, .empty⟩
  | add new r _ hnew hadd ih =>
    obtain ⟨q, hrun, hrep⟩ := ih
    obtain ⟨s', hadd', hrep', -⟩ := hrep.addTimeEvent hnew r
    cases hadd.symm.trans hadd'
    refine ⟨_, ?_, hrep'⟩
    rw [List.foldlM_append, hrun]
    rfl
  | handle adds _ hnew hfree hhandle ih =>
    obtain ⟨q, hrun, hrep⟩ := ih
    by_cases hs : q.start = []
    · rw [NodeList.handleTimeEvent_nil hrep hs] at hhandle
      cases hhandle
    · obtain ⟨s', q', hhandle', hperform, hrep'⟩ := hrep.handleTimeEvent hnew hfree hs
      cases hhandle.symm.trans hhandle'
      refine ⟨q', ?_, hrep'⟩
      rw [List.foldlM_append, hrun]
      change EventList.perform q _ >>= _ = _
      rw [hperform]
      rfl

private theorem malloc_all (s : NodeList η δ) (rs : List (Registration η δ)) :
    ∃ adds : List (Malloc η δ × Registration η δ), adds.map Prod.snd = rs ∧
      (adds.map fun add => add.1.address).Nodup ∧ ∀ add ∈ adds, add.1.address ∉ s.nodes.cells := by
  obtain ⟨m, hm⟩ := Finset.exists_nat_subset_range s.nodes.cells.keys.toFinset
  refine ⟨rs.zipIdx.map fun r => (⟨m + r.2, ⟨none, r.1⟩⟩, r.1), ?_, ?_, ?_⟩
  · rw [List.map_map]
    exact List.zipIdx_map_fst 0 rs
  · rw [List.map_map]
    change (rs.zipIdx.map fun r => m + r.2).Nodup
    have hmap : (rs.zipIdx.map fun r => m + r.2) = (rs.zipIdx.map Prod.snd).map (m + ·) := by
      rw [List.map_map]
      rfl
    rw [hmap, List.zipIdx_map_snd]
    exact List.Nodup.map (fun a b h => Nat.add_left_cancel h) List.nodup_range'
  · intro add hadd hin
    obtain ⟨r, -, rfl⟩ := List.mem_map.mp hadd
    have hlt := Finset.mem_range.mp (hm (List.mem_toFinset.mpr (AList.mem_keys.mp hin)))
    dsimp only at hlt
    omega

/-- Whatever the functions are asked for, they are in memory. -/
theorem inMemory_of_foldlM {ops : List (EventOp η δ)} {q : EventList η δ}
    (h : ops.foldlM EventList.perform .empty = some q) :
    ∃ s, InMemory ops s ∧ Represents s q := by
  induction ops using List.reverseRecOn generalizing q with
  | nil =>
    cases h
    exact ⟨_, .init, .empty⟩
  | append_singleton ops op ih =>
    rw [List.foldlM_append] at h
    obtain ⟨q₁, hrun, hop⟩ := Option.bind_eq_some_iff.mp h
    obtain ⟨s₁, hs₁, hrep⟩ := ih hrun
    have hop : q₁.perform op = some q := by simpa using hop
    cases op with
    | add r =>
      obtain ⟨adds, hadds, -, hfree⟩ := malloc_all s₁ [r]
      obtain ⟨⟨new, r'⟩, l, rfl, rfl, -⟩ := List.map_eq_cons_iff.mp hadds
      have hnew := hfree _ List.mem_cons_self
      obtain ⟨s, hadd, hrep', -⟩ := hrep.addTimeEvent hnew r'
      cases hop
      exact ⟨s, hs₁.add new r' hnew hadd, hrep'⟩
    | handle rs =>
      obtain ⟨adds, rfl, hnew, hfree⟩ := malloc_all s₁ rs
      have hne : q₁.start ≠ [] := by
        intro hs
        rw [EventList.perform, if_pos hs] at hop
        cases hop
      obtain ⟨s, q', hhandle, hperform, hrep'⟩ := hrep.handleTimeEvent hnew hfree hne
      cases hop.symm.trans hperform
      exact ⟨s, hs₁.handle adds hnew hfree hhandle, hrep'⟩

/-- The operations of a program on its event list. -/
theorem Operations.perform {σ : Type} {L : QueueIn σ η δ} {H : Handlers L} {s : σ}
    {reg : List (TimeEvent η δ)} (h : Operations H s reg) :
    ∃ ops : List (EventOp η δ), ops.foldlM EventList.perform .empty = some (L.get s) ∧
      ops.flatMap EventOp.registers = reg.map TimeEvent.registration := by
  induction h with
  | init he => exact ⟨[], congrArg some he.symm, rfl⟩
  | other _ he ih => exact he ▸ ih
  | add r _ he ih =>
    obtain ⟨ops, hops, hreg⟩ := ih
    refine ⟨ops ++ [.add r], ?_, ?_⟩
    · rw [List.foldlM_append, hops, he]
      rfl
    · rw [List.flatMap_append, hreg, List.map_append]
      rfl
  | @handle s s' _ event rest _ hs hrun ih =>
    obtain ⟨ops, hops, hreg⟩ := ih
    rw [handleTimeEvent_cons H hs] at hrun
    obtain ⟨q', hdrop, rfl⟩ := Option.map_eq_some_iff.mp hrun
    refine ⟨ops ++ [.handle (H.registers event.handler event.data s)], ?_, ?_⟩
    · rw [List.foldlM_append, hops, L.get_set]
      change EventList.perform (L.get s) _ >>= _ = _
      rw [EventList.perform, if_neg (by rw [hs]; exact List.cons_ne_nil _ _), hdrop]
      rfl
    · rw [List.flatMap_append, hreg, List.map_append, EventList.nodes_registration,
        List.flatMap_singleton]
      rfl

/-- In memory as on lists, whatever is registered and whatever addresses `malloc` hands
out: the nodes allocated are those of the list, in its order; no function follows a pointer
to no node, but for handling an empty list; and the loop at the end frees every node. So
stands the event list of a program in memory, with all it has registered. -/
theorem node_list_refines :
    (∀ (ops : List (EventOp η δ)) (s : NodeList η δ), InMemory ops s →
      ∃ q, ops.foldlM EventList.perform .empty = some q ∧ Represents s q ∧
        (∀ (new : Malloc η δ) r, new.address ∉ s.nodes.cells → s.addTimeEvent new r ≠ none) ∧
        (∀ adds : List (Malloc η δ × Registration η δ), (adds.map fun add => add.1.address).Nodup →
          (∀ add ∈ adds, add.1.address ∉ s.nodes.cells) →
          (s.handleTimeEvent adds = none ↔ q.start = [])) ∧
        ∃ nodes, s.freeTimeEvent = some nodes ∧ ∀ a, a ∉ nodes.cells) ∧
    ∀ {σ : Type} {L : QueueIn σ η δ} (H : Handlers L) (s : σ) (reg : List (TimeEvent η δ)),
      Operations H s reg → ∃ ops m, InMemory ops m ∧ Represents m (L.get s) ∧
        ops.flatMap EventOp.registers = reg.map TimeEvent.registration := by
  refine ⟨fun ops s h => ?_, fun H s reg h => ?_⟩
  · obtain ⟨q, hrun, hrep⟩ := h.represents
    refine ⟨q, hrun, hrep, fun new r hnew => ?_, fun adds hnew hfree => ⟨fun hnone => ?_, fun hs =>
      NodeList.handleTimeEvent_nil hrep hs adds⟩, hrep.freeTimeEvent⟩
    · obtain ⟨s', hadd, -⟩ := hrep.addTimeEvent hnew r
      rw [hadd]
      exact Option.some_ne_none s'
    · by_contra hs
      obtain ⟨s', q', hhandle, -⟩ := hrep.handleTimeEvent hnew hfree hs
      rw [hnone] at hhandle
      cases hhandle
  · obtain ⟨ops, hops, hreg⟩ := h.perform
    obtain ⟨m, hm, hrep⟩ := inMemory_of_foldlM hops
    exact ⟨ops, m, hm, hrep, hreg⟩

end Runs

/-- A handler registers the next event, in a node at 3 while it runs from the one at 7; and a
program with one event in its list. -/
theorem next_node_at_three : (∃ s : NodeList Nat Unit,
      InMemory [.add ⟨5, 0, ()⟩, .handle [⟨9, 1, ()⟩]] s ∧
      ∃ nodes, s.freeTimeEvent = some nodes ∧ ∀ a, a ∉ nodes.cells) ∧
    ∃ ops m, InMemory ops m ∧
      Represents m (EventList.empty.addTimeEvent (⟨200, 0, ()⟩ : Registration Nat Unit)) ∧
      ops.flatMap EventOp.registers = [⟨200, 0, ()⟩] := by
  have hadd := InMemory.add ⟨7, ⟨none, ⟨0, 0, ()⟩⟩⟩ (⟨5, 0, ()⟩ : Registration Nat Unit)
    .init (by decide) rfl
  have hrun := InMemory.handle [(⟨3, ⟨none, ⟨0, 0, ()⟩⟩⟩, ⟨9, 1, ()⟩)] hadd
    (by decide) (by decide) rfl
  have hops : Operations backdating (EventList.empty.addTimeEvent ⟨200, 0, ()⟩) _ :=
    .add ⟨200, 0, ()⟩ (.init (s := EventList.empty) rfl) rfl
  obtain ⟨hmemory, hprogram⟩ := @node_list_refines Nat Unit
  obtain ⟨-, -, -, -, -, hfree⟩ := hmemory _ _ hrun
  exact ⟨⟨_, hrun, hfree⟩, hprogram backdating _ _ hops⟩

end Botniklas
