import Botniklas.Session

/-! The order of the event list and the timer set for its head, whatever is
registered; and the times the bot registers. -/
namespace Botniklas
open Foundation

section Operations
variable {σ η δ : Type} {L : QueueIn σ η δ} (H : Handlers L)

/-- Additions and handlings in any order, with the nodes registered so far. A
handler may register any times, earlier ones as well. -/
inductive Operations : σ → (registered : List (TimeEvent η δ)) → Prop where
  | init {s : σ} : L.get s = .empty → Operations s []
  | other {s s' : σ} {reg} : Operations s reg → L.get s' = L.get s → Operations s' reg
  | add {s s' : σ} {reg} (r : Registration η δ) : Operations s reg →
      L.get s' = (L.get s).addTimeEvent r → Operations s' (reg ++ [(L.get s).node r])
  | handle {s s' : σ} {reg} {event : TimeEvent η δ} {rest : List (TimeEvent η δ)} :
      Operations s reg → (L.get s).start = event :: rest →
      handleTimeEvent L H.call s = some s' →
      Operations s' (reg ++ (L.get s).nodes (H.registers event.handler event.data s))

/-- What holds of the list after the nodes `reg` have been registered: the pending
ones among them stand in the order of their times, equal times in the order of
registration, and the timer is set for the first. -/
structure Ordered (q : EventList η δ) (reg : List (TimeEvent η δ)) : Prop where
  good : q.Good
  sublist : ∀ t, (q.start.filter (·.when = t)).Sublist reg
  timer : q.timer.settings = 0 ∨ ∃ e ∈ reg, q.timer.deadline = e.when

variable {H} {q q' : EventList η δ} {reg : List (TimeEvent η δ)}

theorem Ordered.empty : Ordered (EventList.empty : EventList η δ) [] :=
  ⟨EventList.empty_good, fun _ => List.nil_sublist _, .inl rfl⟩

theorem Ordered.addTimeEvent (h : Ordered q reg) (r : Registration η δ) :
    Ordered (q.addTimeEvent r) (reg ++ [q.node r]) := by
  refine ⟨h.good.addTimeEvent r, fun t => ?_, ?_⟩
  · rw [EventList.addTimeEvent_start, filter_insertAfter h.good.sorted, List.filter_append]
    exact (h.sublist t).append List.filter_sublist
  · rcases EventList.addTimeEvent_cases h.good.fresh r with ⟨ht, -⟩ | ⟨_, _, -, -, ht, -⟩
    · rw [ht]
      exact .inr ⟨q.node r, by simp, rfl⟩
    · rw [ht]
      rcases h.timer with h0 | ⟨e, he, hd⟩
      · exact .inl h0
      · exact .inr ⟨e, List.mem_append_left _ he, hd⟩

theorem Ordered.addAll (h : Ordered q reg) (rs : List (Registration η δ)) :
    Ordered (q.addAll rs) (reg ++ q.nodes rs) := by
  induction rs generalizing q reg with
  | nil =>
    rw [EventList.nodes, List.append_nil]
    exact h
  | cons r rs ih =>
    have hnext := ih (h.addTimeEvent r)
    rw [List.append_assoc] at hnext
    exact hnext

/-- Dropping the head sets the timer for an event that was registered. -/
theorem Ordered.dropStart (h : Ordered q reg) (hq : q.dropStart = some q') : Ordered q' reg := by
  obtain ⟨hg, htail, -⟩ := h.good.dropStart hq
  refine ⟨hg, fun t => ?_, ?_⟩
  · rw [htail]
    exact ((List.tail_sublist _).filter _).trans (h.sublist t)
  · unfold EventList.dropStart at hq
    cases hs : q.start with
    | nil => simp [hs] at hq
    | cons event rest =>
      rw [hs] at hq
      cases rest with
      | nil =>
        cases hq
        exact h.timer
      | cons next rest =>
        cases hq
        have hnext := h.sublist next.when
        rw [hs] at hnext
        exact .inr ⟨next, hnext.subset (by simp), rfl⟩

theorem Operations.ordered {s : σ} (h : Operations H s reg) : Ordered (L.get s) reg := by
  induction h with
  | init he => exact he ▸ .empty
  | other _ he ih => exact he ▸ ih
  | add r _ he ih => exact he ▸ ih.addTimeEvent r
  | handle _ hs hrun ih =>
    rw [handleTimeEvent_cons H hs] at hrun
    obtain ⟨q', hq', rfl⟩ := Option.map_eq_some_iff.mp hrun
    rw [L.get_set]
    exact (ih.addAll _).dropStart hq'

theorem Operations.addAll {s s' : σ} (h : Operations H s reg) (rs : List (Registration η δ))
    (hs : L.get s' = (L.get s).addAll rs) : Operations H s' (reg ++ (L.get s).nodes rs) := by
  induction rs generalizing s reg with
  | nil =>
    rw [EventList.nodes, List.append_nil]
    exact h.other hs
  | cons r rs ih =>
    have hadd : Operations H (L.set s ((L.get s).addTimeEvent r)) (reg ++ [(L.get s).node r]) :=
      h.add r (L.get_set _ _)
    have hnext := ih hadd (by rw [L.get_set, hs]; rfl)
    rw [L.get_set, List.append_assoc] at hnext
    exact hnext

end Operations

/-! The times the bot registers. -/

/-- What is registered on the way lies after the epoch. -/
def RegistersPositive (bot bot' : Bot) : Prop :=
  ∃ rs, bot'.queue = bot.queue.addAll rs ∧ ∀ r ∈ rs, 0 < r.when

theorem leetRound_positive {zone now : Int} (h : 0 < now) : ∀ r ∈ leetRound zone now, 0 < r.when := by
  have hlt := lt_next1337 zone now
  intro r hr
  simp only [leetRound, List.mem_cons, List.not_mem_nil, or_false] at hr
  rcases hr with rfl | rfl
  · exact h.trans hlt
  · exact (h.trans hlt).trans (by dsimp only; omega)

theorem due_positive {now : Int} (h : 0 < now) (rs : List Reminder) : ∀ r ∈ due now rs, 0 < r.when := by
  intro r hr
  obtain ⟨r', hr', rfl⟩ := List.mem_map.mp hr
  exact h.trans_le (of_decide_eq_true (List.mem_filter.mp hr').2)

theorem scheduleNext1337_positive (env : Env) (bot : Bot) :
    RegistersPositive bot (scheduleNext1337 env bot) := by
  rw [scheduleNext1337_eq]
  exact ⟨_, rfl, leetRound_positive (env.clock.pos _)⟩

theorem handleRemind_positive (env : Env) (bot : Bot) (arg : Option Bytes) (rep : Bytes) :
    RegistersPositive bot (handleRemind env bot arg rep) := by
  rcases handleRemind_cases env bot arg rep with ⟨_, -, _, -, he⟩ | ⟨_, when, text, -, -, -, hnow, he⟩
  · rw [he]
    exact ⟨[], rfl, by simp⟩
  · rw [he]
    refine ⟨[Reminder.registration ⟨when, rep, text⟩], rfl, fun r hr => ?_⟩
    rw [List.mem_singleton.mp hr]
    exact (env.clock.pos _).trans_le hnow

theorem restoreRemindState_positive {env : Env} {bot bot' : Bot} {outcome : Restored}
    (h : restoreRemindState env bot = .ok (outcome, bot')) : RegistersPositive bot bot' := by
  cases hfile : bot.reminders with
  | none =>
    rw [restoreRemindState_none env hfile] at h
    cases h
    exact ⟨[], rfl, by simp⟩
  | some file =>
    rw [restoreRemindState_some env hfile] at h
    cases h
    exact ⟨_, rfl, due_positive (env.clock.pos _) _⟩

section Bots
variable {env : Env} {opts : Options} {bot bot' : Bot} {reg : List (TimeEvent Handler Bytes)}

/-- The nodes registered so far lie after the epoch, and the event list is what
the operations that registered them left. -/
def PositiveTimes (env : Env) (bot : Bot) : Prop :=
  ∃ reg, Operations (handlers env) bot reg ∧ ∀ e ∈ reg, 0 < e.when

theorem nodes_positive {q : EventList Handler Bytes} {rs : List (Registration Handler Bytes)}
    (h : ∀ r ∈ rs, 0 < r.when) : ∀ e ∈ q.nodes rs, 0 < e.when := by
  intro e he
  apply h e.registration
  rw [← q.nodes_registration rs]
  exact List.mem_map_of_mem he

theorem PositiveTimes.registers (h : PositiveTimes env bot) (hr : RegistersPositive bot bot') :
    PositiveTimes env bot' := by
  obtain ⟨reg, hops, hreg⟩ := h
  obtain ⟨rs, hq, hrs⟩ := hr
  refine ⟨_, hops.addAll rs hq, fun e he => ?_⟩
  rcases List.mem_append.mp he with he | he
  · exact hreg e he
  · exact nodes_positive hrs e he

theorem SessionStep.positiveTimes (hstep : SessionStep env opts bot bot')
    (h : PositiveTimes env bot) : PositiveTimes env bot' := by
  cases hstep with
  | line w hline =>
    obtain ⟨r, ha⟩ := processLine_accepts hline
    refine h.registers ⟨_, ha.queue, fun r' hr' => ?_⟩
    obtain ⟨r'', hr'', rfl⟩ := List.mem_map.mp hr'
    exact (env.clock.pos _).trans_le (ha.when r'' (Option.mem_toList.mp hr''))
  | timer hhead hdue hrun =>
    obtain ⟨reg, hops, hreg⟩ := h
    obtain ⟨rest, hs⟩ := List.head?_eq_some_iff.mp hhead
    refine ⟨_, hops.handle hs hrun, fun e he => ?_⟩
    rcases List.mem_append.mp he with he | he
    · exact hreg e he
    · exact nodes_positive (fun r hr => (env.clock.pos _).trans (lt_registers hr)) e he
  | wait =>
    obtain ⟨reg, hops, hreg⟩ := h
    exact ⟨reg, hops.other rfl, hreg⟩

theorem restoreState_positiveTimes {outcome : Restored} (hqueue : bot.queue = .empty)
    (h : restoreState env bot = .ok (outcome, bot')) : PositiveTimes env bot' := by
  have hinit : PositiveTimes env bot := ⟨[], .init hqueue, by simp⟩
  exact (hinit.registers (scheduleNext1337_positive env bot)).registers
    (restoreRemindState_positive h)

theorem positiveTimes_of_run (h : PositiveTimes env bot)
    (hrun : Relation.ReflTransGen (SessionStep env opts) bot bot') : PositiveTimes env bot' := by
  induction hrun with
  | refl => exact h
  | tail _ hstep ih => exact hstep.positiveTimes ih

/-- The timer is never set to zero, which would disarm it, nor to a negative time,
also while a handler is registering. -/
theorem PositiveTimes.timer (h : PositiveTimes env bot) {rs : List (Registration Handler Bytes)}
    (hrs : ∀ r ∈ rs, 0 < r.when) (hset : 0 < (bot.queue.addAll rs).timer.settings) :
    0 < (bot.queue.addAll rs).timer.deadline := by
  have hnext : PositiveTimes env { bot with queue := bot.queue.addAll rs } :=
    h.registers ⟨rs, rfl, hrs⟩
  obtain ⟨reg, hops, hreg⟩ := hnext
  rcases hops.ordered.timer with h0 | ⟨e, he, hd⟩
  · exact absurd h0 (Nat.ne_of_gt hset)
  · exact hd ▸ hreg e he

end Bots

/-- After any operations, and after each registration of a handler, the list is
sorted, equal times stand in the order of registration, and the timer was last
set for the head. The bot registers only positive times, so in no session is the
timer set to anything else. -/
theorem event_list_sorted_stable_armed {σ η δ : Type} {L : QueueIn σ η δ} (H : Handlers L)
    (env : Env) (opts : Options) :
    (∀ s reg, Operations H s reg → ∀ rs,
      SortedBy TimeEvent.when ((L.get s).addAll rs).start ∧
      (∀ t, (((L.get s).addAll rs).start.filter (·.when = t)).Sublist
        (reg ++ (L.get s).nodes rs)) ∧
      ∀ e ∈ ((L.get s).addAll rs).start.head?,
        ((L.get s).addAll rs).timer.deadline = e.when ∧ 0 < ((L.get s).addAll rs).timer.settings) ∧
    (∀ bot arg rep, RegistersPositive bot (handleRemind env bot arg rep)) ∧
    (∀ bot outcome bot', restoreRemindState env bot = .ok (outcome, bot') →
      RegistersPositive bot bot') ∧
    (∀ bot, RegistersPositive bot (scheduleNext1337 env bot)) ∧
    ∀ bot₀ outcome bot₁ bot, bot₀.queue = .empty → restoreState env bot₀ = .ok (outcome, bot₁) →
      Relation.ReflTransGen (SessionStep env opts) bot₁ bot → ∀ rs, (∀ r ∈ rs, 0 < r.when) →
      0 < (bot.queue.addAll rs).timer.settings → 0 < (bot.queue.addAll rs).timer.deadline := by
  refine ⟨fun s reg h rs => ?_, handleRemind_positive env, fun _ _ _ => restoreRemindState_positive,
    scheduleNext1337_positive env, fun bot₀ outcome bot₁ bot hqueue hrestore hrun rs hrs => ?_⟩
  · have hordered := h.ordered.addAll rs
    exact ⟨hordered.good.sorted, hordered.sublist, hordered.good.armed⟩
  · exact (positiveTimes_of_run (restoreState_positiveTimes hqueue hrestore) hrun).timer hrs

/-- A handler that registers the second 100 twice, ahead of its own time; and the
timer of a bot that has just started. -/
theorem backdated_twice_in_order :
    ((EventList.empty.addTimeEvent (⟨200, 0, ()⟩ : Registration Nat Unit)).addAll
      [⟨100, 1, ()⟩, ⟨100, 2, ()⟩]).timer.deadline = 100 ∧
    ∃ outcome bot, restoreState (.still 1 (by decide)) .new = .ok (outcome, bot) ∧
      0 < bot.queue.timer.deadline := by
  obtain ⟨hordered, -, -, -, hpositive⟩ :=
    event_list_sorted_stable_armed backdating (.still 1 (by decide)) .default
  have hops : Operations backdating (EventList.empty.addTimeEvent ⟨200, 0, ()⟩) _ :=
    .add ⟨200, 0, ()⟩ (.init (s := EventList.empty) rfl) rfl
  refine ⟨((hordered _ _ hops [⟨100, 1, ()⟩, ⟨100, 2, ()⟩]).2.2 ⟨1, 100, 1, ()⟩ rfl).1,
    .noFile, _, rfl, ?_⟩
  exact hpositive .new .noFile _ _ rfl rfl .refl [] (by simp) (by decide)

end Botniklas
