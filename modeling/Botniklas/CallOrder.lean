import Botniklas.Armed
import Botniklas.Foundation.Agenda
import Botniklas.Happenings

/-! The order in which the events of a session are called: by their times, and among
equal times as they were registered. -/
namespace Botniklas
open Foundation Irc

def Obs.called : Obs → Option Handler
  | .call handler => some handler
  | _ => none

section Trace
variable {env : Env} {opts : Options} {bot bot' : Bot}

/-- A line calls no handler of an event. -/
theorem processLine_called {w : Bytes} (h : processLine env opts w bot = .ok bot') :
    bot'.trace.filterMap Obs.called = bot.trace.filterMap Obs.called := by
  rcases processLine_cases h with ⟨rfl, -⟩ | ⟨g, r, -, -, hout, -⟩
  · rfl
  · obtain ⟨obs, ht, -, hobs⟩ := hout.trace
    have hnone : obs.filterMap Obs.called = [] := by
      apply List.filterMap_eq_nil_iff.mpr
      intro o ho
      rcases hobs o ho with ⟨r', rfl⟩ | ⟨_, _, _, rfl, -⟩
      · rfl
      · rfl
    rw [ht, List.filterMap_append, hnone, List.append_nil, Bot.observe, List.filterMap_append]
    exact List.append_nil _

theorem callHandler_called (env : Env) (handler : Handler) (data : Bytes) (bot : Bot) :
    (callHandler env handler data bot).trace.filterMap Obs.called =
      bot.trace.filterMap Obs.called ++ [handler] := by
  cases handler with
  | remind =>
    change (bot.trace ++ [_] ++ [_]).filterMap Obs.called = _
    rw [List.append_assoc, List.filterMap_append]
    rfl
  | at1337 => exact List.filterMap_append
  | at1338 =>
    rw [callHandler_at1338, at1338_eq]
    change (bot.trace ++ [_] ++ if _ then [_] else []).filterMap Obs.called = _
    rw [List.append_assoc, List.filterMap_append]
    cases (bot.observe (.call .at1338)).want1337 with
    | false => rfl
    | true => rfl

end Trace

/-- Nodes registered at a time, none for an earlier one. -/
theorem agenda_addAll {now : Int} {q : EventList Handler Bytes}
    {reg called : List (TimeEvent Handler Bytes)} {rs : List (Registration Handler Bytes)}
    (h : Agenda TimeEvent.when now reg called q.start) (hrs : ∀ r ∈ rs, now ≤ r.when) :
    Agenda TimeEvent.when now (reg ++ q.nodes rs) called (q.addAll rs).start := by
  induction rs generalizing q reg with
  | nil =>
    rw [EventList.nodes, List.append_nil]
    exact h
  | cons r rs ih =>
    obtain ⟨hr, hrs⟩ := List.forall_mem_cons.mp hrs
    have hadd : Agenda TimeEvent.when now (reg ++ [q.node r]) called (q.addTimeEvent r).start := by
      rw [EventList.addTimeEvent_start]
      exact h.arrive hr
    have hall := ih hadd hrs
    rw [List.append_assoc] at hall
    exact hall

/-- What has been registered and called by now. `obs` is what has been seen since `bot₀`
was left the reminders `first`. -/
structure Scheduled (env : Env) (first : List Reminder) (bot₀ bot : Bot) (obs : List Obs)
    (reg called : List (TimeEvent Handler Bytes)) : Prop where
  operations : Operations (handlers env) bot reg
  agenda : Agenda TimeEvent.when (env.clock.now bot.instant) reg called bot.queue.start
  trace : bot.trace = bot₀.trace ++ obs
  calls : obs.filterMap Obs.called = called.map TimeEvent.handler
  reminders : pendingIn reg = first ++ obs.filterMap Obs.accepted
  announced : List.Forall₂ (Announces env) (pendingIn called) (obs.filterMap Obs.announcement)

namespace Scheduled
variable {env : Env} {opts : Options} {first : List Reminder} {bot₀ bot bot' : Bot} {obs : List Obs}
  {reg called : List (TimeEvent Handler Bytes)}

theorem line {w : Bytes} (h : Scheduled env first bot₀ bot obs reg called)
    (hline : processLine env opts w bot = .ok bot') :
    ∃ obs' reg', Scheduled env first bot₀ bot' obs' reg' called := by
  obtain ⟨r, ha⟩ := processLine_accepts hline
  obtain ⟨more, ht, hacc, hann⟩ := ha.trace
  have hcalled : more.filterMap Obs.called = [] := by
    have hsame := processLine_called hline
    rw [ht, List.filterMap_append] at hsame
    exact List.append_cancel_left (hsame.trans (List.append_nil _).symm)
  have hwhen : ∀ reg ∈ r.toList.map Reminder.registration, env.clock.now bot.instant ≤ reg.when := by
    intro reg hreg
    obtain ⟨r', hr', rfl⟩ := List.mem_map.mp hreg
    exact ha.when r' (Option.mem_toList.mp hr')
  refine ⟨obs ++ more, _, h.operations.addAll _ ha.queue, ?_, ?_, ?_, ?_, ?_⟩
  · rw [ha.queue]
    exact (agenda_addAll h.agenda hwhen).later (env.clock.mono ha.instant)
  · rw [ht, h.trace, List.append_assoc]
  · rw [List.filterMap_append, hcalled, List.append_nil, h.calls]
  · rw [pendingIn_append, h.reminders, List.filterMap_append, hacc, List.append_assoc]
    refine congrArg _ (congrArg _ ?_)
    apply (pendingIn_nodes _ _).trans
    rw [List.filterMap_map]
    exact filterMap_announces fun r' hr' => ha.no_nul r' (Option.mem_toList.mp hr')
  · rw [List.filterMap_append, hann, List.append_nil]
    exact h.announced

/-- The head is called and leaves the list; what its handler registers comes later. -/
theorem timer {event : TimeEvent Handler Bytes} (h : Scheduled env first bot₀ bot obs reg called)
    (hhead : bot.queue.start.head? = some event) (hdue : event.when ≤ env.clock.now bot.instant)
    (hrun : handleTimeEvent Bot.queueIn (callHandler env) bot = some bot') :
    ∃ obs' reg', Scheduled env first bot₀ bot' obs' reg' (called ++ [event]) := by
  have hg : bot.queue.Good := h.operations.ordered.good
  have hh := handleTimeEvent_handles hg hhead hdue hrun
  obtain ⟨more, ht, hacc, hann⟩ := hh.trace
  obtain ⟨rest, hs⟩ := List.head?_eq_some_iff.mp hhead
  obtain ⟨q', hdrop', -, hdrop, -⟩ := handleTimeEvent_due hg hs hdue
  have hlater : ∀ r ∈ registers env event.handler event.data bot, env.clock.now bot.instant ≤ r.when :=
    fun r hr => (lt_registers hr).le
  have hagenda := agenda_addAll h.agenda hlater
  obtain ⟨rest', hs', -⟩ := hg.addAll_of_le hs fun r hr => hdue.trans (hlater r hr)
  rw [hs'] at hagenda
  obtain ⟨hstart, -⟩ := EventList.dropStart_timer hs' hdrop
  have hops := h.operations.handle hs hrun
  obtain rfl := Option.some.inj (hrun.symm.trans hdrop')
  have hcalled : more.filterMap Obs.called = [event.handler] := by
    have hone := callHandler_called env event.handler event.data bot
    rw [show (callHandler env event.handler event.data bot).trace = bot.trace ++ more from ht,
      List.filterMap_append] at hone
    exact List.append_cancel_left hone
  refine ⟨obs ++ more, _, hops, ?_, ?_, ?_, ?_, ?_⟩
  · change Agenda _ _ _ _ q'.start
    rw [hstart]
    exact (hagenda.serve hdue).later (env.clock.mono hh.instant)
  · rw [ht, h.trace, List.append_assoc]
  · rw [List.filterMap_append, h.calls, hcalled, List.map_append]
    rfl
  · have hnone : pendingIn ((Bot.queueIn.get bot).nodes ((handlers env).registers event.handler
        event.data bot)) = [] := by
      rw [pendingIn_nodes]
      cases event.handler <;> rfl
    rw [pendingIn_append, h.reminders, hnone, List.filterMap_append, hacc, List.append_nil,
      List.append_nil]
  · rw [pendingIn_append, List.filterMap_append]
    refine List.rel_append h.announced ?_
    rw [show pendingIn [event] = event.registration.announces.toList from ?_]
    · exact hann
    · unfold pendingIn
      rw [List.filterMap_cons]
      cases event.registration.announces <;> rfl

/-- Nothing has happened to the list, and nothing has been seen that matters. -/
theorem quiet {more : List Obs} (h : Scheduled env first bot₀ bot obs reg called)
    (hqueue : bot'.queue = bot.queue) (hi : bot.instant ≤ bot'.instant)
    (ht : bot'.trace = bot.trace ++ more) (hcalled : more.filterMap Obs.called = [])
    (hacc : more.filterMap Obs.accepted = []) (hann : more.filterMap Obs.announcement = []) :
    Scheduled env first bot₀ bot' (obs ++ more) reg called := by
  refine ⟨h.operations.other hqueue, ?_, ?_, ?_, ?_, ?_⟩
  · rw [hqueue]
    exact h.agenda.later (env.clock.mono hi)
  · rw [ht, h.trace, List.append_assoc]
  · rw [List.filterMap_append, hcalled, List.append_nil, h.calls]
  · rw [List.filterMap_append, hacc, List.append_nil, h.reminders]
  · rw [List.filterMap_append, hann, List.append_nil]
    exact h.announced

private theorem called_snoc {hs : List Happening} {h : Happening} (hnone : h.called = none) :
    (hs ++ [h]).filterMap Happening.called = hs.filterMap Happening.called := by
  rw [List.filterMap_append, List.filterMap_cons_none hnone]
  exact List.append_nil _

theorem happens {hs : List Happening} (hinit : Scheduled env first bot₀ bot obs reg [])
    (h : Happens env opts bot hs bot') :
    ∃ obs reg, Scheduled env first bot₀ bot' obs reg (hs.filterMap Happening.called) := by
  induction h with
  | init => exact ⟨obs, reg, hinit⟩
  | line _ hline ih =>
    obtain ⟨obs, reg, hsched⟩ := ih
    rw [called_snoc rfl]
    exact hsched.line hline
  | timer _ hhead hdue hrun ih =>
    obtain ⟨obs, reg, hsched⟩ := ih
    rw [List.filterMap_append]
    exact hsched.timer hhead hdue hrun
  | wait _ ih =>
    obtain ⟨obs, reg, hsched⟩ := ih
    rw [called_snoc rfl]
    exact ⟨_, reg, hsched.quiet rfl (Nat.le_succ _) (List.append_nil _).symm rfl rfl rfl⟩
  | signal _ _ ih =>
    obtain ⟨obs, reg, hsched⟩ := ih
    rw [called_snoc rfl]
    exact ⟨_, reg, hsched.quiet rfl (Nat.le_refl _) rfl rfl rfl rfl⟩

end Scheduled

section Start
variable {env : Env} {bot₀ bot₁ : Bot} {outcome : Restored}

/-- After `restore_state` the reminders restored have been registered, in the order of the
file. -/
theorem restoreState_scheduled (hqueue : bot₀.queue = .empty)
    (h : restoreState env bot₀ = .ok (outcome, bot₁)) :
    ∃ reg, Scheduled env (restored env bot₀) bot₁ bot₁ [] reg [] := by
  obtain ⟨outcome', he⟩ := restoreState_eq env bot₀
  cases he.symm.trans h
  have hinit : Agenda TimeEvent.when (env.clock.now bot₀.instant) [] [] bot₀.queue.start := by
    rw [hqueue]
    exact .init
  have hround : ∀ r ∈ leetRound env.zone (env.clock.now bot₀.instant),
      env.clock.now bot₀.instant ≤ r.when := fun r hr =>
    (@lt_registers env bot₀ .at1338 [] r hr).le
  have hfile : ∀ r ∈ restoredEvents env bot₀, env.clock.now (bot₀.instant + 1) ≤ r.when := by
    unfold restoredEvents
    cases bot₀.reminders with
    | none => exact fun r hr => nomatch hr
    | some file =>
      intro r hr
      obtain ⟨r', hr', rfl⟩ := List.mem_map.mp hr
      exact of_decide_eq_true (List.mem_filter.mp hr').2
  have hops : Operations (handlers env)
      { bot₀ with queue := bot₀.queue.addAll (leetRound env.zone (env.clock.now bot₀.instant)) }
      ([] ++ bot₀.queue.nodes (leetRound env.zone (env.clock.now bot₀.instant))) :=
    (Operations.init hqueue).addAll _ rfl
  have hagenda := agenda_addAll ((agenda_addAll hinit hround).later
    (env.clock.mono (Nat.le_succ bot₀.instant))) hfile
  refine ⟨_, hops.addAll (restoredEvents env bot₀) rfl, hagenda.later (env.clock.mono (Nat.le_succ _)),
    (List.append_nil _).symm, rfl, ?_, .nil⟩
  rw [pendingIn_append, pendingIn_append]
  have hnodes := pendingIn_nodes bot₀.queue (leetRound env.zone (env.clock.now bot₀.instant))
  rw [announces_leetRound] at hnodes
  rw [hnodes]
  exact (pendingIn_nodes _ _).trans (List.append_nil _).symm

/-- What has been registered and called in a state of the main loop. -/
theorem scheduled_of_run {pageSize : Nat} {opts : Options} {l : Loop pageSize}
    {page : Mem (.mirror pageSize)} (hqueue : bot₀.queue = .empty)
    (hrestore : restoreState env bot₀ = .ok (outcome, bot₁))
    (hrun : Relation.ReflTransGen (Loop.Step env opts)
      (Loop.enter page (connectToIrcServer opts bot₁)) l) :
    ∃ obs reg called, Scheduled env (restored env bot₀) bot₁ l.bot obs reg called := by
  have hi : (Loop.enter page (connectToIrcServer opts bot₁)).Inv env :=
    entered_inv page hqueue hrestore
  obtain ⟨reg₀, hstart⟩ := restoreState_scheduled hqueue hrestore
  obtain ⟨got, hrun⟩ := Loop.exists_run hi hrun
  obtain ⟨hs, hr⟩ := hrun.refines hi
  have hconnect : Scheduled env (restored env bot₀) bot₁ (connectToIrcServer opts bot₁) ([] ++ [_, _])
      reg₀ [] :=
    hstart.quiet rfl (Nat.le_refl _) (List.append_assoc _ _ _) rfl rfl rfl
  obtain ⟨obs, reg, hsched⟩ := hconnect.happens hr.happens
  exact ⟨obs, reg, _, hsched⟩

end Start

section Order
variable {pageSize : Nat} {env : Env} {opts : Options} {bot₀ bot₁ : Bot} {outcome : Restored}
  {l : Loop pageSize} {page : Mem (.mirror pageSize)}

/-- Whatever is registered when, also by the handlers: the events called so far and those
pending after them are the stable sort by time of all events registered. None has been
called before its time, and while the head is not due none that is due is left. -/
theorem events_called_in_order (hqueue : bot₀.queue = .empty)
    (hrestore : restoreState env bot₀ = .ok (outcome, bot₁))
    (hrun : Relation.ReflTransGen (Loop.Step env opts)
      (Loop.enter page (connectToIrcServer opts bot₁)) l) :
    ∃ obs reg called, l.bot.trace = bot₁.trace ++ obs ∧ Operations (handlers env) l.bot reg ∧
      obs.filterMap Obs.called = called.map TimeEvent.handler ∧
      StableSort TimeEvent.when reg (called ++ l.bot.queue.start) ∧
      (∀ event ∈ called, event.when ≤ env.clock.now l.bot.instant) ∧
      ((∀ event ∈ l.bot.queue.start.head?, env.clock.now l.bot.instant < event.when) →
        StableSort TimeEvent.when
          (reg.filter fun event => event.when ≤ env.clock.now l.bot.instant) called) := by
  obtain ⟨obs, reg, called, hsched⟩ := scheduled_of_run hqueue hrestore hrun
  exact ⟨obs, reg, called, hsched.trace, hsched.operations, hsched.calls, hsched.agenda.sort,
    hsched.agenda.past, hsched.agenda.all_due⟩

/-- The reminders announced so far and those pending after them are the stable sort by
time of those restored from the file and those accepted since, in that order. -/
theorem reminders_announced_in_order (hqueue : bot₀.queue = .empty)
    (hrestore : restoreState env bot₀ = .ok (outcome, bot₁))
    (hrun : Relation.ReflTransGen (Loop.Step env opts)
      (Loop.enter page (connectToIrcServer opts bot₁)) l) :
    ∃ obs announced, l.bot.trace = bot₁.trace ++ obs ∧
      List.Forall₂ (Announces env) announced (obs.filterMap Obs.announcement) ∧
      StableSort Reminder.when (restored env bot₀ ++ obs.filterMap Obs.accepted)
        (announced ++ pending l.bot) ∧
      ((∀ event ∈ l.bot.queue.start.head?, env.clock.now l.bot.instant < event.when) →
        StableSort Reminder.when ((restored env bot₀ ++ obs.filterMap Obs.accepted).filter
          fun r => r.when ≤ env.clock.now l.bot.instant) announced) := by
  obtain ⟨obs, reg, called, hsched⟩ := scheduled_of_run hqueue hrestore hrun
  have hwhen : ∀ (event : TimeEvent Handler Bytes) r, event.registration.announces = some r →
      r.when = event.when := fun event r => when_of_announces
  refine ⟨obs, pendingIn called, hsched.trace, hsched.announced, ?_, fun hhead => ?_⟩
  · have hsort := hsched.agenda.sort.filterMap hwhen
    rw [List.filterMap_append] at hsort
    rw [← hsched.reminders]
    exact hsort
  · have hsort := (hsched.agenda.all_due hhead).filterMap hwhen
    rw [← filter_filterMap_key hwhen fun t => decide (t ≤ env.clock.now l.bot.instant)] at hsort
    rw [← hsched.reminders]
    exact hsort

end Order

/-- The first batch may hold the timer. -/
private theorem timer_run {env : Env} {opts : Options} {bot : Bot} {page : Mem (.mirror 512)}
    (hi : (Loop.enter page bot).Inv env)
    (h : (Loop.enter page bot).Expired env ∧ (Loop.enter page bot).Unreported) :
    ∃ l, Relation.ReflTransGen (Loop.Step env opts) (Loop.enter page bot) l := by
  have hwait := Relation.ReflTransGen.single (@Loop.Step.epollWait 512 env opts
    (Loop.enter page bot) [.timer] rfl (by decide) (by decide) fun _ => h)
  obtain ⟨bot', hcall, -⟩ := (Loop.inv_of_run hi hwait).timer rfl
  exact ⟨_, hwait.tail (.timer rfl hcall)⟩

/-- A reminder restored in its own second. -/
private theorem tea_run : ∃ (outcome : Restored) (bot₁ : Bot) (l : Loop 512),
    restoreState (.still 5 (by decide)) { Bot.new with reminders := some (ascii "5 #c tea\n") } =
      .ok (outcome, bot₁) ∧
    Relation.ReflTransGen (Loop.Step (.still 5 (by decide)) .default)
      (Loop.enter ⟨fun _ => 0⟩ (connectToIrcServer .default bot₁)) l := by
  obtain ⟨outcome, hrestore⟩ := restoreState_eq (.still 5 (by decide))
    { Bot.new with reminders := some (ascii "5 #c tea\n") }
  have hi := @entered_inv 512 _ .default _ _ _ ⟨fun _ => 0⟩ rfl hrestore
  obtain ⟨l, hrun⟩ := @timer_run _ .default _ _ hi (by decide)
  exact ⟨outcome, _, l, hrestore, hrun⟩

theorem tea_called : ∃ (l : Loop 512) (reg called : List (TimeEvent Handler Bytes)),
    Operations (handlers (.still 5 (by decide))) l.bot reg ∧
    StableSort TimeEvent.when reg (called ++ l.bot.queue.start) := by
  obtain ⟨_, _, l, hrestore, hrun⟩ := tea_run
  obtain ⟨-, reg, called, -, hops, -, hsort, -⟩ := events_called_in_order rfl hrestore hrun
  exact ⟨l, reg, called, hops, hsort⟩

theorem tea_announced_first : ∃ (l : Loop 512) (obs : List Obs) (announced : List Reminder),
    List.Forall₂ (Announces (.still 5 (by decide))) announced (obs.filterMap Obs.announcement) ∧
    StableSort Reminder.when (restored (.still 5 (by decide))
        { Bot.new with reminders := some (ascii "5 #c tea\n") } ++ obs.filterMap Obs.accepted)
      (announced ++ pending l.bot) := by
  obtain ⟨_, _, l, hrestore, hrun⟩ := tea_run
  obtain ⟨obs, announced, -, hann, hsort, -⟩ := reminders_announced_in_order rfl hrestore hrun
  exact ⟨l, obs, announced, hann, hsort⟩

end Botniklas
