import Botniklas.LineEffect
import Botniklas.Scan
import Mathlib.Logic.Relation

/-! A session: lines from the server, due timer events and the passing of time,
in any order. -/
namespace Botniklas
open Foundation Irc Grammar
open scoped List

/-- What may happen next. The kernel announces an expiry only when the time of
the head has come. -/
inductive SessionStep (env : Env) (opts : Options) : Bot → Bot → Prop where
  | line {bot bot' : Bot} (w : Bytes) : processLine env opts w bot = .ok bot' →
      SessionStep env opts bot bot'
  | timer {bot bot' : Bot} {event : TimeEvent Handler Bytes} :
      bot.queue.start.head? = some event → event.when ≤ env.clock.now bot.instant →
      handleTimeEvent Bot.queueIn (callHandler env) bot = some bot' → SessionStep env opts bot bot'
  | wait {bot : Bot} : SessionStep env opts bot { bot with instant := bot.instant + 1 }

/-- The reminder an event announces, as its handler reads the array. -/
def Registration.announces (r : Registration Handler Bytes) : Option Reminder :=
  match r.handler with
  | .remind => some ⟨r.when, target r.data, reminder r.data⟩
  | _ => none

def pendingIn (events : List (TimeEvent Handler Bytes)) : List Reminder :=
  events.filterMap fun e => e.registration.announces

/-- The reminders still to be announced. -/
def pending (bot : Bot) : List Reminder := pendingIn bot.queue.start

/-- The calls of `say` in `remind`. -/
def Obs.announcement : Obs → Option (WriteCall × Nat)
  | .write .remind written instant => some (written, instant)
  | _ => none

/-- The line for a reminder, written when its time has come. -/
def Announces (env : Env) (r : Reminder) (written : WriteCall × Nat) : Prop :=
  written.1.line = ascii "PRIVMSG " ++ r.target ++ ascii " :REMINDER: " ++ r.text ++ crlf ∧
    r.when ≤ env.clock.now written.2

theorem announces_registration {r : Reminder} (ht : nul ∉ r.target) (hx : nul ∉ r.text) :
    r.registration.announces = some r := by
  unfold Registration.announces Reminder.registration
  dsimp only
  rw [target_reminderData ht, reminder_reminderData ht hx]

/-- Reminders packed into their arrays are read back from them. -/
theorem filterMap_announces {rs : List Reminder} (h : ∀ r ∈ rs, nul ∉ r.target ∧ nul ∉ r.text) :
    (rs.filterMap fun r => r.registration.announces) = rs := by
  induction rs with
  | nil => rfl
  | cons r rs ih =>
    obtain ⟨⟨ht, hx⟩, hrs⟩ := List.forall_mem_cons.mp h
    rw [List.filterMap_cons, announces_registration ht hx, ih hrs]

theorem when_of_announces {r : Reminder} {reg : Registration Handler Bytes}
    (h : reg.announces = some r) : r.when = reg.when := by
  unfold Registration.announces at h
  split at h
  · cases h
    rfl
  · cases h

theorem announces_leetRound (zone now : Int) :
    (leetRound zone now).filterMap Registration.announces = [] := rfl

theorem pendingIn_append (l l' : List (TimeEvent Handler Bytes)) :
    pendingIn (l ++ l') = pendingIn l ++ pendingIn l' := List.filterMap_append

theorem pendingIn_perm {l l' : List (TimeEvent Handler Bytes)} (h : l.Perm l') :
    (pendingIn l).Perm (pendingIn l') := h.filterMap _

theorem pendingIn_nodes (q : EventList Handler Bytes) (rs : List (Registration Handler Bytes)) :
    pendingIn (q.nodes rs) = rs.filterMap Registration.announces := by
  have h := congrArg (List.filterMap Registration.announces) (q.nodes_registration rs)
  rwa [List.filterMap_map] at h

/-- Registering adds the reminders registered and keeps the others. -/
theorem pendingIn_addAll (q : EventList Handler Bytes) (rs : List (Registration Handler Bytes)) :
    (pendingIn (q.addAll rs).start).Perm
      (pendingIn q.start ++ rs.filterMap Registration.announces) := by
  apply (pendingIn_perm (q.addAll_perm rs)).trans
  rw [pendingIn_append, pendingIn_nodes]

section Timer
variable {env : Env} {bot : Bot} {event : TimeEvent Handler Bytes}
  {rest : List (TimeEvent Handler Bytes)}

/-- What a handler registers lies after the present. -/
theorem lt_registers {handler : Handler} {data : Bytes} {r : Registration Handler Bytes}
    (hr : r ∈ registers env handler data bot) : env.clock.now bot.instant < r.when := by
  have hlt := lt_next1337 env.zone (env.clock.now bot.instant)
  cases handler with
  | remind => cases hr
  | at1337 => cases hr
  | at1338 =>
    simp only [registers, leetRound, List.mem_cons, List.not_mem_nil, or_false] at hr
    rcases hr with rfl | rfl
    · exact hlt
    · exact hlt.trans (by dsimp only; omega)

/-- A due event is run and removed; the rest of the bot is as its handler left it. -/
theorem handleTimeEvent_due (hg : bot.queue.Good) (hs : bot.queue.start = event :: rest)
    (hdue : event.when ≤ env.clock.now bot.instant) :
    ∃ q', handleTimeEvent Bot.queueIn (callHandler env) bot =
        some { callHandler env event.handler event.data bot with queue := q' } ∧ q'.Good ∧
      (bot.queue.addAll (registers env event.handler event.data bot)).dropStart = some q' ∧
      q'.start.Perm (rest ++ bot.queue.nodes (registers env event.handler event.data bot)) := by
  obtain ⟨bot', hrun, hg', hperm, -⟩ := handleTimeEvent_of_noEarlier (handlers env) hg hs
    fun r hr => (hdue.trans_lt (lt_registers hr)).le
  have he := hrun
  rw [handleTimeEvent_cons (handlers env) hs] at he
  obtain ⟨q', hdrop, rfl⟩ := Option.map_eq_some_iff.mp he
  exact ⟨q', hrun, hg', hdrop, hperm⟩

/-- Handlers register no reminders, so what is left are those after the head. -/
theorem pendingIn_handled {q' : EventList Handler Bytes}
    (h : q'.start.Perm (rest ++ bot.queue.nodes (registers env event.handler event.data bot))) :
    (pendingIn q'.start).Perm (pendingIn rest) := by
  have hregisters : (registers env event.handler event.data bot).filterMap
      Registration.announces = [] := by
    cases event.handler <;> rfl
  apply (pendingIn_perm h).trans
  rw [pendingIn_append, pendingIn_nodes, hregisters, List.append_nil]

theorem pending_cons (hs : bot.queue.start = event :: rest) :
    pending bot = event.registration.announces.toList ++ pendingIn rest := by
  unfold pending pendingIn
  rw [hs, List.filterMap_cons]
  cases event.registration.announces <;> rfl

end Timer

/-- A step of a session, seen from the reminders: what was pending or has been
accepted is still pending or has been announced. -/
structure Conserves (env : Env) (bot bot' : Bot) : Prop where
  instant : bot.instant ≤ bot'.instant
  good : bot'.queue.Good
  trace : ∃ obs done, bot'.trace = bot.trace ++ obs ∧
    (pending bot ++ obs.filterMap Obs.accepted).Perm (pending bot' ++ done) ∧
    List.Forall₂ (Announces env) done (obs.filterMap Obs.announcement)

namespace Conserves
variable {env : Env} {bot bot' bot'' : Bot}

theorem refl (hg : bot.queue.Good) : Conserves env bot bot :=
  ⟨Nat.le_refl _, hg, [], [], by simp, by simp, .nil⟩

theorem trans (h : Conserves env bot bot') (h' : Conserves env bot' bot'') :
    Conserves env bot bot'' := by
  obtain ⟨obs, done, ht, hp, ha⟩ := h.trace
  obtain ⟨obs', done', ht', hp', ha'⟩ := h'.trace
  refine ⟨h.instant.trans h'.instant, h'.good, obs ++ obs', done ++ done', ?_, ?_, ?_⟩
  · rw [ht', ht, List.append_assoc]
  · rw [List.filterMap_append, ← List.append_assoc]
    calc (pending bot ++ obs.filterMap Obs.accepted) ++ obs'.filterMap Obs.accepted
      _ ~ (pending bot' ++ done) ++ obs'.filterMap Obs.accepted := hp.append_right _
      _ ~ (pending bot' ++ obs'.filterMap Obs.accepted) ++ done := by
        rw [List.append_assoc, List.append_assoc]
        exact List.perm_append_comm.append_left _
      _ ~ (pending bot'' ++ done') ++ done := hp'.append_right _
      _ ~ pending bot'' ++ (done ++ done') := by
        rw [List.append_assoc]
        exact List.perm_append_comm.append_left _
  · rw [List.filterMap_append]
    exact List.rel_append ha ha'

end Conserves

section Steps
variable {env : Env} {opts : Options} {bot bot' : Bot}

private theorem Reply.announcement {msg : MsgView} {writer : Writer} {written : WriteCall} {i : Nat}
    (h : Reply opts msg writer written) : (Obs.write writer written i).announcement = none := by
  cases h <;> rfl

theorem AsksFor.no_nul {g : Grammar} {r : Reminder} (h : AsksFor g.view r) (hnul : nul ∉ g.bytes) :
    nul ∉ r.target ∧ nul ∉ r.text := by
  have hall := h.all (P := fun b => b ≠ nul) (Grammar.view_all g fun b hb he => hnul (he ▸ hb))
  exact ⟨fun h => hall.1 nul h rfl, fun h => hall.2 nul h rfl⟩

/-- An accepted reminder is what its event announces. -/
theorem announces_accepted {g : Grammar} {r : Option Reminder} (hnul : nul ∉ g.bytes)
    (hask : ∀ r' ∈ r, AsksFor g.view r') :
    (r.toList.map Reminder.registration).filterMap Registration.announces = r.toList := by
  rw [List.filterMap_map]
  exact filterMap_announces fun r' hr' => (hask r' (Option.mem_toList.mp hr')).no_nul hnul

/-- A line seen from the reminders: perhaps one is accepted, nothing is
announced. -/
structure Accepts (env : Env) (w : Bytes) (bot bot' : Bot) (r : Option Reminder) : Prop where
  instant : bot.instant ≤ bot'.instant
  queue : bot'.queue = bot.queue.addAll (r.toList.map Reminder.registration)
  pending : (pending bot').Perm (pending bot ++ r.toList)
  reminders : bot'.reminders = r.elim bot.reminders fun r =>
    (env.append bot'.instant).file bot.reminders (record r.when r.target r.text)
  when : ∀ r' ∈ r, env.clock.now bot.instant ≤ r'.when
  asked : ∀ r' ∈ r, ∃ g : Grammar, g.Valid ∧ g.bytes = w ∧ nul ∉ w ∧ AsksFor g.view r'
  trace : ∃ obs, bot'.trace = bot.trace ++ obs ∧ obs.filterMap Obs.accepted = r.toList ∧
    obs.filterMap Obs.announcement = []

theorem Accepts.no_nul {w : Bytes} {r : Option Reminder} (h : Accepts env w bot bot' r) :
    ∀ r' ∈ r, nul ∉ r'.target ∧ nul ∉ r'.text := by
  intro r' hr'
  obtain ⟨g, -, rfl, hnul, hask⟩ := h.asked r' hr'
  exact hask.no_nul hnul

theorem processLine_accepts {w : Bytes} (h : processLine env opts w bot = .ok bot') :
    ∃ r, Accepts env w bot bot' r := by
  rcases processLine_cases h with ⟨rfl, -⟩ | ⟨g, r, hnul, hparse, hout, hask⟩
  · exact ⟨none, Nat.le_refl _, rfl, by simp, rfl, by simp, by simp, [], by simp, rfl, rfl⟩
  · obtain ⟨hv, rfl⟩ := (parseMsg_ok_iff _ _).mp hparse
    obtain ⟨obs, ht, hacc, hobs⟩ := hout.trace
    have hnone : obs.filterMap Obs.announcement = [] := by
      apply List.filterMap_eq_nil_iff.mpr
      intro o ho
      rcases hobs o ho with ⟨r', rfl⟩ | ⟨writer, written, i, rfl, hr⟩
      · rfl
      · exact hr.announcement
    have hqueue : bot'.queue = bot.queue.addAll (r.toList.map Reminder.registration) := hout.queue
    have hp := pendingIn_addAll bot.queue (r.toList.map Reminder.registration)
    rw [announces_accepted hnul hask, ← hqueue] at hp
    refine ⟨r, hout.instant, hqueue, hp, hout.reminders, fun r' hr' => ?_, fun r' hr' =>
      ⟨g, hv, rfl, hnul, hask r' hr'⟩, .handled g.view :: obs, ?_, ?_, ?_⟩
    · obtain ⟨k, hk, -, hwhen⟩ := hout.when r' hr'
      exact (env.clock.mono hk).trans hwhen
    · rw [ht]
      exact List.append_assoc _ _ _
    · rwa [List.filterMap_cons_none rfl]
    · rwa [List.filterMap_cons_none rfl]

theorem processLine_conserves (hg : bot.queue.Good) {w : Bytes}
    (h : processLine env opts w bot = .ok bot') : Conserves env bot bot' := by
  obtain ⟨r, ha⟩ := processLine_accepts h
  obtain ⟨obs, ht, hacc, hann⟩ := ha.trace
  refine ⟨ha.instant, ha.queue ▸ hg.addAll _, obs, [], ht, ?_, ?_⟩
  · rw [hacc, List.append_nil]
    exact ha.pending.symm
  · rw [hann]
    exact .nil

/-- The call of a handler adds nothing accepted; it announces what the event
stands for, or nothing. -/
private theorem callHandler_trace (event : TimeEvent Handler Bytes)
    (hdue : event.when ≤ env.clock.now bot.instant) :
    bot.instant ≤ (callHandler env event.handler event.data bot).instant ∧
    ∃ obs, (callHandler env event.handler event.data bot).trace = bot.trace ++ obs ∧
      obs.filterMap Obs.accepted = [] ∧
      List.Forall₂ (Announces env) event.registration.announces.toList
        (obs.filterMap Obs.announcement) := by
  obtain ⟨id, when, handler, data⟩ := event
  cases handler with
  | remind =>
    refine ⟨Nat.le_refl _, [.call .remind, .write .remind _ bot.instant],
      List.append_assoc _ _ _, rfl, .cons ⟨?_, hdue⟩ .nil⟩
    simp only [WriteCall.line, privmsgTo, List.append_assoc]
    rfl
  | at1337 => exact ⟨Nat.le_refl _, [.call .at1337], rfl, rfl, .nil⟩
  | at1338 =>
    rw [callHandler_at1338, at1338_eq]
    refine ⟨Nat.le_succ _, _, List.append_assoc _ _ _, ?_⟩
    cases (bot.observe (.call .at1338)).want1337 with
    | false => exact ⟨rfl, .nil⟩
    | true => exact ⟨rfl, .nil⟩

theorem callHandler_reminders (env : Env) (handler : Handler) (data : Bytes) (bot : Bot) :
    (callHandler env handler data bot).reminders = bot.reminders := by
  cases handler with
  | remind => rfl
  | at1337 => rfl
  | at1338 =>
    rw [callHandler_at1338, at1338_eq]
    rfl

/-- A call of `handle_time_event` seen from the reminders: the head's, if it is
one, is announced and no longer pending. -/
structure Handles (env : Env) (event : TimeEvent Handler Bytes) (bot bot' : Bot) : Prop where
  instant : bot.instant ≤ bot'.instant
  good : bot'.queue.Good
  pending : (pending bot).Perm (event.registration.announces.toList ++ pending bot')
  reminders : bot'.reminders = bot.reminders
  trace : ∃ obs, bot'.trace = bot.trace ++ obs ∧ obs.filterMap Obs.accepted = [] ∧
    List.Forall₂ (Announces env) event.registration.announces.toList
      (obs.filterMap Obs.announcement)

theorem handleTimeEvent_handles (hg : bot.queue.Good) {event : TimeEvent Handler Bytes}
    (hhead : bot.queue.start.head? = some event) (hdue : event.when ≤ env.clock.now bot.instant)
    (h : handleTimeEvent Bot.queueIn (callHandler env) bot = some bot') :
    Handles env event bot bot' := by
  obtain ⟨rest, hs⟩ := List.head?_eq_some_iff.mp hhead
  obtain ⟨q', hrun, hg', -, hperm⟩ := handleTimeEvent_due hg hs hdue
  obtain rfl := Option.some.inj (hrun.symm.trans h)
  obtain ⟨hi, htrace⟩ := callHandler_trace event hdue
  refine ⟨hi, hg', ?_, callHandler_reminders _ _ _ _, htrace⟩
  rw [pending_cons hs]
  exact (pendingIn_handled hperm).symm.append_left _

theorem handleTimeEvent_conserves (hg : bot.queue.Good) {event : TimeEvent Handler Bytes}
    (hhead : bot.queue.start.head? = some event) (hdue : event.when ≤ env.clock.now bot.instant)
    (h : handleTimeEvent Bot.queueIn (callHandler env) bot = some bot') : Conserves env bot bot' := by
  have hh := handleTimeEvent_handles hg hhead hdue h
  obtain ⟨obs, ht, hacc, hann⟩ := hh.trace
  refine ⟨hh.instant, hh.good, obs, event.registration.announces.toList, ht, ?_, hann⟩
  rw [hacc, List.append_nil]
  exact hh.pending.trans List.perm_append_comm

theorem SessionStep.conserves (hg : bot.queue.Good) (h : SessionStep env opts bot bot') :
    Conserves env bot bot' := by
  cases h with
  | line w h => exact processLine_conserves hg h
  | timer hhead hdue h => exact handleTimeEvent_conserves hg hhead hdue h
  | wait => exact ⟨Nat.le_succ _, hg, [], [], by simp, by simp [pending], .nil⟩

theorem conserves_of_run (hg : bot.queue.Good)
    (h : Relation.ReflTransGen (SessionStep env opts) bot bot') : Conserves env bot bot' := by
  induction h with
  | refl => exact .refl hg
  | tail _ hstep ih => exact ih.trans (hstep.conserves ih.good)

end Steps

/-- The events for the records in the file that are not past; the leet monitor
has read the clock before. -/
def restoredEvents (env : Env) (bot : Bot) : List (Registration Handler Bytes) :=
  match bot.reminders with
  | none => []
  | some file => due (env.clock.now (bot.instant + 1)) (scanFile file).1

/-- The reminders restored, as their handler reads them. -/
def restored (env : Env) (bot : Bot) : List Reminder :=
  (restoredEvents env bot).filterMap Registration.announces

theorem restored_none {env : Env} {bot : Bot} (h : bot.reminders = none) : restored env bot = [] := by
  unfold restored restoredEvents
  rw [h]
  rfl

theorem restored_some {env : Env} {bot : Bot} {file : Bytes} (h : bot.reminders = some file) :
    restored env bot =
      ((scanFile file).1.filter fun r => env.clock.now (bot.instant + 1) ≤ r.when).filterMap
        fun r => r.registration.announces := by
  unfold restored restoredEvents due
  rw [h]
  exact List.filterMap_map

theorem restoreState_eq (env : Env) (bot : Bot) :
    ∃ outcome, restoreState env bot = .ok (outcome, { bot with
      instant := bot.instant + 2
      queue := (bot.queue.addAll (leetRound env.zone (env.clock.now bot.instant))).addAll
        (restoredEvents env bot) }) := by
  unfold restoreState initLeetMonitor restoredEvents
  rw [scheduleNext1337_eq]
  cases hfile : bot.reminders with
  | none => exact ⟨_, restoreRemindState_none env rfl⟩
  | some file => exact ⟨_, restoreRemindState_some env rfl⟩

/-- After `restore_state` the event list is good, is not empty and holds the
reminders restored. -/
theorem restoreState_pending {env : Env} {bot bot' : Bot} {outcome : Restored}
    (hqueue : bot.queue = .empty) (h : restoreState env bot = .ok (outcome, bot')) :
    bot'.queue.Good ∧ bot'.queue.start ≠ [] ∧ (pending bot').Perm (restored env bot) := by
  obtain ⟨outcome', he⟩ := restoreState_eq env bot
  rw [hqueue] at he
  cases he.symm.trans h
  have hround := pendingIn_addAll .empty (leetRound env.zone (env.clock.now bot.instant))
  rw [announces_leetRound, List.append_nil] at hround
  refine ⟨(EventList.empty_good.addAll _).addAll _, fun hnil => ?_, ?_⟩
  · cases (EventList.addAll_eq_nil (EventList.addAll_eq_nil hnil).1).2
  · exact (pendingIn_addAll _ _).trans (hround.append_right _)

/-- At every point of a session, the reminders restored or accepted so far are
those still in the event list and those already announced, each with its own
target and text and not before its time. -/
theorem reminders_conserved {env : Env} {opts : Options} {bot₀ bot₁ bot : Bot} {outcome : Restored}
    (hqueue : bot₀.queue = .empty) (hrestore : restoreState env bot₀ = .ok (outcome, bot₁))
    (hrun : Relation.ReflTransGen (SessionStep env opts) bot₁ bot) :
    ∃ obs announced, bot.trace = bot₁.trace ++ obs ∧
      (restored env bot₀ ++ obs.filterMap Obs.accepted).Perm (pending bot ++ announced) ∧
      List.Forall₂ (Announces env) announced (obs.filterMap Obs.announcement) := by
  obtain ⟨hg, -, hp⟩ := restoreState_pending hqueue hrestore
  obtain ⟨obs, announced, ht, hperm, hann⟩ := (conserves_of_run hg hrun).trace
  exact ⟨obs, announced, ht, (hp.symm.append_right _).trans hperm, hann⟩

/-- A reminder restored in its own second is announced at once. -/
theorem restored_tea_announced : ∃ outcome bot₁ bot,
    restoreState (.still 5 (by decide)) { Bot.new with reminders := some (ascii "5 #c tea\n") } =
      .ok (outcome, bot₁) ∧
    handleTimeEvent Bot.queueIn (callHandler (.still 5 (by decide))) bot₁ = some bot ∧
    ∃ obs announced, bot.trace = bot₁.trace ++ obs ∧
      (restored (.still 5 (by decide)) { Bot.new with reminders := some (ascii "5 #c tea\n") } ++
        obs.filterMap Obs.accepted).Perm (pending bot ++ announced) ∧
      List.Forall₂ (Announces (.still 5 (by decide))) announced (obs.filterMap Obs.announcement) :=
  ⟨_, _, _, rfl, rfl, reminders_conserved rfl rfl
    (.single (@SessionStep.timer _ .default _ _ _ rfl (by decide) rfl))⟩

end Botniklas
