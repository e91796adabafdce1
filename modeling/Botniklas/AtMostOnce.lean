import Botniklas.AppendRecord
import Botniklas.Injection

/-! Announcements over several sessions that share the reminders file. -/
namespace Botniklas
open Foundation Irc
open scoped List

/-- The bot over its sessions, with the reminders announced so far. `Restart`
says when a session may be followed by another; the history goes on. -/
inductive Sessions (env : Env) (Restart : List Reminder → Bot → Prop) :
    (announced : List Reminder) → Bot → Prop where
  | first {bot₀ bot : Bot} {outcome : Restored} : bot₀.reminders = none →
      restoreState env bot₀.restarted = .ok (outcome, bot) → Sessions env Restart [] bot
  | line {announced : List Reminder} {bot bot' : Bot} {opts : Options} (w : Bytes) :
      Sessions env Restart announced bot → (∀ b ∈ w, isEol b = false) →
      processLine env opts w bot = .ok bot' → Sessions env Restart announced bot'
  | timer {announced : List Reminder} {bot bot' : Bot} {event : TimeEvent Handler Bytes} :
      Sessions env Restart announced bot → bot.queue.start.head? = some event →
      event.when ≤ env.clock.now bot.instant →
      handleTimeEvent Bot.queueIn (callHandler env) bot = some bot' →
      Sessions env Restart (announced ++ event.registration.announces.toList) bot'
  | wait {announced : List Reminder} {bot : Bot} : Sessions env Restart announced bot →
      Sessions env Restart announced { bot with instant := bot.instant + 1 }
  | restart {announced : List Reminder} {bot bot' : Bot} {outcome : Restored} :
      Sessions env Restart announced bot → Restart announced bot →
      restoreState env { bot.restarted with trace := bot.trace } = .ok (outcome, bot') →
      Sessions env Restart announced bot'

/-- `restore_remind_state` reads the clock in no second some reminder was
announced for; the leet monitor has read it before. -/
def NotTheSecondOf (env : Env) (announced : List Reminder) (bot : Bot) : Prop :=
  ∀ r ∈ announced, r.when ≠ env.clock.now (bot.instant + 1)

def Bot.accepted (bot : Bot) : List Reminder := bot.trace.filterMap Obs.accepted

def Bot.announcements (bot : Bot) : List (WriteCall × Nat) :=
  bot.trace.filterMap Obs.announcement

/-- The file holds records of reminders that have been accepted, each as often at
most. -/
def SavedFrom (accepted : List Reminder) (file : Option Bytes) : Prop :=
  ∃ saved : List Reminder, file.getD [] = saved.flatMap Reminder.record ∧
    (∀ r ∈ saved, Writable r ∧ nul ∉ r.target ∧ nul ∉ r.text) ∧
    ∀ r, saved.count r ≤ accepted.count r

/-- No reminder is pending or announced more often than it has been accepted, and
only accepted ones are in the file. -/
structure Sessions.Inv (env : Env) (announced : List Reminder) (bot : Bot) : Prop where
  good : bot.queue.Good
  past : ∀ r ∈ announced, r.when ≤ env.clock.now bot.instant
  counts : ∀ r, announced.count r + (pending bot).count r ≤ bot.accepted.count r
  saved : SavedFrom bot.accepted bot.reminders
  written : List.Forall₂ (Announces env) announced bot.announcements

namespace SavedFrom
variable {accepted : List Reminder} {file : Option Bytes}

theorem mono (h : SavedFrom accepted file) (more : List Reminder) :
    SavedFrom (accepted ++ more) file := by
  obtain ⟨saved, hfile, hok, hle⟩ := h
  refine ⟨saved, hfile, hok, fun r => ?_⟩
  rw [List.count_append]
  exact (hle r).trans (Nat.le_add_right _ _)

/-- A file that takes the record whole, or is not opened. -/
theorem append (h : SavedFrom accepted file) {outcome : Append} (hcut : ∀ n, outcome ≠ .cut n)
    {r : Reminder} (hr : Writable r ∧ nul ∉ r.target ∧ nul ∉ r.text) :
    SavedFrom (accepted ++ [r]) (outcome.file file r.record) := by
  cases outcome with
  | cut n => exact absurd rfl (hcut n)
  | unopened => exact h.mono [r]
  | whole =>
    obtain ⟨saved, hfile, hok, hle⟩ := h
    refine ⟨saved ++ [r], ?_, ?_, fun r' => ?_⟩
    · rw [List.flatMap_append, ← hfile]
      simp [Append.file]
    · exact List.forall_mem_append.mpr ⟨hok, List.forall_mem_singleton.mpr hr⟩
    · rw [List.count_append, List.count_append]
      exact Nat.add_le_add_right (hle r') _

end SavedFrom

section Steps
variable {env : Env} {announced : List Reminder} {bot bot' : Bot}

/-- What is restored has been accepted and is not past. -/
private theorem count_restored (h : SavedFrom bot.accepted bot.reminders) (r : Reminder) :
    (restored env bot).count r ≤
      if env.clock.now (bot.instant + 1) ≤ r.when then bot.accepted.count r else 0 := by
  obtain ⟨saved, hfile, hok, hle⟩ := h
  have hsub : restored env bot <+
      saved.filter fun r => env.clock.now (bot.instant + 1) ≤ r.when := by
    have hscan := (scanFile_saved fun r hr => (hok r hr).1).sublist
    cases hf : bot.reminders with
    | none =>
      rw [restored_none hf]
      exact List.nil_sublist _
    | some file =>
      rw [hf, Option.getD_some] at hfile
      subst hfile
      rw [restored_some hf, filterMap_announces fun r hr =>
        (hok r (hscan.subset (List.mem_of_mem_filter hr))).2]
      exact hscan.filter _
  apply (hsub.count_le r).trans
  split_ifs with hr
  · exact (List.filter_sublist.count_le r).trans (hle r)
  · refine (List.count_eq_zero.mpr fun hmem => ?_).le
    have hlater := List.of_mem_filter hmem
    exact hr (of_decide_eq_true hlater)

/-- A new session: what has been announced is not restored. -/
theorem Sessions.Inv.start {outcome : Restored}
    (hpast : ∀ r ∈ announced, r.when ≤ env.clock.now bot.instant)
    (hlater : NotTheSecondOf env announced bot)
    (hcounts : ∀ r, announced.count r ≤ bot.accepted.count r)
    (hsaved : SavedFrom bot.accepted bot.reminders)
    (hwritten : List.Forall₂ (Announces env) announced bot.announcements)
    (h : restoreState env { bot.restarted with trace := bot.trace } = .ok (outcome, bot')) :
    Sessions.Inv env announced bot' := by
  obtain ⟨hg, -, hp⟩ := restoreState_pending rfl h
  obtain ⟨outcome', he⟩ := restoreState_eq env { bot.restarted with trace := bot.trace }
  cases he.symm.trans h
  have hnext := env.clock.mono (Nat.le_succ bot.instant)
  refine ⟨hg, fun r hr => ?_, fun r => ?_, hsaved, hwritten⟩
  · exact (hpast r hr).trans (env.clock.mono (Nat.le_add_right _ 2))
  · have hrestored : (restored env { bot.restarted with trace := bot.trace }).count r ≤
        if env.clock.now (bot.instant + 1) ≤ r.when then bot.accepted.count r else 0 :=
      count_restored hsaved r
    rw [hp.count_eq r]
    by_cases hr : r ∈ announced
    · have hpassed : ¬ env.clock.now (bot.instant + 1) ≤ r.when := fun hle =>
        hlater r hr (le_antisymm ((hpast r hr).trans hnext) hle)
      rw [if_neg hpassed] at hrestored
      exact (Nat.add_le_add_left hrestored _).trans (hcounts r)
    · rw [List.count_eq_zero.mpr hr, Nat.zero_add]
      apply hrestored.trans
      split_ifs
      · exact Nat.le_refl _
      · exact Nat.zero_le _

theorem Sessions.Inv.line {opts : Options} {w : Bytes} (hi : Sessions.Inv env announced bot)
    (hfiles : ∀ i n, env.append i ≠ .cut n) (hw : ∀ b ∈ w, isEol b = false)
    (h : processLine env opts w bot = .ok bot') : Sessions.Inv env announced bot' := by
  obtain ⟨r, ha⟩ := processLine_accepts h
  obtain ⟨obs, ht, hacc, hann⟩ := ha.trace
  have haccepted : bot'.accepted = bot.accepted ++ r.toList := by
    rw [Bot.accepted, ht, List.filterMap_append, hacc]
    rfl
  have hannouncements : bot'.announcements = bot.announcements := by
    rw [Bot.announcements, ht, List.filterMap_append, hann, List.append_nil]
    rfl
  refine ⟨ha.queue ▸ hi.good.addAll _, fun r' hr' => ?_, fun r' => ?_, ?_, ?_⟩
  · exact (hi.past r' hr').trans (env.clock.mono ha.instant)
  · rw [haccepted, ha.pending.count_eq r', List.count_append, List.count_append, ← Nat.add_assoc]
    exact Nat.add_le_add_right (hi.counts r') _
  · rw [haccepted, ha.reminders]
    cases r with
    | none => exact hi.saved.mono []
    | some r =>
      refine hi.saved.append (hfiles _) ⟨(ha.writable hw r rfl).1, ?_⟩
      exact ha.no_nul r rfl
  · rw [hannouncements]
    exact hi.written

theorem Sessions.Inv.timer {event : TimeEvent Handler Bytes} (hi : Sessions.Inv env announced bot)
    (hhead : bot.queue.start.head? = some event) (hdue : event.when ≤ env.clock.now bot.instant)
    (h : handleTimeEvent Bot.queueIn (callHandler env) bot = some bot') :
    Sessions.Inv env (announced ++ event.registration.announces.toList) bot' := by
  have hh := handleTimeEvent_handles hi.good hhead hdue h
  obtain ⟨obs, ht, hacc, hann⟩ := hh.trace
  have haccepted : bot'.accepted = bot.accepted := by
    rw [Bot.accepted, ht, List.filterMap_append, hacc, List.append_nil]
    rfl
  refine ⟨hh.good, ?_, fun r => ?_, ?_, ?_⟩
  · intro r hr
    have hmono := env.clock.mono hh.instant
    rcases List.mem_append.mp hr with hr | hr
    · exact (hi.past r hr).trans hmono
    · rw [when_of_announces (Option.mem_toList.mp hr)]
      exact hdue.trans hmono
  · have hcount := hh.pending.count_eq r
    have hle := hi.counts r
    rw [List.count_append] at hcount ⊢
    rw [haccepted]
    omega
  · rw [hh.reminders, haccepted]
    exact hi.saved
  · rw [Bot.announcements, ht, List.filterMap_append]
    exact List.rel_append hi.written hann

end Steps

/-- Over any number of sessions, none started in a second for which a reminder
has been announced, no reminder is announced more often than it was accepted. -/
theorem announced_at_most_once {env : Env} {announced : List Reminder} {bot : Bot}
    (hfiles : ∀ i n, env.append i ≠ .cut n)
    (h : Sessions env (NotTheSecondOf env) announced bot) :
    (∀ r, announced.count r ≤ bot.accepted.count r) ∧
      List.Forall₂ (Announces env) announced bot.announcements := by
  have hi : Sessions.Inv env announced bot := by
    induction h with
    | @first bot₀ bot outcome hnone hrestore =>
      refine @Sessions.Inv.start env [] { bot₀ with trace := [] } bot outcome
        (fun _ h => nomatch h) (fun _ h => nomatch h) (by simp) ⟨[], ?_, by simp, by simp⟩ .nil
        hrestore
      exact congrArg (Option.getD · []) hnone
    | line w _ hw h ih => exact ih.line hfiles hw h
    | timer _ hhead hdue h ih => exact ih.timer hhead hdue h
    | wait _ ih =>
      exact ⟨ih.good, fun r hr => (ih.past r hr).trans (env.clock.mono (Nat.le_succ _)), ih.counts,
        ih.saved, ih.written⟩
    | restart _ hlater h ih =>
      exact .start ih.past hlater (fun r => (Nat.le_add_right _ _).trans (ih.counts r)) ih.saved
        ih.written h
  exact ⟨fun r => (Nat.le_add_right _ _).trans (hi.counts r), hi.written⟩

/-! A reminder for the second in which it is asked for. -/

/-- A clock that shows 1 ten times, and then 2. -/
def tick : Env where
  clock.now n := if n < 10 then 1 else 2
  clock.mono a b hab := by
    dsimp only
    split_ifs <;> omega
  clock.pos n := by
    split_ifs <;> decide
  zone := 0
  append _ := .whole

def tea : Reminder := ⟨1, ascii "#c", ascii "tea"⟩

private theorem tea_accepted (Restart : List Reminder → Bot → Prop) : ∃ bot rest timer,
    Sessions tick Restart [] bot ∧
    bot.queue = ⟨⟨2, 1, .remind, ascii "#c\x00tea\x00"⟩ :: ⟨0, 49020, .at1337, []⟩ :: rest, 3, timer⟩ ∧
    bot.instant = 5 ∧ bot.reminders = some (ascii "1 #c tea\n") ∧ bot.accepted = [tea] ∧
    bot.announcements = [] := by
  have hfirst : restoreState tick Bot.new.restarted = .ok (.noFile, ⟨2,
      ⟨[⟨0, 49020, .at1337, []⟩, ⟨1, 49080, .at1338, []⟩], 2, ⟨49020, 1⟩⟩, false, none, [], []⟩) :=
    rfl
  have hline : ∃ bot, processLine tick .default (ascii ":al!u@h PRIVMSG #c :!remind 00:00:01 tea")
        ⟨2, ⟨[⟨0, 49020, .at1337, []⟩, ⟨1, 49080, .at1338, []⟩], 2, ⟨49020, 1⟩⟩,
          false, none, [], []⟩ = .ok bot ∧
      bot.queue = ⟨⟨2, 1, .remind, ascii "#c\x00tea\x00"⟩ :: ⟨0, 49020, .at1337, []⟩ ::
        [⟨1, 49080, .at1338, []⟩], 3, ⟨1, 2⟩⟩ ∧ bot.instant = 5 ∧
      bot.reminders = some (ascii "1 #c tea\n") ∧ bot.accepted = [tea] ∧ bot.announcements = [] :=
    ⟨_, (processLine_eq _ _ _ _).trans rfl, by decide, rfl, by decide, by decide, by decide⟩
  obtain ⟨bot, hrun, hqueue, hfacts⟩ := hline
  exact ⟨bot, _, _, (Sessions.first rfl hfirst).line _ (by decide +kernel) hrun, hqueue, hfacts⟩

/-- With the reminder at the head of the list. -/
private theorem tea_announced {Restart : List Reminder → Bot → Prop} {announced : List Reminder}
    {bot : Bot} {id fresh : Nat} {timer : Timer} {next : TimeEvent Handler Bytes}
    {rest : List (TimeEvent Handler Bytes)} (h : Sessions tick Restart announced bot)
    (hqueue : bot.queue =
      ⟨⟨id, 1, .remind, ascii "#c\x00tea\x00"⟩ :: next :: rest, fresh, timer⟩) :
    ∃ bot', Sessions tick Restart (announced ++ [tea]) bot' ∧ bot'.instant = bot.instant ∧
      bot'.reminders = bot.reminders ∧ bot'.accepted = bot.accepted ∧
      bot'.announcements.length = bot.announcements.length + 1 := by
  obtain ⟨instant, queue, want, reminders, log, trace⟩ := bot
  cases hqueue
  have hfilter : ∀ {α : Type} (f : Obs → Option α) (o o' : Obs),
      (trace ++ [o] ++ [o']).filterMap f = trace.filterMap f ++ [o, o'].filterMap f := by
    intro α f o o'
    rw [List.append_assoc, List.filterMap_append]
    rfl
  refine ⟨_, h.timer rfl (Int.add_one_le_of_lt (tick.clock.pos instant)) rfl, rfl, rfl, ?_, ?_⟩
  · exact (hfilter Obs.accepted _ _).trans (List.append_nil _)
  · exact (congrArg List.length (hfilter Obs.announcement _ _)).trans List.length_append

/-- Accepted once, announced, restored in the same second and announced again. -/
theorem announced_twice : ∃ bot, Sessions tick (fun _ _ => True) [tea, tea] bot ∧
    bot.accepted = [tea] ∧ bot.announcements.length = 2 := by
  obtain ⟨bot₁, rest, timer, h₁, hqueue, hinstant, hfile, haccepted, hnone⟩ :=
    tea_accepted fun _ _ => True
  obtain ⟨bot₂, h₂, hi₂, hf₂, ha₂, hn₂⟩ := tea_announced h₁ hqueue
  obtain ⟨outcome, hrestore⟩ := restoreState_eq tick { bot₂.restarted with trace := bot₂.trace }
  have hagain : restoredEvents tick { bot₂.restarted with trace := bot₂.trace } =
      [tea.registration] := by
    unfold restoredEvents Bot.restarted
    dsimp only
    rw [hf₂, hfile, hi₂, hinstant]
    rfl
  have hqueue₂ : (EventList.empty.addAll (leetRound tick.zone (tick.clock.now bot₂.instant))).addAll
      (restoredEvents tick { bot₂.restarted with trace := bot₂.trace }) =
        ⟨⟨2, 1, .remind, ascii "#c\x00tea\x00"⟩ :: ⟨0, 49020, .at1337, []⟩ ::
          [⟨1, 49080, .at1338, []⟩], 3, ⟨1, 2⟩⟩ := by
    rw [hagain, hi₂, hinstant]
    rfl
  obtain ⟨bot₃, h₃, -, -, ha₃, hn₃⟩ := tea_announced (h₂.restart trivial hrestore) hqueue₂
  refine ⟨bot₃, h₃, ha₃.trans (ha₂.trans haccepted), hn₃.trans ?_⟩
  exact congrArg (· + 1) (hn₂.trans (congrArg (fun l => l.length + 1) hnone))

/-- Announced a second before the bot is started again. -/
theorem tea_announced_once : ∃ bot, Sessions tick (NotTheSecondOf tick) [tea] bot ∧
    bot.accepted = [tea] ∧ [tea].count tea ≤ bot.accepted.count tea := by
  obtain ⟨bot₁, rest, timer, h₁, hqueue, hinstant, -, haccepted, -⟩ :=
    tea_accepted (NotTheSecondOf tick)
  obtain ⟨bot₂, h₂, hi₂, -, ha₂, -⟩ := tea_announced h₁.wait.wait.wait.wait.wait hqueue
  obtain ⟨outcome, hrestore⟩ := restoreState_eq tick { bot₂.restarted with trace := bot₂.trace }
  have hten : bot₂.instant = 10 := hi₂.trans (congrArg (· + 5) hinstant)
  have hlater : NotTheSecondOf tick ([] ++ [tea]) bot₂ := by
    intro r hr
    rw [List.mem_singleton.mp hr, hten]
    decide
  have hfiles : ∀ i n, tick.append i ≠ .cut n := fun _ _ h => nomatch h
  have h₃ := h₂.restart hlater hrestore
  exact ⟨_, h₃, ha₂.trans haccepted, (announced_at_most_once hfiles h₃).1 tea⟩

end Botniklas
