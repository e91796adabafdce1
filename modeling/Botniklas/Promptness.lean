import Botniklas.Foundation.Agenda
import Botniklas.Happenings

/-! How soon the main loop comes to an event that is due. -/
namespace Botniklas
open Foundation

/-- Turns of the main loop from `l₀` on and the events called in them. Time may pass between
any two, and `epoll_wait`, with room for all sources, leaves out no timer that is ready. -/
inductive Loop.Turns {pageSize : Nat} (env : Env) (opts : Options) (l₀ : Loop pageSize) :
    Nat → List (TimeEvent Handler Bytes) → Loop pageSize → Prop where
  | init : Turns env opts l₀ 0 [] l₀
  | wait {n : Nat} {called : List (TimeEvent Handler Bytes)} {l : Loop pageSize} :
      Turns env opts l₀ n called l →
      Turns env opts l₀ n called { l with bot := { l.bot with instant := l.bot.instant + 1 } }
  | call {n : Nat} {called : List (TimeEvent Handler Bytes)} {l : Loop pageSize}
      {rest : List Source} {event : TimeEvent Handler Bytes} {bot : Bot} :
      Turns env opts l₀ n called l → l.batch = .timer :: rest →
      l.bot.queue.start.head? = some event →
      handleTimeEvent Bot.queueIn (callHandler env) l.bot = some bot →
      Turns env opts l₀ (n + 1) (called ++ [event]) { l with bot, batch := rest }
  | other {n : Nat} {called : List (TimeEvent Handler Bytes)} {l l' : Loop pageSize} :
      Turns env opts l₀ n called l → l.Step env opts l' → l'.batch ≠ l.batch →
      l.batch.head? ≠ some .timer →
      (l.batch = [] → l.Expired env → l.Unreported → .timer ∈ l'.batch) →
      Turns env opts l₀ (n + 1) called l'

/-- At most so many turns until the timer has its turn, if it is ready. -/
def untilTimer : List Source → Nat
  | [] => 4
  | .timer :: _ => 1
  | _ :: rest => untilTimer rest + 1

section Batches
variable {batch rest : List Source} {source : Source}

theorem untilTimer_pos (batch : List Source) : 0 < untilTimer batch := by
  induction batch with
  | nil => exact Nat.succ_pos 3
  | cons source rest ih => cases source <;> exact Nat.succ_pos _

theorem untilTimer_cons (h : source ≠ .timer) : untilTimer (source :: rest) = untilTimer rest + 1 := by
  cases source with
  | timer => exact absurd rfl h
  | server | signal => rfl

theorem untilTimer_le_of_mem (h : .timer ∈ batch) : untilTimer batch ≤ batch.length := by
  induction batch with
  | nil => cases h
  | cons source rest ih =>
    by_cases hsource : source = .timer
    · subst hsource
      exact Nat.succ_le_succ (Nat.zero_le _)
    · rw [untilTimer_cons hsource]
      exact Nat.succ_le_succ (ih ((List.mem_cons.mp h).resolve_left (Ne.symm hsource)))

theorem untilTimer_le (batch : List Source) : untilTimer batch ≤ batch.length + 4 := by
  induction batch with
  | nil => exact le_rfl
  | cons source rest ih =>
    by_cases hsource : source = .timer
    · subst hsource
      exact Nat.succ_le_succ (Nat.zero_le _)
    · rw [untilTimer_cons hsource, List.length_cons]
      omega

theorem length_batch_le (h : batch.Nodup) : batch.length ≤ 3 := by
  have hsubset : batch ⊆ [.server, .timer, .signal] := by
    intro source _
    cases source <;> decide
  exact h.length_le_of_subset hsubset

/-- A batch without the timer, a wait, and a batch with it. -/
theorem untilTimer_le_six (h : batch.Nodup) : untilTimer batch ≤ 6 := by
  by_cases htimer : .timer ∈ batch
  · have hmem := untilTimer_le_of_mem htimer
    have hlength := length_batch_le h
    omega
  · have hsubset : batch ⊆ [.server, .signal] := by
      intro source hsource
      cases source with
      | timer => exact absurd hsource htimer
      | server | signal => decide
    have hlength := h.length_le_of_subset hsubset
    rw [List.length_cons, List.length_singleton] at hlength
    have hle := untilTimer_le batch
    omega

end Batches

/-- Events that are due no earlier stay behind. -/
theorem EventList.addAll_behind {η δ : Type} {q : EventList η δ} {event : TimeEvent η δ}
    {before after : List (TimeEvent η δ)} {rs : List (Registration η δ)} (hg : q.Good)
    (hs : q.start = before ++ event :: after) (hrs : ∀ r ∈ rs, event.when ≤ r.when) :
    ∃ after', (q.addAll rs).start = before ++ event :: after' := by
  induction rs generalizing q after with
  | nil => exact ⟨after, hs⟩
  | cons r rs ih =>
    rw [List.forall_mem_cons] at hrs
    have hsorted := hg.sorted
    rw [hs] at hsorted
    have hle : ∀ e ∈ before ++ [event], e.when ≤ (q.node r).when := by
      refine List.forall_mem_append.mpr ⟨fun e he => ?_, List.forall_mem_singleton.mpr hrs.1⟩
      exact ((List.pairwise_append.mp hsorted).2.2 e he event List.mem_cons_self).trans hrs.1
    have hstart : (q.addTimeEvent r).start =
        before ++ event :: insertAfter TimeEvent.when (q.node r) after := by
      rw [EventList.addTimeEvent_start, hs, ← List.singleton_append, ← List.append_assoc,
        insertAfter_append_of_le hle, List.append_assoc]
      rfl
    exact ih (hg.addTimeEvent r) hstart hrs.2

section Turns
variable {pageSize : Nat} {env : Env} {opts : Options} {l₀ l l' : Loop pageSize} {n k : Nat}
  {event : TimeEvent Handler Bytes} {called : List (TimeEvent Handler Bytes)}

theorem Loop.Turns.steps (h : l₀.Turns env opts n called l) :
    Relation.ReflTransGen (Loop.Step env opts) l₀ l := by
  induction h with
  | init => exact .refl
  | wait _ ih => exact ih.tail .wait
  | call _ hb _ hrun ih => exact ih.tail (.timer hb hrun)
  | other _ hstep _ _ _ ih => exact ih.tail hstep

/-- An event that is due, behind `k` others. -/
def Loop.Waits (env : Env) (l : Loop pageSize) (event : TimeEvent Handler Bytes) (k : Nat) : Prop :=
  event.when ≤ env.clock.now l.bot.instant ∧
    ∃ before after, l.bot.queue.start = before ++ event :: after ∧ before.length = k

theorem Loop.Waits.adds {bot : Bot} (hg : l.bot.queue.Good) (h : l.Waits env event k)
    (ha : Adds env l.bot bot) : ({ l with bot } : Loop pageSize).Waits env event k := by
  obtain ⟨hdue, before, after, hs, hk⟩ := h
  obtain ⟨rs, hq, hrs⟩ := ha.queue
  obtain ⟨after', hs'⟩ := EventList.addAll_behind hg hs fun r hr => hdue.trans (hrs r hr)
  exact ⟨hdue.trans (env.clock.mono ha.instant), before, after', (congrArg _ hq).trans hs', hk⟩

/-- The head of the list is due as well, so the timer is ready or in the batch. -/
theorem Loop.Waits.ready (hi : l.Inv env) (h : l.Waits env event k) (hnone : .timer ∉ l.batch) :
    l.Expired env ∧ l.Unreported := by
  obtain ⟨hdue, before, after, hs, -⟩ := h
  have hne : l.bot.queue.start ≠ [] := by
    rw [hs]
    exact List.append_ne_nil_of_right_ne_nil _ (List.cons_ne_nil _ _)
  obtain ⟨head, rest, hhead⟩ := List.exists_cons_of_ne_nil hne
  have hle : head.when ≤ event.when := by
    have hsorted := hi.good.sorted
    have hmem : event ∈ l.bot.queue.start := by
      rw [hs]
      exact List.mem_append_right _ List.mem_cons_self
    rw [hhead] at hsorted hmem
    rcases List.mem_cons.mp hmem with rfl | hmem
    · exact le_rfl
    · exact (List.pairwise_cons.mp hsorted).1 event hmem
  obtain ⟨hdeadline, hset⟩ := hi.good.armed head (by rw [hhead]; rfl)
  exact ⟨⟨hset, hdeadline.trans_le (hle.trans hdue)⟩, hi.wakes hnone hne⟩

/-- A call of the head brings the event forward by one, or is its own. -/
theorem Loop.Waits.call {head : TimeEvent Handler Bytes} {rest : List Source} {bot : Bot}
    (hi : l.Inv env) (h : l.Waits env event k) (hb : l.batch = .timer :: rest)
    (hhead : l.bot.queue.start.head? = some head)
    (hrun : handleTimeEvent Bot.queueIn (callHandler env) l.bot = some bot) :
    event = head ∨ ∃ k', k = k' + 1 ∧
      ({ l with bot, batch := rest } : Loop pageSize).Waits env event k' := by
  obtain ⟨hdue, before, after, hs, hk⟩ := h
  obtain ⟨-, head', hhead', hdue'⟩ := hi.due (hb ▸ List.mem_cons_self)
  obtain rfl := Option.mem_unique hhead hhead'
  cases before with
  | nil =>
    rw [hs] at hhead
    exact .inl (Option.some.inj hhead)
  | cons first before =>
    rw [hs] at hhead
    obtain rfl : first = head := Option.some.inj hhead
    obtain ⟨q', hcall, -, hdrop, -⟩ := handleTimeEvent_due hi.good hs hdue'
    obtain ⟨after', hs'⟩ := EventList.addAll_behind hi.good hs fun r hr =>
      (hdue.trans_lt (lt_registers hr)).le
    obtain ⟨hrest, -⟩ := EventList.dropStart_timer hs' hdrop
    have hinstant := (handleTimeEvent_handles hi.good (by rw [hs]; rfl) hdue' hrun).instant
    obtain rfl := Option.some.inj (hcall.symm.trans hrun)
    exact .inr ⟨before.length, hk.symm, hdue.trans (env.clock.mono hinstant), before, after', hrest,
      rfl⟩

/-- Any other turn brings the timer closer. -/
theorem Loop.Waits.other (hi : l.Inv env) (h : l.Waits env event k) (hstep : l.Step env opts l')
    (hmoved : l'.batch ≠ l.batch) (hhead : l.batch.head? ≠ some .timer)
    (hready : l.batch = [] → l.Expired env → l.Unreported → .timer ∈ l'.batch) :
    l'.Waits env event k ∧ untilTimer l'.batch < untilTimer l.batch := by
  cases hstep with
  | wait => exact absurd rfl hmoved
  | epollWait events hb hne hd _ =>
    have hnone : Source.timer ∉ l.batch := by
      rw [hb]
      exact List.not_mem_nil
    obtain ⟨hexpired, hunreported⟩ := h.ready hi hnone
    refine ⟨h, ?_⟩
    rw [hb]
    exact Nat.lt_succ_of_le
      ((untilTimer_le_of_mem (hready hb hexpired hunreported)).trans (length_batch_le hd))
  | server hb hrecv hrun =>
    obtain ⟨w, hun, hs⟩ := hi.buffer
    obtain ⟨data, -, hlines, -⟩ := ReadBuf.processMsgs_some hun hs hrecv hrun
    refine ⟨h.adds hi.good (processLines_adds hlines), ?_⟩
    rw [hb, untilTimer_cons Source.noConfusion]
    exact Nat.lt_succ_self _
  | timer hb _ =>
    rw [hb] at hhead
    exact absurd rfl hhead
  | signal hb _ =>
    refine ⟨h, ?_⟩
    rw [hb, untilTimer_cons Source.noConfusion]
    exact Nat.lt_succ_self _

/-- The turns made and those still to come, until the event has been called. -/
theorem Loop.Turns.progress (hi : l₀.Inv env) (hwaits : l₀.Waits env event k)
    (h : l₀.Turns env opts n called l) :
    event ∈ called ∨ ∃ k', l.Waits env event k' ∧ 6 * k' + untilTimer l.batch + n ≤ 6 * (k + 1) := by
  induction h with
  | init =>
    refine .inr ⟨k, hwaits, ?_⟩
    have hle := untilTimer_le_six hi.batch
    omega
  | wait hturns ih =>
    rcases ih with hcalled | ⟨k', ⟨hdue, hs⟩, hle⟩
    · exact .inl hcalled
    · exact .inr ⟨k', ⟨hdue.trans (env.clock.mono (Nat.le_succ _)), hs⟩, hle⟩
  | @call n called l rest head bot hturns hb hhead hrun ih =>
    have hi' := Loop.inv_of_run hi hturns.steps
    rcases ih with hcalled | ⟨k', hwaits', hle⟩
    · exact .inl (List.mem_append_left _ hcalled)
    · rcases hwaits'.call hi' hb hhead hrun with rfl | ⟨k₁, rfl, hnext⟩
      · exact .inl (List.mem_append_right _ List.mem_cons_self)
      · refine .inr ⟨k₁, hnext, ?_⟩
        have hnodup := hi'.batch
        rw [hb, List.nodup_cons] at hnodup
        have hsix := untilTimer_le_six hnodup.2
        have hpos := untilTimer_pos l.batch
        change 6 * k₁ + untilTimer rest + (n + 1) ≤ _
        omega
  | other hturns hstep hmoved hhead hready ih =>
    have hi' := Loop.inv_of_run hi hturns.steps
    rcases ih with hcalled | ⟨k', hwaits', hle⟩
    · exact .inl hcalled
    · obtain ⟨hnext, hlt⟩ := hwaits'.other hi' hstep hmoved hhead hready
      refine .inr ⟨k', hnext, ?_⟩
      omega

/-- Lines announce nothing. -/
theorem processLines_announcement {ws : List Bytes} {bot bot' : Bot}
    (h : processLines env opts ws bot = .ok bot') :
    ∃ obs, bot'.trace = bot.trace ++ obs ∧ obs.filterMap Obs.announcement = [] := by
  induction ws generalizing bot with
  | nil =>
    cases h
    exact ⟨[], (List.append_nil _).symm, rfl⟩
  | cons w ws ih =>
    cases hw : processLine env opts w bot with
    | error e =>
      rw [processLines, hw] at h
      cases h
    | ok bot₁ =>
      rw [processLines, hw] at h
      obtain ⟨r, haccepts⟩ := processLine_accepts hw
      obtain ⟨obs, htrace, -, hnone⟩ := haccepts.trace
      obtain ⟨obs', htrace', hnone'⟩ := ih h
      refine ⟨obs ++ obs', ?_, ?_⟩
      · rw [htrace', htrace, List.append_assoc]
      · rw [List.filterMap_append, hnone, hnone', List.append_nil]

/-- What is called and stands for a reminder announces it. -/
theorem Loop.Turns.announces (hi : l₀.Inv env) (h : l₀.Turns env opts n called l) :
    ∃ obs, l.bot.trace = l₀.bot.trace ++ obs ∧
      List.Forall₂ (Announces env) (pendingIn called) (obs.filterMap Obs.announcement) := by
  induction h with
  | init => exact ⟨[], (List.append_nil _).symm, .nil⟩
  | wait _ ih => exact ih
  | @call n called l rest head bot hturns hb hhead hrun ih =>
    have hi' := Loop.inv_of_run hi hturns.steps
    obtain ⟨-, head', hhead', hdue⟩ := hi'.due (hb ▸ List.mem_cons_self)
    obtain rfl := Option.mem_unique hhead hhead'
    obtain ⟨obs, htrace, hannounced⟩ := ih
    obtain ⟨obs', htrace', -, hannounced'⟩ :=
      (handleTimeEvent_handles hi'.good hhead hdue hrun).trace
    refine ⟨obs ++ obs', ?_, ?_⟩
    · change bot.trace = _
      rw [htrace', htrace, List.append_assoc]
    · have hlast : pendingIn [head] = head.registration.announces.toList := by
        unfold pendingIn
        rw [List.filterMap_cons]
        cases head.registration.announces <;> rfl
      rw [pendingIn_append, List.filterMap_append, hlast]
      exact List.rel_append hannounced hannounced'
  | @other n called l l' hturns hstep hmoved hhead _ ih =>
    have hi' := Loop.inv_of_run hi hturns.steps
    obtain ⟨obs, htrace, hannounced⟩ := ih
    have hmore : ∃ obs', l'.bot.trace = l.bot.trace ++ obs' ∧
        obs'.filterMap Obs.announcement = [] := by
      cases hstep with
      | wait => exact absurd rfl hmoved
      | epollWait events _ _ _ _ => exact ⟨[], (List.append_nil _).symm, rfl⟩
      | server hb hrecv hrun =>
        obtain ⟨w, hun, hs⟩ := hi'.buffer
        obtain ⟨data, -, hlines, -⟩ := ReadBuf.processMsgs_some hun hs hrecv hrun
        exact processLines_announcement hlines
      | timer hb _ =>
        rw [hb] at hhead
        exact absurd rfl hhead
      | signal _ _ => exact ⟨_, rfl, rfl⟩
    obtain ⟨obs', htrace', hnone⟩ := hmore
    refine ⟨obs ++ obs', ?_, ?_⟩
    · rw [htrace', htrace, List.append_assoc]
    · rw [List.filterMap_append, hnone, List.append_nil]
      exact hannounced

end Turns

/-- From any state of the main loop, an event that is due behind `before` is called within six
turns for itself and each of those before it, however much the server sends meanwhile and
whatever is registered; and the reminders among the events called are announced. -/
theorem due_events_called_soon {pageSize : Nat} {env : Env} {opts : Options} {bot₀ bot₁ : Bot}
    {outcome : Restored} {page : Mem (.mirror pageSize)} {l₀ l : Loop pageSize} {n : Nat}
    {event : TimeEvent Handler Bytes} {before after called : List (TimeEvent Handler Bytes)}
    (hqueue : bot₀.queue = .empty) (hrestore : restoreState env bot₀ = .ok (outcome, bot₁))
    (hrun : Relation.ReflTransGen (Loop.Step env opts)
      (.enter page (connectToIrcServer opts bot₁)) l₀)
    (hs : l₀.bot.queue.start = before ++ event :: after)
    (hdue : event.when ≤ env.clock.now l₀.bot.instant)
    (hturns : l₀.Turns env opts n called l) (hn : 6 * (before.length + 1) ≤ n) :
    event ∈ called ∧ ∃ obs, l.bot.trace = l₀.bot.trace ++ obs ∧
      List.Forall₂ (Announces env) (pendingIn called) (obs.filterMap Obs.announcement) := by
  have hi := Loop.inv_of_run (@entered_inv pageSize env opts bot₀ bot₁ outcome page hqueue hrestore)
    hrun
  refine ⟨?_, hturns.announces hi⟩
  rcases hturns.progress hi ⟨hdue, before, after, hs, rfl⟩ with hcalled | ⟨k, -, hle⟩
  · exact hcalled
  · have hpos := untilTimer_pos l.batch
    omega

/-- Two turns in which a byte comes from the server. -/
private theorem server_turns {pageSize : Nat} {env : Env} {opts : Options} {l₀ l : Loop pageSize}
    {n : Nat} {called : List (TimeEvent Handler Bytes)} {w : Bytes}
    (h : l₀.Turns env opts n called l) (hb : l.batch = []) (hun : l.rb.Unread w)
    (hstart : l.rb.start ≤ pageSize) (hw : ∀ b ∈ w, isEol b = false) (hroom : w.length < pageSize)
    (hquiet : ¬ l.Expired env) :
    ∃ l', l₀.Turns env opts (n + 2) called l' ∧ l'.batch = [] ∧ l'.bot = l.bot ∧
      l'.rb.Unread (w ++ [97]) ∧ l'.rb.start ≤ pageSize ∧ ∀ b ∈ w ++ [97], isEol b = false := by
  have hopen : ∀ b ∈ w ++ [97], isEol b = false :=
    List.forall_mem_append.mpr ⟨hw, List.forall_mem_singleton.mpr rfl⟩
  have hrun := @ReadBuf.processMsgs_run pageSize l.rb w env opts [97] l.bot hun hstart fun _ => hroom
  rw [if_neg (Nat.ne_of_lt hroom), pieces_of_open hopen] at hrun
  obtain ⟨rb, hrun, hun', hstart'⟩ := hrun
  have hfinish := hun.finish
  have hwait := h.other (.epollWait [.server] hb (List.cons_ne_nil _ _) (by decide) (by simp))
    (by rw [hb]; exact List.cons_ne_nil _ _) (by rw [hb]; exact nofun)
    fun _ hexpired => absurd hexpired hquiet
  have hserver := hwait.other (.server rfl (show Recv.AtMost _ (.data [97]) from ?_) hrun)
    (List.cons_ne_nil _ _).symm nofun nofun
  · exact ⟨_, hserver, rfl, rfl, hun', hstart', hopen⟩
  · change 1 ≤ pageSize - (l.rb.finish - l.rb.start)
    omega

/-- Two turns in which the timer is reported and its event called. -/
private theorem call_turns {pageSize : Nat} {env : Env} {opts : Options} {l : Loop pageSize}
    {bot : Bot} {event : TimeEvent Handler Bytes} (hb : l.batch = [])
    (hready : l.Expired env ∧ l.Unreported) (hhead : l.bot.queue.start.head? = some event)
    (hrun : handleTimeEvent Bot.queueIn (callHandler env) l.bot = some bot) :
    ∃ l', l.Turns env opts 2 [event] l' ∧ l'.batch = [] ∧ l'.rb = l.rb ∧ l'.bot = bot := by
  have hwait := (@Loop.Turns.init pageSize env opts l).other
    (.epollWait [.timer] hb (List.cons_ne_nil _ _) (by decide) fun _ => hready)
    (by rw [hb]; exact List.cons_ne_nil _ _) (by rw [hb]; exact nofun)
    fun _ _ _ => List.mem_cons_self
  exact ⟨_, hwait.call rfl hhead hrun, rfl, rfl, rfl⟩

/-- A reminder restored in its own second, while the server goes on sending. -/
theorem tea_called_in_six : ∃ (bot₁ : Bot) (l : Loop 512) (event : TimeEvent Handler Bytes)
    (called : List (TimeEvent Handler Bytes)) (obs : List Obs),
    bot₁.queue.start.head? = some event ∧ event.handler = .remind ∧ event ∈ called ∧
    l.bot.trace = bot₁.trace ++ obs ∧
    List.Forall₂ (Announces (.still 5 (by decide))) (pendingIn called)
      (obs.filterMap Obs.announcement) := by
  obtain ⟨outcome, bot₁, hrestore, hready, event, rest, bot, hs, hremind, hdue, hcall, hlater⟩ :
      ∃ outcome bot₁, restoreState (.still 5 (by decide))
        { Bot.new with reminders := some (ascii "5 #c tea\n") } = .ok (outcome, bot₁) ∧
      ((Loop.enter (⟨fun _ => 0⟩ : Mem (.mirror 512)) (connectToIrcServer .default bot₁)).Expired
          (.still 5 (by decide)) ∧
        (Loop.enter (⟨fun _ => 0⟩ : Mem (.mirror 512))
          (connectToIrcServer .default bot₁)).Unreported) ∧
      ∃ event rest bot, (connectToIrcServer .default bot₁).queue.start = event :: rest ∧
        event.handler = .remind ∧ event.when ≤ 5 ∧
        handleTimeEvent Bot.queueIn (callHandler (.still 5 (by decide)))
          (connectToIrcServer .default bot₁) = some bot ∧ ¬ bot.queue.timer.deadline ≤ 5 := by
    obtain ⟨outcome, hrestore⟩ := restoreState_eq (.still 5 (by decide))
      { Bot.new with reminders := some (ascii "5 #c tea\n") }
    exact ⟨outcome, _, hrestore, by decide, _, _, _, rfl, rfl, by decide, rfl, by decide⟩
  have hhead := List.head?_eq_some_iff.mpr ⟨rest, hs⟩
  obtain ⟨l₂, hcalled, hb₂, hrb, rfl⟩ := @call_turns 512 _ .default _ _ _ rfl hready hhead hcall
  have hun : l₂.rb.Unread [] := by
    rw [hrb]
    exact ⟨rfl, Nat.zero_le _, Nat.zero_le _, trivial⟩
  obtain ⟨l₄, hsent, hb₄, hbot₄, hun₄, hstart₄, hopen⟩ := server_turns hcalled hb₂ hun
    (by rw [hrb]; exact Nat.zero_le _) nofun (by decide) fun hexpired => hlater hexpired.2
  have hquiet₄ : ¬ l₄.Expired (.still 5 (by decide)) := by
    unfold Loop.Expired Loop.timer
    rw [hbot₄]
    exact fun hexpired => hlater hexpired.2
  obtain ⟨l₆, hsent₆, -⟩ := server_turns hsent hb₄ hun₄ hstart₄ hopen (by decide) hquiet₄
  obtain ⟨hmem, obs, htrace, hannounced⟩ := @due_events_called_soon 512 _ _ _ _ _ _ _ _ _ _ [] rest
    _ rfl hrestore .refl hs hdue hsent₆ (by decide)
  exact ⟨_, l₆, event, _, obs, hhead, hremind, hmem, htrace, hannounced⟩

end Botniklas
