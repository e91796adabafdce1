import Botniklas.Framing
import Botniklas.Session

/-! The main loop. The kernel is seen through what it may report: a batch of
ready sources, the timer among them once for each time it was set. -/
namespace Botniklas
open Foundation Irc

/-- Event sources. -/
inductive Source where
  | server
  | timer
  | signal
  deriving DecidableEq, Repr

/-- The registration messages; the connection itself is the socket's. -/
def connectToIrcServer (opts : Options) (bot : Bot) : Bot :=
  (bot.write .login (.writeMsg (ascii "NICK " ++ opts.nick))).write .login
    (.writeMsg (ascii "USER " ++ opts.username ++ ascii " 0 * :" ++ opts.realname))

/-- `batch` is the part of `events` still to be processed, `reported` the number
of the setting whose expiry the last batch with the timer was about. -/
structure Loop (pageSize : Nat) where
  bot : Bot
  rb : ReadBuf pageSize
  batch : List Source
  reported : Nat
  firstSignal : Bool

namespace Loop
variable {pageSize : Nat}

/-- Before the first `epoll_wait`. -/
def enter (page : Mem (.mirror pageSize)) (bot : Bot) : Loop pageSize :=
  ⟨bot, ⟨page, 0, 0⟩, [], 0, true⟩

def timer (l : Loop pageSize) : Timer := l.bot.queue.timer

/-- The timer is set and its time has come. -/
def Expired (env : Env) (l : Loop pageSize) : Prop :=
  0 < l.timer.settings ∧ l.timer.deadline ≤ env.clock.now l.bot.instant

/-- No batch has been about the timer as it is set now. -/
def Unreported (l : Loop pageSize) : Prop := l.reported < l.timer.settings

instance (env : Env) (l : Loop pageSize) : Decidable (l.Expired env) :=
  inferInstanceAs (Decidable (_ ∧ _))

instance (l : Loop pageSize) : Decidable l.Unreported := inferInstanceAs (Decidable (_ < _))

/-- A step of the loop that does not leave it. Time may pass between any two. -/
inductive Step (env : Env) (opts : Options) : Loop pageSize → Loop pageSize → Prop where
  | wait {l : Loop pageSize} :
      Step env opts l { l with bot := { l.bot with instant := l.bot.instant + 1 } }
  | epollWait {l : Loop pageSize} (events : List Source) : l.batch = [] → events ≠ [] →
      events.Nodup → (.timer ∈ events → l.Expired env ∧ l.Unreported) →
      Step env opts l { l with
        batch := events
        reported := if .timer ∈ events then l.timer.settings else l.reported }
  | server {l : Loop pageSize} {rest : List Source} {recv : Recv} {rb : ReadBuf pageSize}
      {bot : Bot} : l.batch = .server :: rest → recv.AtMost (pageSize - (l.rb.finish - l.rb.start)) →
      l.rb.processMsgs env opts recv l.bot = .ok (some (rb, bot)) →
      Step env opts l { l with bot, rb, batch := rest }
  | timer {l : Loop pageSize} {rest : List Source} {bot : Bot} : l.batch = .timer :: rest →
      handleTimeEvent Bot.queueIn (callHandler env) l.bot = some bot →
      Step env opts l { l with bot, batch := rest }
  | signal {l : Loop pageSize} {rest : List Source} : l.batch = .signal :: rest →
      l.firstSignal = true →
      Step env opts l { l with
        bot := l.bot.write .quit (.writeMsg (ascii "QUIT :" ++ opts.quitMessage))
        batch := rest
        firstSignal := false }

end Loop

/-- `bot'` is `bot` later, with some more events, none due before then. -/
structure Adds (env : Env) (bot bot' : Bot) : Prop where
  instant : bot.instant ≤ bot'.instant
  queue : ∃ rs, bot'.queue = bot.queue.addAll rs ∧
    ∀ r ∈ rs, env.clock.now bot.instant ≤ r.when

section Adds
variable {env : Env} {opts : Options} {bot bot' bot'' : Bot}

theorem Adds.refl : Adds env bot bot := ⟨Nat.le_refl _, [], rfl, by simp⟩

theorem Adds.trans (h : Adds env bot bot') (h' : Adds env bot' bot'') : Adds env bot bot'' := by
  obtain ⟨rs, hq, hrs⟩ := h.queue
  obtain ⟨rs', hq', hrs'⟩ := h'.queue
  refine ⟨h.instant.trans h'.instant, rs ++ rs', ?_, ?_⟩
  · rw [hq', hq]
    exact (List.foldl_append ..).symm
  · intro r hr
    rcases List.mem_append.mp hr with hr | hr
    · exact hrs r hr
    · exact (env.clock.mono h.instant).trans (hrs' r hr)

theorem processLine_adds {w : Bytes} (h : processLine env opts w bot = .ok bot') :
    Adds env bot bot' := by
  obtain ⟨r, ha⟩ := processLine_accepts h
  refine ⟨ha.instant, r.toList.map Reminder.registration, ha.queue, ?_⟩
  intro reg hreg
  obtain ⟨r', hr', rfl⟩ := List.mem_map.mp hreg
  exact ha.when r' (by simpa using hr')

theorem processLines_adds {ws : List Bytes} (h : processLines env opts ws bot = .ok bot') :
    Adds env bot bot' := by
  induction ws generalizing bot with
  | nil =>
    cases h
    exact .refl
  | cons w ws ih =>
    cases hw : processLine env opts w bot with
    | error e =>
      rw [processLines, hw] at h
      cases h
    | ok bot₁ =>
      rw [processLines, hw] at h
      exact (processLine_adds hw).trans (ih h)

end Adds

namespace Loop
variable {pageSize : Nat} {env : Env} {opts : Options} {l l' : Loop pageSize}

/-- What ties the event list, the timer and the batch together. -/
structure Inv (env : Env) (l : Loop pageSize) : Prop where
  good : l.bot.queue.Good
  reported : l.reported ≤ l.timer.settings
  batch : l.batch.Nodup
  buffer : ∃ w, l.rb.Unread w ∧ l.rb.start ≤ pageSize
  /-- A timer in the batch is about the head, which is due. -/
  due : .timer ∈ l.batch → ¬ l.Unreported ∧
    ∃ event ∈ l.bot.queue.start.head?, event.when ≤ env.clock.now l.bot.instant
  /-- While nothing is in the batch for a pending event, its expiry is still to come. -/
  wakes : .timer ∉ l.batch → l.bot.queue.start ≠ [] → l.Unreported
  quiet : l.bot.queue.start = [] → ¬ l.Unreported

theorem enter_inv (page : Mem (.mirror pageSize)) {bot : Bot} (hg : bot.queue.Good)
    (h : bot.queue.start = [] → bot.queue.timer.settings = 0) : (enter page bot).Inv env where
  good := hg
  reported := Nat.zero_le _
  batch := List.nodup_nil
  buffer := ⟨[], ⟨rfl, Nat.zero_le _, Nat.zero_le _, trivial⟩, Nat.zero_le _⟩
  due := fun h => nomatch h
  wakes := by
    intro _ hne
    change bot.queue.start ≠ [] at hne
    obtain ⟨event, rest, hs⟩ := List.exists_cons_of_ne_nil hne
    exact (hg.armed event (by rw [hs]; rfl)).2
  quiet := by
    intro hs
    exact (h hs).not_gt

/-- Later events leave a due head and its timer alone, and set the timer anew in
an empty list. -/
theorem Inv.adds (hi : l.Inv env) {bot : Bot} (ha : Adds env l.bot bot) :
    ({ l with bot } : Loop pageSize).Inv env := by
  obtain ⟨rs, hq, hrs⟩ := ha.queue
  have hmono := env.clock.mono ha.instant
  have hle : l.timer.settings ≤ bot.queue.timer.settings := by
    rw [hq]
    exact EventList.settings_le_addAll rs
  refine ⟨hq ▸ hi.good.addAll rs, hi.reported.trans hle, hi.batch, hi.buffer, ?_, ?_, ?_⟩
  · intro htimer
    obtain ⟨hnot, event, hhead, hdue⟩ := hi.due htimer
    obtain ⟨rest, hs⟩ := List.head?_eq_some_iff.mp hhead
    obtain ⟨rest', hs', -, ht⟩ := hi.good.addAll_of_le hs fun r hr => hdue.trans (hrs r hr)
    refine ⟨?_, event, ?_, hdue.trans hmono⟩
    · unfold Unreported timer at hnot ⊢
      rwa [hq, ht]
    · rw [hq, hs']
      rfl
  · intro htimer hne
    by_cases hs : l.bot.queue.start = []
    · have hrs' : rs ≠ [] := by
        rintro rfl
        rw [hq] at hne
        exact hne hs
      have hlt := EventList.settings_lt_addAll hs hrs'
      rw [← hq] at hlt
      exact hi.reported.trans_lt hlt
    · exact (hi.wakes htimer hs).trans_le hle
  · intro hs
    rw [hq] at hs
    obtain ⟨hnil, rfl⟩ := EventList.addAll_eq_nil hs
    have hnot := hi.quiet hnil
    unfold Unreported timer at hnot ⊢
    rwa [hq]

/-- The call for the head leaves a timer set anew, unless no event is left. -/
theorem Inv.timer {rest : List Source} (hi : l.Inv env) (hb : l.batch = .timer :: rest) :
    ∃ bot, handleTimeEvent Bot.queueIn (callHandler env) l.bot = some bot ∧
      ({ l with bot, batch := rest } : Loop pageSize).Inv env := by
  obtain ⟨hnot, event, hhead, hdue⟩ := hi.due (hb ▸ List.mem_cons_self)
  obtain ⟨more, hs⟩ := List.head?_eq_some_iff.mp hhead
  obtain ⟨q', hrun, hg', hdrop, -⟩ := handleTimeEvent_due hi.good hs hdue
  refine ⟨_, hrun, ?_⟩
  obtain ⟨more', hs', -, ht⟩ := hi.good.addAll_of_le hs
    fun r hr => (hdue.trans_lt (lt_registers hr)).le
  obtain ⟨hstart, hset⟩ := EventList.dropStart_timer hs' hdrop
  have hd := hi.batch
  rw [hb, List.nodup_cons] at hd
  have hrep := hi.reported
  unfold Unreported Loop.timer at *
  rw [ht] at hset
  refine ⟨hg', ?_, hd.2, hi.buffer, fun h => absurd h hd.1, fun _ hne => ?_, fun hnil => ?_⟩
  · change l.reported ≤ q'.timer.settings
    rw [hset]
    exact hrep.trans (Nat.le_add_right _ _)
  · change l.reported < q'.timer.settings
    rw [hset, if_neg (hstart ▸ hne)]
    exact Nat.lt_succ_of_le hrep
  · change ¬ l.reported < q'.timer.settings
    rw [hset, if_pos (hstart ▸ hnil)]
    exact hnot

theorem Inv.epollWait {events : List Source} (hi : l.Inv env) (hb : l.batch = [])
    (hd : events.Nodup) (hready : .timer ∈ events → l.Expired env ∧ l.Unreported) :
    ({ l with
      batch := events
      reported := if .timer ∈ events then l.timer.settings else l.reported } :
        Loop pageSize).Inv env := by
  by_cases htimer : .timer ∈ events
  · rw [if_pos htimer]
    obtain ⟨⟨hset, hdue⟩, hunrep⟩ := hready htimer
    have hne : l.bot.queue.start ≠ [] := fun hnil => hi.quiet hnil hunrep
    obtain ⟨event, rest, hs⟩ := List.exists_cons_of_ne_nil hne
    have hhead : event ∈ l.bot.queue.start.head? := by
      rw [hs]
      rfl
    have harmed := (hi.good.armed event hhead).1
    refine ⟨hi.good, Nat.le_refl _, hd, hi.buffer, fun _ => ⟨Nat.lt_irrefl _, event, hhead, ?_⟩,
      fun h => absurd htimer h, fun hnil => absurd hnil hne⟩
    rw [← harmed]
    exact hdue
  · rw [if_neg htimer]
    have hnone : Source.timer ∉ l.batch := by
      rw [hb]
      exact List.not_mem_nil
    exact ⟨hi.good, hi.reported, hd, hi.buffer, fun h => absurd h htimer,
      fun _ => hi.wakes hnone, hi.quiet⟩

theorem Inv.server {rest : List Source} {recv : Recv} {rb : ReadBuf pageSize} {bot : Bot}
    (hi : l.Inv env) (hb : l.batch = .server :: rest)
    (hrecv : recv.AtMost (pageSize - (l.rb.finish - l.rb.start)))
    (h : l.rb.processMsgs env opts recv l.bot = .ok (some (rb, bot))) :
    ({ l with bot, rb, batch := rest } : Loop pageSize).Inv env := by
  obtain ⟨w, hun, hs⟩ := hi.buffer
  obtain ⟨data, -, hlines, hun', hs'⟩ := ReadBuf.processMsgs_some hun hs hrecv h
  obtain ⟨h1, h2, h3, h4, h5, h6, h7⟩ := hi.adds (processLines_adds hlines)
  have hd := List.nodup_cons.mp (hb ▸ hi.batch)
  have hmem : Source.timer ∈ rest ↔ .timer ∈ l.batch := by
    rw [hb, List.mem_cons, or_iff_right (by decide)]
  exact ⟨h1, h2, hd.2, ⟨_, hun', hs'⟩, fun h => h5 (hmem.mp h), fun h => h6 (mt hmem.mpr h), h7⟩

theorem Step.inv (hi : l.Inv env) (h : Step env opts l l') : l'.Inv env := by
  cases h with
  | wait => exact hi.adds ⟨Nat.le_succ _, [], rfl, by simp⟩
  | epollWait events hb _ hd hready => exact hi.epollWait hb hd hready
  | server hb hrecv h => exact hi.server hb hrecv h
  | timer hb h =>
    obtain ⟨bot, hrun, hi'⟩ := hi.timer hb
    rw [hrun] at h
    cases h
    exact hi'
  | @signal rest hb _ =>
    obtain ⟨h1, h2, h3, h4, h5, h6, h7⟩ := hi
    have hd := List.nodup_cons.mp (hb ▸ h3)
    have hmem : Source.timer ∈ rest ↔ .timer ∈ l.batch := by
      rw [hb, List.mem_cons, or_iff_right (by decide)]
    exact ⟨h1, h2, hd.2, h4, fun h => h5 (hmem.mp h), fun h => h6 (mt hmem.mpr h), h7⟩

theorem inv_of_run (hi : l.Inv env) (h : Relation.ReflTransGen (Step env opts) l l') :
    l'.Inv env := by
  induction h with
  | refl => exact hi
  | tail _ hstep ih => exact hstep.inv ih

end Loop

/-- In every state of the main loop: a timer entry finds a due event at the head
of the list; and while the list is not empty, the timer is set for its head and
either has not expired, or the expiry is still to be reported or is the timer
entry of the batch. -/
theorem main_loop_wakes {pageSize : Nat} {env : Env} {opts : Options} {bot₀ bot₁ : Bot}
    {outcome : Restored} {l : Loop pageSize} {page : Mem (.mirror pageSize)}
    (hqueue : bot₀.queue = .empty) (hrestore : restoreState env bot₀ = .ok (outcome, bot₁))
    (hrun : Relation.ReflTransGen (Loop.Step env opts)
      (Loop.enter page (connectToIrcServer opts bot₁)) l) :
    (∀ rest, l.batch = .timer :: rest →
      ∃ event ∈ l.bot.queue.start.head?, event.when ≤ env.clock.now l.bot.instant ∧
        ∃ bot, handleTimeEvent Bot.queueIn (callHandler env) l.bot = some bot) ∧
    ∀ event ∈ l.bot.queue.start.head?, 0 < l.timer.settings ∧ l.timer.deadline = event.when ∧
      (¬ l.Expired env ∧ l.Unreported ∨
        l.Expired env ∧ (l.Unreported ∨ .timer ∈ l.batch)) := by
  obtain ⟨hg, hne, -⟩ := restoreState_pending hqueue hrestore
  have henter : (Loop.enter page (connectToIrcServer opts bot₁)).Inv env :=
    Loop.enter_inv page hg fun hnil => absurd hnil hne
  have hi := Loop.inv_of_run henter hrun
  refine ⟨fun rest hb => ?_, fun event hhead => ?_⟩
  · obtain ⟨-, event, hhead, hdue⟩ := hi.due (hb ▸ List.mem_cons_self)
    obtain ⟨bot, hcall, -⟩ := hi.timer hb
    exact ⟨event, hhead, hdue, bot, hcall⟩
  · obtain ⟨hdeadline, hset⟩ := hi.good.armed event hhead
    refine ⟨hset, hdeadline, ?_⟩
    have hsome : l.bot.queue.start ≠ [] := by
      rintro hnil
      rw [hnil] at hhead
      cases hhead
    by_cases htimer : .timer ∈ l.batch
    · obtain ⟨-, event', hhead', hdue⟩ := hi.due htimer
      obtain rfl := Option.mem_unique hhead hhead'
      exact .inr ⟨⟨hset, hdeadline.trans_le hdue⟩, .inr htimer⟩
    · have hunrep := hi.wakes htimer hsome
      by_cases hexp : l.Expired env
      · exact .inr ⟨hexp, .inl hunrep⟩
      · exact .inl ⟨hexp, hunrep⟩

/-- A reminder restored in its own second: the first batch may hold the timer. -/
theorem main_loop_wakes_at_once : ∃ outcome bot₁ event bot,
    restoreState (.still 5 (by decide)) { Bot.new with reminders := some (ascii "5 #c tea\n") } =
      .ok (outcome, bot₁) ∧
    event ∈ (connectToIrcServer .default bot₁).queue.start.head? ∧ event.when ≤ 5 ∧
    handleTimeEvent Bot.queueIn (callHandler (.still 5 (by decide)))
      (connectToIrcServer .default bot₁) = some bot := by
  obtain ⟨outcome, hrestore⟩ := restoreState_eq (.still 5 (by decide))
    { Bot.new with reminders := some (ascii "5 #c tea\n") }
  have hwakes := main_loop_wakes rfl hrestore (.single (@Loop.Step.epollWait 512 _ .default
    (.enter ⟨fun _ => 0⟩ (connectToIrcServer .default _)) [.timer] rfl (by decide) (by decide)
    fun _ => by decide))
  obtain ⟨event, hhead, hdue, bot, hcall⟩ := hwakes.1 [] rfl
  exact ⟨outcome, _, event, bot, hrestore, hhead, hdue, hcall⟩

end Botniklas
