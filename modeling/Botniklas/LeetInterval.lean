import Botniklas.Session

/-! The verdicts of the monitor of 13:37: one for each interval, whatever else
happens. -/
namespace Botniklas
open Foundation Irc
open scoped List

/-- The sender of a message to the channel of the monitor that contains 1337. -/
def leetSpeaker (msg : MsgView) : Option Bytes :=
  match msg.params with
  | [target, text] =>
    if msg.cmd = ascii "PRIVMSG" ∧ target = leetChannel ∧ says1337 text then msg.nick else none
  | _ => none

/-- What concerns the monitor: the calls of its handlers, the messages it looks for
and what it writes. -/
inductive LeetObs where
  | opened
  | closed
  | said (nick : Bytes)
  | congratulation (written : WriteCall)
  | noOne (written : WriteCall)
  deriving DecidableEq, Repr

def Obs.leet : Obs → Option LeetObs
  | .call .at1337 => some .opened
  | .call .at1338 => some .closed
  | .handled msg => (leetSpeaker msg).map .said
  | .write .leetMonitorPrivmsg written _ => some (.congratulation written)
  | .write .at1338 written _ => some (.noOne written)
  | _ => none

namespace LeetObs

def congratulates (nick : Bytes) : LeetObs :=
  .congratulation (.say leetChannel (nick ++ ascii " is the 1337est!!!"))

def noOneWas : LeetObs := .noOne (.say leetChannel (ascii "No one was 1337 today. :("))

end LeetObs

/-- An interval from the call of `at_1337` on, given who has spoken in it so far. -/
def openInterval : List Bytes → List LeetObs
  | [] => [.opened]
  | first :: others => [.opened, .said first, .congratulates first] ++ others.map .said

/-- An interval to the end of `at_1338`. -/
def interval (speakers : List Bytes) : List LeetObs :=
  openInterval speakers ++ .closed :: if speakers = [] then [.noOneWas] else []

/-- A finished interval, with those who spoke before it. -/
structure Round where
  before : List Bytes
  during : List Bytes
  deriving DecidableEq, Repr

def Round.obs (round : Round) : List LeetObs := round.before.map .said ++ interval round.during

/-- The handlers of the monitor that are pending, in the order of the list. -/
def leetHandlers (events : List (TimeEvent Handler Bytes)) : List Handler :=
  (events.map TimeEvent.handler).filter (· ≠ .remind)

/-- What has been seen is rounds, one after the other, and the bot stands between two of
them or inside one. -/
inductive Monitored (bot : Bot) (seen : List LeetObs) : Prop where
  | closed (rounds : List Round) (before : List Bytes) :
      seen = rounds.flatMap Round.obs ++ before.map .said → bot.want1337 = false →
      leetHandlers bot.queue.start = [.at1337, .at1338] → Monitored bot seen
  | opened (rounds : List Round) (before during : List Bytes) :
      seen = rounds.flatMap Round.obs ++ before.map .said ++ openInterval during →
      bot.want1337 = decide (during = []) → leetHandlers bot.queue.start = [.at1338] →
      Monitored bot seen

/-! What a message does to the monitor. -/

/-- The congratulation of the first to speak. -/
def congratulations (want : Bool) : Option Bytes → List LeetObs
  | some nick => if want then [.congratulates nick] else []
  | none => []

/-- What a message does to the monitor, given its sender if that is one looked for. -/
structure Notes (speaker : Option Bytes) (bot bot' : Bot) : Prop where
  want : bot'.want1337 = (bot.want1337 && speaker.isNone)
  trace : ∃ obs, bot'.trace = bot.trace ++ obs ∧
    obs.filterMap Obs.leet = congratulations bot.want1337 speaker

namespace Notes
variable {speaker : Option Bytes} {bot bot' bot'' : Bot}

theorem of_quiet {obs : List Obs} (hw : bot'.want1337 = bot.want1337)
    (ht : bot'.trace = bot.trace ++ obs) (hobs : obs.filterMap Obs.leet = []) :
    Notes none bot bot' :=
  ⟨by rw [hw, Option.isNone_none, Bool.and_true], obs, ht, hobs⟩

theorem refl : Notes none bot bot := of_quiet rfl (List.append_nil _).symm rfl

theorem after (h : Notes none bot bot') (h' : Notes speaker bot' bot'') :
    Notes speaker bot bot'' := by
  obtain ⟨obs, ht, hobs⟩ := h.trace
  obtain ⟨obs', ht', hobs'⟩ := h'.trace
  have hw : bot'.want1337 = bot.want1337 := h.want.trans (Bool.and_true _)
  refine ⟨hw ▸ h'.want, obs ++ obs', by rw [ht', ht, List.append_assoc], ?_⟩
  rw [List.filterMap_append, hobs, hobs', hw]
  rfl

theorem before (h : Notes speaker bot bot') (h' : Notes none bot' bot'') :
    Notes speaker bot bot'' := by
  obtain ⟨obs, ht, hobs⟩ := h.trace
  obtain ⟨obs', ht', hobs'⟩ := h'.trace
  refine ⟨?_, obs ++ obs', by rw [ht', ht, List.append_assoc], ?_⟩
  · rw [h'.want, h.want, Option.isNone_none, Bool.and_true]
  · rw [List.filterMap_append, hobs, hobs']
    exact List.append_nil _

end Notes

section Message
variable (env : Env) {opts : Options} {msg : MsgView} {bot bot' : Bot}

private theorem logAppend_notes (bot : Bot) (text : Bytes) :
    Notes none bot (logAppend env bot text) := by
  rw [logAppend_eq]
  exact .of_quiet rfl (List.append_nil _).symm rfl

private theorem handleRemind_notes (bot : Bot) (arg : Option Bytes) (rep : Bytes) :
    Notes none bot (handleRemind env bot arg rep) := by
  rcases handleRemind_cases env bot arg rep with ⟨_, -, _, -, he⟩ | ⟨_, _, _, -, -, -, -, he⟩
  · rw [he]
    exact .of_quiet rfl rfl rfl
  · rw [he]
    exact @Notes.of_quiet _ _ [.accept _, .write .command _ _] rfl (List.append_assoc _ _ _) rfl

private theorem handleCmd_notes (bot : Bot) (rep cmd : Bytes) (arg : Option Bytes) :
    Notes none bot (handleCmd env bot rep cmd arg) := by
  have h := handleCmd_commanded env bot rep cmd arg
  generalize handleCmd env bot rep cmd arg = bot' at h ⊢
  cases h with
  | nothing => exact .refl
  | reply => exact .of_quiet rfl rfl rfl
  | remind => exact handleRemind_notes env bot arg rep

/-- A message of another kind is not looked at. -/
private theorem leetSpeaker_of_cmd (hne : msg.cmd ≠ ascii "PRIVMSG") : leetSpeaker msg = none := by
  unfold leetSpeaker
  split
  · exact if_neg fun hp => hne hp.1
  · rfl

private theorem leetMonitorPrivmsg_notes (bot : Bot) {nick target text : Bytes}
    (hcmd : msg.cmd = ascii "PRIVMSG") (hnick : msg.nick = some nick)
    (hparams : msg.params = [target, text]) :
    Notes (leetSpeaker msg) bot (leetMonitorPrivmsg bot nick target text) := by
  unfold leetSpeaker leetMonitorPrivmsg
  rw [hparams, hnick]
  dsimp only
  by_cases hsaid : target = leetChannel ∧ says1337 text = true
  · rw [if_pos ⟨hcmd, hsaid⟩]
    cases hw : bot.want1337 with
    | false =>
      rw [if_neg (by simp)]
      exact ⟨by rw [hw]; rfl, [], by simp, by rw [hw]; rfl⟩
    | true =>
      rw [if_pos (by simp [hsaid])]
      exact ⟨by rw [hw]; rfl, _, rfl, by rw [hw]; rfl⟩
  · rw [if_neg fun h => hsaid h.2, if_neg (by simpa using fun _ => not_and.mp hsaid)]
    exact .refl

private theorem noteMsg_notes (hcmd : msg.cmd = ascii "PRIVMSG") (hlen : msg.params.length = 2)
    (h : noteMsg env msg bot = .ok bot') : Notes (leetSpeaker msg) bot bot' := by
  obtain ⟨nick, target, text, hnick, ht, hx, rfl⟩ := noteMsg_ok_iff.mp h
  have hparams : msg.params = [target, text] := by
    obtain ⟨target', text', he⟩ := List.length_eq_two.mp hlen
    rw [he] at ht hx ⊢
    cases ht
    cases hx
    rfl
  have hlog : Notes none bot (logPrivmsg env bot nick target text) := logAppend_notes env bot _
  exact hlog.after (leetMonitorPrivmsg_notes _ hcmd hnick hparams)

private theorem privmsgEffect_notes (hcmd : msg.cmd = ascii "PRIVMSG")
    (hlen : msg.params.length = 2) (h : privmsgEffect env opts msg bot = .ok bot') :
    Notes (leetSpeaker msg) bot bot' := by
  obtain ⟨bot₁, _, _, hnote, -, -, hrun⟩ := privmsgEffect_ok_iff.mp h
  have hfirst := noteMsg_notes env hcmd hlen hnote
  rcases hrun with ⟨-, _, -, rfl⟩ | ⟨-, rfl⟩
  · exact hfirst.before (handleCmd_notes env _ _ _ _)
  · exact hfirst

/-- A message looked for is not ignored. -/
private theorem handlerOf_speaker {nick : Bytes} (h : leetSpeaker msg = some nick) :
    handlerOf opts (msgs env opts id (privmsgEffect env opts)) msg =
      .ok (some (privmsgEffect env opts)) := by
  unfold leetSpeaker at h
  split at h
  · rename_i target text hparams
    split_ifs at h with hp
    exact handlerOf_privmsg env opts _ _ hp.1 h hparams
  · cases h

theorem msgEffect_notes (h : msgEffect env opts msg bot = .ok bot') :
    Notes (leetSpeaker msg) bot bot' := by
  cases msgEffect_dispatched env opts h with
  | ignored hnone he =>
    rw [he]
    cases hs : leetSpeaker msg with
    | none => exact .refl
    | some nick =>
      rw [handlerOf_speaker env hs] at hnone
      cases hnone
  | error hne he =>
    rw [leetSpeaker_of_cmd hne, he]
    exact .refl
  | log hne he =>
    obtain ⟨text, rfl⟩ := he
    rw [leetSpeaker_of_cmd hne]
    exact logAppend_notes env bot text
  | write hne hwriter _ he =>
    rw [leetSpeaker_of_cmd hne, he]
    rcases hwriter with rfl | rfl
    · exact .of_quiet rfl rfl rfl
    · exact .of_quiet rfl rfl rfl
  | privmsg hcmd hlen h => exact privmsgEffect_notes env hcmd hlen h

end Message

/-! The pending handlers of the monitor. -/

section Pending
variable {env : Env} {bot : Bot} {event : TimeEvent Handler Bytes}
  {events rest : List (TimeEvent Handler Bytes)}

theorem leetHandlers_addAll {q : EventList Handler Bytes} {rs : List (Registration Handler Bytes)}
    (h : ∀ r ∈ rs, r.handler = .remind) :
    leetHandlers (q.addAll rs).start = leetHandlers q.start := by
  induction rs generalizing q with
  | nil => rfl
  | cons r rs ih =>
    obtain ⟨hr, hrs⟩ := List.forall_mem_cons.mp h
    apply (ih hrs (q := q.addTimeEvent r)).trans
    unfold leetHandlers
    rw [EventList.addTimeEvent_start, List.filter_map, List.filter_map,
      filter_insertAfter_of_neg (by simpa [EventList.node] using hr)]

private theorem leetHandlers_eq (events : List (TimeEvent Handler Bytes)) :
    leetHandlers events = ((events.map TimeEvent.registration).filter
      (·.handler ≠ .remind)).map Registration.handler := by
  unfold leetHandlers
  rw [List.filter_map, List.filter_map, List.map_map]
  rfl

/-- Sorted, a round stands in its order. -/
theorem leetHandlers_round {q : EventList Handler Bytes} {zone now : Int}
    (hsorted : SortedBy TimeEvent.when events) (hrest : leetHandlers rest = [])
    (hperm : events.Perm (rest ++ q.nodes (leetRound zone now))) :
    leetHandlers events = [.at1337, .at1338] := by
  have hsome := (hperm.map TimeEvent.registration).filter (·.handler ≠ .remind)
  rw [leetHandlers_eq, List.map_eq_nil_iff] at hrest
  rw [List.map_append, List.filter_append, hrest, EventList.nodes_registration] at hsome
  have hperm' : ((events.map TimeEvent.registration).filter (·.handler ≠ .remind)).Perm
      (leetRound zone now) := hsome
  have hle : ((events.map TimeEvent.registration).filter (·.handler ≠ .remind)).Pairwise
      fun a b => a.when ≤ b.when := by
    apply List.Pairwise.filter
    rw [List.pairwise_map]
    exact hsorted
  have hround : (leetRound zone now).Pairwise fun a b => a.when ≤ b.when := by simp [leetRound]
  have heq := List.Perm.eq_of_pairwise ?_ hle hround hperm'
  · rw [leetHandlers_eq, heq]
    rfl
  · intro a b ha hb hab hba
    have ha := hperm'.subset ha
    simp only [leetRound, List.mem_cons, List.not_mem_nil, or_false] at ha hb
    rcases ha with rfl | rfl <;> rcases hb with rfl | rfl
    · rfl
    · dsimp only at hba
      omega
    · dsimp only at hab
      omega
    · rfl

/-- The monitor starts with a round. -/
theorem initLeetMonitor_monitored (env : Env) (hqueue : bot.queue = .empty)
    (hwant : bot.want1337 = false) :
    (initLeetMonitor env bot).queue.Good ∧ Monitored (initLeetMonitor env bot) [] := by
  have hperm := bot.queue.addAll_perm (leetRound env.zone (env.clock.now bot.instant))
  have hg : (bot.queue.addAll (leetRound env.zone (env.clock.now bot.instant))).Good := by
    rw [hqueue]
    exact EventList.empty_good.addAll _
  unfold initLeetMonitor
  rw [scheduleNext1337_eq]
  refine ⟨hg, .closed [] [] rfl hwant (leetHandlers_round hg.sorted ?_ hperm)⟩
  rw [hqueue]
  rfl

end Pending

section Steps
variable {env : Env} {opts : Options} {bot bot' : Bot} {seen : List LeetObs}

/-- A message adds its sender to those who have spoken. -/
theorem Monitored.notes {speaker : Option Bytes} (h : Monitored bot seen)
    (hw : bot'.want1337 = (bot.want1337 && speaker.isNone))
    (hq : leetHandlers bot'.queue.start = leetHandlers bot.queue.start) :
    Monitored bot'
      (seen ++ (speaker.map .said).toList ++ congratulations bot.want1337 speaker) := by
  cases h with
  | closed rounds before hseen hwant hpending =>
    rw [hwant] at hw ⊢
    refine .closed rounds (before ++ speaker.toList) ?_ hw (hq.trans hpending)
    rw [hseen]
    cases speaker <;> simp [congratulations]
  | opened rounds before during hseen hwant hpending =>
    refine .opened rounds before (during ++ speaker.toList) ?_ ?_ (hq.trans hpending)
    · rw [hseen, hwant]
      cases speaker <;> cases during <;> simp [congratulations, openInterval]
    · rw [hw, hwant]
      cases speaker <;> simp

theorem Monitored.congr (h : Monitored bot seen) (hw : bot'.want1337 = bot.want1337)
    (hq : leetHandlers bot'.queue.start = leetHandlers bot.queue.start) : Monitored bot' seen := by
  cases h with
  | closed rounds before hseen hwant hp =>
    exact .closed rounds before hseen (hw.trans hwant) (hq.trans hp)
  | opened rounds before during hseen hwant hp =>
    exact .opened rounds before during hseen (hw.trans hwant) (hq.trans hp)

theorem processLine_monitored {w : Bytes} (hm : Monitored bot seen)
    (h : processLine env opts w bot = .ok bot') :
    ∃ obs, bot'.trace = bot.trace ++ obs ∧ Monitored bot' (seen ++ obs.filterMap Obs.leet) := by
  obtain ⟨r, ha⟩ := processLine_accepts h
  have hq : leetHandlers bot'.queue.start = leetHandlers bot.queue.start := by
    rw [ha.queue]
    apply leetHandlers_addAll
    intro r' hr'
    obtain ⟨_, -, rfl⟩ := List.mem_map.mp hr'
    rfl
  rcases processLine_msgEffect h with ⟨rfl, -⟩ | ⟨g, -, -, heffect⟩
  · exact ⟨[], by simp, by simpa using hm⟩
  · have hn := msgEffect_notes env heffect
    obtain ⟨obs, ht, hobs⟩ := hn.trace
    have hseen : (Obs.handled g.view :: obs).filterMap Obs.leet =
        ((leetSpeaker g.view).map .said).toList ++
          congratulations bot.want1337 (leetSpeaker g.view) := by
      have hhandled : (Obs.handled g.view).leet = (leetSpeaker g.view).map .said := rfl
      change _ = _ ++ congratulations (bot.observe (.handled g.view)).want1337 _
      rw [← hobs, List.filterMap_cons, hhandled]
      cases leetSpeaker g.view <;> rfl
    refine ⟨.handled g.view :: obs, ht.trans (List.append_assoc _ _ _), ?_⟩
    rw [hseen, ← List.append_assoc]
    exact hm.notes hn.want hq

/-- The end of an interval, with the line for one in which no one spoke. -/
private theorem callHandler_at1338_seen (env : Env) (data : Bytes) (bot : Bot) :
    (callHandler env .at1338 data bot).want1337 = false ∧
    ∃ obs, (callHandler env .at1338 data bot).trace = bot.trace ++ obs ∧
      obs.filterMap Obs.leet = .closed :: if bot.want1337 then [.noOneWas] else [] := by
  rw [callHandler_at1338, at1338_eq]
  refine ⟨rfl, _, List.append_assoc _ _ _, ?_⟩
  change ([Obs.call .at1338] ++ if bot.want1337 then _ else _).filterMap Obs.leet = _
  cases bot.want1337 with
  | false => rfl
  | true => rfl

/-- A due event of another kind leaves the monitor as it was; its own open an interval
and close one. -/
theorem handleTimeEvent_monitored (hg : bot.queue.Good) (hm : Monitored bot seen)
    {event : TimeEvent Handler Bytes} (hhead : bot.queue.start.head? = some event)
    (hdue : event.when ≤ env.clock.now bot.instant)
    (h : handleTimeEvent Bot.queueIn (callHandler env) bot = some bot') :
    ∃ obs, bot'.trace = bot.trace ++ obs ∧ Monitored bot' (seen ++ obs.filterMap Obs.leet) := by
  obtain ⟨rest, hs⟩ := List.head?_eq_some_iff.mp hhead
  obtain ⟨q', hrun, hg', hdrop, hperm⟩ := handleTimeEvent_due hg hs hdue
  obtain rfl := Option.some.inj (hrun.symm.trans h)
  obtain ⟨id, when, handler, data⟩ := event
  have hpending : leetHandlers bot.queue.start =
      [handler].filter (· ≠ .remind) ++ leetHandlers rest := by
    rw [hs]
    exact List.filter_append [handler] _
  have hrest : registers env handler data bot = [] → q'.start = rest := by
    intro hnone
    rw [hnone] at hdrop
    rw [(hg.dropStart hdrop).2.1, hs]
    rfl
  cases handler with
  | remind =>
    refine ⟨[.call .remind, .write .remind _ _], List.append_assoc _ _ _, ?_⟩
    rw [show List.filterMap Obs.leet _ = [] from rfl, List.append_nil]
    refine hm.congr rfl ?_
    rw [hpending]
    exact congrArg leetHandlers (hrest rfl)
  | at1337 =>
    refine ⟨[.call .at1337], rfl, ?_⟩
    cases hm with
    | closed rounds before hseen hwant hq =>
      obtain ⟨-, hq⟩ := List.cons.inj (hpending.symm.trans hq)
      refine .opened rounds before [] ?_ rfl ?_
      · rw [hseen]
        rfl
      · rw [← hq]
        exact congrArg leetHandlers (hrest rfl)
    | opened rounds before during hseen hwant hq =>
      obtain ⟨hne, -⟩ := List.cons.inj (hpending.symm.trans hq)
      cases hne
  | at1338 =>
    cases hm with
    | closed rounds before hseen hwant hq =>
      obtain ⟨hne, -⟩ := List.cons.inj (hpending.symm.trans hq)
      cases hne
    | opened rounds before during hseen hwant hq =>
      obtain ⟨-, hnone⟩ := List.cons.inj (hpending.symm.trans hq)
      obtain ⟨hwant', obs, htrace, hobs⟩ := callHandler_at1338_seen env data bot
      refine ⟨obs, htrace, .closed (rounds ++ [⟨before, during⟩]) [] ?_ hwant'
        (leetHandlers_round hg'.sorted hnone hperm)⟩
      rw [hobs, hseen, hwant]
      simp [Round.obs, interval]

end Steps

/-- What may happen next: a step of a session, or a reminder registered for any time. -/
inductive LeetStep (env : Env) (opts : Options) : Bot → Bot → Prop where
  | session {bot bot' : Bot} : SessionStep env opts bot bot' → LeetStep env opts bot bot'
  | remind {bot : Bot} (r : Registration Handler Bytes) : r.handler = .remind →
      LeetStep env opts bot (bot.addTimeEvent r)

section Runs
variable {env : Env} {opts : Options} {bot bot' bot₀ : Bot} {seen : List LeetObs}

theorem LeetStep.monitored (h : LeetStep env opts bot bot') (hg : bot.queue.Good)
    (hm : Monitored bot seen) : bot'.queue.Good ∧
      ∃ obs, bot'.trace = bot.trace ++ obs ∧ Monitored bot' (seen ++ obs.filterMap Obs.leet) := by
  cases h with
  | session h =>
    refine ⟨(h.conserves hg).good, ?_⟩
    cases h with
    | line w h => exact processLine_monitored hm h
    | timer hhead hdue h => exact handleTimeEvent_monitored hg hm hhead hdue h
    | wait =>
      refine ⟨[], (List.append_nil _).symm, ?_⟩
      rw [List.filterMap_nil, List.append_nil]
      exact hm.congr rfl rfl
  | remind r hr =>
    refine ⟨hg.addTimeEvent r, [], (List.append_nil _).symm, ?_⟩
    rw [List.filterMap_nil, List.append_nil]
    exact hm.congr rfl (@leetHandlers_addAll bot.queue [r] (by simpa using hr))

theorem monitored_of_run (hg : bot.queue.Good) (hm : Monitored bot [])
    (h : Relation.ReflTransGen (LeetStep env opts) bot bot') : bot'.queue.Good ∧
      ∃ obs, bot'.trace = bot.trace ++ obs ∧ Monitored bot' (obs.filterMap Obs.leet) := by
  induction h with
  | refl => exact ⟨hg, [], by simp, hm⟩
  | tail _ hstep ih =>
    obtain ⟨hg', obs, ht, hm'⟩ := ih
    obtain ⟨hg'', obs', ht', hm''⟩ := hstep.monitored hg' hm'
    refine ⟨hg'', obs ++ obs', by rw [ht', ht, List.append_assoc], ?_⟩
    rwa [List.filterMap_append]

/-- From `init_leet_monitor` on, whatever is said, registered and due: the calls of
`at_1337` and `at_1338` alternate; in each interval between them one line is written,
the congratulation of the first to say 1337 or, at its end, that there was none;
outside them nothing is; and `at_1338` is pending once, with `at_1337` before it
unless an interval is open. -/
theorem one_verdict_per_interval (hqueue : bot₀.queue = .empty) (hwant : bot₀.want1337 = false)
    (hrun : Relation.ReflTransGen (LeetStep env opts) (initLeetMonitor env bot₀) bot) :
    ∃ obs, bot.trace = bot₀.trace ++ obs ∧ Monitored bot (obs.filterMap Obs.leet) := by
  obtain ⟨hg, hm⟩ := initLeetMonitor_monitored env hqueue hwant
  obtain ⟨-, obs, ht, hm'⟩ := monitored_of_run hg hm hrun
  rw [initLeetMonitor, scheduleNext1337_eq] at ht
  exact ⟨obs, ht, hm'⟩

end Runs

/-- The clock leaps half a day at each reading. -/
def Env.leaping : Env where
  clock.now n := 1 + 43200 * n
  clock.mono _ _ h := by dsimp only; omega
  clock.pos n := by omega
  zone := 0
  append _ := .whole

/-- One sender says 1337 in the first interval, after the clock has passed its end. -/
theorem first_to_speak : ∃ bot,
    Relation.ReflTransGen (LeetStep .leaping .default)
      (initLeetMonitor .leaping .new) bot ∧
    (∃ obs, bot.trace = Bot.new.trace ++ obs ∧ Monitored bot (obs.filterMap Obs.leet)) ∧
    bot.trace.filterMap Obs.leet =
      [.opened, .said (ascii "al"), .congratulates (ascii "al"), .closed] := by
  have hopened := (Relation.ReflTransGen.single (LeetStep.session
    (@SessionStep.wait .leaping .default (initLeetMonitor .leaping .new)))).tail
    (.session (.timer rfl (by decide) rfl))
  have hsaid := hopened.tail (.session (.line (ascii ":al!u@h PRIVMSG #code.se :1337")
    (by rw [processLine_eq]; rfl)))
  have hclosed := hsaid.tail (.session (.timer rfl (by decide) rfl))
  exact ⟨_, hclosed, one_verdict_per_interval rfl rfl hclosed, by decide⟩

end Botniklas
