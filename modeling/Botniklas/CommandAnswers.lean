import Botniklas.Responses
import Botniklas.AtMostOnce

/-! What the commands answer and which reminders they accept, as functions of the messages
the server has sent and of the times they were handled at. -/
namespace Botniklas
open Foundation Irc

/-- A command, with where its replies go. -/
structure Request where
  rep : Bytes
  word : Bytes
  arg : Option Bytes
  deriving DecidableEq, Repr

/-- The command in a message, if it is one. -/
def request (opts : Options) (msg : MsgView) : Option Request :=
  match msg.nick, msg.pfx, msg.params with
  | some _, some pfx, [target, text] =>
    if msg.cmd = ascii "PRIVMSG" ∧ text.head? = some opts.cmdChar then
      some ⟨if isChannel target then target else pfx, commandWord text, commandArg text⟩
    else none
  | _, _, _ => none

/-- What asking for a reminder comes to, an error message or the reminder, when the time is
first `parsed`, then `now`. -/
def remindVerdict (zone parsed now : Int) (rep : Bytes) : Option Bytes → Except Bytes Reminder
  | none => .error (ascii "Error: No time given.")
  | some arg =>
    let (when, cur) := parseDate zone parsed arg
    if when = -1 then .error (ascii "Error: Malformed or invalid time or date.")
    else if cur.head? ≠ some space then
      .error (ascii "Error: Expected a space and the message after the time.")
    else if cur.tail = [] then .error (ascii "Error: Empty reminder message.")
    else if when < now then .error (ascii "Error: That's in the past.")
    else .ok ⟨when, rep, cur.tail⟩

def helpAnswer : Option Bytes → Bytes
  | none => ascii "Usage: !help <command>. Use !commands to list commands."
  | some arg =>
    match Cmd.table.find? fun c => arg = c.cmd with
    | some c => c.helpText
    | none => ascii "'" ++ arg ++ ascii "': No such command. Use !commands to list commands."

/-- A message and the two times that may be read while it is handled. -/
structure Service where
  msg : MsgView
  parsed : Int
  now : Int
  deriving DecidableEq, Repr

namespace Request

def cmd (req : Request) : Option Cmd := Cmd.table.find? fun c => c.cmd = req.word

def answer (zone parsed now : Int) (req : Request) : List WriteCall :=
  match req.cmd with
  | none => []
  | some .commands =>
    [.compose req.rep (ascii "Available commands:" :: Cmd.table.map fun c => ascii " !" ++ c.cmd)]
  | some .compliment => [.say req.rep (ascii "You rock!")]
  | some .echo => req.arg.toList.map (.say req.rep)
  | some .help => [.say req.rep (helpAnswer req.arg)]
  | some .remind =>
    match remindVerdict zone parsed now req.rep req.arg with
    | .error text => [.say req.rep text]
    | .ok r => [.compose req.rep (confirmation (r.when - now))]

def reminder (zone parsed now : Int) (req : Request) : Option Reminder :=
  match req.cmd with
  | some .remind => (remindVerdict zone parsed now req.rep req.arg).toOption
  | _ => none

end Request

def Service.answer (opts : Options) (zone : Int) (s : Service) : List WriteCall :=
  (request opts s.msg).toList.flatMap (Request.answer zone s.parsed s.now)

def Service.reminder (opts : Options) (zone : Int) (s : Service) : Option Reminder :=
  (request opts s.msg).bind (Request.reminder zone s.parsed s.now)

def Service.times (s : Service) : List Int := [s.parsed, s.now]

def Obs.commandWrite : Obs → Option WriteCall
  | .write .command written _ => some written
  | _ => none

/-- From `bot` to `bot'` the commands have written `calls` and `accepted` has been accepted. -/
structure Answers (calls : List WriteCall) (accepted : List Reminder) (bot bot' : Bot) : Prop where
  instant : bot.instant ≤ bot'.instant
  calls : bot'.trace.filterMap Obs.commandWrite =
    bot.trace.filterMap Obs.commandWrite ++ calls
  accepted : bot'.accepted = bot.accepted ++ accepted

namespace Answers
variable {bot bot' bot'' : Bot} {calls calls' : List WriteCall} {accepted accepted' : List Reminder}

theorem of_trace (obs : List Obs) (hi : bot.instant ≤ bot'.instant) (ht : bot'.trace = bot.trace ++ obs) :
    Answers (obs.filterMap Obs.commandWrite) (obs.filterMap Obs.accepted) bot bot' := by
  refine ⟨hi, ?_, ?_⟩
  · rw [ht, List.filterMap_append]
  · unfold Bot.accepted
    rw [ht, List.filterMap_append]

theorem refl : Answers [] [] bot bot := of_trace [] (Nat.le_refl _) (List.append_nil _).symm

theorem trans (h : Answers calls accepted bot bot') (h' : Answers calls' accepted' bot' bot'') :
    Answers (calls ++ calls') (accepted ++ accepted') bot bot'' := by
  refine ⟨h.instant.trans h'.instant, ?_, ?_⟩
  · rw [h'.calls, h.calls, List.append_assoc]
  · rw [h'.accepted, h.accepted, List.append_assoc]

theorem of_write (bot : Bot) (call : WriteCall) :
    Answers [call] [] bot (bot.write .command call) :=
  of_trace [.write .command call bot.instant] (Nat.le_refl _) rfl

/-- What the bot writes elsewhere is no answer to a command. -/
theorem of_other {writer : Writer} (hne : writer ≠ .command) (bot : Bot) (call : WriteCall) :
    Answers [] [] bot (bot.write writer call) := by
  have hcall : (Obs.write writer call bot.instant).commandWrite = none := by
    cases writer with
    | command => exact absurd rfl hne
    | login | pong | join | quit | remind | leetMonitorPrivmsg | at1338 => rfl
  have hwrite : Answers ([Obs.write writer call bot.instant].filterMap Obs.commandWrite) []
      bot (bot.write writer call) := of_trace [_] (Nat.le_refl bot.instant) rfl
  rw [List.filterMap_cons_none hcall] at hwrite
  exact hwrite

theorem of_log (env : Env) (bot : Bot) (text : Bytes) : Answers [] [] bot (logAppend env bot text) := by
  rw [logAppend_eq]
  exact of_trace [] (Nat.le_succ bot.instant) (List.append_nil _).symm

end Answers

/-- The same, with two times that lie between those of `bot` and `bot'`. -/
structure Comes (env : Env) (calls : List WriteCall) (r : Option Reminder) (parsed now : Int)
    (bot bot' : Bot) : Prop where
  after : env.clock.now bot.instant ≤ parsed
  le : parsed ≤ now
  before : now ≤ env.clock.now bot'.instant
  answers : Answers calls r.toList bot bot'

/-- Something else may come first. -/
theorem Comes.of_quiet {env : Env} {calls : List WriteCall} {r : Option Reminder}
    {parsed now : Int} {bot bot' bot'' : Bot} (hquiet : Answers [] [] bot bot')
    (h : Comes env calls r parsed now bot' bot'') : Comes env calls r parsed now bot bot'' :=
  ⟨(env.clock.mono hquiet.instant).trans h.after, h.le, h.before, hquiet.trans h.answers⟩

section Command
variable (env : Env) (bot : Bot)

/-- A refusal, at the time `i`. -/
private theorem refusal_comes {rep text : Bytes} {arg : Option Bytes} {i j : Nat} {bot' : Bot}
    (hij : bot.instant ≤ j ∧ j ≤ i)
    (hv : remindVerdict env.zone (env.clock.now bot.instant) (env.clock.now j) rep arg = .error text)
    (hb : bot' = { bot with instant := i }.say .command rep text) :
    ∃ parsed now, Comes env
      (match remindVerdict env.zone parsed now rep arg with
        | .error text => [.say rep text]
        | .ok r => [.compose rep (confirmation (r.when - now))])
      (remindVerdict env.zone parsed now rep arg).toOption parsed now bot
      bot' := by
  subst hb
  refine ⟨_, env.clock.now j, le_refl _, env.clock.mono hij.1, env.clock.mono hij.2, ?_⟩
  rw [hv]
  exact .of_trace [.write .command (.say rep text) i] (hij.1.trans hij.2) rfl

/-- The command asks for a reminder and is told what came of it. The second time is read
once the argument has been found well formed. -/
theorem handleRemind_comes (rep : Bytes) (arg : Option Bytes) :
    ∃ parsed now, Comes env
      (match remindVerdict env.zone parsed now rep arg with
        | .error text => [.say rep text]
        | .ok r => [.compose rep (confirmation (r.when - now))])
      (remindVerdict env.zone parsed now rep arg).toOption parsed now bot
      (handleRemind env bot arg rep) := by
  cases arg with
  | none =>
    have hv : remindVerdict env.zone (env.clock.now bot.instant) (env.clock.now bot.instant) rep
        none = .error (ascii "Error: No time given.") := rfl
    exact refusal_comes env bot ⟨le_refl _, le_refl _⟩ hv rfl
  | some arg =>
    have hne := env.clock.ne (bot.instant + 1)
    have hone : bot.instant ≤ bot.instant ∧ bot.instant ≤ bot.instant + 1 := by omega
    have htwo : bot.instant ≤ bot.instant + 1 ∧ bot.instant + 1 ≤ bot.instant + 2 := by omega
    unfold handleRemind Bot.time
    dsimp only
    cases hparse : parseDate env.zone (env.clock.now bot.instant) arg with
    | mk when cur =>
      have hv : ∀ now, remindVerdict env.zone (env.clock.now bot.instant) now rep (some arg) =
          if when = -1 then .error (ascii "Error: Malformed or invalid time or date.")
          else if cur.head? ≠ some space then
            .error (ascii "Error: Expected a space and the message after the time.")
          else if cur.tail = [] then .error (ascii "Error: Empty reminder message.")
          else if when < now then .error (ascii "Error: That's in the past.")
          else .ok ⟨when, rep, cur.tail⟩ := by
        intro now
        unfold remindVerdict
        dsimp only
        rw [hparse]
      dsimp only
      rw [if_neg hne]
      split_ifs with h1 h2 h3 h4
      · exact refusal_comes env bot hone ((hv _).trans (if_pos h1)) rfl
      · refine refusal_comes env bot hone ((hv _).trans ?_) rfl
        rw [if_neg h1, if_pos h2]
      · refine refusal_comes env bot hone ((hv _).trans ?_) rfl
        rw [if_neg h1, if_neg h2, if_pos h3]
      · refine refusal_comes env bot htwo ((hv _).trans ?_) rfl
        rw [if_neg h1, if_neg h2, if_neg h3, if_pos h4]
      · refine ⟨_, env.clock.now (bot.instant + 1), le_refl _, env.clock.mono htwo.1,
          env.clock.mono htwo.2, ?_⟩
        rw [hv, if_neg h1, if_neg h2, if_neg h3, if_neg h4]
        exact .of_trace [.accept _, .write .command _ _] (Nat.le_add_right _ 2)
          (List.append_assoc _ _ _)

/-- The commands but one read no time. -/
theorem handleCmd_comes (req : Request) :
    ∃ parsed now, Comes env (req.answer env.zone parsed now) (req.reminder env.zone parsed now)
      parsed now bot (handleCmd env bot req.rep req.word req.arg) := by
  have timeless : ∀ {calls : List WriteCall} {bot' : Bot}, Answers calls [] bot bot' →
      (∀ parsed now, req.answer env.zone parsed now = calls) →
      (∀ parsed now, req.reminder env.zone parsed now = none) → ∃ parsed now,
      Comes env (req.answer env.zone parsed now) (req.reminder env.zone parsed now) parsed now bot
        bot' := by
    intro calls bot' h hcalls hnone
    refine ⟨_, _, le_refl _, le_refl _, env.clock.mono h.instant, ?_⟩
    rw [hcalls, hnone]
    exact h
  have hfind : (Cmd.table.find? fun c => c.cmd = req.word) = req.cmd := rfl
  unfold handleCmd
  rw [hfind]
  unfold Request.answer Request.reminder at *
  cases hcmd : req.cmd with
  | none =>
    rw [hcmd] at timeless
    exact timeless .refl (fun _ _ => rfl) (fun _ _ => rfl)
  | some c =>
    rw [hcmd] at timeless
    cases c with
    | commands => exact timeless (.of_write bot _) (fun _ _ => rfl) (fun _ _ => rfl)
    | compliment => exact timeless (.of_write bot _) (fun _ _ => rfl) (fun _ _ => rfl)
    | echo =>
      cases harg : req.arg with
      | none =>
        rw [harg] at timeless
        exact timeless .refl (fun _ _ => rfl) (fun _ _ => rfl)
      | some arg =>
        rw [harg] at timeless
        exact timeless (.of_write bot _) (fun _ _ => rfl) (fun _ _ => rfl)
    | help =>
      have hwrite : Answers [.say req.rep (helpAnswer req.arg)] [] bot
          (Cmd.handleHelp bot req.rep req.arg) := by
        unfold Cmd.handleHelp helpAnswer
        cases req.arg with
        | none => exact .of_write bot _
        | some arg =>
          dsimp only
          cases Cmd.table.find? fun c => arg = c.cmd with
          | none => exact .of_write bot _
          | some c => exact .of_write bot _
      exact timeless hwrite (fun _ _ => rfl) (fun _ _ => rfl)
    | remind => exact handleRemind_comes env bot req.rep req.arg

end Command

section Message
variable {env : Env} {opts : Options} {msg : MsgView} {bot bot' : Bot}

/-- A handler that is not one of commands. -/
private theorem request_other (hcmd : msg.cmd ≠ ascii "PRIVMSG") : request opts msg = none := by
  unfold request
  split
  · exact if_neg fun h => hcmd h.1
  · rfl

private theorem request_ignored
    (h : handlerOf opts (msgs env opts id (privmsgEffect env opts)) msg = .ok none) :
    request opts msg = none := by
  obtain ⟨pfx, nick, user, host, cmd, params⟩ := msg
  unfold request
  dsimp only
  split
  · split_ifs with hc
    · obtain ⟨rfl, -⟩ := hc
      cases h
    · rfl
  · rfl

private theorem quiet_comes (hnone : request opts msg = none) (h : Answers [] [] bot bot') :
    ∃ parsed now, Comes env ((⟨msg, parsed, now⟩ : Service).answer opts env.zone)
      ((⟨msg, parsed, now⟩ : Service).reminder opts env.zone) parsed now bot bot' := by
  refine ⟨_, _, le_refl _, le_refl _, env.clock.mono h.instant, ?_⟩
  unfold Service.answer Service.reminder
  rw [hnone]
  exact h

private theorem privmsg_comes (hsplit : WellSplit msg) (hcmd : msg.cmd = ascii "PRIVMSG")
    (hlen : msg.params.length = 2) (h : privmsgEffect env opts msg bot = .ok bot') :
    ∃ parsed now, Comes env ((⟨msg, parsed, now⟩ : Service).answer opts env.zone)
      ((⟨msg, parsed, now⟩ : Service).reminder opts env.zone) parsed now bot bot' := by
  obtain ⟨bot₁, target, text, hnote, ht, hx, hrest⟩ := privmsgEffect_ok_iff.mp h
  obtain ⟨nick, target', text', hnick, ht', hx', rfl⟩ := noteMsg_ok_iff.mp hnote
  obtain rfl := Option.some.inj (ht.symm.trans ht')
  obtain rfl := Option.some.inj (hx.symm.trans hx')
  obtain ⟨a, b, hparams⟩ := List.length_eq_two.mp hlen
  rw [hparams] at ht hx
  cases ht
  cases hx
  obtain ⟨pfx, hpfx⟩ := (hsplit.nick (by rw [hnick]; exact Option.some_ne_none nick)).pfx
  have hmonitor : ∀ bot : Bot, Answers [] [] bot (leetMonitorPrivmsg bot nick target text) := by
    intro bot
    unfold leetMonitorPrivmsg
    split_ifs
    · exact (Answers.of_other (by decide) bot _).trans
        (.of_trace [] (Nat.le_refl _) (List.append_nil _).symm)
    · exact .refl
  have hnoted : Answers [] [] bot
      (leetMonitorPrivmsg (logPrivmsg env bot nick target text) nick target text) :=
    (Answers.of_log env bot _).trans (hmonitor _)
  rcases hrest with ⟨hhead, rep, hrep, rfl⟩ | ⟨hhead, rfl⟩
  · have hreq : request opts msg = some ⟨rep, commandWord text, commandArg text⟩ := by
      unfold request
      rw [hnick, hpfx, hparams]
      dsimp only
      rw [if_pos ⟨hcmd, hhead⟩]
      unfold replyTarget at hrep
      split_ifs at hrep with hchannel
      · cases hrep
        rw [if_pos hchannel]
      · rw [if_neg hchannel]
        cases hpfx.symm.trans (required_ok hrep)
        rfl
    obtain ⟨parsed, now, hcomes⟩ := handleCmd_comes env
      (leetMonitorPrivmsg (logPrivmsg env bot nick target text) nick target text)
      ⟨rep, commandWord text, commandArg text⟩
    refine ⟨parsed, now, ?_⟩
    unfold Service.answer Service.reminder
    rw [hreq]
    simp only [Option.toList_some, List.flatMap_singleton, Option.bind_some]
    exact hcomes.of_quiet hnoted
  · refine quiet_comes ?_ hnoted
    unfold request
    rw [hnick, hpfx, hparams]
    exact if_neg fun hc => hhead hc.2

/-- What a message comes to, whichever handler takes it. -/
theorem msgEffect_comes (hsplit : WellSplit msg) (h : msgEffect env opts msg bot = .ok bot') :
    ∃ parsed now, Comes env ((⟨msg, parsed, now⟩ : Service).answer opts env.zone)
      ((⟨msg, parsed, now⟩ : Service).reminder opts env.zone) parsed now bot bot' := by
  obtain ⟨found, hfound, h⟩ := bind_ok h
  cases found with
  | none =>
    cases h
    exact quiet_comes (request_ignored hfound) .refl
  | some handler =>
    obtain ⟨entry, hmem, rfl, hcmd, hmin, hmax, -⟩ := handlerOf_some opts hfound
    have hother : entry.cmd ≠ ascii "PRIVMSG" → request opts msg = none := fun hne =>
      request_other fun he => hne (hcmd.trans he)
    simp only [msgs, id, List.mem_cons, List.not_mem_nil, or_false] at hmem
    dsimp only at h
    rcases hmem with rfl | rfl | rfl | rfl | rfl | rfl | rfl | rfl | rfl
    all_goals dsimp only at hcmd hmin hmax h hother
    · cases h
      exact quiet_comes (hother (by decide)) (.of_other (by decide) bot _)
    · obtain ⟨_, -, h⟩ := bind_ok h
      cases h
      exact quiet_comes (hother (by decide)) .refl
    · obtain ⟨_, -, h⟩ := bind_ok h
      obtain ⟨_, -, h⟩ := bind_ok h
      obtain ⟨_, -, h⟩ := bind_ok h
      cases h
      exact quiet_comes (hother (by decide)) (.of_log env bot _)
    · obtain ⟨_, -, h⟩ := bind_ok h
      obtain ⟨_, -, h⟩ := bind_ok h
      obtain ⟨_, -, h⟩ := bind_ok h
      obtain ⟨_, -, h⟩ := bind_ok h
      cases h
      exact quiet_comes (hother (by decide)) (.of_log env bot _)
    · obtain ⟨_, -, h⟩ := bind_ok h
      obtain ⟨_, -, h⟩ := bind_ok h
      cases h
      exact quiet_comes (hother (by decide)) (.of_log env bot _)
    · obtain ⟨_, -, h⟩ := bind_ok h
      obtain ⟨_, -, h⟩ := bind_ok h
      obtain ⟨_, -, h⟩ := bind_ok h
      obtain ⟨_, -, h⟩ := bind_ok h
      cases h
      exact quiet_comes (hother (by decide)) (.of_log env bot _)
    · obtain ⟨_, -, h⟩ := bind_ok h
      cases h
      exact quiet_comes (hother (by decide)) (.of_other (by decide) bot _)
    · exact privmsg_comes hsplit hcmd.symm (Nat.le_antisymm hmax hmin) h
    · obtain ⟨_, -, h⟩ := bind_ok h
      obtain ⟨_, -, h⟩ := bind_ok h
      obtain ⟨_, -, h⟩ := bind_ok h
      cases h
      exact quiet_comes (hother (by decide)) (.of_log env bot _)

end Message

/-- From `bot` to `bot'` these messages have been handled, each at its times. -/
structure Serves (env : Env) (opts : Options) (served : List Service) (bot bot' : Bot) : Prop where
  answers : Answers (served.flatMap (Service.answer opts env.zone))
    (served.filterMap (Service.reminder opts env.zone)) bot bot'
  sorted : (served.flatMap Service.times).Pairwise (· ≤ ·)
  bounds : ∀ t ∈ served.flatMap Service.times,
    env.clock.now bot.instant ≤ t ∧ t ≤ env.clock.now bot'.instant

section Run
variable {env : Env} {opts : Options} {bot bot' bot'' : Bot} {served served' : List Service}

theorem Serves.of_quiet (h : Answers [] [] bot bot') : Serves env opts [] bot bot' :=
  ⟨h, .nil, fun _ ht => nomatch ht⟩

theorem Serves.trans (h : Serves env opts served bot bot') (h' : Serves env opts served' bot' bot'') :
    Serves env opts (served ++ served') bot bot'' := by
  refine ⟨?_, ?_, ?_⟩
  · rw [List.flatMap_append, List.filterMap_append]
    exact h.answers.trans h'.answers
  · rw [List.flatMap_append]
    exact List.pairwise_append.mpr ⟨h.sorted, h'.sorted, fun t ht t' ht' =>
      (h.bounds t ht).2.trans (h'.bounds t' ht').1⟩
  · rw [List.flatMap_append]
    refine List.forall_mem_append.mpr ⟨fun t ht => ?_, fun t ht => ?_⟩
    · exact ⟨(h.bounds t ht).1,
        (h.bounds t ht).2.trans (env.clock.mono h'.answers.instant)⟩
    · exact ⟨(env.clock.mono h.answers.instant).trans (h'.bounds t ht).1, (h'.bounds t ht).2⟩

theorem Comes.serves {s : Service} (h : Comes env (s.answer opts env.zone)
    (s.reminder opts env.zone) s.parsed s.now bot bot') : Serves env opts [s] bot bot' := by
  refine ⟨?_, ?_, ?_⟩
  · have hone : [s].filterMap (Service.reminder opts env.zone) =
        (s.reminder opts env.zone).toList := by
      cases hr : s.reminder opts env.zone with
      | none => exact List.filterMap_cons_none hr
      | some r => exact List.filterMap_cons_some hr
    rw [List.flatMap_singleton, hone]
    exact h.answers
  · rw [List.flatMap_singleton]
    exact List.pairwise_pair.mpr h.le
  · rw [List.flatMap_singleton]
    intro t ht
    unfold Service.times at ht
    rcases List.mem_cons.mp ht with rfl | ht
    · exact ⟨h.after, h.le.trans h.before⟩
    · rw [List.mem_singleton.mp ht]
      exact ⟨h.after.trans h.le, h.before⟩

/-- A line is handled as the message it is, if it is one. -/
theorem processLine_serves {w : Bytes} (h : processLine env opts w bot = .ok bot') :
    ∃ served : List Service, served.map Service.msg = (acceptedMsg w).toList ∧
      Serves env opts served bot bot' := by
  rcases processLine_accepted h with ⟨rfl, hmsg⟩ | ⟨g, hvalid, hmsg, heffect⟩
  · rw [hmsg]
    exact ⟨[], rfl, .of_quiet .refl⟩
  · have hhandled : Answers [] [] bot (bot.observe (.handled g.view)) :=
      .of_trace [.handled g.view] (Nat.le_refl _) rfl
    obtain ⟨parsed, now, hcomes⟩ := msgEffect_comes (wellSplit_view hvalid) heffect
    rw [hmsg]
    exact ⟨[⟨g.view, parsed, now⟩], rfl, (hcomes.of_quiet hhandled).serves⟩

theorem callHandler_answers (env : Env) (handler : Handler) (data : Bytes) (bot : Bot) :
    Answers [] [] bot (callHandler env handler data bot) := by
  have hcall : Answers [] [] bot (bot.observe (.call handler)) :=
    .of_trace [.call handler] (Nat.le_refl _) rfl
  cases handler with
  | remind => exact hcall.trans (.of_other (by decide) _ _)
  | at1337 => exact hcall.trans (.of_trace [] (Nat.le_refl _) (List.append_nil _).symm)
  | at1338 =>
    rw [callHandler_at1338, at1338_eq]
    refine hcall.trans ?_
    cases (bot.observe (.call .at1338)).want1337 with
    | false => exact .of_trace [] (Nat.le_succ _) rfl
    | true => exact .of_trace [.write .at1338 _ _] (Nat.le_succ _) rfl

theorem handleTimeEvent_answers
    (h : handleTimeEvent Bot.queueIn (callHandler env) bot = some bot') :
    Answers [] [] bot bot' := by
  unfold handleTimeEvent at h
  split at h
  · cases h
  · rename_i event rest _
    obtain ⟨q, -, rfl⟩ := Option.map_eq_some_iff.mp h
    obtain ⟨hi, hcalls, haccepted⟩ := callHandler_answers env event.handler event.data bot
    exact ⟨hi, hcalls, haccepted⟩

theorem Happens.serves {bot₀ : Bot} {hs : List Happening} (h : Happens env opts bot₀ hs bot) :
    ∃ served : List Service,
      served.map Service.msg = (hs.filterMap Happening.lineOf).filterMap acceptedMsg ∧
      Serves env opts served bot₀ bot := by
  have quiet : ∀ {hs : List Happening} {h : Happening} {bot bot' : Bot} {served : List Service},
      h.lineOf = none →
      served.map Service.msg = (hs.filterMap Happening.lineOf).filterMap acceptedMsg →
      Serves env opts served bot₀ bot → Answers [] [] bot bot' → ∃ served : List Service,
      served.map Service.msg = ((hs ++ [h]).filterMap Happening.lineOf).filterMap acceptedMsg ∧
      Serves env opts served bot₀ bot' := by
    intro hs h bot bot' served hnone hmsgs hserves hquiet
    refine ⟨served ++ [], ?_, hserves.trans (.of_quiet hquiet)⟩
    rw [List.filterMap_append, List.filterMap_cons_none hnone, List.append_nil, hmsgs]
    exact congrArg _ (List.append_nil _).symm
  induction h with
  | init => exact ⟨[], rfl, .of_quiet .refl⟩
  | @line hs bot bot' w _ hline ih =>
    obtain ⟨served, hmsgs, hserves⟩ := ih
    obtain ⟨served', hmsgs', hserves'⟩ := processLine_serves hline
    refine ⟨served ++ served', ?_, hserves.trans hserves'⟩
    rw [List.map_append, hmsgs, hmsgs', List.filterMap_append, List.filterMap_append]
    refine congrArg _ ?_
    change _ = List.filterMap acceptedMsg [w]
    cases hw : acceptedMsg w with
    | none =>
      rw [List.filterMap_cons_none hw]
      rfl
    | some msg =>
      rw [List.filterMap_cons_some hw]
      rfl
  | timer _ _ _ hrun ih =>
    obtain ⟨served, hmsgs, hserves⟩ := ih
    exact quiet rfl hmsgs hserves (handleTimeEvent_answers hrun)
  | wait _ ih =>
    obtain ⟨served, hmsgs, hserves⟩ := ih
    exact quiet rfl hmsgs hserves (.of_trace [] (Nat.le_succ _) (List.append_nil _).symm)
  | signal _ _ ih =>
    obtain ⟨served, hmsgs, hserves⟩ := ih
    exact quiet rfl hmsgs hserves (.of_other (by decide) _ _)

end Run

section MainLoop
variable {pageSize : Nat} {env : Env} {opts : Options} {bot₀ bot₁ : Bot} {outcome : Restored}
  {l : Loop pageSize} {page : Mem (.mirror pageSize)} {got : Bytes}

/-- Whatever else happens: each command in the stream is answered in its turn, and each
reminder asked for accepted or refused, as its message and the times it was handled at
say. Nothing else the bot has seen, stored or been asked makes a difference. -/
theorem commands_are_answered (hqueue : bot₀.queue = .empty)
    (hrestore : restoreState env bot₀ = .ok (outcome, bot₁))
    (hrun : Loop.Run env opts (Loop.enter page (connectToIrcServer opts bot₁)) got l) :
    ∃ served : List Service, served.map Service.msg = messages got ∧
      l.bot.trace.filterMap Obs.commandWrite = bot₁.trace.filterMap Obs.commandWrite ++
        served.flatMap (Service.answer opts env.zone) ∧
      l.bot.accepted = bot₁.accepted ++ served.filterMap (Service.reminder opts env.zone) ∧
      (served.flatMap Service.times).Pairwise (· ≤ ·) ∧
      ∀ t ∈ served.flatMap Service.times, env.clock.now bot₁.instant ≤ t ∧
        t ≤ env.clock.now l.bot.instant := by
  obtain ⟨hs, hr⟩ := hrun.refines (entered_inv page hqueue hrestore)
  obtain ⟨served, hmsgs, hserves⟩ := hr.happens.serves
  have hlogin : Answers [] [] bot₁ (connectToIrcServer opts bot₁) :=
    (Answers.of_other (by decide) bot₁ _).trans (.of_other (by decide) _ _)
  have hall := (Serves.of_quiet hlogin).trans hserves
  refine ⟨served, ?_, hall.answers.calls, hall.answers.accepted, hall.sorted, hall.bounds⟩
  rw [hmsgs, hr.lines]
  rfl

end MainLoop

theorem echo_is_answered : ∃ (bot₁ : Bot) (l : Loop 512),
    l.bot.trace.filterMap Obs.commandWrite = bot₁.trace.filterMap Obs.commandWrite ++
      [.say (ascii "#c") (ascii "hi")] := by
  obtain ⟨outcome, bot₁, l, hrestore, hl⟩ :=
    run_of_stream (ascii ":al!u@h PRIVMSG #c :!echo hi\n") (by decide)
  obtain ⟨served, hmsgs, hcalls, -⟩ := commands_are_answered rfl hrestore hl
  refine ⟨bot₁, l, hcalls.trans (congrArg _ ?_)⟩
  have hmsg : messages (ascii ":al!u@h PRIVMSG #c :!echo hi\n") =
      [⟨some (ascii "al"), some (ascii "al"), some (ascii "u"), some (ascii "h"), ascii "PRIVMSG",
        [ascii "#c", ascii "!echo hi"]⟩] := by decide +kernel
  rw [hmsg] at hmsgs
  obtain ⟨s, rfl, hs⟩ := List.map_eq_singleton_iff.mp hmsgs
  rw [List.flatMap_singleton]
  unfold Service.answer
  rw [hs]
  rfl

end Botniklas
