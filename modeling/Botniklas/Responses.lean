import Botniklas.Happenings
import Botniklas.ReplyTarget

/-! What the server is answered and what is logged, as functions of the messages it has
sent. -/
namespace Botniklas
open Foundation Irc

/-- What the bot says for itself, and not for a command, a reminder or the monitor. -/
def Obs.duty : Obs → Option WriteCall
  | .write .login written _ => some written
  | .write .pong written _ => some written
  | .write .join written _ => some written
  | .write .quit written _ => some written
  | _ => none

/-- The answers a message calls for. -/
def owed (opts : Options) (msg : MsgView) : List WriteCall :=
  if msg.cmd = ascii "001" then [.writeMsg (ascii "JOIN " ++ opts.channel)]
  else if msg.cmd = ascii "PING" then
    match msg.params with
    | [s] => [.writeMsg (ascii "PONG :" ++ s)]
    | _ => []
  else []

/-- The text logged for a message from a user. -/
def userText (nick user : Bytes) (host : Option Bytes) (cmd : Bytes) (params : List Bytes) :
    Option Bytes :=
  if cmd = ascii "JOIN" then
    match params with
    | [channel] => some (channel ++ ascii "  " ++ hostmask nick user host ++ ascii " joined")
    | _ => none
  else if cmd = ascii "KICK" then
    match params with
    | [channel, kickee] => some (channel ++ ascii "  " ++ kickee ++ ascii " was kicked by " ++ nick)
    | [channel, kickee, text] =>
      some (channel ++ ascii "  " ++ kickee ++ ascii " was kicked by " ++ nick ++ ascii ": " ++ text)
    | _ => none
  else if cmd = ascii "NICK" then
    match params with
    | [target] => some (nick ++ ascii " changed nick to " ++ target)
    | _ => none
  else if cmd = ascii "PART" then
    match params with
    | [channel] => some (channel ++ ascii "  " ++ hostmask nick user host ++ ascii " left")
    | [channel, text] =>
      some (channel ++ ascii "  " ++ hostmask nick user host ++ ascii " left" ++ ascii ": " ++
        text)
    | _ => none
  else if cmd = ascii "PRIVMSG" then
    match params with
    | [target, text] => some (target ++ ascii "  <" ++ nick ++ ascii "> " ++ text)
    | _ => none
  else if cmd = ascii "QUIT" then
    match params with
    | [] => some (hostmask nick user host ++ ascii " quit")
    | [text] => some (hostmask nick user host ++ ascii " quit" ++ ascii ": " ++ text)
    | _ => none
  else none

def logText (msg : MsgView) : Option Bytes :=
  match msg.nick, msg.user with
  | some nick, some user => userText nick user msg.host msg.cmd msg.params
  | _, _ => none

/-- From `bot` to `bot'` the server has been sent `calls` and `texts` have been logged, each
with the time of day, among other things. -/
structure Responds (env : Env) (calls : List WriteCall) (texts : List Bytes) (bot bot' : Bot) :
    Prop where
  instant : bot.instant ≤ bot'.instant
  calls : bot'.trace.filterMap Obs.duty = bot.trace.filterMap Obs.duty ++ calls
  log : ∃ entries, bot'.chatLog = bot.chatLog ++ entries ∧ entries.map Prod.snd = texts ∧
    (entries.map Prod.fst).Pairwise (· ≤ ·) ∧ ∀ t ∈ entries.map Prod.fst,
      env.clock.now bot.instant ≤ t ∧ t ≤ env.clock.now bot'.instant

namespace Responds
variable {env : Env} {opts : Options} {bot bot' bot'' : Bot} {calls calls' : List WriteCall}
  {texts texts' : List Bytes}

theorem of_quiet {obs : List Obs} (hi : bot.instant ≤ bot'.instant)
    (ht : bot'.trace = bot.trace ++ obs) (hobs : obs.filterMap Obs.duty = [])
    (hlog : bot'.chatLog = bot.chatLog) : Responds env [] [] bot bot' := by
  refine ⟨hi, ?_, [], ?_, rfl, .nil, fun _ h => nomatch h⟩
  · rw [ht, List.filterMap_append, hobs]
  · rw [hlog, List.append_nil]

theorem refl : Responds env [] [] bot bot :=
  of_quiet (Nat.le_refl _) (List.append_nil _).symm rfl rfl

theorem of_write {writer : Writer} {call : WriteCall}
    (hduty : (Obs.write writer call bot.instant).duty = some call) :
    Responds env [call] [] bot (bot.write writer call) := by
  refine ⟨Nat.le_refl _, ?_, [], (List.append_nil _).symm, rfl, .nil, fun _ h => nomatch h⟩
  rw [Bot.write, Bot.observe, List.filterMap_append, List.filterMap_cons_some hduty]
  rfl

theorem of_log (env : Env) (bot : Bot) (text : Bytes) :
    Responds env [] [text] bot (logAppend env bot text) := by
  rw [logAppend_eq]
  refine ⟨Nat.le_succ _, (List.append_nil _).symm, _, rfl, rfl, List.pairwise_singleton _ _, ?_⟩
  intro t ht
  rw [List.mem_singleton.mp ht]
  exact ⟨le_rfl, env.clock.mono (Nat.le_succ _)⟩

theorem trans (h : Responds env calls texts bot bot') (h' : Responds env calls' texts' bot' bot'') :
    Responds env (calls ++ calls') (texts ++ texts') bot bot'' := by
  obtain ⟨entries, hlog, htexts, hsorted, hbounds⟩ := h.log
  obtain ⟨entries', hlog', htexts', hsorted', hbounds'⟩ := h'.log
  refine ⟨h.instant.trans h'.instant, ?_, entries ++ entries', ?_, ?_, ?_, ?_⟩
  · rw [h'.calls, h.calls, List.append_assoc]
  · rw [hlog', hlog, List.append_assoc]
  · rw [List.map_append, htexts, htexts']
  · rw [List.map_append]
    exact List.pairwise_append.mpr ⟨hsorted, hsorted', fun t ht t' ht' =>
      (hbounds t ht).2.trans (hbounds' t' ht').1⟩
  · rw [List.map_append]
    refine List.forall_mem_append.mpr ⟨fun t ht => ?_, fun t ht => ?_⟩
    · exact ⟨(hbounds t ht).1, (hbounds t ht).2.trans (env.clock.mono h'.instant)⟩
    · exact ⟨(env.clock.mono h.instant).trans (hbounds' t ht).1, (hbounds' t ht).2⟩

end Responds

section Message
variable {env : Env} {opts : Options} {msg : MsgView} {bot bot' : Bot}

/-- What is known of a message that has been split. -/
structure WellSplit (msg : MsgView) : Prop where
  nick : msg.nick ≠ none → HasNick msg
  count : msg.params.length ≤ maxParams

theorem wellSplit_view {g : Grammar} (h : g.Valid) : WellSplit g.view :=
  ⟨hasNick_view g, by rw [Grammar.view_params]; exact h.count⟩

/-- A message that no handler takes is not to be answered. -/
private theorem owed_ignored (hsplit : WellSplit msg)
    (h : handlerOf opts (msgs env opts id (privmsgEffect env opts)) msg = .ok none) :
    owed opts msg = [] := by
  obtain ⟨pfx, nick, user, host, cmd, params⟩ := msg
  unfold owed
  dsimp only
  split_ifs with h001 hping
  · subst h001
    have hcount : params.length ≤ 20 := hsplit.count
    have hfits : ¬ (params.length < 0 ∨ params.length > sizeMax) := by
      unfold sizeMax
      omega
    cases (if_neg hfits).symm.trans h
  · subst hping
    split
    · cases h
    · rfl
  · rfl

/-- Nor is it to be logged. -/
private theorem logText_ignored
    (h : handlerOf opts (msgs env opts id (privmsgEffect env opts)) msg = .ok none) :
    logText msg = none := by
  obtain ⟨pfx, nick, user, host, cmd, params⟩ := msg
  unfold logText
  dsimp only
  split
  · unfold userText
    split_ifs with hcmd hcmd hcmd hcmd hcmd hcmd
    · subst hcmd
      split
      · cases h
      · rfl
    · subst hcmd
      split
      · cases h
      · cases h
      · rfl
    · subst hcmd
      split
      · cases h
      · rfl
    · subst hcmd
      split
      · cases h
      · cases h
      · rfl
    · subst hcmd
      split
      · cases h
      · rfl
    · subst hcmd
      split
      · cases h
      · cases h
      · rfl
    · rfl
  · rfl

/-- The text of a message from a user, once its fields are known. -/
private theorem logText_eq {nick user : Bytes} (hnick : msg.nick = some nick)
    (huser : msg.user = some user) : logText msg = userText nick user msg.host msg.cmd msg.params := by
  unfold logText
  rw [hnick, huser]

/-- The observers of a message log its text, and a command leaves the log alone. -/
private theorem privmsgEffect_responds (h : privmsgEffect env opts msg bot = .ok bot')
    (hlen : msg.params.length = 2) :
    ∃ nick target text, msg.nick = some nick ∧ msg.params = [target, text] ∧
      Responds env [] [target ++ ascii "  <" ++ nick ++ ascii "> " ++ text] bot bot' := by
  obtain ⟨bot₁, target, text, hnote, ht, hx, hcmd⟩ := privmsgEffect_ok_iff.mp h
  obtain ⟨nick, target', text', hnick, ht', hx', rfl⟩ := noteMsg_ok_iff.mp hnote
  obtain rfl := Option.some.inj (ht.symm.trans ht')
  obtain rfl := Option.some.inj (hx.symm.trans hx')
  obtain ⟨a, b, hparams⟩ := List.length_eq_two.mp hlen
  rw [hparams] at ht hx
  cases ht
  cases hx
  refine ⟨nick, _, _, hnick, hparams, ?_⟩
  have hlog := Responds.of_log env bot (target ++ ascii "  <" ++ nick ++ ascii "> " ++ text)
  have hmonitor : ∀ bot : Bot, Responds env [] [] bot (leetMonitorPrivmsg bot nick target text) := by
    intro bot
    unfold leetMonitorPrivmsg
    split_ifs
    · exact .of_quiet (Nat.le_refl _) rfl rfl rfl
    · exact .refl
  have hnoted := hlog.trans (hmonitor _)
  rcases hcmd with ⟨-, rep, -, rfl⟩ | ⟨-, rfl⟩
  · obtain ⟨r, hr⟩ := handleCmd_repliesTo env
      (leetMonitorPrivmsg (logPrivmsg env bot nick target text) nick target text) rep
      (commandWord text) (commandArg text)
    obtain ⟨obs, htrace, -, hobs⟩ := hr.trace
    have hquiet : obs.filterMap Obs.duty = [] := by
      apply List.filterMap_eq_nil_iff.mpr
      intro o ho
      rcases hobs o ho with ⟨r', rfl⟩ | ⟨_, _, _, rfl, rfl, -⟩
      · rfl
      · rfl
    exact hnoted.trans (.of_quiet hr.instant htrace hquiet hr.chatLog)
  · exact hnoted

private theorem optionalParam_ok {n : Nat} {o : Option Bytes} (h : optionalParam msg n = .ok o) :
    (msg.params.length = n ∧ o = none) ∨ ∃ s, msg.params[n]? = some s ∧ o = some s := by
  unfold optionalParam at h
  split_ifs at h with hlen
  · cases h
    exact .inl ⟨hlen, rfl⟩
  · cases hp : param msg n with
    | error e =>
      rw [hp] at h
      cases h
    | ok s =>
      rw [hp] at h
      cases h
      exact .inr ⟨s, param_ok hp, rfl⟩

private theorem owed_other (h001 : msg.cmd ≠ ascii "001") (hping : msg.cmd ≠ ascii "PING") :
    owed opts msg = [] := by
  unfold owed
  rw [if_neg h001, if_neg hping]

/-- A message that is not logged, whoever it is from. -/
private theorem logText_none (h : ∀ nick user host, userText nick user host msg.cmd msg.params = none) :
    logText msg = none := by
  unfold logText
  split
  · exact h _ _ _
  · rfl

/-- A message that is logged and not answered. -/
private theorem responds_log {nick user text : Bytes} (hnick : msg.nick = some nick)
    (huser : msg.user = some user) (h001 : msg.cmd ≠ ascii "001") (hping : msg.cmd ≠ ascii "PING")
    (htext : userText nick user msg.host msg.cmd msg.params = some text)
    (h : Responds env [] [text] bot bot') :
    Responds env (owed opts msg) (logText msg).toList bot bot' := by
  rw [owed_other h001 hping, logText_eq hnick huser, htext]
  exact h

private theorem exists_user {nick : Bytes} (hsplit : WellSplit msg) (hnick : msg.nick = some nick) :
    ∃ user, msg.user = some user :=
  (hsplit.nick (by rw [hnick]; exact Option.some_ne_none nick)).user

private theorem handleJoin_responds (hcmd : msg.cmd = ascii "JOIN")
    (hlen : msg.params.length = 1) (h : handleJoin env msg bot = .ok bot') :
    Responds env (owed opts msg) (logText msg).toList bot bot' := by
  obtain ⟨nick, hnick, h⟩ := bind_ok h
  obtain ⟨user, huser, h⟩ := bind_ok h
  obtain ⟨channel, hchannel, h⟩ := bind_ok h
  cases h
  obtain ⟨_, hparams⟩ := List.length_eq_one_iff.mp hlen
  have hchannel := param_ok hchannel
  rw [hparams] at hchannel
  cases hchannel
  refine responds_log (required_ok hnick) (required_ok huser) (by rw [hcmd]; decide)
    (by rw [hcmd]; decide) ?_ (.of_log env bot _)
  rw [hcmd, hparams]
  rfl

private theorem handleKick_responds (hsplit : WellSplit msg) (hcmd : msg.cmd = ascii "KICK")
    (hmax : msg.params.length ≤ 3) (h : handleKick env msg bot = .ok bot') :
    Responds env (owed opts msg) (logText msg).toList bot bot' := by
  obtain ⟨text, htext, h⟩ := bind_ok h
  obtain ⟨nick, hnick, h⟩ := bind_ok h
  obtain ⟨channel, hchannel, h⟩ := bind_ok h
  obtain ⟨kickee, hkickee, h⟩ := bind_ok h
  cases h
  have hchannel := param_ok hchannel
  have hkickee := param_ok hkickee
  obtain ⟨user, huser⟩ := exists_user hsplit (required_ok hnick)
  refine responds_log (required_ok hnick) huser (by rw [hcmd]; decide)
    (by rw [hcmd]; decide) ?_ (.of_log env bot _)
  rw [hcmd]
  rcases optionalParam_ok htext with ⟨hlen, rfl⟩ | ⟨s, hs, rfl⟩
  · obtain ⟨_, _, hparams⟩ := List.length_eq_two.mp hlen
    rw [hparams] at hchannel hkickee ⊢
    cases hchannel
    cases hkickee
    exact congrArg some (List.append_nil _).symm
  · obtain ⟨hthree, -⟩ := List.getElem?_eq_some_iff.mp hs
    obtain ⟨_, _, _, hparams⟩ := List.length_eq_three.mp (Nat.le_antisymm hmax hthree)
    rw [hparams] at hchannel hkickee hs ⊢
    cases hchannel
    cases hkickee
    cases hs
    exact congrArg some (List.append_assoc _ _ _)

private theorem handleNick_responds (hsplit : WellSplit msg) (hcmd : msg.cmd = ascii "NICK")
    (hlen : msg.params.length = 1) (h : handleNick env msg bot = .ok bot') :
    Responds env (owed opts msg) (logText msg).toList bot bot' := by
  obtain ⟨nick, hnick, h⟩ := bind_ok h
  obtain ⟨target, htarget, h⟩ := bind_ok h
  cases h
  have htarget := param_ok htarget
  obtain ⟨user, huser⟩ := exists_user hsplit (required_ok hnick)
  obtain ⟨_, hparams⟩ := List.length_eq_one_iff.mp hlen
  rw [hparams] at htarget
  cases htarget
  refine responds_log (required_ok hnick) huser (by rw [hcmd]; decide)
    (by rw [hcmd]; decide) ?_ (.of_log env bot _)
  rw [hcmd, hparams]
  rfl

private theorem handlePart_responds (hcmd : msg.cmd = ascii "PART") (hmax : msg.params.length ≤ 2)
    (h : handlePart env msg bot = .ok bot') :
    Responds env (owed opts msg) (logText msg).toList bot bot' := by
  obtain ⟨text, htext, h⟩ := bind_ok h
  obtain ⟨nick, hnick, h⟩ := bind_ok h
  obtain ⟨user, huser, h⟩ := bind_ok h
  obtain ⟨channel, hchannel, h⟩ := bind_ok h
  cases h
  have hchannel := param_ok hchannel
  refine responds_log (required_ok hnick) (required_ok huser) (by rw [hcmd]; decide)
    (by rw [hcmd]; decide) ?_ (.of_log env bot _)
  rw [hcmd]
  rcases optionalParam_ok htext with ⟨hlen, rfl⟩ | ⟨s, hs, rfl⟩
  · obtain ⟨_, hparams⟩ := List.length_eq_one_iff.mp hlen
    rw [hparams] at hchannel ⊢
    cases hchannel
    exact congrArg some (List.append_nil _).symm
  · obtain ⟨htwo, -⟩ := List.getElem?_eq_some_iff.mp hs
    obtain ⟨_, _, hparams⟩ := List.length_eq_two.mp (Nat.le_antisymm hmax htwo)
    rw [hparams] at hchannel hs ⊢
    cases hchannel
    cases hs
    exact congrArg some (List.append_assoc _ _ _)

private theorem handlePing_responds (hcmd : msg.cmd = ascii "PING") (hlen : msg.params.length = 1)
    (h : handlePing msg bot = .ok bot') :
    Responds env (owed opts msg) (logText msg).toList bot bot' := by
  obtain ⟨s, hs, h⟩ := bind_ok h
  cases h
  have hs := param_ok hs
  obtain ⟨_, hparams⟩ := List.length_eq_one_iff.mp hlen
  rw [hparams] at hs
  cases hs
  have howed : owed opts msg = [.writeMsg (ascii "PONG :" ++ s)] := by
    unfold owed
    rw [hcmd, hparams]
    rfl
  rw [howed, logText_none fun _ _ _ => by rw [hcmd]; rfl]
  exact .of_write rfl

private theorem handleQuit_responds (hcmd : msg.cmd = ascii "QUIT") (hmax : msg.params.length ≤ 1)
    (h : handleQuit env msg bot = .ok bot') :
    Responds env (owed opts msg) (logText msg).toList bot bot' := by
  obtain ⟨text, htext, h⟩ := bind_ok h
  obtain ⟨nick, hnick, h⟩ := bind_ok h
  obtain ⟨user, huser, h⟩ := bind_ok h
  cases h
  refine responds_log (required_ok hnick) (required_ok huser) (by rw [hcmd]; decide)
    (by rw [hcmd]; decide) ?_ (.of_log env bot _)
  rw [hcmd]
  rcases optionalParam_ok htext with ⟨hlen, rfl⟩ | ⟨s, hs, rfl⟩
  · rw [List.length_eq_zero_iff.mp hlen]
    exact congrArg some (List.append_nil _).symm
  · obtain ⟨hone, -⟩ := List.getElem?_eq_some_iff.mp hs
    obtain ⟨_, hparams⟩ := List.length_eq_one_iff.mp (Nat.le_antisymm hmax hone)
    rw [hparams] at hs ⊢
    cases hs
    exact congrArg some (List.append_assoc _ _ _)

private theorem privmsg_responds (hsplit : WellSplit msg) (hcmd : msg.cmd = ascii "PRIVMSG")
    (hlen : msg.params.length = 2) (h : privmsgEffect env opts msg bot = .ok bot') :
    Responds env (owed opts msg) (logText msg).toList bot bot' := by
  obtain ⟨nick, target, text, hnick, hparams, hresponds⟩ := privmsgEffect_responds h hlen
  obtain ⟨user, huser⟩ := exists_user hsplit hnick
  refine responds_log hnick huser (by rw [hcmd]; decide) (by rw [hcmd]; decide) ?_ hresponds
  rw [hcmd, hparams]
  rfl

/-- The answers to a message and its text in the log, whatever else comes of it. -/
theorem msgEffect_responds (hsplit : WellSplit msg) (h : msgEffect env opts msg bot = .ok bot') :
    Responds env (owed opts msg) (logText msg).toList bot bot' := by
  obtain ⟨found, hfound, h⟩ := bind_ok h
  cases found with
  | none =>
    cases h
    rw [owed_ignored hsplit hfound, logText_ignored hfound]
    exact .refl
  | some handler =>
    obtain ⟨entry, hmem, rfl, hcmd, hmin, hmax, hneeds⟩ := handlerOf_some opts hfound
    simp only [msgs, id, List.mem_cons, List.not_mem_nil, or_false] at hmem
    dsimp only at h
    rcases hmem with rfl | rfl | rfl | rfl | rfl | rfl | rfl | rfl | rfl
    all_goals dsimp only at hcmd hmin hmax hneeds h
    · cases h
      rw [show owed opts msg = [.writeMsg (ascii "JOIN " ++ opts.channel)] from if_pos hcmd.symm,
        logText_none fun _ _ _ => by rw [← hcmd]; rfl]
      exact .of_write rfl
    · obtain ⟨_, -, h⟩ := bind_ok h
      cases h
      rw [owed_other (by rw [← hcmd]; decide) (by rw [← hcmd]; decide),
        logText_none fun _ _ _ => by rw [← hcmd]; rfl]
      exact .refl
    · exact handleJoin_responds hcmd.symm (Nat.le_antisymm hmax hmin) h
    · exact handleKick_responds hsplit hcmd.symm hmax h
    · exact handleNick_responds hsplit hcmd.symm (Nat.le_antisymm hmax hmin) h
    · exact handlePart_responds hcmd.symm hmax h
    · exact handlePing_responds hcmd.symm (Nat.le_antisymm hmax hmin) h
    · exact privmsg_responds hsplit hcmd.symm (Nat.le_antisymm hmax hmin) h
    · exact handleQuit_responds hcmd.symm hmax h

end Message

section Run
variable {env : Env} {opts : Options} {bot bot' : Bot}

/-- What a happening calls for. -/
def Happening.owed (opts : Options) : Happening → List WriteCall
  | line w => (acceptedMsg w).toList.flatMap (Botniklas.owed opts)
  | signal => [.writeMsg (ascii "QUIT :" ++ opts.quitMessage)]
  | _ => []

def Happening.texts : Happening → List Bytes
  | line w => ((acceptedMsg w).bind logText).toList
  | _ => []

/-- A line that is no message does nothing, and any other is handled. -/
theorem processLine_accepted {w : Bytes} (h : processLine env opts w bot = .ok bot') :
    (bot' = bot ∧ acceptedMsg w = none) ∨ ∃ g : Grammar, g.Valid ∧ acceptedMsg w = some g.view ∧
      msgEffect env opts g.view (bot.observe (.handled g.view)) = .ok bot' := by
  rcases processLine_msgEffect h with ⟨rfl, hnone⟩ | ⟨g, h0, hparse, heffect⟩
  · refine .inl ⟨rfl, ?_⟩
    by_cases hw : nul ∈ w ∨ w = []
    · exact if_pos hw
    · obtain ⟨h0, hne⟩ := not_or.mp hw
      obtain ⟨text, hparse⟩ := (hnone.resolve_left h0).resolve_left hne
      rw [acceptedMsg_eq h0 hne, hparse]
  · have hne : w ≠ [] := by
      rintro rfl
      cases hparse
    refine .inr ⟨g, ((parseMsg_ok_iff w g).mp hparse).1, ?_, heffect⟩
    rw [acceptedMsg_eq h0 hne, hparse]

/-- A line is answered as the message it is, if it is one. -/
theorem processLine_responds {w : Bytes} (h : processLine env opts w bot = .ok bot') :
    Responds env ((acceptedMsg w).toList.flatMap (owed opts)) ((acceptedMsg w).bind logText).toList
      bot bot' := by
  rcases processLine_accepted h with ⟨rfl, hmsg⟩ | ⟨g, hvalid, hmsg, heffect⟩
  · rw [hmsg]
    exact .refl
  · have hhandled : Responds env [] [] bot (bot.observe (.handled g.view)) :=
      .of_quiet (Nat.le_refl _) rfl rfl rfl
    rw [hmsg, Option.toList_some, List.flatMap_singleton]
    exact hhandled.trans (msgEffect_responds (wellSplit_view hvalid) heffect)

theorem callHandler_responds (env : Env) (handler : Handler) (data : Bytes) (bot : Bot) :
    Responds env [] [] bot (callHandler env handler data bot) := by
  cases handler with
  | remind => exact .of_quiet (Nat.le_refl _) (List.append_assoc _ _ _) rfl rfl
  | at1337 => exact .of_quiet (Nat.le_refl _) rfl rfl rfl
  | at1338 =>
    rw [callHandler_at1338, at1338_eq]
    refine .of_quiet (Nat.le_succ _) (List.append_assoc _ _ _) ?_ rfl
    cases (bot.observe (.call .at1338)).want1337 with
    | false => rfl
    | true => rfl

theorem handleTimeEvent_responds
    (h : handleTimeEvent Bot.queueIn (callHandler env) bot = some bot') :
    Responds env [] [] bot bot' := by
  unfold handleTimeEvent at h
  split at h
  · cases h
  · rename_i event rest _
    obtain ⟨q, -, rfl⟩ := Option.map_eq_some_iff.mp h
    obtain ⟨hi, hcalls, hlog⟩ := callHandler_responds env event.handler event.data bot
    exact ⟨hi, hcalls, hlog⟩

theorem Happens.responds {bot₀ : Bot} {hs : List Happening} (h : Happens env opts bot₀ hs bot) :
    Responds env (hs.flatMap (Happening.owed opts)) (hs.flatMap Happening.texts) bot₀ bot := by
  induction h with
  | init => exact .refl
  | line _ hline ih =>
    rw [List.flatMap_append, List.flatMap_append, List.flatMap_singleton, List.flatMap_singleton]
    exact ih.trans (processLine_responds hline)
  | timer _ _ _ hrun ih =>
    rw [List.flatMap_append, List.flatMap_append, List.flatMap_singleton, List.flatMap_singleton]
    exact ih.trans (handleTimeEvent_responds hrun)
  | wait _ ih =>
    rw [List.flatMap_append, List.flatMap_append, List.flatMap_singleton, List.flatMap_singleton]
    exact ih.trans (.of_quiet (Nat.le_succ _) (List.append_nil _).symm rfl rfl)
  | signal _ _ ih =>
    rw [List.flatMap_append, List.flatMap_append, List.flatMap_singleton, List.flatMap_singleton]
    exact ih.trans (.of_write rfl)

/-- A signal is answered once. -/
theorem Happens.count_signal {bot₀ : Bot} {hs : List Happening}
    (h : Happens env opts bot₀ hs bot) : hs.count .signal ≤ 1 := by
  induction h with
  | init => exact Nat.zero_le _
  | line _ _ ih | timer _ _ _ _ ih | wait _ ih => simpa using ih
  | signal _ hnone _ =>
    rw [List.count_append, List.count_eq_zero.mpr hnone]
    exact Nat.le_refl _

/-- The texts of all lines are those of the messages among them. -/
theorem flatMap_texts (hs : List Happening) : hs.flatMap Happening.texts =
    ((hs.filterMap Happening.lineOf).filterMap acceptedMsg).filterMap logText := by
  induction hs with
  | nil => rfl
  | cons h hs ih =>
    rw [List.flatMap_cons, ih]
    cases h with
    | line w =>
      change ((acceptedMsg w).bind logText).toList ++ _ =
        ((w :: hs.filterMap Happening.lineOf).filterMap acceptedMsg).filterMap logText
      rw [List.filterMap_cons]
      cases acceptedMsg w with
      | none => rfl
      | some msg =>
        rw [List.filterMap_cons]
        cases hmsg : logText msg <;> simp [hmsg]
    | timer _ | wait | signal => rfl

end Run

section MainLoop
variable {pageSize : Nat} {env : Env} {opts : Options} {bot₀ bot₁ : Bot} {outcome : Restored}
  {l : Loop pageSize} {page : Mem (.mirror pageSize)} {got : Bytes}

/-- The two messages of the registration. -/
def login (opts : Options) : List WriteCall :=
  [.writeMsg (ascii "NICK " ++ opts.nick),
   .writeMsg (ascii "USER " ++ opts.username ++ ascii " 0 * :" ++ opts.realname)]

/-- Whatever else happens: the bot registers, then answers every PING with its parameter and
every welcome with a JOIN, in the order in which they stand in the stream, however that was
cut up, and takes its leave once, at the first signal. -/
theorem server_is_answered (hqueue : bot₀.queue = .empty)
    (hrestore : restoreState env bot₀ = .ok (outcome, bot₁))
    (hrun : Loop.Run env opts (Loop.enter page (connectToIrcServer opts bot₁)) got l) :
    ∃ hs : List Happening, hs.filterMap Happening.lineOf = (pieces isEol got).1 ∧
      hs.count .signal = (if l.firstSignal then 0 else 1) ∧
      l.bot.trace.filterMap Obs.duty =
        bot₁.trace.filterMap Obs.duty ++ login opts ++ hs.flatMap (Happening.owed opts) := by
  obtain ⟨hs, hr⟩ := hrun.refines (entered_inv page hqueue hrestore)
  refine ⟨hs, hr.lines, ?_, ?_⟩
  · have hone := hr.happens.count_signal
    split_ifs with hfirst
    · exact List.count_eq_zero.mpr fun hmem => by simp [hr.signal.mp hmem] at hfirst
    · have hpos := List.count_pos_iff.mpr (hr.signal.mpr (by simpa using hfirst))
      omega
  · have hlogin : (connectToIrcServer opts bot₁).trace.filterMap Obs.duty =
        bot₁.trace.filterMap Obs.duty ++ login opts := by
      unfold connectToIrcServer Bot.write Bot.observe
      rw [List.filterMap_append, List.filterMap_append, List.append_assoc]
      rfl
    rw [hr.happens.responds.calls, hlogin]

/-- There is one entry to be logged for each message that is to be logged, in their order, with
times that do not decrease. -/
theorem messages_are_logged (hqueue : bot₀.queue = .empty)
    (hrestore : restoreState env bot₀ = .ok (outcome, bot₁))
    (hrun : Loop.Run env opts (Loop.enter page (connectToIrcServer opts bot₁)) got l) :
    ∃ entries, l.bot.chatLog = bot₁.chatLog ++ entries ∧
      entries.map Prod.snd = (messages got).filterMap logText ∧
      (entries.map Prod.fst).Pairwise (· ≤ ·) ∧
      ∀ t ∈ entries.map Prod.fst, env.clock.now bot₁.instant ≤ t ∧
        t ≤ env.clock.now l.bot.instant := by
  obtain ⟨hs, hr⟩ := hrun.refines (entered_inv page hqueue hrestore)
  have hlog := hr.happens.responds.log
  rw [flatMap_texts, hr.lines] at hlog
  exact hlog

end MainLoop

theorem ping_is_answered : ∃ (bot₁ : Bot) (l : Loop 512) (hs : List Happening),
    hs.filterMap Happening.lineOf = [ascii "PING :x"] ∧
    l.bot.trace.filterMap Obs.duty = bot₁.trace.filterMap Obs.duty ++ login .default ++
      hs.flatMap (Happening.owed .default) := by
  obtain ⟨outcome, bot₁, l, hrestore, hl⟩ :=
    run_of_stream (ascii "PING :x\nPAR") (by decide)
  obtain ⟨hs, hlines, -, hcalls⟩ := server_is_answered rfl hrestore hl
  exact ⟨bot₁, l, hs, hlines.trans (by decide), hcalls⟩

/-- Of two messages one is to be logged. -/
theorem quit_is_logged : ∃ (bot₁ : Bot) (l : Loop 512) (t : Int),
    l.bot.chatLog = bot₁.chatLog ++ [(t, ascii "n (u@h) quit: bye")] := by
  obtain ⟨outcome, bot₁, l, hrestore, hl⟩ :=
    run_of_stream (ascii "PING :x\n:n!u@h QUIT :bye\nPAR") (by decide)
  obtain ⟨entries, hlog, htexts, -⟩ := messages_are_logged rfl hrestore hl
  have hquit : (messages (ascii "PING :x\n:n!u@h QUIT :bye\nPAR")).filterMap logText =
      [ascii "n (u@h) quit: bye"] := by decide +kernel
  rw [hquit] at htexts
  obtain ⟨⟨t, text⟩, rfl, rfl⟩ := List.map_eq_singleton_iff.mp htexts
  exact ⟨bot₁, l, t, hlog⟩

end Botniklas
