import Botniklas.MsgEffect

/-! What one line from the server does to the bot. -/
namespace Botniklas
open Foundation Irc Mem

/-- The body of the loop in `process_msgs`, for a terminated message. -/
def processMsg {L : Layout} (env : Env) (opts : Options) (msgStr : Nat) (m : Mem L) (bot : Bot) :
    Except Stop (Mem L × Bot) :=
  match (splitMsg opts.exitOnInvalidMsg msgStr).run m with
  | .error (.invalid _) m => .ok (m, bot)
  | .error e _ => .error e
  | .ok msg m => handleMsg env opts msg m (bot.observe (.handled (msg.view m)))

/-- The warning of `get_msg`, or the exit. -/
def nullBytes : Stop := .exited "Ignoring invalid message containing null bytes: '%.*s'"

/-- What becomes of the bytes between two line ends, in memory of their own. -/
def processLine (env : Env) (opts : Options) (w : Bytes) (bot : Bot) : Except Stop Bot :=
  if nul ∈ w then if opts.exitOnInvalidMsg then .error nullBytes else .ok bot
  else if w = [] then .ok bot
  else (processMsg env opts 0 (Mem.ofString w) bot).map Prod.snd

def splitEffect (env : Env) (opts : Options) (w : Bytes) (bot : Bot) : Except Stop Bot :=
  match parseMsg w with
  | .error text => if opts.exitOnInvalidMsg then .error (.exited text) else .ok bot
  | .ok g => msgEffect env opts g.view (bot.observe (.handled g.view))

theorem processMsg_computes {L : Layout} {m : Mem L} {p : Nat} {w : Bytes} (env : Env)
    (opts : Options) (bot : Bot) (hm : m.CStr p w) (hd : L.Distinct p (p + w.length + 1))
    (hp : p + w.length < L.size) :
    Computes p (p + w.length + 1) m (processMsg env opts p m bot) (splitEffect env opts w bot) := by
  have hrun := splitMsg_run opts.exitOnInvalidMsg hm hd hp
  unfold processMsg splitEffect
  cases hparse : parseMsg w with
  | error text =>
    rw [hparse] at hrun
    obtain ⟨m', hr, hwi⟩ := hrun
    rw [hr]
    dsimp only
    unfold rejection
    split_ifs
    · rfl
    · exact ⟨m', rfl, hwi⟩
  | ok g =>
    rw [hparse] at hrun
    obtain ⟨msg, m', hr, hwi, hv⟩ := hrun
    have hview := hv.view_eq (show p + w.length + 1 ≤ L.size by omega)
    have hc := handleMsg_computes env opts (bot.observe (.handled g.view)) hv hd (by omega)
    rw [hr]
    dsimp only
    rw [hview]
    exact hc.after hwi

theorem processLine_eq (env : Env) (opts : Options) (w : Bytes) (bot : Bot) :
    processLine env opts w bot =
      if nul ∈ w then if opts.exitOnInvalidMsg then .error nullBytes else .ok bot
      else if w = [] then .ok bot
      else splitEffect env opts w bot := by
  unfold processLine
  split_ifs with h1 h2 h3
  · rfl
  · rfl
  · rfl
  · have hc := processMsg_computes env opts bot (cstr_ofString h1) (Layout.flat_distinct _ _ _)
      (by simp [Layout.flat])
    unfold Computes at hc
    split at hc
    · rw [hc]
      rename_i he
      exact he.symm
    · obtain ⟨m', hm', -⟩ := hc
      rw [hm']
      rename_i he
      exact he.symm

/-! Everything a line can do: replies, and at most one reminder accepted. -/

/-- The texts no command builds from its argument. -/
def fixedReplies : List Bytes :=
  ascii "You rock!" :: ascii "Usage: !help <command>. Use !commands to list commands." ::
    Cmd.table.map Cmd.helpText ++ refusals

/-- What a command may write, given where replies go and its argument. -/
inductive CommandReply (rep : Bytes) (arg : Option Bytes) : WriteCall → Prop where
  | commands : CommandReply rep arg (.compose rep
      (ascii "Available commands:" :: Cmd.table.map fun c => ascii " !" ++ c.cmd))
  | fixed {text : Bytes} : text ∈ fixedReplies → CommandReply rep arg (.say rep text)
  | echo {text : Bytes} : arg = some text → CommandReply rep arg (.say rep text)
  | unknown {text : Bytes} : arg = some text → CommandReply rep arg (.say rep
      (ascii "'" ++ text ++ ascii "': No such command. Use !commands to list commands."))
  | confirmation (diff : Int) : CommandReply rep arg (.compose rep (confirmation diff))

/-- What a message may make the bot write. -/
inductive Reply (opts : Options) (msg : MsgView) : Writer → WriteCall → Prop where
  | pong {s : Bytes} : s ∈ msg.params → Reply opts msg .pong (.writeMsg (ascii "PONG :" ++ s))
  | join : Reply opts msg .join (.writeMsg (ascii "JOIN " ++ opts.channel))
  | congratulation {nick : Bytes} : msg.nick = some nick → Reply opts msg .leetMonitorPrivmsg
      (.say leetChannel (nick ++ ascii " is the 1337est!!!"))
  | command {target text rep : Bytes} {call : WriteCall} : msg.params[0]? = some target →
      msg.params[1]? = some text → replyTarget msg target = .ok rep →
      CommandReply rep (commandArg text) call → Reply opts msg .command call

/-- A reminder as a message may ask for it. -/
structure AsksFor (msg : MsgView) (r : Reminder) : Prop where
  target : ∃ target, msg.params[0]? = some target ∧ replyTarget msg target = .ok r.target
  text : ∃ text arg, msg.params[1]? = some text ∧ commandArg text = some arg ∧ r.text <:+ arg
  nonempty : r.text ≠ []

/-- Replies go to a string of the message. -/
theorem replyTarget_all {P : UInt8 → Prop} {msg : MsgView} (h : msg.All P) {target rep : Bytes}
    (ht : msg.params[0]? = some target) (hrep : replyTarget msg target = .ok rep) :
    ∀ b ∈ rep, P b := by
  unfold replyTarget at hrep
  split_ifs at hrep
  · cases hrep
    exact h.params target (List.mem_of_getElem? ht)
  · cases hp : msg.pfx with
    | none =>
      rw [hp] at hrep
      cases hrep
    | some pfx =>
      rw [hp] at hrep
      cases hrep
      exact h.pfx _ hp

theorem AsksFor.all {P : UInt8 → Prop} {msg : MsgView} {r : Reminder} (ha : AsksFor msg r)
    (h : msg.All P) : (∀ b ∈ r.target, P b) ∧ ∀ b ∈ r.text, P b := by
  obtain ⟨target, ht, hrep⟩ := ha.target
  obtain ⟨text, arg, hx, harg, hsuf⟩ := ha.text
  exact ⟨replyTarget_all h ht hrep, fun b hb =>
    h.params text (List.mem_of_getElem? hx) b (mem_of_mem_commandArg harg (hsuf.subset hb))⟩

/-- `bot'` is `bot` after some messages to the server and perhaps one reminder
accepted, whose time had not passed when the clock was last read. -/
structure Outcome (env : Env) (writes : Writer → WriteCall → Prop) (bot bot' : Bot)
    (r : Option Reminder) : Prop where
  instant : bot.instant ≤ bot'.instant
  queue : bot'.queue = bot.queue.addAll (r.toList.map Reminder.registration)
  reminders : bot'.reminders = r.elim bot.reminders fun r =>
    (env.append bot'.instant).file bot.reminders (record r.when r.target r.text)
  when : ∀ r' ∈ r, ∃ k, bot.instant ≤ k ∧ k < bot'.instant ∧ env.clock.now k ≤ r'.when
  trace : ∃ obs, bot'.trace = bot.trace ++ obs ∧ obs.filterMap Obs.accepted = r.toList ∧
    ∀ o ∈ obs, (∃ r, o = .accept r) ∨ ∃ writer call i, o = .write writer call i ∧ writes writer call

namespace Outcome
variable {env : Env} {writes : Writer → WriteCall → Prop} {bot bot' bot'' : Bot}
  {r : Option Reminder}

theorem refl : Outcome env writes bot bot none :=
  ⟨Nat.le_refl _, rfl, rfl, by simp, [], by simp, rfl, by simp⟩

theorem trans (h : Outcome env writes bot bot' none) (h' : Outcome env writes bot' bot'' r) :
    Outcome env writes bot bot'' r := by
  obtain ⟨obs, ht, ha, hw⟩ := h.trace
  obtain ⟨obs', ht', ha', hw'⟩ := h'.trace
  have hq : bot'.queue = bot.queue := h.queue
  have hr : bot'.reminders = bot.reminders := h.reminders
  refine ⟨h.instant.trans h'.instant, by rw [h'.queue, hq], by rw [h'.reminders, hr],
    fun r' hr' => ?_, obs ++ obs', by rw [ht', ht, List.append_assoc], ?_, ?_⟩
  · obtain ⟨k, h1, h2, h3⟩ := h'.when r' hr'
    exact ⟨k, h.instant.trans h1, h2, h3⟩
  · rw [List.filterMap_append, ha, ha']
    rfl
  · intro o ho
    exact (List.mem_append.mp ho).elim (hw o) (hw' o)

theorem of_write {writer : Writer} {call : WriteCall} {i : Nat} (hi : bot.instant ≤ i)
    (h : writes writer call) : Outcome env writes bot { bot with
      instant := i
      trace := bot.trace ++ [.write writer call i] } none :=
  ⟨hi, rfl, rfl, by simp, _, rfl, rfl, fun _ ho => .inr ⟨writer, call, i, List.mem_singleton.mp ho, h⟩⟩

theorem of_log (text : Bytes) : Outcome env writes bot (logAppend env bot text) none := by
  rw [logAppend_eq]
  exact ⟨Nat.le_succ _, rfl, rfl, by simp, [], by simp, rfl, by simp⟩

end Outcome

section Outcomes
variable (env : Env) (opts : Options) (bot : Bot)

private theorem handleRemind_outcome (rep : Bytes) (arg : Option Bytes)
    {writes : Writer → WriteCall → Prop}
    (hw : ∀ call, CommandReply rep arg call → writes .command call) :
    ∃ r, Outcome env writes bot (handleRemind env bot arg rep) r ∧
      ∀ r' ∈ r, r'.target = rep ∧ r'.text ≠ [] ∧ ∃ arg', arg = some arg' ∧ r'.text <:+ arg' := by
  rcases handleRemind_cases env bot arg rep with ⟨text, ht, i, hi, he⟩ |
    ⟨arg', when, text, harg, hne, hsuf, hwhen, he⟩
  · rw [he]
    exact ⟨none, .of_write hi (hw _ (.fixed (by simp [fixedReplies, ht]))), by simp⟩
  · rw [he]
    refine ⟨some ⟨when, rep, text⟩, ⟨Nat.le_add_right _ 2, rfl, rfl, ?_, ?_⟩, ?_⟩
    · rintro _ ⟨⟩
      exact ⟨bot.instant + 1, Nat.le_succ _, Nat.lt_succ_self _, hwhen⟩
    · refine ⟨[.accept ⟨when, rep, text⟩, .write .command _ _], List.append_assoc _ _ _, rfl, ?_⟩
      intro o ho
      rcases List.mem_cons.mp ho with rfl | ho
      · exact .inl ⟨_, rfl⟩
      · exact .inr ⟨_, _, _, List.mem_singleton.mp ho, hw _ (.confirmation _)⟩
    · rintro _ ⟨⟩
      exact ⟨rfl, hne, arg', harg, hsuf⟩

/-- What comes of a command, whichever it is. -/
inductive Commanded (rep : Bytes) (arg : Option Bytes) : Bot → Prop where
  | nothing : Commanded rep arg bot
  | reply {call : WriteCall} : CommandReply rep arg call →
      Commanded rep arg (bot.write .command call)
  | remind : Commanded rep arg (handleRemind env bot arg rep)

theorem handleCmd_commanded (rep cmd : Bytes) (arg : Option Bytes) :
    Commanded env bot rep arg (handleCmd env bot rep cmd arg) := by
  unfold handleCmd
  cases Cmd.table.find? fun c => c.cmd = cmd with
  | none => exact .nothing
  | some c =>
    cases c with
    | commands => exact .reply .commands
    | compliment => exact .reply (.fixed (by simp [fixedReplies]))
    | echo =>
      cases arg with
      | none => exact .nothing
      | some arg => exact .reply (.echo rfl)
    | help =>
      cases arg with
      | none => exact .reply (.fixed (by simp [fixedReplies]))
      | some arg =>
        dsimp only [Cmd.handler, Cmd.handleHelp]
        split
        · rename_i c hc
          have hmem : c.helpText ∈ Cmd.table.map Cmd.helpText :=
            List.mem_map_of_mem (List.mem_of_find?_eq_some hc)
          exact .reply (.fixed (List.mem_append_left _ (.tail _ (.tail _ hmem))))
        · exact .reply (.unknown rfl)
    | remind => exact .remind

theorem handleCmd_outcome (rep cmd : Bytes) (arg : Option Bytes)
    {writes : Writer → WriteCall → Prop}
    (hw : ∀ call, CommandReply rep arg call → writes .command call) :
    ∃ r, Outcome env writes bot (handleCmd env bot rep cmd arg) r ∧
      ∀ r' ∈ r, r'.target = rep ∧ r'.text ≠ [] ∧ ∃ arg', arg = some arg' ∧ r'.text <:+ arg' := by
  have h := handleCmd_commanded env bot rep cmd arg
  generalize handleCmd env bot rep cmd arg = bot' at h ⊢
  cases h with
  | nothing => exact ⟨none, .refl, by simp⟩
  | reply hreply => exact ⟨none, .of_write (Nat.le_refl _) (hw _ hreply), by simp⟩
  | remind => exact handleRemind_outcome env bot rep arg hw

private theorem leetMonitorPrivmsg_outcome (nick target text : Bytes)
    {writes : Writer → WriteCall → Prop}
    (hw : writes .leetMonitorPrivmsg (.say leetChannel (nick ++ ascii " is the 1337est!!!"))) :
    Outcome env writes bot (leetMonitorPrivmsg bot nick target text) none := by
  unfold leetMonitorPrivmsg
  split_ifs
  · exact ⟨Nat.le_refl _, rfl, rfl, by simp, _, rfl, rfl,
      fun _ ho => .inr ⟨_, _, _, List.mem_singleton.mp ho, hw⟩⟩
  · exact .refl

private theorem noteMsg_outcome {msg : MsgView} {bot bot' : Bot} (h : noteMsg env msg bot = .ok bot') :
    Outcome env (Reply opts msg) bot bot' none := by
  obtain ⟨nick, target, text, hnick, -, -, rfl⟩ := noteMsg_ok_iff.mp h
  exact (Outcome.of_log _).trans (leetMonitorPrivmsg_outcome _ _ _ _ _ (.congratulation hnick))

private theorem privmsgEffect_outcome {msg : MsgView} {bot bot' : Bot}
    (h : privmsgEffect env opts msg bot = .ok bot') :
    ∃ r, Outcome env (Reply opts msg) bot bot' r ∧ ∀ r' ∈ r, AsksFor msg r' := by
  obtain ⟨bot₁, target, text, hnote, ht, hx, hcmd⟩ := privmsgEffect_ok_iff.mp h
  have hfirst := noteMsg_outcome env opts hnote
  rcases hcmd with ⟨-, rep, hrep, rfl⟩ | ⟨-, rfl⟩
  · obtain ⟨r, hr, hask⟩ := handleCmd_outcome env bot₁ rep (commandWord text) (commandArg text)
      fun call hc => @Reply.command opts _ _ _ _ _ ht hx hrep hc
    refine ⟨r, hfirst.trans hr, fun r' hr' => ?_⟩
    obtain ⟨rfl, hne, arg, harg, hsuf⟩ := hask r' hr'
    exact ⟨⟨target, ht, hrep⟩, ⟨text, arg, hx, harg, hsuf⟩, hne⟩
  · exact ⟨none, hfirst, by simp⟩

/-- The handlers that leave an entry in the chat log and do nothing else. -/
theorem logs_entry {msg : MsgView} {bot bot' : Bot}
    (h : handleJoin env msg bot = .ok bot' ∨ handleKick env msg bot = .ok bot' ∨
      handleNick env msg bot = .ok bot' ∨ handlePart env msg bot = .ok bot' ∨
      handleQuit env msg bot = .ok bot') : ∃ text, bot' = logAppend env bot text := by
  rcases h with h | h | h | h | h
  · obtain ⟨_, -, h⟩ := bind_ok h
    obtain ⟨_, -, h⟩ := bind_ok h
    obtain ⟨_, -, h⟩ := bind_ok h
    cases h
    exact ⟨_, rfl⟩
  · obtain ⟨_, -, h⟩ := bind_ok h
    obtain ⟨_, -, h⟩ := bind_ok h
    obtain ⟨_, -, h⟩ := bind_ok h
    obtain ⟨_, -, h⟩ := bind_ok h
    cases h
    exact ⟨_, rfl⟩
  · obtain ⟨_, -, h⟩ := bind_ok h
    obtain ⟨_, -, h⟩ := bind_ok h
    cases h
    exact ⟨_, rfl⟩
  · obtain ⟨_, -, h⟩ := bind_ok h
    obtain ⟨_, -, h⟩ := bind_ok h
    obtain ⟨_, -, h⟩ := bind_ok h
    obtain ⟨_, -, h⟩ := bind_ok h
    cases h
    exact ⟨_, rfl⟩
  · obtain ⟨_, -, h⟩ := bind_ok h
    obtain ⟨_, -, h⟩ := bind_ok h
    obtain ⟨_, -, h⟩ := bind_ok h
    cases h
    exact ⟨_, rfl⟩

private theorem ignore_ne_some {α : Type} {text : String} {handler : α} :
    ignore opts text ≠ .ok (some handler) := by
  unfold ignore
  split_ifs <;> simp

/-- The entry behind the handler that runs, and the bounds it has been checked
against. -/
theorem handlerOf_some {α : Type} {table : List (MsgEntry α)} {msg : MsgView} {handler : α}
    (h : handlerOf opts table msg = .ok (some handler)) :
    ∃ entry ∈ table, entry.handler = handler ∧ entry.cmd = msg.cmd ∧
      entry.nParamsMin ≤ msg.params.length ∧ msg.params.length ≤ entry.nParamsMax ∧
      (entry.needsNick = true → msg.nick ≠ none) := by
  obtain ⟨reply, -, h⟩ := bind_ok h
  cases reply with
  | true => cases h
  | false =>
    rw [if_neg (by decide)] at h
    split at h
    · cases h
    · rename_i entry hentry
      split_ifs at h with h1 h2
      · exact absurd h (ignore_ne_some opts)
      · exact absurd h (ignore_ne_some opts)
      · cases h
        have hcmd : entry.cmd = msg.cmd := by simpa using List.find?_some hentry
        exact ⟨entry, List.mem_of_find?_eq_some hentry, rfl, hcmd, by omega, by omega,
          fun hn hnone => h2 ⟨hn, hnone⟩⟩

/-- A message of two parameters from a nickname is taken. -/
theorem handlerOf_privmsg {α : Type} (reading : (MsgView → Bot → Except Stop Bot) → α)
    (privmsg : α) {msg : MsgView} {nick target text : Bytes} (hcmd : msg.cmd = ascii "PRIVMSG")
    (hnick : msg.nick = some nick) (hparams : msg.params = [target, text]) :
    handlerOf opts (msgs env opts reading privmsg) msg = .ok (some privmsg) := by
  unfold handlerOf
  rw [hcmd, hnick, hparams]
  rfl

/-- What `handle_msg` does, by the kind of the message. -/
inductive Dispatched (msg : MsgView) (bot bot' : Bot) : Prop where
  | ignored : handlerOf opts (msgs env opts id (privmsgEffect env opts)) msg = .ok none →
      bot' = bot → Dispatched msg bot bot'
  | error : msg.cmd ≠ ascii "PRIVMSG" → bot' = bot → Dispatched msg bot bot'
  | log : msg.cmd ≠ ascii "PRIVMSG" → (∃ text, bot' = logAppend env bot text) →
      Dispatched msg bot bot'
  | write {writer : Writer} {call : WriteCall} : msg.cmd ≠ ascii "PRIVMSG" →
      writer = .join ∨ writer = .pong → Reply opts msg writer call →
      bot' = bot.write writer call → Dispatched msg bot bot'
  | privmsg : msg.cmd = ascii "PRIVMSG" → msg.params.length = 2 →
      privmsgEffect env opts msg bot = .ok bot' → Dispatched msg bot bot'

theorem msgEffect_dispatched {msg : MsgView} {bot bot' : Bot}
    (h : msgEffect env opts msg bot = .ok bot') : Dispatched env opts msg bot bot' := by
  obtain ⟨found, hfound, h⟩ := bind_ok h
  cases found with
  | none =>
    cases h
    exact .ignored hfound rfl
  | some handler =>
    obtain ⟨entry, hmem, rfl, hcmd, hmin, hmax, -⟩ := handlerOf_some opts hfound
    simp only [msgs, id, List.mem_cons, List.not_mem_nil, or_false] at hmem
    dsimp only at h
    have hother : entry.cmd ≠ ascii "PRIVMSG" → msg.cmd ≠ ascii "PRIVMSG" := fun hne he =>
      hne (hcmd.trans he)
    rcases hmem with rfl | rfl | rfl | rfl | rfl | rfl | rfl | rfl | rfl
    all_goals dsimp only at hother
    · cases h
      exact .write (hother (by decide)) (.inl rfl) .join rfl
    · obtain ⟨_, -, h⟩ := bind_ok h
      cases h
      exact .error (hother (by decide)) rfl
    · exact .log (hother (by decide)) (logs_entry env (.inl h))
    · exact .log (hother (by decide)) (logs_entry env (.inr (.inl h)))
    · exact .log (hother (by decide)) (logs_entry env (.inr (.inr (.inl h))))
    · exact .log (hother (by decide)) (logs_entry env (.inr (.inr (.inr (.inl h)))))
    · obtain ⟨s, hs, h⟩ := bind_ok h
      cases h
      exact .write (hother (by decide)) (.inr rfl) (.pong (List.mem_of_getElem? (param_ok hs))) rfl
    · exact .privmsg hcmd.symm (Nat.le_antisymm hmax hmin) h
    · exact .log (hother (by decide)) (logs_entry env (.inr (.inr (.inr (.inr h)))))

/-- What it does, whatever the message. -/
theorem msgEffect_outcome {msg : MsgView} {bot bot' : Bot}
    (h : msgEffect env opts msg bot = .ok bot') :
    ∃ r, Outcome env (Reply opts msg) bot bot' r ∧ ∀ r' ∈ r, AsksFor msg r' := by
  cases msgEffect_dispatched env opts h with
  | ignored _ he | error _ he =>
    rw [he]
    exact ⟨none, .refl, by simp⟩
  | log _ he =>
    obtain ⟨text, rfl⟩ := he
    exact ⟨none, .of_log text, by simp⟩
  | write _ _ hreply he =>
    rw [he]
    exact ⟨none, .of_write (Nat.le_refl _) hreply, by simp⟩
  | privmsg _ _ h => exact privmsgEffect_outcome env opts h

end Outcomes

/-- A processed line is no message and has no effect, or it is a message and has that
message's. -/
theorem processLine_msgEffect {env : Env} {opts : Options} {w : Bytes} {bot bot' : Bot}
    (h : processLine env opts w bot = .ok bot') :
    (bot' = bot ∧ (nul ∈ w ∨ w = [] ∨ ∃ text, parseMsg w = .error text)) ∨
    ∃ g, nul ∉ w ∧ parseMsg w = .ok g ∧
      msgEffect env opts g.view (bot.observe (.handled g.view)) = .ok bot' := by
  rw [processLine_eq] at h
  by_cases h0 : nul ∈ w
  · rw [if_pos h0] at h
    split_ifs at h
    cases h
    exact .inl ⟨rfl, .inl h0⟩
  · rw [if_neg h0] at h
    by_cases hne : w = []
    · rw [if_pos hne] at h
      cases h
      exact .inl ⟨rfl, .inr (.inl hne)⟩
    · rw [if_neg hne] at h
      unfold splitEffect at h
      cases hp : parseMsg w with
      | error text =>
        rw [hp] at h
        dsimp only at h
        split_ifs at h
        cases h
        exact .inl ⟨rfl, .inr (.inr ⟨text, rfl⟩)⟩
      | ok g =>
        rw [hp] at h
        exact .inr ⟨g, h0, rfl, h⟩

/-- That effect is an outcome. -/
theorem processLine_cases {env : Env} {opts : Options} {w : Bytes} {bot bot' : Bot}
    (h : processLine env opts w bot = .ok bot') :
    (bot' = bot ∧ (nul ∈ w ∨ w = [] ∨ ∃ text, parseMsg w = .error text)) ∨
    ∃ g r, nul ∉ w ∧ parseMsg w = .ok g ∧
      Outcome env (Reply opts g.view) (bot.observe (.handled g.view)) bot' r ∧
      ∀ r' ∈ r, AsksFor g.view r' := by
  rcases processLine_msgEffect h with hnone | ⟨g, h0, hp, heffect⟩
  · exact .inl hnone
  · obtain ⟨r, hr, hask⟩ := msgEffect_outcome env opts heffect
    exact .inr ⟨g, r, h0, hp, hr, hask⟩

/-! No field is missing. -/

section Total

private theorem isdigit_nul : isdigit nul = false := rfl

/-- Reading stops at the terminator at the latest. -/
theorem checkForErrorReply_total {cmd : Bytes} :
    ∃ b, checkForErrorReply cmd = .ok b := by
  match cmd with
  | [] => exact ⟨_, rfl⟩
  | [a] =>
    cases ha : isdigit a <;> simp [checkForErrorReply, charAt, ha, bind, Except.bind, pure,
      Except.pure, isdigit_nul]
  | [a, b] =>
    cases ha : isdigit a <;> cases hb : isdigit b <;> simp [checkForErrorReply, charAt, ha, hb,
      bind, Except.bind, pure, Except.pure, isdigit_nul]
  | a :: b :: c :: rest =>
    obtain ⟨d, hd⟩ : ∃ d, charAt (a :: b :: c :: rest) 3 = .ok d := by
      cases rest with
      | nil => exact ⟨nul, rfl⟩
      | cons d rest => exact ⟨d, rfl⟩
    unfold checkForErrorReply
    rw [hd]
    cases ha : isdigit a <;> cases hb : isdigit b <;> cases hc : isdigit c <;>
      by_cases h0 : d = nul <;>
      simp [charAt, ha, hb, hc, h0, bind, Except.bind, pure, Except.pure]

variable (env : Env) {opts : Options} {msg : MsgView}

private theorem handlerOf_total {α : Type} (hexit : opts.exitOnInvalidMsg = false)
    (table : List (MsgEntry α)) : ∃ found, handlerOf opts table msg = .ok found := by
  obtain ⟨reply, hreply⟩ := @checkForErrorReply_total msg.cmd
  unfold handlerOf ignore
  rw [hreply]
  cases reply with
  | true => exact ⟨none, rfl⟩
  | false =>
    cases hf : table.find? fun entry => entry.cmd = msg.cmd with
    | none => exact ⟨none, rfl⟩
    | some entry =>
      simp only [bind, Except.bind, hexit, Bool.false_eq_true, if_false]
      split_ifs <;> exact ⟨_, rfl⟩

private theorem param_total {i : Nat} (h : i < msg.params.length) : ∃ s, param msg i = .ok s := by
  unfold param
  rw [List.getElem?_eq_getElem h]
  exact ⟨_, rfl⟩

private theorem optionalParam_total {n : Nat} (h : n ≤ msg.params.length) :
    ∃ s, optionalParam msg n = .ok s := by
  unfold optionalParam
  split_ifs with hn
  · exact ⟨none, rfl⟩
  · obtain ⟨s, hs⟩ := @param_total msg n (by omega)
    rw [hs]
    exact ⟨some s, rfl⟩

/-- The fields a message with a nickname has. -/
structure HasNick (msg : MsgView) : Prop where
  nick : ∃ nick, msg.nick = some nick
  user : ∃ user, msg.user = some user
  pfx : ∃ pfx, msg.pfx = some pfx

private theorem privmsgEffect_total (hn : HasNick msg) (hlen : msg.params.length = 2) (bot : Bot) :
    ∃ bot', privmsgEffect env opts msg bot = .ok bot' := by
  obtain ⟨nick, hnick⟩ := hn.nick
  obtain ⟨pfx, hpfx⟩ := hn.pfx
  obtain ⟨target, text, hparams⟩ := List.length_eq_two.mp hlen
  obtain ⟨rep, hrep⟩ : ∃ rep, replyTarget msg target = .ok rep := by
    unfold replyTarget
    rw [hpfx]
    split_ifs <;> exact ⟨_, rfl⟩
  have ht : msg.params[0]? = some target := by
    rw [hparams]
    rfl
  have hx : msg.params[1]? = some text := by
    rw [hparams]
    rfl
  have hnote := (@noteMsg_ok_iff env msg bot _).mpr ⟨nick, target, text, hnick, ht, hx, rfl⟩
  by_cases hcmd : text.head? = some opts.cmdChar
  · exact ⟨_, privmsgEffect_ok_iff.mpr
      ⟨_, target, text, hnote, ht, hx, .inl ⟨hcmd, rep, hrep, rfl⟩⟩⟩
  · exact ⟨_, privmsgEffect_ok_iff.mpr ⟨_, target, text, hnote, ht, hx, .inr ⟨hcmd, rfl⟩⟩⟩

/-- Every message is handled to the end: what its handler reads is there. -/
theorem msgEffect_total (hexit : opts.exitOnInvalidMsg = false)
    (hn : msg.nick ≠ none → HasNick msg) (bot : Bot) :
    ∃ bot', msgEffect env opts msg bot = .ok bot' := by
  obtain ⟨found, hfound⟩ := @handlerOf_total opts msg _ hexit
    (msgs env opts id (privmsgEffect env opts))
  unfold msgEffect
  rw [hfound]
  cases found with
  | none => exact ⟨bot, rfl⟩
  | some handler =>
    obtain ⟨entry, hmem, rfl, -, hmin, hmax, hneeds⟩ := handlerOf_some opts hfound
    simp only [msgs, id, List.mem_cons, List.not_mem_nil, or_false] at hmem
    change ∃ bot', entry.handler msg bot = .ok bot'
    have hn' : entry.needsNick = true → HasNick msg := fun h => hn (hneeds h)
    rcases hmem with rfl | rfl | rfl | rfl | rfl | rfl | rfl | rfl | rfl
    · exact ⟨_, rfl⟩
    · obtain ⟨s, hs⟩ := @param_total msg _ hmin
      exact ⟨bot, by simp [handleError, hs, bind, Except.bind, pure, Except.pure]⟩
    · obtain ⟨⟨nick, hnick⟩, ⟨user, huser⟩, -⟩ := hn' rfl
      obtain ⟨s, hs⟩ := @param_total msg _ hmin
      simp [handleJoin, hs, hnick, huser, required, bind, Except.bind, pure, Except.pure]
    · obtain ⟨⟨nick, hnick⟩, -, -⟩ := hn' rfl
      dsimp only at hmin
      obtain ⟨s, hs⟩ := @param_total msg 0 (by omega)
      obtain ⟨s', hs'⟩ := @param_total msg 1 (by omega)
      obtain ⟨t, ht⟩ := optionalParam_total hmin
      simp [handleKick, hs, hs', ht, hnick, required, bind, Except.bind, pure, Except.pure]
    · obtain ⟨⟨nick, hnick⟩, -, -⟩ := hn' rfl
      obtain ⟨s, hs⟩ := @param_total msg _ hmin
      simp [handleNick, hs, hnick, required, bind, Except.bind, pure, Except.pure]
    · obtain ⟨⟨nick, hnick⟩, ⟨user, huser⟩, -⟩ := hn' rfl
      obtain ⟨s, hs⟩ := @param_total msg _ hmin
      obtain ⟨t, ht⟩ := optionalParam_total hmin
      simp [handlePart, hs, ht, hnick, huser, required, bind, Except.bind, pure, Except.pure]
    · obtain ⟨s, hs⟩ := @param_total msg _ hmin
      simp [handlePing, hs, bind, Except.bind, pure, Except.pure]
    · exact privmsgEffect_total env (hn' rfl) (Nat.le_antisymm hmax hmin) bot
    · obtain ⟨⟨nick, hnick⟩, ⟨user, huser⟩, -⟩ := hn' rfl
      obtain ⟨t, ht⟩ := optionalParam_total hmin
      simp [handleQuit, ht, hnick, huser, required, bind, Except.bind, pure, Except.pure]

theorem hasNick_view (g : Grammar) (h : g.view.nick ≠ none) : HasNick g.view := by
  unfold Grammar.view at h ⊢
  split at h
  · exact absurd rfl h
  · split at h
    · exact absurd rfl h
    · exact ⟨⟨_, rfl⟩, ⟨_, rfl⟩, ⟨_, rfl⟩⟩

theorem processLine_total (hexit : opts.exitOnInvalidMsg = false) (w : Bytes) (bot : Bot) :
    ∃ bot', processLine env opts w bot = .ok bot' := by
  rw [processLine_eq]
  unfold splitEffect
  simp only [hexit, Bool.false_eq_true, if_false]
  split_ifs
  · exact ⟨bot, rfl⟩
  · exact ⟨bot, rfl⟩
  · split
    · exact ⟨bot, rfl⟩
    · exact msgEffect_total env hexit (hasNick_view _) _

end Total

end Botniklas
