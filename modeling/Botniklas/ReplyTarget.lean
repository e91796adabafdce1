import Botniklas.LineEffect

/-! Where the replies to a message go, and what the observers see of it. The prefix of
the message has been cut to the nickname in place, and the text is cut after they have
seen it. -/
namespace Botniklas
open Foundation Irc Mem

/-- The target of a `PRIVMSG`. -/
def WriteCall.target : WriteCall → Option Bytes
  | writeMsg _ => none
  | say target _ => some target
  | compose target _ => some target

theorem CommandReply.target {rep : Bytes} {arg : Option Bytes} {call : WriteCall}
    (h : CommandReply rep arg call) : call.target = some rep := by
  cases h <;> rfl

/-- The channel a message was sent to, or else the nickname of its sender. -/
def replyPlace (sender target : Bytes) : Bytes :=
  if isChannel target then target else before bang sender

/-- From `bot` to `bot'` a command has written to nobody but `rep`, and registered and
saved for nobody else, if it did any of this. -/
structure RepliesTo (env : Env) (rep : Bytes) (bot bot' : Bot) (r : Option Reminder) : Prop
    extends Outcome env (fun writer call => writer = .command ∧ call.target = some rep) bot bot' r
    where
  want1337 : bot'.want1337 = bot.want1337
  chatLog : bot'.chatLog = bot.chatLog
  target : ∀ r' ∈ r, r'.target = rep

section Command
variable (env : Env) {opts : Options} {bot bot' : Bot} {rep : Bytes} {arg : Option Bytes}

/-- A command does not look at the flag of the monitor or the chat log. -/
private theorem commanded_keeps (h : Commanded env bot rep arg bot') :
    bot'.want1337 = bot.want1337 ∧ bot'.chatLog = bot.chatLog := by
  cases h with
  | nothing => exact ⟨rfl, rfl⟩
  | reply => exact ⟨rfl, rfl⟩
  | remind =>
    rcases handleRemind_cases env bot arg rep with ⟨_, -, _, -, he⟩ | ⟨_, _, _, -, -, -, -, he⟩
    · rw [he]
      exact ⟨rfl, rfl⟩
    · rw [he]
      exact ⟨rfl, rfl⟩

theorem handleCmd_repliesTo (bot : Bot) (rep cmd : Bytes) (arg : Option Bytes) :
    ∃ r, RepliesTo env rep bot (handleCmd env bot rep cmd arg) r := by
  obtain ⟨hwant, hlog⟩ := commanded_keeps env (handleCmd_commanded env bot rep cmd arg)
  obtain ⟨r, houtcome, hask⟩ := @handleCmd_outcome env bot rep cmd arg
    (fun writer call => writer = .command ∧ call.target = some rep)
    fun call hreply => ⟨rfl, hreply.target⟩
  exact ⟨r, houtcome, hwant, hlog, fun r' hr' => (hask r' hr').1⟩

end Command

section Message
variable (env : Env) (opts : Options) {msg : MsgView} {nick target text : Bytes}

theorem privmsgEffect_repliesTo (bot : Bot) (hpfx : msg.pfx = some nick)
    (hnick : msg.nick = some nick) (hparams : msg.params = [target, text]) :
    ∃ bot' r, privmsgEffect env opts msg bot = .ok bot' ∧
      RepliesTo env (if isChannel target then target else nick)
        (leetMonitorPrivmsg (logPrivmsg env bot nick target text) nick target text) bot' r := by
  have ht : msg.params[0]? = some target := by
    rw [hparams]
    rfl
  have hx : msg.params[1]? = some text := by
    rw [hparams]
    rfl
  have hrep : replyTarget msg target = .ok (if isChannel target then target else nick) := by
    unfold replyTarget
    rw [hpfx]
    split_ifs
    · rfl
    · rfl
  have hnote := (@noteMsg_ok_iff env msg bot _).mpr ⟨nick, target, text, hnick, ht, hx, rfl⟩
  by_cases hcmd : text.head? = some opts.cmdChar
  · obtain ⟨r, hr⟩ := handleCmd_repliesTo env
      (leetMonitorPrivmsg (logPrivmsg env bot nick target text) nick target text)
      (if isChannel target then target else nick) (commandWord text) (commandArg text)
    exact ⟨_, r, privmsgEffect_ok_iff.mpr
      ⟨_, target, text, hnote, ht, hx, .inl ⟨hcmd, _, hrep, rfl⟩⟩, hr⟩
  · exact ⟨_, none, privmsgEffect_ok_iff.mpr
      ⟨_, target, text, hnote, ht, hx, .inr ⟨hcmd, rfl⟩⟩, .refl, rfl, rfl, by simp⟩

theorem msgEffect_repliesTo (bot : Bot) (hcmd : msg.cmd = ascii "PRIVMSG")
    (hpfx : msg.pfx = some nick) (hnick : msg.nick = some nick)
    (hparams : msg.params = [target, text]) :
    ∃ bot' r, msgEffect env opts msg bot = .ok bot' ∧
      RepliesTo env (if isChannel target then target else nick)
        (leetMonitorPrivmsg (logPrivmsg env bot nick target text) nick target text) bot' r := by
  obtain ⟨bot', r, heffect, hr⟩ := privmsgEffect_repliesTo env opts bot hpfx hnick hparams
  refine ⟨bot', r, ?_, hr⟩
  unfold msgEffect
  rw [handlerOf_privmsg env opts id (privmsgEffect env opts) hcmd hnick hparams]
  exact heffect

end Message

/-! The original prefix and the original text. -/

section Line
variable {g : Grammar} {w sender rest target text : Bytes}

/-- The prefix is what stands between the colon and the first space. -/
theorem parseMsg_sender (h : parseMsg w = .ok g) (hw : w = colon :: (sender ++ space :: rest))
    (hspace : space ∉ sender) : g.pfx = some sender := by
  obtain ⟨hvalid, hbytes⟩ := (parseMsg_ok_iff w g).mp h
  rw [hw] at hbytes
  unfold Grammar.bytes at hbytes
  cases hpfx : g.pfx with
  | none =>
    obtain ⟨b, cmd, hcmd⟩ := List.exists_cons_of_ne_nil hvalid.cmd.1
    rw [hpfx, hcmd] at hbytes
    refine absurd ?_ (hvalid.cmdColon hpfx)
    rw [hcmd]
    exact congrArg some (List.cons.inj hbytes).1
  | some p =>
    rw [hpfx] at hbytes
    have hp := (hvalid.pfx p hpfx).2
    simp only [Grammar.prefixBytes, List.cons_append, List.append_assoc, List.nil_append] at hbytes
    rw [(append_cons_inj hp hspace (List.cons.inj hbytes).2).1]

/-- The last of two parameters is the end of the line. -/
theorem parseMsg_text (h : parseMsg w = .ok g) (hparams : g.params = [target, text]) :
    text <:+ w := by
  obtain ⟨-, rfl⟩ := (parseMsg_ok_iff w g).mp h
  refine List.IsSuffix.trans ?_ (List.suffix_append _ _)
  unfold Grammar.params at hparams
  unfold Grammar.paramBytes
  cases htrailing : g.trailing with
  | none =>
    rw [htrailing, Option.toList_none, List.append_nil] at hparams
    rw [hparams]
    exact ⟨space :: target ++ [space], by simp⟩
  | some t =>
    rw [htrailing, Option.toList_some] at hparams
    have hlast : g.middle ++ [t] = [target] ++ [text] := hparams
    obtain ⟨-, hlast⟩ := List.append_inj' hlast rfl
    cases hlast
    exact ⟨g.middle.flatMap (space :: ·) ++ [space, colon], by simp⟩

/-- A sender with a '!' has been cut to the nickname before it. -/
theorem view_sender (hpfx : g.pfx = some sender) (hbang : bang ∈ sender) :
    g.view.pfx = some (before bang sender) ∧ g.view.nick = some (before bang sender) := by
  unfold Grammar.view
  rw [hpfx]
  dsimp only
  cases hafter : after bang sender with
  | nil =>
    have hall := before_append_after bang sender
    rw [hafter, List.append_nil] at hall
    have hnot := not_mem_before bang sender
    rw [hall] at hnot
    exact absurd hbang hnot
  | cons b user => exact ⟨rfl, rfl⟩

end Line

theorem replyPlace_ne {sender target : Bytes} (hbang : bang ∈ sender)
    (h : isChannel target = false) : replyPlace sender target ≠ sender := by
  intro he
  unfold replyPlace at he
  rw [h, if_neg (by decide)] at he
  exact not_mem_before bang sender (he.symm ▸ hbang)

/-- Replies go to bytes of the line. -/
theorem replyPlace_all {P : UInt8 → Prop} {g : Grammar} {w sender target text : Bytes}
    (h : parseMsg w = .ok g) (hpfx : g.view.pfx = some (before bang sender))
    (hparams : g.params = [target, text]) (hw : ∀ b ∈ w, P b) :
    ∀ b ∈ replyPlace sender target, P b := by
  obtain ⟨-, rfl⟩ := (parseMsg_ok_iff w g).mp h
  have hall := g.view_all hw
  unfold replyPlace
  split_ifs
  · apply hall.params target
    rw [Grammar.view_params, hparams]
    exact List.mem_cons_self
  · exact hall.pfx _ hpfx

theorem leetMonitorPrivmsg_chatLog (bot : Bot) (nick target text : Bytes) :
    (leetMonitorPrivmsg bot nick target text).chatLog = bot.chatLog := by
  unfold leetMonitorPrivmsg
  split_ifs
  · rfl
  · rfl

section Memory
variable {L : Layout} {m m' : Mem L} {p : Nat} {w sender rest target text : Bytes} {msg : IrcMsg}
  {opts : Options}

/-- The chat log and the monitor are given the nickname and the whole text, which ends
the line. The commands write to nobody but the channel or the nickname, and the one
reminder a command may create keeps that target, in the event list and in the file. -/
theorem replies_to_channel_or_nick (env : Env) (bot : Bot) (hm : m.CStr p w)
    (hd : L.Distinct p (p + w.length + 1)) (hp : p + w.length < L.size)
    (hsplit : (splitMsg opts.exitOnInvalidMsg p).run m = .ok msg m')
    (hcmd : (msg.view m').cmd = ascii "PRIVMSG") (hparams : (msg.view m').params = [target, text])
    (hw : w = colon :: (sender ++ space :: rest)) (hspace : space ∉ sender)
    (hbang : bang ∈ sender) :
    text <:+ w ∧ (isChannel target = false → replyPlace sender target ≠ sender) ∧
    ∃ m'' bot' r, handleMsg env opts msg m' bot = .ok (m'', bot') ∧
      bot'.chatLog = bot.chatLog ++ [(env.clock.now bot.instant,
        target ++ ascii "  <" ++ before bang sender ++ ascii "> " ++ text)] ∧
      RepliesTo env (replyPlace sender target)
        (leetMonitorPrivmsg (logPrivmsg env bot (before bang sender) target text)
          (before bang sender) target text) bot' r ∧
      ∀ r' ∈ r, Botniklas.target r'.registration.data = replyPlace sender target := by
  have hrun := splitMsg_run opts.exitOnInvalidMsg hm hd hp
  cases hparse : parseMsg w with
  | error e =>
    rw [hparse] at hrun
    obtain ⟨_, hr, -⟩ := hrun
    rw [hsplit] at hr
    cases hr
  | ok g =>
    rw [hparse] at hrun
    obtain ⟨_, _, hr, -, hreads⟩ := hrun
    rw [hsplit] at hr
    cases hr
    rw [hreads.view_eq (by omega), Grammar.view_cmd] at hcmd
    rw [hreads.view_eq (by omega), Grammar.view_params] at hparams
    obtain ⟨hpfx, hnick⟩ := view_sender (parseMsg_sender hparse hw hspace) hbang
    obtain ⟨bot', r, heffect, hreplies⟩ := msgEffect_repliesTo env opts bot
      (g.view_cmd.trans hcmd) hpfx hnick (g.view_params.trans hparams)
    have hc := handleMsg_computes env opts bot hreads hd (by omega)
    rw [heffect] at hc
    obtain ⟨m'', hhandle, -⟩ := hc
    refine ⟨parseMsg_text hparse hparams, replyPlace_ne hbang, m'', bot', r, hhandle, ?_,
      hreplies, fun r' hr' => ?_⟩
    · rw [hreplies.chatLog, leetMonitorPrivmsg_chatLog, logPrivmsg, logAppend_eq]
    · have hbytes : ∀ b ∈ w, b ≠ nul := fun b hb h0 => hm.2 (by rwa [h0] at hb)
      have hnul := replyPlace_all hparse hpfx hparams hbytes
      rw [Reminder.registration, hreplies.target r' hr']
      exact target_reminderData fun h0 => hnul nul h0 rfl

/-- A private message is answered to the nickname alone. -/
theorem private_echo : ∃ msg m',
    (splitMsg false 0).run (Mem.ofString (ascii ":al!u@h PRIVMSG bot :!echo hi")) = .ok msg m' ∧
    ∃ m'' bot' r, handleMsg (.still 1 (by decide)) .default msg m' .new = .ok (m'', bot') ∧
      RepliesTo (.still 1 (by decide)) (ascii "al")
        (leetMonitorPrivmsg (logPrivmsg (.still 1 (by decide)) .new (ascii "al") (ascii "bot")
          (ascii "!echo hi")) (ascii "al") (ascii "bot") (ascii "!echo hi")) bot' r := by
  refine ⟨_, _, rfl, ?_⟩
  have hw : ascii ":al!u@h PRIVMSG bot :!echo hi" =
      colon :: (ascii "al!u@h" ++ space :: ascii "PRIVMSG bot :!echo hi") := rfl
  have hsplit : (splitMsg Options.default.exitOnInvalidMsg 0).run
      (Mem.ofString (ascii ":al!u@h PRIVMSG bot :!echo hi")) = .ok _ _ := rfl
  obtain ⟨-, -, m'', bot', r, hhandle, -, hreplies, -⟩ := replies_to_channel_or_nick
    (.still 1 (by decide)) .new
    (cstr_ofString (w := ascii ":al!u@h PRIVMSG bot :!echo hi") (by decide))
    (Layout.flat_distinct _ _ _) (by simp [Layout.flat]) hsplit rfl rfl hw (by decide)
    (by decide)
  exact ⟨m'', bot', r, hhandle, hreplies⟩

end Memory

end Botniklas
