import Botniklas.ChatLog
import Botniklas.Commands
import Botniklas.Irc.SplitMsg

/-! Dispatch of a message to its handler. Handlers read what the pointers of the
message name; a NULL or a parameter that is not there has nothing to read. -/
namespace Botniklas
open Foundation Irc

section Fields

/-- A string that must not be NULL. -/
def required : Option Bytes → Except Stop Bytes
  | some s => .ok s
  | none => .error .missing

def param (msg : MsgView) (i : Nat) : Except Stop Bytes := required msg.params[i]?

/-- `msg->n_params == n ? NULL : msg->params[n]`. -/
def optionalParam (msg : MsgView) (n : Nat) : Except Stop (Option Bytes) :=
  if msg.params.length = n then .ok none else some <$> param msg n

/-- A byte of a string, its terminator included. -/
def charAt (s : Bytes) (i : Nat) : Except Stop UInt8 :=
  match (s ++ [nul])[i]? with
  | some b => .ok b
  | none => .error .unmapped

end Fields

def isChannel : Bytes → Bool
  | [] => false
  | b :: _ => b = 38 || b = 35 || b = 43 || b = 33

section Handlers
variable (env : Env) (opts : Options) (msg : MsgView) (bot : Bot)

/-- Prints the text alone. -/
def handleError : Except Stop Bot := do
  let _ ← param msg 0
  return bot

def handleJoin : Except Stop Bot := do
  return logJoin env bot (← required msg.nick) (← required msg.user) msg.host (← param msg 0)

def handleKick : Except Stop Bot := do
  let text ← optionalParam msg 2
  return logKick env bot (← required msg.nick) (← param msg 0) (← param msg 1) text

def handleNick : Except Stop Bot := do
  return logNick env bot (← required msg.nick) (← param msg 0)

def handlePart : Except Stop Bot := do
  let text ← optionalParam msg 1
  return logPart env bot (← required msg.nick) (← required msg.user) msg.host (← param msg 0) text

def handlePing : Except Stop Bot := do
  return bot.write .pong (.writeMsg (ascii "PONG :" ++ (← param msg 0)))

def handleQuit : Except Stop Bot := do
  let text ← optionalParam msg 0
  return logQuit env bot (← required msg.nick) (← required msg.user) msg.host text

def handleWelcome : Except Stop Bot :=
  return bot.write .join (.writeMsg (ascii "JOIN " ++ opts.channel))

end Handlers

/-- What comes of a message whose text the bot cannot read as a command. -/
def noteMsg (env : Env) (msg : MsgView) (bot : Bot) : Except Stop Bot := do
  let nick ← required msg.nick
  let target ← param msg 0
  let text ← param msg 1
  return leetMonitorPrivmsg (logPrivmsg env bot nick target text) nick target text

/-- Ends the string at a pointer, if that is not NULL. -/
def terminate {L : Layout} (m : Mem L) : Option Nat → Mem L
  | none => m
  | some cur => m.store cur nul

/-- Looks for a command, whose word is terminated in place. -/
def handlePrivmsg {L : Layout} (env : Env) (opts : Options) (msg : IrcMsg) (m : Mem L) (bot : Bot) :
    Except Stop (Mem L × Bot) := do
  let bot ← noteMsg env (msg.view m) bot
  match msg.params[1]? with
  | none => .error .missing
  | some text =>
    if m.load text = opts.cmdChar then
      match (strchr text space).run m with
      | .error e _ => .error e
      | .ok found m =>
        let m := terminate m found
        -- an empty argument counts as none
        let arg := found.bind fun cur => if m.load (cur + 1) = nul then none else some (cur + 1)
        let target ← param (msg.view m) 0
        let rep ← if isChannel target then pure target else required (msg.view m).pfx
        return (m, handleCmd env bot rep (m.cstr (text + 1)) (arg.map m.cstr))
    else return (m, bot)

/-- A numeric reply in the range 400 to 599. -/
def checkForErrorReply (cmd : Bytes) : Except Stop Bool := do
  let a ← charAt cmd 0
  if isdigit a then
    let b ← charAt cmd 1
    if isdigit b then
      let c ← charAt cmd 2
      if isdigit c then
        if (← charAt cmd 3) = nul then
          let val := 100 * digit a + 10 * digit b + digit c
          return 400 ≤ val && val ≤ 599
        else return false
      else return false
    else return false
  else return false

structure MsgEntry (α : Type) where
  cmd : Bytes
  handler : α
  nParamsMin : Nat
  nParamsMax : Nat
  needsNick : Bool

def sizeMax : Nat := 2 ^ 64 - 1

/-- The table of messages; one handler needs more than the strings of the
message. -/
def msgs {α : Type} (env : Env) (opts : Options)
    (reading : (MsgView → Bot → Except Stop Bot) → α) (privmsg : α) : List (MsgEntry α) :=
  [⟨ascii "001", reading fun _ => handleWelcome opts, 0, sizeMax, false⟩,
   ⟨ascii "ERROR", reading handleError, 1, 1, false⟩,
   ⟨ascii "JOIN", reading (handleJoin env), 1, 1, true⟩,
   ⟨ascii "KICK", reading (handleKick env), 2, 3, true⟩,
   ⟨ascii "NICK", reading (handleNick env), 1, 1, true⟩,
   ⟨ascii "PART", reading (handlePart env), 1, 2, true⟩,
   ⟨ascii "PING", reading handlePing, 1, 1, false⟩,
   ⟨ascii "PRIVMSG", privmsg, 2, 2, true⟩,
   ⟨ascii "QUIT", reading (handleQuit env), 0, 1, true⟩]

/-- The message is ignored, unless the bot is to exit. -/
def ignore {α : Type} (opts : Options) (text : String) : Except Stop (Option α) :=
  if opts.exitOnInvalidMsg then .error (.exited text) else .ok none

/-- The handler that takes a message, none if it is ignored. -/
def handlerOf {α : Type} (opts : Options) (table : List (MsgEntry α)) (msg : MsgView) :
    Except Stop (Option α) := do
  if ← checkForErrorReply msg.cmd then return none
  else
    match table.find? fun entry => entry.cmd = msg.cmd with
    | none => return none
    | some entry =>
      if msg.params.length < entry.nParamsMin ∨ msg.params.length > entry.nParamsMax then
        ignore opts "Ignoring %s with %zu parameters (expected between %zu and %zu parameters)"
      else if entry.needsNick ∧ msg.nick = none then
        ignore opts "Ignoring %s lacking prefix with nickname."
      else return some entry.handler

/-- A handler that only reads the strings of the message. -/
def reading {L : Layout} (handler : MsgView → Bot → Except Stop Bot) (msg : IrcMsg) (m : Mem L)
    (bot : Bot) : Except Stop (Mem L × Bot) :=
  (handler (msg.view m) bot).map fun bot => (m, bot)

def handleMsg {L : Layout} (env : Env) (opts : Options) (msg : IrcMsg) (m : Mem L) (bot : Bot) :
    Except Stop (Mem L × Bot) := do
  match ← handlerOf opts (msgs env opts reading (handlePrivmsg env opts)) (msg.view m) with
  | none => return (m, bot)
  | some handler => handler msg m bot

end Botniklas
