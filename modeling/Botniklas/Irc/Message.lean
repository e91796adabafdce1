import Botniklas.Foundation.Memory
import Botniklas.Foundation.Ascii

/-! Splitting one message in place: cursors move over the terminated string
and cut it by writing terminators over its separators. -/
namespace Botniklas.Irc
open Foundation

/-- Why a function stopped short of its normal return. -/
inductive Stop where
  | invalid (text : String)
  | exited (text : String)
  | assertion
  | unmapped
  | missing
  deriving DecidableEq, Repr

/-- Code that reads and writes the bytes under one layout. -/
abbrev Prog (L : Layout) := EStateM Stop (Mem L)

section Access
variable {L : Layout}

def peek (cur : Nat) : Prog L UInt8 := fun m => .ok (m.load cur) m

def put (cur : Nat) (b : UInt8) : Prog L Unit := fun m => .ok () (m.store cur b)

def skipTo (stop : UInt8 → Bool) (cur : Nat) : Prog L Nat := fun m =>
  match m.find stop cur with
  | some cur => .ok cur m
  | none => .error .unmapped m

def strchr (cur : Nat) (c : UInt8) : Prog L (Option Nat) := do
  let cur ← skipTo (fun b => b = c || b = nul) cur
  if (← peek cur) = c then return some cur else return none

def assertByte (cur : Nat) (c : UInt8) : Prog L Unit := do
  if (← peek cur) = c then return () else throw .assertion

end Access

def maxParams : Nat := 20

/-- Pointers into the message; none stands for NULL. -/
structure IrcMsg where
  pfx : Option Nat
  nick : Option Nat
  user : Option Nat
  host : Option Nat
  cmd : Nat
  params : List Nat
  deriving DecidableEq, Repr

def wordEnd (b : UInt8) : Bool := b = space || b = nul

/-- How `RET_INVALID_MSG` leaves: the warning and `false`, or exit. -/
def rejection (exitOnInvalidMsg : Bool) (text : String) : Stop :=
  if exitOnInvalidMsg then .exited text else .invalid text

section Split
variable {L : Layout} (exitOnInvalidMsg : Bool)

def retInvalidMsg {α : Type} (text : String) : Prog L α :=
  throw (rejection exitOnInvalidMsg text)

def extractMsgPrefix (cur : Nat) : Prog L (Nat × Option Nat) := do
  if (← peek cur) ≠ colon then
    return (cur, none)
  else
    let pfx := cur + 1
    let cur ← skipTo wordEnd pfx
    if pfx = cur then retInvalidMsg exitOnInvalidMsg "empty prefix"
    else if (← peek cur) = nul then
      retInvalidMsg exitOnInvalidMsg "missing command after prefix"
    else
      assertByte cur space
      put cur nul
      return (cur + 1, some pfx)

/-- The nickname, username and host of a prefix. -/
def extractPrefixComponents (pfx : Option Nat) :
    Prog L (Option Nat × Option Nat × Option Nat) := do
  match pfx with
  | none => return (none, none, none)
  | some pfx =>
    match ← strchr pfx bang with
    | none => return (none, none, none)
    | some cur =>
      put cur nul
      let user := cur + 1
      match ← strchr user atSign with
      | none => return (some pfx, some user, none)
      | some cur =>
        put cur nul
        return (some pfx, some user, some (cur + 1))

/-- Returns the cursor past the command and the command. -/
def extractMsgCmd (cur : Nat) : Prog L (Nat × Nat) := do
  let cmd := cur
  let cur ← skipTo wordEnd cur
  if cmd = cur then retInvalidMsg exitOnInvalidMsg "empty command"
  else return (cur, cmd)

/-- The loop of `extract_msg_params`; `room` is MAX_PARAMS less the parameters
found so far. -/
def extractMsgParams (room cur : Nat) (params : List Nat) : Prog L (List Nat) := do
  if (← peek cur) = nul then return params
  else
    match room with
    | 0 => retInvalidMsg exitOnInvalidMsg "too many parameters"
    | room + 1 =>
      assertByte cur space
      put cur nul
      let cur := cur + 1
      let b ← peek cur
      if b = space ∨ b = nul then retInvalidMsg exitOnInvalidMsg "empty parameter"
      else if b = colon then return params ++ [cur + 1]
      else
        let next ← skipTo wordEnd cur
        extractMsgParams room next (params ++ [cur])

def splitMsg (msgStr : Nat) : Prog L IrcMsg := do
  let (cur, pfx) ← extractMsgPrefix exitOnInvalidMsg msgStr
  let (nick, user, host) ← extractPrefixComponents pfx
  let (cur, cmd) ← extractMsgCmd exitOnInvalidMsg cur
  let params ← extractMsgParams exitOnInvalidMsg maxParams cur []
  return { pfx, nick, user, host, cmd, params }

end Split

/-- What the pointers of a message read as. -/
structure MsgView where
  pfx : Option Bytes
  nick : Option Bytes
  user : Option Bytes
  host : Option Bytes
  cmd : Bytes
  params : List Bytes
  deriving DecidableEq, Repr

def IrcMsg.view {L : Layout} (msg : IrcMsg) (m : Mem L) : MsgView where
  pfx := msg.pfx.map m.cstr
  nick := msg.nick.map m.cstr
  user := msg.user.map m.cstr
  host := msg.host.map m.cstr
  cmd := m.cstr msg.cmd
  params := msg.params.map m.cstr

/-- A terminated string in memory of its own. -/
def Mem.ofString (w : Bytes) : Mem (.flat (w.length + 1)) := ⟨fun i => (w ++ [nul]).getD i 0⟩

end Botniklas.Irc
