import Botniklas.Foundation.Pieces
import Botniklas.LineEffect

/-! The read buffer, one page seen twice, and the loop over the messages in it.
Unread bytes stand from `start` to `finish`. -/
namespace Botniklas
open Foundation Irc Mem

structure ReadBuf (pageSize : Nat) where
  buf : Mem (.mirror pageSize)
  start : Nat
  finish : Nat

/-- What a call of `recv` brings; `closed` covers its errors too. -/
inductive Recv where
  | data (bytes : Bytes)
  | closed
  deriving DecidableEq, Repr

def isEol (b : UInt8) : Bool := b = cr || b = lf

namespace ReadBuf
variable {pageSize : Nat}

def assertIndexSanity (rb : ReadBuf pageSize) : Except Stop Unit :=
  if rb.finish ≤ 2 * pageSize ∧ rb.start ≤ rb.finish ∧ rb.finish - rb.start ≤ pageSize then .ok ()
  else .error .assertion

def adjustIndices (rb : ReadBuf pageSize) : Except Stop (ReadBuf pageSize) := do
  rb.assertIndexSanity
  if rb.start > pageSize then
    return { rb with start := rb.start - pageSize, finish := rb.finish - pageSize }
  else return rb

def overlong : Stop := .exited ("received message longer than the read buffer (the size of " ++
  "the read buffer is %zu bytes)")

/-- None stands for `false`. -/
def recvMsgs (rb : ReadBuf pageSize) (recv : Recv) : Except Stop (Option (ReadBuf pageSize)) := do
  rb.assertIndexSanity
  if rb.finish - rb.start = pageSize then throw overlong
  else
    match recv with
    | .closed => return none
    | .data bytes =>
      let rb := { rb with
        buf := rb.buf.storeAll rb.finish bytes
        finish := rb.finish + bytes.length }
      rb.assertIndexSanity
      return some rb

/-- The answers of `get_msg`: no complete message, NULL, or a message. -/
inductive Got where
  | none
  | null
  | msg (p : Nat)
  deriving DecidableEq, Repr

/-- The loop of `get_msg`; `left` bytes from `cur` on are unread. -/
def findMsg (exitOnInvalidMsg : Bool) (rb : ReadBuf pageSize) :
    (left cur : Nat) → (hasNullBytes : Bool) → Except Stop (Got × ReadBuf pageSize)
  | 0, _, _ => .ok (.none, rb)
  | left + 1, cur, hasNullBytes =>
    if isEol (rb.buf.load cur) then
      if hasNullBytes then
        if exitOnInvalidMsg then .error nullBytes else .ok (.null, { rb with start := cur + 1 })
      else if cur = rb.start then .ok (.null, { rb with start := cur + 1 })
      else .ok (.msg rb.start, { rb with buf := rb.buf.store cur nul, start := cur + 1 })
    else findMsg exitOnInvalidMsg rb left (cur + 1) (hasNullBytes || rb.buf.load cur = nul)

def getMsg (exitOnInvalidMsg : Bool) (rb : ReadBuf pageSize) :
    Except Stop (Got × ReadBuf pageSize) := do
  let rb ← rb.adjustIndices
  findMsg exitOnInvalidMsg rb (rb.finish - rb.start) rb.start false

/-- The loop of `process_msgs`. Every round but the last consumes a byte. -/
def handleMsgs (env : Env) (opts : Options) :
    (rounds : Nat) → ReadBuf pageSize → Bot → Except Stop (ReadBuf pageSize × Bot)
  | 0, rb, bot => .ok (rb, bot)
  | rounds + 1, rb, bot => do
    let (got, rb) ← rb.getMsg opts.exitOnInvalidMsg
    match got with
    | .none => return (rb, bot)
    | .null => handleMsgs env opts rounds rb bot
    | .msg p =>
      let (buf, bot) ← processMsg env opts p rb.buf bot
      handleMsgs env opts rounds { rb with buf } bot

def processMsgs (env : Env) (opts : Options) (rb : ReadBuf pageSize) (recv : Recv) (bot : Bot) :
    Except Stop (Option (ReadBuf pageSize × Bot)) := do
  match ← rb.recvMsgs recv with
  | none => return none
  | some rb => some <$> handleMsgs env opts (rb.finish - rb.start + 1) rb bot

end ReadBuf
end Botniklas
