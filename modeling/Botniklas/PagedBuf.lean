import Botniklas.Mirroring

/-! The read buffer in the address space: every access goes through the mapped pages, and
is the one to a page seen twice. -/
namespace Botniklas
open Foundation Irc Mem
open ReadBuf (Got)

/-- The static variables of the read buffer, in the address space as it is. -/
structure PagedBuf (pageSize buf : Nat) where
  space : AddressSpace
  start : Nat
  finish : Nat

namespace PagedBuf
variable {pageSize buf : Nat}

/-- `msg_read_buf_init`, after `set_up_mirroring`. -/
def init (space : AddressSpace) : PagedBuf pageSize buf := ⟨space, 0, 0⟩

def assertIndexSanity (pb : PagedBuf pageSize buf) : Except Stop Unit :=
  if pb.finish ≤ 2 * pageSize ∧ pb.start ≤ pb.finish ∧ pb.finish - pb.start ≤ pageSize then .ok ()
  else .error .assertion

def adjustIndices (pb : PagedBuf pageSize buf) : Except Stop (PagedBuf pageSize buf) := do
  pb.assertIndexSanity
  if pb.start > pageSize then
    return { pb with start := pb.start - pageSize, finish := pb.finish - pageSize }
  else return pb

def recvMsgs (pb : PagedBuf pageSize buf) (recv : Recv) :
    Except Stop (Option (PagedBuf pageSize buf)) := do
  pb.assertIndexSanity
  if pb.finish - pb.start = pageSize then throw ReadBuf.overlong
  else
    match recv with
    | .closed => return none
    | .data bytes =>
      match pb.space.storeAll (buf + pb.finish) bytes with
      -- the kernel answers EFAULT
      | none => return none
      | some space =>
        let pb := { pb with space, finish := pb.finish + bytes.length }
        pb.assertIndexSanity
        return some pb

/-- The loop of `get_msg`; `left` bytes from `cur` on are unread. -/
def findMsg (exitOnInvalidMsg : Bool) (pb : PagedBuf pageSize buf) :
    (left cur : Nat) → (hasNullBytes : Bool) → Except Stop (Got × PagedBuf pageSize buf)
  | 0, _, _ => .ok (.none, pb)
  | left + 1, cur, hasNullBytes =>
    match pb.space.load (buf + cur) with
    | none => .error .unmapped
    | some b =>
      if isEol b then
        if hasNullBytes then
          if exitOnInvalidMsg then .error nullBytes else .ok (.null, { pb with start := cur + 1 })
        else if cur = pb.start then .ok (.null, { pb with start := cur + 1 })
        else
          match pb.space.store (buf + cur) nul with
          | none => .error .unmapped
          | some space => .ok (.msg pb.start, { pb with space, start := cur + 1 })
      else findMsg exitOnInvalidMsg pb left (cur + 1) (hasNullBytes || b = nul)

def getMsg (exitOnInvalidMsg : Bool) (pb : PagedBuf pageSize buf) :
    Except Stop (Got × PagedBuf pageSize buf) := do
  let pb ← pb.adjustIndices
  findMsg exitOnInvalidMsg pb (pb.finish - pb.start) pb.start false

/-- What the two pages show. -/
def shown (pb : PagedBuf pageSize buf) : Mem (.mirror pageSize) :=
  ⟨fun q => if q < pageSize then (pb.space.load (buf + q)).getD 0 else 0⟩

/-- The message is split and handled in place; what that leaves of it is stored. -/
def processMsg (env : Env) (opts : Options) (pb : PagedBuf pageSize buf) (p : Nat) (bot : Bot) :
    Except Stop (PagedBuf pageSize buf × Bot) := do
  let (m, bot) ← Botniklas.processMsg env opts p pb.shown bot
  match pb.space.storeAll (buf + p) (m.slice p ((pb.shown.cstr p).length + 1)) with
  | none => throw .unmapped
  | some space => return ({ pb with space }, bot)

/-- The loop of `process_msgs`. Every round but the last consumes a byte. -/
def handleMsgs (env : Env) (opts : Options) :
    (rounds : Nat) → PagedBuf pageSize buf → Bot → Except Stop (PagedBuf pageSize buf × Bot)
  | 0, pb, bot => .ok (pb, bot)
  | rounds + 1, pb, bot => do
    let (got, pb) ← pb.getMsg opts.exitOnInvalidMsg
    match got with
    | .none => return (pb, bot)
    | .null => handleMsgs env opts rounds pb bot
    | .msg p =>
      let (pb, bot) ← pb.processMsg env opts p bot
      handleMsgs env opts rounds pb bot

def processMsgs (env : Env) (opts : Options) (pb : PagedBuf pageSize buf) (recv : Recv)
    (bot : Bot) : Except Stop (Option (PagedBuf pageSize buf × Bot)) := do
  match ← pb.recvMsgs recv with
  | none => return none
  | some pb => some <$> handleMsgs env opts (pb.finish - pb.start + 1) pb bot

/-- `msg_read_buf_free`, with what `munmap` answers. -/
def msgReadBufFree (pb : PagedBuf pageSize buf) (unmapped : Bool) : Except Stop AddressSpace :=
  if unmapped then .ok (pb.space.map buf (4 * pageSize) fun _ => .unmapped)
  else .error (.exited "munmap (message read buffer)")

/-- The buffer as a page seen twice. -/
def readBuf (pb : PagedBuf pageSize buf) : ReadBuf pageSize := ⟨pb.shown, pb.start, pb.finish⟩

/-- The pages are mapped as `set_up_mirroring` leaves them. -/
def Mapped (pb : PagedBuf pageSize buf) (object : Nat) : Prop :=
  pb.space.Maps buf object (.mirror pageSize)

section Shown
variable {pb pb' : PagedBuf pageSize buf} {object i : Nat} {m : Mem (.mirror pageSize)}

theorem Mapped.shows (h : pb.Mapped object) : pb.space.Shows buf pb.shown := by
  intro i hi
  have hpos : i % pageSize < pageSize := Nat.mod_lt i (by change i < 2 * pageSize at hi; omega)
  have hpage : i % pageSize < 2 * pageSize := by omega
  change _ = some (if i % pageSize < pageSize then
    (pb.space.load (buf + i % pageSize)).getD 0 else 0)
  rw [if_pos hpos, h.load hi, h.load hpage]
  change _ = some (pb.space.byte object (i % pageSize % pageSize))
  rw [Nat.mod_mod]
  rfl

/-- There is no other such memory, as far as the bytes of the page go. -/
theorem shown_eq (h : pb.space.Shows buf m) (hm : ∀ q, pageSize ≤ q → m.byte q = 0) :
    pb.shown = m := by
  obtain ⟨byte⟩ := m
  refine congrArg Mem.mk (funext fun q => ?_)
  split_ifs with hq
  · rw [h q (by change q < 2 * pageSize; omega)]
    change byte (q % pageSize) = byte q
    rw [Nat.mod_eq_of_lt hq]
  · exact (hm q (by omega)).symm

theorem shown_zero {q : Nat} (hq : pageSize ≤ q) : pb.shown.byte q = 0 := if_neg (by omega)

/-- No address names a byte past the page. -/
private theorem storeAll_zero (data : Bytes) (hi : i + data.length ≤ 2 * pageSize)
    (hm : ∀ q, pageSize ≤ q → m.byte q = 0) : ∀ q, pageSize ≤ q → (m.storeAll i data).byte q = 0 := by
  intro q hq
  rw [within_storeAll m i data (le_refl _) (le_refl _) q]
  · exact hm q hq
  · intro j hj hj' he
    have hlt : j % pageSize < pageSize := Nat.mod_lt j (by omega)
    change j % pageSize = q at he
    omega

/-- Storing through the pages is storing in what they show. -/
theorem Mapped.storeAll (h : pb.Mapped object) (data : Bytes)
    (hi : i + data.length ≤ 2 * pageSize) :
    ∃ space, pb.space.storeAll (buf + i) data = some space ∧
      AddressSpace.Stores object pb.space space ∧
      ∀ start finish, (⟨space, start, finish⟩ : PagedBuf pageSize buf).shown =
        pb.shown.storeAll i data := by
  obtain ⟨space, hstore, hkept, hshows⟩ := AddressSpace.Maps.storeAll h h.shows data hi
  exact ⟨space, hstore, hkept, fun start finish =>
    shown_eq hshows (storeAll_zero data hi fun q hq => shown_zero hq)⟩

theorem Mapped.store (h : pb.Mapped object) (b : UInt8) (hi : i < 2 * pageSize) :
    ∃ space, pb.space.store (buf + i) b = some space ∧
      AddressSpace.Stores object pb.space space ∧
      ∀ start finish, (⟨space, start, finish⟩ : PagedBuf pageSize buf).shown =
        pb.shown.store i b := by
  obtain ⟨space, hstore, hrest⟩ := h.storeAll [b] hi
  refine ⟨space, ?_, hrest⟩
  unfold AddressSpace.storeAll at hstore
  obtain ⟨space', hstore', hnil⟩ := Option.bind_eq_some_iff.mp hstore
  cases hnil
  exact hstore'

/-- Each byte is read back one page further on, and a store at one of the two addresses shows
at both. -/
structure Doubled (space : AddressSpace) (buf pageSize : Nat) : Prop where
  load : ∀ i < pageSize, ∃ b, space.load (buf + i) = some b ∧
    space.load (buf + (pageSize + i)) = some b
  store : ∀ i < 2 * pageSize, ∀ b, ∃ space', space.store (buf + i) b = some space' ∧
    ∀ j < 2 * pageSize, space'.load (buf + j) =
      if j % pageSize = i % pageSize then some b else space.load (buf + j)

theorem Mapped.doubled (h : pb.Mapped object) : Doubled pb.space buf pageSize := by
  refine ⟨fun i hi => ⟨pb.shown.load i, ?_, ?_⟩, fun i hi b => ?_⟩
  · exact h.shows i (by change i < 2 * pageSize; omega)
  · rw [h.shows (pageSize + i) (by change pageSize + i < 2 * pageSize; omega)]
    refine congrArg (fun q => some (pb.shown.byte q)) ?_
    change (pageSize + i) % pageSize = i % pageSize
    exact Nat.add_mod_left _ _
  · obtain ⟨space, hstore, -, hshows⟩ := AddressSpace.Maps.store h h.shows b hi
    refine ⟨space, hstore, fun j hj => ?_⟩
    rw [hshows j hj, h.shows j hj]
    change some (Function.update pb.shown.byte (i % pageSize) b (j % pageSize)) = _
    by_cases he : j % pageSize = i % pageSize
    · rw [if_pos he, he, Function.update_self]
    · rw [if_neg he, Function.update_of_ne he]
      rfl

end Shown

/-- The same answer with the same buffer, or the same end; only bytes of the page have
been stored. -/
def Agrees {α : Type} (object : Nat) (space : AddressSpace)
    (act : Except Stop (α × PagedBuf pageSize buf)) (want : Except Stop (α × ReadBuf pageSize)) :
    Prop :=
  match want with
  | .error e => act = .error e
  | .ok (a, rb) => ∃ pb, act = .ok (a, pb) ∧ pb.readBuf = rb ∧
      AddressSpace.Stores object space pb.space

/-- The same of code that goes on with the buffer. -/
def Follows {α : Type} (object : Nat) (space : AddressSpace)
    (act : Except Stop (PagedBuf pageSize buf × α)) (want : Except Stop (ReadBuf pageSize × α)) :
    Prop :=
  match want with
  | .error e => act = .error e
  | .ok (rb, a) => ∃ pb, act = .ok (pb, a) ∧ pb.readBuf = rb ∧
      AddressSpace.Stores object space pb.space

theorem Follows.after {α : Type} {object : Nat} {space space' : AddressSpace}
    {act : Except Stop (PagedBuf pageSize buf × α)} {want : Except Stop (ReadBuf pageSize × α)}
    (h : Follows object space' act want) (hkept : AddressSpace.Stores object space space') :
    Follows object space act want := by
  cases want with
  | error e => exact h
  | ok res =>
    obtain ⟨pb, hact, hread, hkept'⟩ := h
    exact ⟨pb, hact, hread, hkept.trans hkept'⟩

section Refine
variable {pb : PagedBuf pageSize buf} {object : Nat} {w : Bytes}

theorem findMsg_agrees (e : Bool) (h : pb.Mapped object) {left cur : Nat} (hn : Bool)
    (hcur : cur + left ≤ 2 * pageSize) :
    Agrees object pb.space (pb.findMsg e left cur hn) (pb.readBuf.findMsg e left cur hn) := by
  induction left generalizing cur hn with
  | zero => exact ⟨pb, rfl, rfl, .refl⟩
  | succ left ih =>
    have hload := h.shows cur (by change cur < 2 * pageSize; omega)
    unfold findMsg ReadBuf.findMsg
    rw [hload]
    change Agrees _ _ (if isEol (pb.shown.load cur) then _ else _)
      (if isEol (pb.shown.load cur) then _ else _)
    by_cases heol : isEol (pb.shown.load cur) = true
    · rw [if_pos heol, if_pos heol]
      by_cases hnull : hn = true
      · rw [if_pos hnull, if_pos hnull]
        cases e with
        | true => rfl
        | false => exact ⟨_, rfl, rfl, .refl⟩
      · rw [if_neg hnull, if_neg hnull]
        by_cases hstart : cur = pb.start
        · rw [if_pos hstart, if_pos (show cur = pb.readBuf.start from hstart)]
          exact ⟨_, rfl, rfl, .refl⟩
        · rw [if_neg hstart, if_neg (show cur ≠ pb.readBuf.start from hstart)]
          obtain ⟨space, hstore, hkept, hshown⟩ := h.store (i := cur) nul (by omega)
          rw [hstore]
          exact ⟨_, rfl, congrArg (ReadBuf.mk · (cur + 1) pb.finish) (hshown _ _), hkept⟩
    · rw [if_neg heol, if_neg heol]
      exact ih _ (by omega)

theorem adjustIndices_agrees (pb : PagedBuf pageSize buf) :
    match pb.readBuf.adjustIndices with
    | .error e => pb.adjustIndices = .error e
    | .ok rb => ∃ pb', pb.adjustIndices = .ok pb' ∧ pb'.readBuf = rb ∧ pb'.space = pb.space := by
  have hsane : pb.readBuf.assertIndexSanity = pb.assertIndexSanity := rfl
  unfold adjustIndices ReadBuf.adjustIndices
  rw [hsane]
  cases pb.assertIndexSanity with
  | error e => rfl
  | ok u =>
    simp only [bind, Except.bind]
    by_cases hstart : pb.start > pageSize
    · rw [if_pos hstart, if_pos (show pb.readBuf.start > pageSize from hstart)]
      exact ⟨_, rfl, rfl, rfl⟩
    · rw [if_neg hstart, if_neg (show ¬ pb.readBuf.start > pageSize from hstart)]
      exact ⟨_, rfl, rfl, rfl⟩

/-- `get_msg` finds the same message and ends it in the same place. -/
theorem getMsg_agrees (e : Bool) (h : pb.Mapped object) (hun : pb.readBuf.Unread w) :
    Agrees object pb.space (pb.getMsg e) (pb.readBuf.getMsg e) := by
  obtain ⟨rb, hadjust, hun', -⟩ := ReadBuf.adjustIndices_run hun
  have hagrees := adjustIndices_agrees pb
  rw [hadjust] at hagrees
  obtain ⟨pb', hadjust', rfl, hspace⟩ := hagrees
  unfold getMsg ReadBuf.getMsg
  rw [hadjust, hadjust', ← hspace]
  have hmapped : pb'.Mapped object := by
    unfold Mapped
    rw [hspace]
    exact h
  have h1 := hun'.mapped
  have h2 := hun'.finish
  have hle : pb'.start + (pb'.finish - pb'.start) ≤ 2 * pageSize := by
    change pb'.start + w.length = pb'.finish at h2
    change pb'.finish ≤ 2 * pageSize at h1
    omega
  exact findMsg_agrees e hmapped false hle

/-- The message is processed in place. -/
theorem processMsg_follows (env : Env) (opts : Options) (bot : Bot) {p : Nat} {u : Bytes}
    (h : pb.Mapped object) (hstr : pb.shown.CStr p u) (hroom : u.length + 1 ≤ pageSize)
    (hp : p + u.length + 1 ≤ 2 * pageSize) :
    Follows object pb.space (pb.processMsg env opts p bot)
      ((Botniklas.processMsg env opts p pb.shown bot).map fun res =>
        ({ pb.readBuf with buf := res.1 }, res.2)) := by
  have hd := Layout.mirror_distinct pageSize p (p + u.length + 1) (by omega)
  have hsize : p + u.length < (Layout.mirror pageSize).size := by
    change _ < 2 * pageSize
    omega
  have hcomp := processMsg_computes env opts bot hstr hd hsize
  have hcstr := cstr_eq hstr hsize
  unfold Computes at hcomp
  unfold processMsg
  cases he : splitEffect env opts u bot with
  | error e =>
    rw [he] at hcomp
    dsimp only at hcomp
    rw [hcomp]
    rfl
  | ok bot' =>
    rw [he] at hcomp
    obtain ⟨m, hm, hwithin⟩ := hcomp
    have hlen := length_slice m p (u.length + 1)
    obtain ⟨space, hstore, hkept, hshown⟩ :=
      h.storeAll (i := p) (m.slice p (u.length + 1)) (by omega)
    rw [storeAll_slice hd hwithin] at hshown
    rw [hm, hcstr]
    dsimp only [bind, Except.bind]
    rw [hstore]
    exact ⟨_, rfl, congrArg (ReadBuf.mk · pb.start pb.finish) (hshown _ _), hkept⟩

/-- So is each message of the loop. -/
theorem handleMsgs_follows (env : Env) (opts : Options) (rounds : Nat) (bot : Bot)
    (h : pb.Mapped object) (hun : pb.readBuf.Unread w) :
    Follows object pb.space (pb.handleMsgs env opts rounds bot)
      (pb.readBuf.handleMsgs env opts rounds bot) := by
  induction rounds generalizing pb bot w with
  | zero => exact ⟨pb, rfl, rfl, .refl⟩
  | succ rounds ih =>
    have hget := getMsg_agrees opts.exitOnInvalidMsg h hun
    unfold handleMsgs ReadBuf.handleMsgs
    cases hres : pb.readBuf.getMsg opts.exitOnInvalidMsg with
    | error e =>
      rw [hres] at hget
      dsimp only [Agrees] at hget
      rw [hget]
      rfl
    | ok res =>
      obtain ⟨got, rb⟩ := res
      rw [hres] at hget
      obtain ⟨pb₁, hget₁, rfl, hkept⟩ := hget
      have hok := ReadBuf.getMsg_ok hun hres
      have hmapped : pb₁.Mapped object := AddressSpace.Maps.stores h hkept
      rw [hget₁]
      dsimp only [bind, Except.bind]
      cases got with
      | none => exact ⟨pb₁, rfl, rfl, hkept⟩
      | null =>
        obtain ⟨u, c, r, -, -, -, -, hun₁⟩ := hok
        exact (ih bot hmapped hun₁).after hkept
      | msg p =>
        obtain ⟨u, c, r, -, -, -, -, hun₁, hstr, hp, hroom⟩ := hok
        have hfinish := hun₁.finish
        have hmap := hun₁.mapped
        have hmsg := processMsg_follows env opts bot hmapped hstr (by omega) (by omega)
        have hkeep := ReadBuf.processMsg_unread env opts bot hun₁ hstr hp hroom
        have hbuf : pb₁.readBuf.buf = pb₁.shown := rfl
        dsimp only
        rw [hbuf] at hkeep ⊢
        cases hrun : Botniklas.processMsg env opts p pb₁.shown bot with
        | error e =>
          rw [hrun] at hmsg
          dsimp only [Follows, Except.map] at hmsg
          rw [hmsg]
          rfl
        | ok res =>
          rw [hrun] at hmsg
          obtain ⟨pb₂, hrun', hread, hkept'⟩ := hmsg
          rw [hrun']
          cases he : splitEffect env opts u bot with
          | error e =>
            rw [he, hrun] at hkeep
            cases hkeep
          | ok bot' =>
            rw [he] at hkeep
            obtain ⟨m, hm, hun₂⟩ := hkeep
            cases hrun.symm.trans hm
            rw [← hread] at hun₂
            have hnext := ih bot' (AddressSpace.Maps.stores hmapped hkept') hun₂
            rw [hread] at hnext
            exact hnext.after (hkept.trans hkept')

/-- One call of `recv_msgs`. -/
theorem recvMsgs_agrees {recv : Recv} (h : pb.Mapped object) (hun : pb.readBuf.Unread w)
    (hs : pb.start ≤ pageSize) (hrecv : recv.AtMost (pageSize - (pb.finish - pb.start))) :
    match pb.readBuf.recvMsgs recv with
    | .error e => pb.recvMsgs recv = .error e
    | .ok none => pb.recvMsgs recv = .ok none
    | .ok (some rb) => ∃ pb', pb.recvMsgs recv = .ok (some pb') ∧ pb'.readBuf = rb ∧
        AddressSpace.Stores object pb.space pb'.space := by
  have hsane : pb.readBuf.assertIndexSanity = pb.assertIndexSanity := rfl
  have hok := hun.sane
  rw [hsane] at hok
  unfold recvMsgs ReadBuf.recvMsgs
  rw [hsane, hok]
  dsimp only [bind, Except.bind]
  by_cases hfull : pb.finish - pb.start = pageSize
  · rw [if_pos hfull, if_pos (show pb.readBuf.finish - pb.readBuf.start = pageSize from hfull)]
    rfl
  · rw [if_neg hfull, if_neg (show pb.readBuf.finish - pb.readBuf.start ≠ pageSize from hfull)]
    cases recv with
    | closed => rfl
    | data data =>
      have hroom : data.length ≤ pageSize - (pb.finish - pb.start) := hrecv
      have hpage := hun.page
      have hlen : pb.start + w.length = pb.finish := hun.finish
      obtain ⟨space, hstore, hkept, hshown⟩ := h.storeAll (i := pb.finish) data (by omega)
      have hread : (⟨space, pb.start, pb.finish + data.length⟩ : PagedBuf pageSize buf).readBuf =
          { pb.readBuf with
            buf := pb.readBuf.buf.storeAll pb.readBuf.finish data
            finish := pb.readBuf.finish + data.length } :=
        congrArg (ReadBuf.mk · pb.start (pb.finish + data.length)) (hshown _ _)
      dsimp only
      rw [hstore, ← hread]
      have hsane' : (⟨space, pb.start, pb.finish + data.length⟩ :
          PagedBuf pageSize buf).readBuf.assertIndexSanity =
        (⟨space, pb.start, pb.finish + data.length⟩ :
          PagedBuf pageSize buf).assertIndexSanity := rfl
      rw [hsane']
      dsimp only
      cases (⟨space, pb.start, pb.finish + data.length⟩ :
          PagedBuf pageSize buf).assertIndexSanity with
      | error e => rfl
      | ok u => exact ⟨_, rfl, rfl, hkept⟩

/-- One call of `process_msgs`. -/
theorem processMsgs_agrees (env : Env) (opts : Options) {recv : Recv} (bot : Bot)
    (h : pb.Mapped object) (hun : pb.readBuf.Unread w) (hs : pb.start ≤ pageSize)
    (hrecv : recv.AtMost (pageSize - (pb.finish - pb.start))) :
    match pb.readBuf.processMsgs env opts recv bot with
    | .error e => pb.processMsgs env opts recv bot = .error e
    | .ok none => pb.processMsgs env opts recv bot = .ok none
    | .ok (some (rb, bot')) => ∃ pb', pb.processMsgs env opts recv bot = .ok (some (pb', bot')) ∧
        pb'.readBuf = rb ∧ AddressSpace.Stores object pb.space pb'.space := by
  have hagrees := recvMsgs_agrees h hun hs hrecv
  unfold processMsgs ReadBuf.processMsgs
  cases hres : pb.readBuf.recvMsgs recv with
  | error e =>
    rw [hres] at hagrees
    dsimp only at hagrees
    rw [hagrees]
    rfl
  | ok res =>
    rw [hres] at hagrees
    cases res with
    | none =>
      dsimp only at hagrees
      rw [hagrees]
      rfl
    | some rb =>
      obtain ⟨pb₁, hrun, rfl, hkept⟩ := hagrees
      obtain ⟨data, -, -, hun₁⟩ := ReadBuf.recvMsgs_some hun hs hrecv hres
      have hmapped : pb₁.Mapped object := AddressSpace.Maps.stores h hkept
      have hloop := (handleMsgs_follows env opts (pb₁.finish - pb₁.start + 1) bot hmapped
        hun₁).after hkept
      have hrounds : pb₁.readBuf.finish - pb₁.readBuf.start + 1 = pb₁.finish - pb₁.start + 1 := rfl
      rw [hrun]
      dsimp only [bind, Except.bind]
      rw [hrounds]
      cases hmsgs : pb₁.readBuf.handleMsgs env opts (pb₁.finish - pb₁.start + 1) bot with
      | error e =>
        rw [hmsgs] at hloop
        dsimp only [Follows] at hloop
        rw [hloop]
        rfl
      | ok res =>
        obtain ⟨rb, bot'⟩ := res
        rw [hmsgs] at hloop
        obtain ⟨pb₂, hrun₂, hread, hkept₂⟩ := hloop
        rw [hrun₂]
        exact ⟨pb₂, rfl, hread, hkept₂⟩

/-- Seen as a page seen twice, the call is the one to that. -/
theorem processMsgs_map (env : Env) (opts : Options) {recv : Recv} (bot : Bot)
    (h : pb.Mapped object) (hun : pb.readBuf.Unread w) (hs : pb.start ≤ pageSize)
    (hrecv : recv.AtMost (pageSize - (pb.finish - pb.start))) :
    (pb.processMsgs env opts recv bot).map (Option.map fun res => (res.1.readBuf, res.2)) =
      pb.readBuf.processMsgs env opts recv bot := by
  have hagrees := processMsgs_agrees env opts bot h hun hs hrecv
  cases hres : pb.readBuf.processMsgs env opts recv bot with
  | error e =>
    rw [hres] at hagrees
    exact congrArg (Except.map _) hagrees
  | ok res =>
    rw [hres] at hagrees
    cases res with
    | none => exact congrArg (Except.map _) hagrees
    | some res =>
      obtain ⟨rb, bot'⟩ := res
      obtain ⟨pb', hrun, rfl, -⟩ := hagrees
      exact congrArg (Except.map _) hrun

end Refine

/-- A run of `process_msgs` through the pages, once for each chunk that `recv` delivers. -/
inductive Fed (env : Env) (opts : Options) (space : AddressSpace) (bot₀ : Bot) :
    (got : Bytes) → PagedBuf pageSize buf → Bot → Prop where
  | init : Fed env opts space bot₀ [] (PagedBuf.init space) bot₀
  | recv {got chunk : Bytes} {pb pb' : PagedBuf pageSize buf} {bot bot' : Bot} :
      Fed env opts space bot₀ got pb bot → 0 < chunk.length →
      chunk.length ≤ pageSize - (pb.finish - pb.start) →
      pb.processMsgs env opts (.data chunk) bot = .ok (some (pb', bot')) →
      Fed env opts space bot₀ (got ++ chunk) pb' bot'

section Run
variable {env : Env} {opts : Options} {bot₀ bot : Bot} {got : Bytes} {space : AddressSpace}
  {pb : PagedBuf pageSize buf} {object : Nat}

theorem Fed.refines (hmaps : space.Maps buf object (.mirror pageSize))
    (h : Fed env opts space bot₀ got pb bot) :
    Botniklas.Fed env opts (PagedBuf.init space : PagedBuf pageSize buf).shown bot₀ got pb.readBuf
        bot ∧
      AddressSpace.Stores object space pb.space ∧
      ∃ w, pb.readBuf.Unread w ∧ pb.start ≤ pageSize := by
  induction h with
  | init =>
    exact ⟨.init, .refl, [], ⟨rfl, Nat.zero_le _, Nat.zero_le _, trivial⟩, Nat.zero_le _⟩
  | @recv got chunk pb pb' bot bot' _ hpos hroom hrun ih =>
    obtain ⟨hfed, hkept, w, hun, hs⟩ := ih
    have hrecv : (Recv.data chunk).AtMost (pageSize - (pb.finish - pb.start)) := hroom
    have hmapped : pb.Mapped object := AddressSpace.Maps.stores hmaps hkept
    have hagrees := processMsgs_agrees env opts bot hmapped hun hs hrecv
    cases hres : pb.readBuf.processMsgs env opts (.data chunk) bot with
    | error e =>
      rw [hres] at hagrees
      cases hrun.symm.trans hagrees
    | ok res =>
      rw [hres] at hagrees
      cases res with
      | none => cases hrun.symm.trans hagrees
      | some res =>
        obtain ⟨rb, bot₁⟩ := res
        obtain ⟨pb₁, hrun₁, rfl, hkept₁⟩ := hagrees
        cases hrun.symm.trans hrun₁
        obtain ⟨data, -, -, hun₁, hs₁⟩ := ReadBuf.processMsgs_some hun hs hrecv hres
        exact ⟨hfed.recv hpos hroom hres, hkept.trans hkept₁, _, hun₁, hs₁⟩

end Run
end PagedBuf

/-- Once `set_up_mirroring` is through, the buffer functions work on the two pages as on
one page seen twice: for every stream, however cut up, they do what they do there and never
fault, each byte is read back one page further on, the two pages after them give no access,
and all other addresses read as before the set-up, whose name and descriptor are gone. When
the pages are unmapped in the end, nothing is left mapped. If the set-up does not come
through, a system call has failed. -/
theorem mirrored_pages_refine {k : MirrorAnswers} {p : Process} (hk : k.Obeys p) :
    Runs (¬ k.Grants p) (setUpMirroring k) p fun r p' =>
      512 ≤ r.2 ∧ p'.shm = p.shm ∧ p'.fds = p.fds ∧
      ∀ env opts bot₀ got bot (pb : PagedBuf r.2 r.1),
        PagedBuf.Fed env opts p'.space bot₀ got pb bot →
        Fed env opts (PagedBuf.init p'.space : PagedBuf r.2 r.1).shown bot₀ got pb.readBuf bot ∧
        (∀ recv : Recv, recv.AtMost (r.2 - (pb.finish - pb.start)) →
          (pb.processMsgs env opts recv bot).map (Option.map fun res => (res.1.readBuf, res.2)) =
            pb.readBuf.processMsgs env opts recv bot) ∧
        PagedBuf.Doubled pb.space r.1 r.2 ∧
        (∀ i, 2 * r.2 ≤ i → i < 4 * r.2 →
          pb.space.load (r.1 + i) = none ∧ ∀ b, pb.space.store (r.1 + i) b = none) ∧
        (∀ a, a < r.1 ∨ r.1 + 4 * r.2 ≤ a → pb.space.load a = p.space.load a) ∧
        ∃ space, pb.msgReadBufFree true = .ok space ∧ space.mapping = p.space.mapping := by
  refine (setUpMirroring_runs hk).imp ?_
  rintro ⟨buf, pageSize⟩ p' ⟨object, hset⟩
  refine ⟨hset.page, hset.shm, hset.fds, fun env opts bot₀ got bot pb hfed => ?_⟩
  obtain ⟨hread, hkept, w, hun, hs⟩ := hfed.refines hset.maps
  have hmapped : pb.Mapped object := hset.maps.stores hkept
  refine ⟨hread, fun recv hrecv => pb.processMsgs_map env opts bot hmapped hun hs hrecv,
    hmapped.doubled, fun i hi hi' => ?_, fun a ha => ?_, _, rfl, funext fun a => ?_⟩
  · have hguard := (congrFun hkept.mapping _).trans (hset.guards i hi hi')
    unfold AddressSpace.load AddressSpace.store
    rw [hguard]
    exact ⟨rfl, fun _ => rfl⟩
  · refine (hkept.load fun i => ?_).trans (hset.load a ha)
    rw [hset.mapping a ha]
    exact hset.apart a i
  · by_cases ha : a < buf ∨ buf + 4 * pageSize ≤ a
    · rw [AddressSpace.map_outside _ _ ha, hkept.mapping, hset.mapping a ha]
    · obtain ⟨i, rfl⟩ : ∃ i, a = buf + i := ⟨a - buf, by omega⟩
      rw [AddressSpace.map_inside _ _ (by omega), hset.fresh i (by omega)]

/-- Two pages of 512 bytes, in a process that has no memory yet. -/
theorem pages_at_4096 : ∃ (k : MirrorAnswers) (p p' : Process) (buf pageSize : Nat),
    setUpMirroring k p = .ok (buf, pageSize) p' ∧ 512 ≤ pageSize ∧ p'.shm = p.shm ∧
      p'.fds = p.fds ∧ PagedBuf.Doubled p'.space buf pageSize := by
  obtain ⟨k, hk⟩ : ∃ k : MirrorAnswers,
      k = ⟨some 512, some 4096, some (3, 7), true, true, true, true, true⟩ := ⟨_, rfl⟩
  obtain ⟨p, hp⟩ : ∃ p : Process, p = ⟨1, ⟨fun _ => .unmapped, fun _ => 0, fun _ _ => 0⟩, [], []⟩ :=
    ⟨_, rfl⟩
  have hobeys : k.Obeys p := by
    rw [hp]
    exact ⟨fun _ _ _ _ _ _ => rfl, fun _ _ _ _ _ => nofun⟩
  have hgrants : k.Grants p := by
    rw [hk, hp]
    exact ⟨⟨512, rfl, le_refl _⟩, nofun, nofun, nofun, rfl, rfl, rfl, rfl, rfl⟩
  have hruns := mirrored_pages_refine hobeys
  unfold Runs at hruns
  split at hruns
  · rename_i r p' hrun
    obtain ⟨hpage, hshm, hfds, hfed⟩ := hruns
    obtain ⟨-, -, hdoubled, -⟩ := hfed (.still 1 (by decide)) .default .new [] .new _ .init
    exact ⟨k, p, p', r.1, r.2, hrun, hpage, hshm, hfds, hdoubled⟩
  · exact absurd hgrants hruns.1

end Botniklas
