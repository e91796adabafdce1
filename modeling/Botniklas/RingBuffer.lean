import Botniklas.Framing

/-! The indices of the read buffer: every access lies inside the two pages, at
every point of every run. -/
namespace Botniklas
open Foundation Irc Mem

namespace ReadBuf
variable {pageSize : Nat}

/-! `get_msg` with each access checked against the mapped addresses. -/

def checkedLoad (rb : ReadBuf pageSize) (cur : Nat) : Except Stop UInt8 :=
  if cur < 2 * pageSize then .ok (rb.buf.load cur) else .error .unmapped

def checkedStore (rb : ReadBuf pageSize) (cur : Nat) (b : UInt8) :
    Except Stop (Mem (.mirror pageSize)) :=
  if cur < 2 * pageSize then .ok (rb.buf.store cur b) else .error .unmapped

def findMsgChecked (exitOnInvalidMsg : Bool) (rb : ReadBuf pageSize) :
    (left cur : Nat) → (hasNullBytes : Bool) → Except Stop (Got × ReadBuf pageSize)
  | 0, _, _ => .ok (.none, rb)
  | left + 1, cur, hasNullBytes => do
    let b ← rb.checkedLoad cur
    if isEol b then
      if hasNullBytes then
        if exitOnInvalidMsg then .error nullBytes else .ok (.null, { rb with start := cur + 1 })
      else if cur = rb.start then .ok (.null, { rb with start := cur + 1 })
      else
        let buf ← rb.checkedStore cur nul
        .ok (.msg rb.start, { rb with buf, start := cur + 1 })
    else findMsgChecked exitOnInvalidMsg rb left (cur + 1) (hasNullBytes || b = nul)

def getMsgChecked (exitOnInvalidMsg : Bool) (rb : ReadBuf pageSize) :
    Except Stop (Got × ReadBuf pageSize) := do
  let rb ← rb.adjustIndices
  findMsgChecked exitOnInvalidMsg rb (rb.finish - rb.start) rb.start false

/-- Inside the mapped addresses the checks pass. -/
private theorem findMsgChecked_eq (e : Bool) (rb : ReadBuf pageSize) {left cur : Nat} (hn : Bool)
    (h : cur + left ≤ 2 * pageSize) :
    rb.findMsgChecked e left cur hn = rb.findMsg e left cur hn := by
  induction left generalizing cur hn with
  | zero => rfl
  | succ left ih =>
    have hcur : cur < 2 * pageSize := by omega
    have hload : rb.checkedLoad cur = .ok (rb.buf.load cur) := if_pos hcur
    have hstore : rb.checkedStore cur nul = .ok (rb.buf.store cur nul) := if_pos hcur
    unfold findMsgChecked findMsg
    rw [hload, hstore]
    simp only [bind, Except.bind]
    rw [ih _ (by omega)]

end ReadBuf

/-- Where `process_msgs` is: before its `recv`, or in the loop over `get_msg`. -/
inductive Phase where
  | recv
  | get
  deriving DecidableEq, Repr

/-- Runs of `process_msgs`, one after the other, step by step: whatever bytes come, and
however many at a time up to the length asked for. -/
inductive ReadRun {pageSize : Nat} (env : Env) (opts : Options) (page : Mem (.mirror pageSize))
    (bot₀ : Bot) : Phase → ReadBuf pageSize → Bot → Prop where
  | init : ReadRun env opts page bot₀ .recv ⟨page, 0, 0⟩ bot₀
  | recv {rb rb' : ReadBuf pageSize} {bot : Bot} {chunk : Bytes} :
      ReadRun env opts page bot₀ .recv rb bot → 0 < chunk.length →
      chunk.length ≤ pageSize - (rb.finish - rb.start) →
      rb.recvMsgs (.data chunk) = .ok (some rb') → ReadRun env opts page bot₀ .get rb' bot
  | skip {rb rb' : ReadBuf pageSize} {bot : Bot} : ReadRun env opts page bot₀ .get rb bot →
      rb.getMsg opts.exitOnInvalidMsg = .ok (.null, rb') → ReadRun env opts page bot₀ .get rb' bot
  | msg {rb rb' : ReadBuf pageSize} {bot bot' : Bot} {p : Nat} {buf : Mem (.mirror pageSize)} :
      ReadRun env opts page bot₀ .get rb bot →
      rb.getMsg opts.exitOnInvalidMsg = .ok (.msg p, rb') →
      processMsg env opts p rb'.buf bot = .ok (buf, bot') →
      ReadRun env opts page bot₀ .get { rb' with buf } bot'
  | done {rb rb' : ReadBuf pageSize} {bot : Bot} : ReadRun env opts page bot₀ .get rb bot →
      rb.getMsg opts.exitOnInvalidMsg = .ok (.none, rb') → ReadRun env opts page bot₀ .recv rb' bot

section Run
variable {pageSize : Nat} {env : Env} {opts : Options} {page : Mem (.mirror pageSize)}
  {bot₀ bot bot' : Bot} {rb rb' : ReadBuf pageSize} {w : Bytes}

/-- What every reachable state keeps: the unread bytes lie in the mapped addresses, and
before `recv` they begin in the first page. -/
def Phase.Inv (phase : Phase) (rb : ReadBuf pageSize) : Prop :=
  ∃ w, rb.Unread w ∧ (phase = .recv → rb.start ≤ pageSize)

private theorem inv_skip {e : Bool} (h : rb.Unread w) (hget : rb.getMsg e = .ok (.null, rb')) :
    ∃ r, rb'.Unread r := by
  obtain ⟨u, c, r, -, -, -, -, hun⟩ := ReadBuf.getMsg_ok h hget
  exact ⟨r, hun⟩

private theorem inv_msg {p : Nat} {buf : Mem (.mirror pageSize)} (h : rb.Unread w)
    (hget : rb.getMsg opts.exitOnInvalidMsg = .ok (.msg p, rb'))
    (hmsg : processMsg env opts p rb'.buf bot = .ok (buf, bot')) :
    ∃ r, ({ rb' with buf } : ReadBuf pageSize).Unread r := by
  obtain ⟨u, c, r, -, -, -, -, hun, hstr, hp, hroom⟩ := ReadBuf.getMsg_ok h hget
  have hrun := ReadBuf.processMsg_unread env opts bot hun hstr hp hroom
  rw [hmsg] at hrun
  cases he : splitEffect env opts u bot with
  | error e =>
    rw [he] at hrun
    cases hrun
  | ok bot₁ =>
    rw [he] at hrun
    obtain ⟨m', hm', hrest⟩ := hrun
    cases hm'
    exact ⟨r, hrest⟩

theorem ReadRun.inv {phase : Phase} (h : ReadRun env opts page bot₀ phase rb bot) :
    phase.Inv rb := by
  induction h with
  | init => exact ⟨[], ⟨rfl, Nat.zero_le _, Nat.zero_le _, trivial⟩, fun _ => Nat.zero_le _⟩
  | @recv rb rb' bot chunk _ _ hroom hrecv ih =>
    obtain ⟨w, hun, hs⟩ := ih
    obtain ⟨_, ⟨rfl⟩, -, hun'⟩ := ReadBuf.recvMsgs_some hun (hs rfl)
      (show (Recv.data chunk).AtMost _ from hroom) hrecv
    exact ⟨_, hun', by rintro ⟨⟩⟩
  | skip _ hget ih =>
    obtain ⟨w, hun, -⟩ := ih
    obtain ⟨r, hun'⟩ := inv_skip hun hget
    exact ⟨r, hun', by rintro ⟨⟩⟩
  | msg _ hget hmsg ih =>
    obtain ⟨w, hun, -⟩ := ih
    obtain ⟨r, hun'⟩ := inv_msg hun hget hmsg
    exact ⟨r, hun', by rintro ⟨⟩⟩
  | done _ hget ih =>
    obtain ⟨w, hun, -⟩ := ih
    obtain ⟨-, hun', hs⟩ := ReadBuf.getMsg_ok hun hget
    exact ⟨w, hun', fun _ => hs⟩

/-- What holds where `recv_msgs` is called. The target of `recv` are the addresses from
`finish` up to one page after `start`. -/
structure SafeRecv (rb : ReadBuf pageSize) : Prop where
  start : rb.start ≤ pageSize
  mapped : rb.finish ≤ rb.start + pageSize ∧ rb.start + pageSize ≤ 2 * pageSize
  length : rb.finish + (pageSize - (rb.finish - rb.start)) = rb.start + pageSize
  apart : ∀ i j, rb.finish ≤ i → i < rb.start + pageSize → rb.start ≤ j → j < rb.finish →
    i % pageSize ≠ j % pageSize
  asserts : ∀ recv : Recv, recv.AtMost (pageSize - (rb.finish - rb.start)) →
    rb.recvMsgs recv ≠ .error .assertion
  asksForBytes : rb.finish - rb.start ≠ pageSize → 0 < pageSize - (rb.finish - rb.start)

/-- What holds where `get_msg` is called. An answer other than false leaves less unread, and
a message ends inside the mapped addresses. -/
structure SafeGet (e : Bool) (rb : ReadBuf pageSize) : Prop where
  asserts : rb.getMsg e ≠ .error .assertion
  checked : rb.getMsgChecked e = rb.getMsg e
  consumes : ∀ got rb', rb.getMsg e = .ok (got, rb') → got ≠ .none →
    rb'.finish - rb'.start < rb.finish - rb.start
  string : ∀ p rb', rb.getMsg e = .ok (.msg p, rb') →
    ∃ u, rb'.buf.CStr p u ∧ p + u.length < 2 * pageSize

theorem ReadBuf.Unread.safeRecv (hun : rb.Unread w) (hs : rb.start ≤ pageSize) : SafeRecv rb := by
  have h1 := hun.finish
  have h2 := hun.page
  refine ⟨hs, by omega, by omega, fun i j hi hi' hj hj' he => ?_, fun recv hrecv => ?_, by omega⟩
  · have hd := Layout.mirror_distinct pageSize rb.start (rb.start + pageSize) (Nat.le_refl _)
    have := hd i j (by omega) hi' hj (by omega) he
    omega
  · intro herr
    cases recv with
    | closed =>
      unfold recvMsgs at herr
      rw [hun.sane] at herr
      simp only [bind, Except.bind] at herr
      split_ifs at herr <;> cases herr
    | data data =>
      have hroom : data.length ≤ _ := hrecv
      have hrun := @recvMsgs_run _ _ _ data hun hs (by omega)
      rw [herr] at hrun
      split_ifs at hrun with hpage
      · cases hrun
      · obtain ⟨_, hrun, -⟩ := hrun
        cases hrun

theorem ReadBuf.Unread.safeGet (e : Bool) (hun : rb.Unread w) : SafeGet e rb := by
  have hf := hun.finish
  refine ⟨?_, ?_, ?_, ?_⟩
  · intro herr
    cases getMsg_error hun herr
  · obtain ⟨rb₁, hadj, hun₁, -⟩ := adjustIndices_run hun
    have hf₁ := hun₁.finish
    have hm₁ := hun₁.mapped
    unfold getMsgChecked getMsg
    rw [hadj]
    exact findMsgChecked_eq e rb₁ false (by omega)
  · intro got rb' hget hne
    have hok := getMsg_ok hun hget
    cases got with
    | none => exact absurd rfl hne
    | null =>
      obtain ⟨u, c, r, rfl, -, -, -, hun'⟩ := hok
      have hf' := hun'.finish
      simp only [List.length_append, List.length_cons] at hf
      omega
    | msg p =>
      obtain ⟨u, c, r, rfl, -, -, -, hun', -⟩ := hok
      have hf' := hun'.finish
      simp only [List.length_append, List.length_cons] at hf
      omega
  · intro p rb' hget
    obtain ⟨u, c, r, -, -, -, -, hun', hstr, hp, -⟩ := getMsg_ok hun hget
    have hf' := hun'.finish
    have hm' := hun'.mapped
    exact ⟨u, hstr, by omega⟩

/-! The loop of `process_msgs` takes these steps and ends. -/

theorem handleMsgs_readRun {rounds : Nat} (h : ReadRun env opts page bot₀ .get rb bot)
    (hr : rb.finish - rb.start < rounds)
    (hrun : rb.handleMsgs env opts rounds bot = .ok (rb', bot')) :
    ReadRun env opts page bot₀ .recv rb' bot' := by
  induction rounds generalizing rb bot with
  | zero => omega
  | succ rounds ih =>
    obtain ⟨w, hun, -⟩ := h.inv
    have hsafe := hun.safeGet opts.exitOnInvalidMsg
    unfold ReadBuf.handleMsgs at hrun
    cases hget : rb.getMsg opts.exitOnInvalidMsg with
    | error e =>
      rw [hget] at hrun
      cases hrun
    | ok p =>
      obtain ⟨got, rb₁⟩ := p
      have hless := hsafe.consumes got rb₁ hget
      rw [hget] at hrun
      cases got with
      | none =>
        cases hrun
        exact h.done hget
      | null =>
        have := hless (by decide)
        exact ih (h.skip hget) (by omega) hrun
      | msg p =>
        have := hless (by simp)
        simp only [bind, Except.bind] at hrun
        cases hmsg : processMsg env opts p rb₁.buf bot with
        | error e =>
          rw [hmsg] at hrun
          cases hrun
        | ok res =>
          obtain ⟨buf, bot₁⟩ := res
          rw [hmsg] at hrun
          exact ih (h.msg hget hmsg) (by dsimp only; omega) hrun

/-- More rounds than unread bytes make no difference. -/
theorem handleMsgs_rounds_eq {rounds rounds' : Nat} (hun : rb.Unread w)
    (h : rb.finish - rb.start < rounds) (h' : rb.finish - rb.start < rounds') :
    rb.handleMsgs env opts rounds bot = rb.handleMsgs env opts rounds' bot := by
  induction rounds generalizing rb w bot rounds' with
  | zero => omega
  | succ rounds ih =>
    obtain ⟨rounds', rfl⟩ : ∃ k, rounds' = k + 1 := ⟨rounds' - 1, by omega⟩
    have hsafe := hun.safeGet opts.exitOnInvalidMsg
    unfold ReadBuf.handleMsgs
    cases hget : rb.getMsg opts.exitOnInvalidMsg with
    | error e => rfl
    | ok p =>
      obtain ⟨got, rb₁⟩ := p
      have hless := hsafe.consumes got rb₁ hget
      simp only [bind, Except.bind]
      cases got with
      | none => rfl
      | null =>
        have := hless (by decide)
        obtain ⟨r, hun₁⟩ := inv_skip hun hget
        exact ih hun₁ (by omega) (by omega)
      | msg p =>
        have := hless (by simp)
        dsimp only
        cases hmsg : processMsg env opts p rb₁.buf bot with
        | error e => rfl
        | ok res =>
          obtain ⟨r, hun₁⟩ := inv_msg hun hget hmsg
          exact ih hun₁ (by dsimp only; omega) (by dsimp only; omega)

theorem processMsgs_readRun {chunk : Bytes} (h : ReadRun env opts page bot₀ .recv rb bot)
    (hpos : 0 < chunk.length) (hroom : chunk.length ≤ pageSize - (rb.finish - rb.start))
    (hrun : rb.processMsgs env opts (.data chunk) bot = .ok (some (rb', bot'))) :
    ReadRun env opts page bot₀ .recv rb' bot' := by
  obtain ⟨res, hrecv, hrun⟩ := bind_ok hrun
  cases res with
  | none => cases hrun
  | some rb₁ =>
    have hget := h.recv hpos hroom hrecv
    cases hloop : rb₁.handleMsgs env opts (rb₁.finish - rb₁.start + 1) bot with
    | error e =>
      simp only [hloop, Functor.map, Except.map] at hrun
      cases hrun
    | ok res =>
      obtain ⟨rb₂, bot₂⟩ := res
      simp only [hloop, Functor.map, Except.map] at hrun
      cases hrun
      exact handleMsgs_readRun hget (Nat.lt_succ_self _) hloop

/-- The indices of the read buffer never leave its two pages. At each `recv` of each
run the bytes asked for are at least one, lie in the pages and meet no unread byte; at
each `get_msg` every byte read, the one overwritten and the message lie in the pages;
no assertion fails; and the loop of `process_msgs`, each round of which consumes a
byte, ends and leaves the indices ready for the next `recv`. -/
theorem ring_buffer_in_bounds :
    (∀ rb bot, ReadRun env opts page bot₀ .recv rb bot → SafeRecv rb) ∧
    (∀ rb bot, ReadRun env opts page bot₀ .get rb bot → SafeGet opts.exitOnInvalidMsg rb ∧
      (∀ rounds, rb.finish - rb.start < rounds → rb.handleMsgs env opts rounds bot =
        rb.handleMsgs env opts (rb.finish - rb.start + 1) bot)) ∧
    (∀ rb bot chunk rb' bot', ReadRun env opts page bot₀ .recv rb bot → 0 < chunk.length →
      chunk.length ≤ pageSize - (rb.finish - rb.start) →
      rb.processMsgs env opts (.data chunk) bot = .ok (some (rb', bot')) →
      ReadRun env opts page bot₀ .recv rb' bot') := by
  refine ⟨?_, ?_, ?_⟩
  · intro rb bot h
    obtain ⟨w, hun, hs⟩ := h.inv
    exact hun.safeRecv (hs rfl)
  · intro rb bot h
    obtain ⟨w, hun, -⟩ := h.inv
    exact ⟨hun.safeGet _, fun rounds hr => handleMsgs_rounds_eq hun hr (Nat.lt_succ_self _)⟩
  · intro rb bot chunk rb' bot' h hpos hroom hrun
    exact processMsgs_readRun h hpos hroom hrun

end Run

/-- The call of `get_msg` after a first chunk, on a page of 512 bytes, and the call of `recv`
for the second, while the start of a message is unread. -/
theorem second_recv_safe : ∃ rb rb' : ReadBuf 512, rb.Unread (ascii "PING :x\nPAR") ∧
    SafeGet false rb ∧ rb'.Unread (ascii "PAR") ∧ SafeRecv rb' := by
  obtain ⟨hsafeRecv, hsafeGet, hnext⟩ :=
    @ring_buffer_in_bounds 512 (.still 1 (by decide)) .default ⟨fun _ => 0⟩ .new
  have first : ∀ chunk : Bytes, 0 < chunk.length → chunk.length ≤ 512 →
      ∃ rb rb' : ReadBuf 512, rb.Unread chunk ∧ SafeGet false rb ∧
        rb'.Unread (pieces isEol chunk).2 ∧ SafeRecv rb' := by
    intro chunk hpos hroom
    have hempty : (⟨⟨fun _ => 0⟩, 0, 0⟩ : ReadBuf 512).Unread [] :=
      ⟨rfl, Nat.zero_le _, Nat.zero_le _, trivial⟩
    have hrecv := ReadBuf.recvMsgs_run hempty (Nat.zero_le _) fun _ => (Nat.zero_add _).trans_le hroom
    rw [if_neg (by decide)] at hrecv
    obtain ⟨rb, hrecv, hunread⟩ := hrecv
    have hrun := @ReadBuf.processMsgs_run 512 _ _ (.still 1 (by decide)) .default chunk .new hempty
      (Nat.zero_le _) fun _ => (Nat.zero_add _).trans_le hroom
    obtain ⟨bot', hlines⟩ := @processLines_total (.still 1 (by decide)) .default rfl
      (pieces isEol ([] ++ chunk)).1 .new
    rw [if_neg (by decide), hlines] at hrun
    obtain ⟨rb', hrun, hunread', -⟩ := hrun
    exact ⟨rb, rb', hunread, (hsafeGet rb .new (.recv .init hpos hroom hrecv)).1, hunread',
      hsafeRecv rb' bot' (hnext _ .new chunk _ _ .init hpos hroom hrun)⟩
  exact first (ascii "PING :x\nPAR") (by decide) (by decide)

end Botniklas
