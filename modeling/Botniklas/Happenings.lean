import Botniklas.Main

/-! What happens to the bot, one thing at a time: the main loop without its buffer and
its batches. -/
namespace Botniklas
open Foundation Irc Mem

inductive Happening where
  | line (w : Bytes)
  | timer (event : TimeEvent Handler Bytes)
  | wait
  | signal
  deriving DecidableEq, Repr

namespace Happening

def lineOf : Happening → Option Bytes
  | line w => some w
  | _ => none

def called : Happening → Option (TimeEvent Handler Bytes)
  | timer event => some event
  | _ => none

end Happening

/-- The bot after all that has happened to `bot₀` so far. A timer is about the head of
the list, when that is due, and the first signal alone is answered. -/
inductive Happens (env : Env) (opts : Options) (bot₀ : Bot) : List Happening → Bot → Prop where
  | init : Happens env opts bot₀ [] bot₀
  | line {hs : List Happening} {bot bot' : Bot} {w : Bytes} : Happens env opts bot₀ hs bot →
      processLine env opts w bot = .ok bot' → Happens env opts bot₀ (hs ++ [.line w]) bot'
  | timer {hs : List Happening} {bot bot' : Bot} {event : TimeEvent Handler Bytes} :
      Happens env opts bot₀ hs bot → bot.queue.start.head? = some event →
      event.when ≤ env.clock.now bot.instant →
      handleTimeEvent Bot.queueIn (callHandler env) bot = some bot' →
      Happens env opts bot₀ (hs ++ [.timer event]) bot'
  | wait {hs : List Happening} {bot : Bot} : Happens env opts bot₀ hs bot →
      Happens env opts bot₀ (hs ++ [.wait]) { bot with instant := bot.instant + 1 }
  | signal {hs : List Happening} {bot : Bot} : Happens env opts bot₀ hs bot → .signal ∉ hs →
      Happens env opts bot₀ (hs ++ [.signal])
        (bot.write .quit (.writeMsg (ascii "QUIT :" ++ opts.quitMessage)))

theorem Happens.lines {env : Env} {opts : Options} {bot₀ bot bot' : Bot} {hs : List Happening}
    {ws : List Bytes} (h : Happens env opts bot₀ hs bot)
    (hlines : processLines env opts ws bot = .ok bot') :
    Happens env opts bot₀ (hs ++ ws.map .line) bot' := by
  induction ws generalizing hs bot with
  | nil =>
    cases hlines
    rw [List.map_nil, List.append_nil]
    exact h
  | cons w ws ih =>
    cases hw : processLine env opts w bot with
    | error e =>
      rw [processLines, hw] at hlines
      cases hlines
    | ok bot₁ =>
      rw [processLines, hw] at hlines
      have hrest := ih (h.line hw) hlines
      rw [List.append_assoc] at hrest
      exact hrest

theorem filterMap_lineOf_line (ws : List Bytes) :
    (ws.map Happening.line).filterMap Happening.lineOf = ws := by
  rw [List.filterMap_map]
  exact List.filterMap_some

namespace Loop
variable {pageSize : Nat} {env : Env} {opts : Options} {page : Mem (.mirror pageSize)} {bot₀ : Bot}
  {l₀ l l' : Loop pageSize} {got : Bytes}

/-- A run of the main loop; `got` is what the server has sent so far. -/
inductive Run (env : Env) (opts : Options) (l₀ : Loop pageSize) : Bytes → Loop pageSize → Prop where
  | init : Run env opts l₀ [] l₀
  | recv {got chunk : Bytes} {l : Loop pageSize} {rest : List Source} {rb : ReadBuf pageSize}
      {bot : Bot} : Run env opts l₀ got l → l.batch = .server :: rest →
      chunk.length ≤ pageSize - (l.rb.finish - l.rb.start) →
      l.rb.processMsgs env opts (.data chunk) l.bot = .ok (some (rb, bot)) →
      Run env opts l₀ (got ++ chunk) { l with bot, rb, batch := rest }
  | other {got : Bytes} {l l' : Loop pageSize} : Run env opts l₀ got l → Step env opts l l' →
      (l.batch.head? = some .server → l'.batch = l.batch) → Run env opts l₀ got l'

theorem Run.steps (h : Run env opts l₀ got l) :
    Relation.ReflTransGen (Step env opts) l₀ l := by
  induction h with
  | init => exact .refl
  | recv _ hb hroom hrun ih => exact ih.tail (.server hb (show Recv.AtMost _ (.data _) from hroom) hrun)
  | other _ hstep _ ih => exact ih.tail hstep

theorem exists_run (hi : l₀.Inv env) (h : Relation.ReflTransGen (Step env opts) l₀ l) :
    ∃ got, Run env opts l₀ got l := by
  induction h with
  | refl => exact ⟨[], .init⟩
  | tail hsteps hstep ih =>
    obtain ⟨got, hrun⟩ := ih
    have hbuffer := (inv_of_run hi hsteps).buffer
    cases hstep with
    | wait => exact ⟨got, hrun.other .wait fun _ => rfl⟩
    | epollWait events hb hne hd hready =>
      refine ⟨got, hrun.other (.epollWait events hb hne hd hready) fun hhead => ?_⟩
      rw [hb] at hhead
      cases hhead
    | server hb hrecv h =>
      obtain ⟨w, hun, hs⟩ := hbuffer
      obtain ⟨data, rfl, -⟩ := ReadBuf.processMsgs_some hun hs hrecv h
      exact ⟨got ++ data, hrun.recv hb hrecv h⟩
    | timer hb h =>
      refine ⟨got, hrun.other (.timer hb h) fun hhead => ?_⟩
      rw [hb] at hhead
      cases hhead
    | signal hb hfirst =>
      refine ⟨got, hrun.other (.signal hb hfirst) fun hhead => ?_⟩
      rw [hb] at hhead
      cases hhead

/-- What has happened to the bot in the loop: a line for each complete piece of what has
been received, whose rest is unread, and a signal if one has come. -/
structure Refines (env : Env) (opts : Options) (bot₀ : Bot) (got : Bytes) (l : Loop pageSize)
    (hs : List Happening) : Prop where
  happens : Happens env opts bot₀ hs l.bot
  lines : hs.filterMap Happening.lineOf = (pieces isEol got).1
  unread : l.rb.Unread (pieces isEol got).2 ∧ l.rb.start ≤ pageSize
  signal : .signal ∈ hs ↔ l.firstSignal = false

/-- Something that is no line and no signal. -/
private theorem Refines.snoc {hs : List Happening} {h : Happening}
    (hr : Refines env opts bot₀ got l hs) (hline : h.lineOf = none) (hsignal : h ≠ .signal)
    (hhappens : Happens env opts bot₀ (hs ++ [h]) l'.bot) (hrb : l'.rb = l.rb)
    (hfirst : l'.firstSignal = l.firstSignal) : Refines env opts bot₀ got l' (hs ++ [h]) := by
  refine ⟨hhappens, ?_, hrb ▸ hr.unread, ?_⟩
  · rw [List.filterMap_append, hr.lines]
    simp [hline]
  · rw [hfirst, ← hr.signal]
    simp [hsignal.symm]

theorem Refines.step {hs : List Happening} (hr : Refines env opts bot₀ got l hs) (hi : l.Inv env)
    (hstep : Step env opts l l') (hserver : l.batch.head? = some .server → l'.batch = l.batch) :
    ∃ hs', Refines env opts bot₀ got l' hs' := by
  cases hstep with
  | wait => exact ⟨_, hr.snoc rfl (by decide) hr.happens.wait rfl rfl⟩
  | epollWait events _ _ _ _ => exact ⟨hs, hr.happens, hr.lines, hr.unread, hr.signal⟩
  | server hb _ _ =>
    rw [hb] at hserver
    exact absurd (hserver rfl) List.ne_cons_self
  | timer hb h =>
    obtain ⟨-, event, hhead, hdue⟩ := hi.due (hb ▸ List.mem_cons_self)
    have hne : Happening.timer event ≠ .signal := Happening.noConfusion
    exact ⟨_, hr.snoc rfl hne (hr.happens.timer hhead hdue h) rfl rfl⟩
  | signal hb hfirst =>
    have hnone : Happening.signal ∉ hs := by
      rw [hr.signal, hfirst]
      decide
    refine ⟨_, hr.happens.signal hnone, ?_, hr.unread, ?_⟩
    · rw [List.filterMap_append, hr.lines]
      exact List.append_nil _
    · simp

/-- What is received is processed line by line. -/
theorem Refines.recv {hs : List Happening} {chunk : Bytes} {rest : List Source}
    {rb : ReadBuf pageSize} {bot : Bot} (hr : Refines env opts bot₀ got l hs)
    (hroom : chunk.length ≤ pageSize - (l.rb.finish - l.rb.start))
    (hrun : l.rb.processMsgs env opts (.data chunk) l.bot = .ok (some (rb, bot))) :
    ∃ hs', Refines env opts bot₀ (got ++ chunk) { l with bot, rb, batch := rest } hs' := by
  obtain ⟨hun, hs⟩ := hr.unread
  have hrecv : (Recv.data chunk).AtMost (pageSize - (l.rb.finish - l.rb.start)) := hroom
  obtain ⟨_, ⟨rfl⟩, hlines, hun'⟩ := ReadBuf.processMsgs_some hun hs hrecv hrun
  refine ⟨_, hr.happens.lines hlines, ?_, ?_, ?_⟩
  · rw [List.filterMap_append, filterMap_lineOf_line, hr.lines, pieces_append got]
  · rw [pieces_append]
    exact hun'
  · rw [List.mem_append, hr.signal]
    simp

theorem Run.refines (hi : (enter page bot₀).Inv env) (h : Run env opts (enter page bot₀) got l) :
    ∃ hs, Refines env opts bot₀ got l hs := by
  induction h with
  | init => exact ⟨[], .init, rfl, ⟨⟨rfl, Nat.zero_le _, Nat.zero_le _, trivial⟩, Nat.zero_le _⟩, by simp [enter]⟩
  | recv _ _ hroom hrun ih =>
    obtain ⟨hs, hr⟩ := ih
    exact hr.recv hroom hrun
  | other hrun hstep hserver ih =>
    obtain ⟨hs, hr⟩ := ih
    exact hr.step (inv_of_run hi hrun.steps) hstep hserver

end Loop

/-- The loop after `restore_state` is one that the invariants hold of. -/
theorem entered_inv {pageSize : Nat} {env : Env} {opts : Options} {bot₀ bot₁ : Bot}
    {outcome : Restored} (page : Mem (.mirror pageSize)) (hqueue : bot₀.queue = .empty)
    (hrestore : restoreState env bot₀ = .ok (outcome, bot₁)) :
    (Loop.enter page (connectToIrcServer opts bot₁)).Inv env := by
  obtain ⟨hg, hne, -⟩ := restoreState_pending hqueue hrestore
  exact Loop.enter_inv page hg fun hnil => absurd hnil hne

/-- The main loop refines the bot to which one thing happens at a time. However the
stream is cut up and whatever the kernel puts in a batch, the lines that have happened are
the complete ones of what has been received, the rest of it is in the read buffer, and
each timer has been about the head of the list, then due. -/
theorem main_loop_refines {pageSize : Nat} {env : Env} {opts : Options} {bot₀ bot₁ : Bot}
    {outcome : Restored} (page : Mem (.mirror pageSize)) (hqueue : bot₀.queue = .empty)
    (hrestore : restoreState env bot₀ = .ok (outcome, bot₁)) :
    (∀ l, Relation.ReflTransGen (Loop.Step env opts)
        (Loop.enter page (connectToIrcServer opts bot₁)) l ↔
      ∃ got, Loop.Run env opts (Loop.enter page (connectToIrcServer opts bot₁)) got l) ∧
    ∀ got l, Loop.Run env opts (Loop.enter page (connectToIrcServer opts bot₁)) got l →
      ∃ hs, Happens env opts (connectToIrcServer opts bot₁) hs l.bot ∧
        hs.filterMap Happening.lineOf = (pieces isEol got).1 ∧
        l.rb.buf.slice l.rb.start (l.rb.finish - l.rb.start) = (pieces isEol got).2 ∧
        (.signal ∈ hs ↔ l.firstSignal = false) := by
  have hi : (Loop.enter page (connectToIrcServer opts bot₁)).Inv env :=
    entered_inv page hqueue hrestore
  refine ⟨fun l => ⟨Loop.exists_run hi, fun ⟨_, hrun⟩ => hrun.steps⟩, fun got l hrun => ?_⟩
  obtain ⟨hs, hr⟩ := hrun.refines hi
  obtain ⟨hun, -⟩ := hr.unread
  have hlen : l.rb.finish - l.rb.start = (pieces isEol got).2.length := by
    have hfinish := hun.finish
    omega
  refine ⟨hs, hr.happens, hr.lines, ?_, hr.signal⟩
  rw [hlen]
  exact slice_of_holds hun.holds

/-- What fits in the buffer may come at once. -/
theorem Loop.exists_run_of_data {pageSize : Nat} {env : Env} {opts : Options} {bot bot' : Bot}
    {data : Bytes} (page : Mem (.mirror pageSize)) (hpage : 0 < pageSize)
    (hdata : data.length ≤ pageSize)
    (h : processLines env opts (pieces isEol data).1 bot = .ok bot') :
    ∃ l, Loop.Run env opts (Loop.enter page bot) data l ∧ l.bot = bot' := by
  have hwait : Loop.Run env opts (Loop.enter page bot) [] _ :=
    .other .init (.epollWait [.server] rfl (by decide) (by decide) (by simp)) nofun
  have hrun := @ReadBuf.processMsgs_run pageSize ⟨page, 0, 0⟩ [] env opts data bot
    ⟨rfl, Nat.zero_le _, Nat.zero_le _, trivial⟩ (Nat.zero_le _) (by simpa using fun _ => hdata)
  rw [if_neg (by simpa using hpage.ne), List.nil_append, h] at hrun
  obtain ⟨rb, hrun, -⟩ := hrun
  exact ⟨_, hwait.recv rfl hdata hrun, rfl⟩

/-- A run in which the server sends a short stream. -/
theorem run_of_stream (data : Bytes) (hdata : data.length ≤ 512) :
    ∃ (outcome : Restored) (bot₁ : Bot) (l : Loop 512),
    restoreState (.still 1 (by decide)) .new = .ok (outcome, bot₁) ∧
    Loop.Run (.still 1 (by decide)) .default
      (.enter ⟨fun _ => 0⟩ (connectToIrcServer .default bot₁)) data l := by
  obtain ⟨outcome, hrestore⟩ := restoreState_eq (.still 1 (by decide)) .new
  obtain ⟨bot', hlines⟩ := @processLines_total (.still 1 (by decide)) .default rfl
    (pieces isEol data).1 (connectToIrcServer .default _)
  obtain ⟨l, hl, -⟩ := @Loop.exists_run_of_data 512 _ _ _ _ _ ⟨fun _ => 0⟩ (by decide) hdata hlines
  exact ⟨outcome, _, l, hrestore, hl⟩

/-- Nothing has come of the start of the line yet. -/
theorem ping_and_part : ∃ (bot₁ : Bot) (l : Loop 512) (hs : List Happening),
    Happens (.still 1 (by decide)) .default (connectToIrcServer .default bot₁) hs l.bot ∧
    hs.filterMap Happening.lineOf = [ascii "PING :x"] ∧
    l.rb.buf.slice l.rb.start (l.rb.finish - l.rb.start) = ascii "PAR" := by
  obtain ⟨outcome, bot₁, l, hrestore, hl⟩ :=
    run_of_stream (ascii "PING :x\nPAR") (by decide)
  obtain ⟨hs, hhappens, hlines, hrest, -⟩ := (main_loop_refines _ rfl hrestore).2 _ l hl
  exact ⟨bot₁, l, hs, hhappens, hlines.trans (by decide), hrest.trans (by decide)⟩

end Botniklas
