import Botniklas.ReadMsg

/-! The messages in the buffer are the pieces of the received bytes, whatever
the chunks they came in. -/
namespace Botniklas
open Foundation Irc Mem

/-- The complete pieces of some bytes, processed in order. -/
def processLines (env : Env) (opts : Options) : List Bytes → Bot → Except Stop Bot
  | [], bot => .ok bot
  | w :: ws, bot => do processLines env opts ws (← processLine env opts w bot)

namespace ReadBuf
variable {pageSize : Nat} {rb : ReadBuf pageSize} {w u r : Bytes} {c : UInt8}

/-- The unread bytes are `w`. -/
structure Unread (rb : ReadBuf pageSize) (w : Bytes) : Prop where
  finish : rb.start + w.length = rb.finish
  page : w.length ≤ pageSize
  mapped : rb.finish ≤ 2 * pageSize
  holds : rb.buf.Holds rb.start w

theorem Unread.sane (h : rb.Unread w) : rb.assertIndexSanity = .ok () := by
  have h1 := h.finish
  have h2 := h.page
  have h3 := h.mapped
  exact if_pos ⟨h3, by omega, by omega⟩

/-- Both views of the page show the same bytes. -/
private theorem holds_back {m : Mem (.mirror pageSize)} {p : Nat} (hp : pageSize ≤ p)
    (h : m.Holds p w) : m.Holds (p - pageSize) w := by
  rw [holds_iff] at h ⊢
  intro i hi
  rw [← h i hi]
  have : (p - pageSize + i) % pageSize = (p + i) % pageSize := by
    rw [← Nat.add_mod_right, show p - pageSize + i + pageSize = p + i by omega]
  change m.byte _ = m.byte _
  exact congrArg m.byte this

theorem adjustIndices_run (h : rb.Unread w) :
    ∃ rb', rb.adjustIndices = .ok rb' ∧ rb'.Unread w ∧ rb'.start ≤ pageSize := by
  obtain ⟨h1, h2, h3, h4⟩ := h
  have hsane := Unread.sane ⟨h1, h2, h3, h4⟩
  by_cases hs : rb.start > pageSize
  · refine ⟨{ rb with start := rb.start - pageSize, finish := rb.finish - pageSize }, ?_,
      ⟨?_, h2, ?_, holds_back (by omega) h4⟩, ?_⟩
    · unfold adjustIndices
      rw [hsane]
      exact if_pos hs
    all_goals dsimp only
    all_goals omega
  · refine ⟨rb, ?_, ⟨h1, h2, h3, h4⟩, by omega⟩
    unfold adjustIndices
    rw [hsane]
    exact if_neg hs

section FindMsg
variable (e : Bool)

private theorem findMsg_open {cur : Nat} (hn : Bool) (h : rb.buf.Holds cur u)
    (hu : ∀ b ∈ u, isEol b = false) : findMsg e rb u.length cur hn = .ok (.none, rb) := by
  induction u generalizing cur hn with
  | nil => rfl
  | cons b u ih =>
    simp only [List.mem_cons, forall_eq_or_imp] at hu
    rw [List.length_cons, findMsg, h.1, hu.1, if_neg (by simp)]
    exact ih _ h.2 hu.2

private theorem findMsg_cut {cur n : Nat} (hn : Bool) (h : rb.buf.Holds cur (u ++ [c]))
    (hu : ∀ b ∈ u, isEol b = false) (hc : isEol c = true) :
    findMsg e rb (u.length + (n + 1)) cur hn =
      if hn = true ∨ nul ∈ u then
        if e then .error nullBytes else .ok (.null, { rb with start := cur + u.length + 1 })
      else if cur + u.length = rb.start then .ok (.null, { rb with start := cur + u.length + 1 })
      else .ok (.msg rb.start, { rb with
        buf := rb.buf.store (cur + u.length) nul
        start := cur + u.length + 1 }) := by
  induction u generalizing cur hn with
  | nil =>
    simp only [List.nil_append, holds_cons] at h
    simp [findMsg, h.1, hc]
  | cons b u ih =>
    simp only [List.mem_cons, forall_eq_or_imp] at hu
    rw [List.length_cons, show u.length + 1 + (n + 1) = u.length + (n + 1) + 1 by omega, findMsg,
      h.1, hu.1, if_neg (by simp), ih _ h.2 hu.2,
      show cur + 1 + u.length = cur + (u.length + 1) by omega]
    have hor : ((hn || decide (b = nul)) = true ∨ nul ∈ u) ↔ (hn = true ∨ nul ∈ b :: u) := by
      rw [Bool.or_eq_true, decide_eq_true_eq, or_assoc, List.mem_cons, eq_comm (a := nul)]
    rw [if_congr hor rfl rfl]

end FindMsg

/-- Without a line end, `get_msg` finds nothing. -/
theorem getMsg_open (e : Bool) (h : rb.Unread w) (hw : ∀ b ∈ w, isEol b = false) :
    ∃ rb', rb.getMsg e = .ok (.none, rb') ∧ rb'.Unread w ∧ rb'.start ≤ pageSize := by
  obtain ⟨rb', hadj, hun, hs⟩ := adjustIndices_run h
  refine ⟨rb', ?_, hun, hs⟩
  have hlen : rb'.finish - rb'.start = w.length := by
    have := hun.finish
    omega
  unfold getMsg
  rw [hadj]
  change findMsg e rb' (rb'.finish - rb'.start) rb'.start false = _
  rw [hlen, findMsg_open e false hun.holds hw]

/-- With one, the piece before it is rejected or becomes a string of its own,
and the bytes after it are unread. -/
theorem getMsg_cut (e : Bool) (h : rb.Unread (u ++ c :: r)) (hu : ∀ b ∈ u, isEol b = false)
    (hc : isEol c = true) :
    ∃ rb', rb'.Unread r ∧
      ((nul ∈ u ∧ rb.getMsg e = if e then .error nullBytes else .ok (.null, rb')) ∨
       (u = [] ∧ rb.getMsg e = .ok (.null, rb')) ∨
       (nul ∉ u ∧ u ≠ [] ∧ ∃ p, rb.getMsg e = .ok (.msg p, rb') ∧ rb'.buf.CStr p u ∧
        p + u.length + 1 = rb'.start ∧ u.length + 1 + r.length ≤ pageSize)) := by
  obtain ⟨rb₁, hadj, hun, hs⟩ := adjustIndices_run h
  obtain ⟨h1, h2, h3, h4⟩ := hun
  simp only [List.length_append, List.length_cons] at h1 h2
  have h5 := (holds_append _ _ _ _).mp h4
  have hrest : rb₁.buf.Holds (rb₁.start + u.length + 1) r := h5.2.2
  have hpiece : rb₁.buf.Holds rb₁.start (u ++ [c]) :=
    (holds_append _ _ _ _).mpr ⟨h5.1, h5.2.1, trivial⟩
  have hget : rb.getMsg e = findMsg e rb₁ (u.length + (r.length + 1)) rb₁.start false := by
    unfold getMsg
    rw [hadj]
    change findMsg e rb₁ (rb₁.finish - rb₁.start) rb₁.start false = _
    rw [show rb₁.finish - rb₁.start = u.length + (r.length + 1) by omega]
  rw [hget, findMsg_cut e false hpiece hu hc]
  have hskip : ({ rb₁ with start := rb₁.start + u.length + 1 } : ReadBuf pageSize).Unread r :=
    ⟨by dsimp only; omega, by omega, h3, hrest⟩
  by_cases hz : nul ∈ u
  · exact ⟨_, hskip, .inl ⟨hz, if_pos (.inr hz)⟩⟩
  · rw [if_neg (by simpa using hz)]
    by_cases he : u = []
    · exact ⟨_, hskip, .inr (.inl ⟨he, if_pos (by simp [he])⟩)⟩
    · have hpos := List.length_pos_of_ne_nil he
      have hd := Layout.mirror_distinct pageSize rb₁.start (rb₁.start + pageSize) (Nat.le_refl _)
      have hwi : Within (rb₁.start + u.length) (rb₁.start + u.length + 1) rb₁.buf
          (rb₁.buf.store (rb₁.start + u.length) nul) :=
        within_store _ nul (Nat.le_refl _) (Nat.lt_succ_self _)
      have hrest' := hwi.holds hd (by omega) (by omega) (by omega) (by omega) (by omega) hrest
      have hpiece' := hwi.holds hd (by omega) (by omega) (by omega) (by omega) (by omega) h5.1
      exact ⟨{ rb₁ with
        buf := rb₁.buf.store (rb₁.start + u.length) nul
        start := rb₁.start + u.length + 1 }, ⟨by dsimp only; omega, by omega, h3, hrest'⟩,
        .inr (.inr ⟨hz, he, rb₁.start, if_neg (by omega),
          ⟨(holds_append _ _ _ _).mpr ⟨hpiece', load_store_self _ _ _, trivial⟩, hz⟩, rfl, by omega⟩)⟩

/-- What an answer of `get_msg` says of the unread bytes. -/
theorem getMsg_ok {e : Bool} {got : Got} {rb' : ReadBuf pageSize} (h : rb.Unread w)
    (hget : rb.getMsg e = .ok (got, rb')) :
    match got with
    | .none => (∀ b ∈ w, isEol b = false) ∧ rb'.Unread w ∧ rb'.start ≤ pageSize
    | .null => ∃ u c r, w = u ++ c :: r ∧ (∀ b ∈ u, isEol b = false) ∧ isEol c = true ∧
        (u = [] ∨ nul ∈ u) ∧ rb'.Unread r
    | .msg p => ∃ u c r, w = u ++ c :: r ∧ (∀ b ∈ u, isEol b = false) ∧ isEol c = true ∧
        u ≠ [] ∧ rb'.Unread r ∧ rb'.buf.CStr p u ∧ p + u.length + 1 = rb'.start ∧
        u.length + 1 + r.length ≤ pageSize := by
  rcases open_or_cut isEol w with hw | ⟨u, c, r, rfl, hu, hc⟩
  · obtain ⟨rb₁, hget', hun, hs⟩ := getMsg_open e h hw
    cases hget.symm.trans hget'
    exact ⟨hw, hun, hs⟩
  · obtain ⟨rb₁, hun, ⟨hz, hget'⟩ | ⟨hnil, hget'⟩ | ⟨-, hne, p, hget', hstr, hp, hroom⟩⟩ :=
      getMsg_cut e h hu hc
    all_goals rw [hget] at hget'
    · cases e with
      | true => cases hget'
      | false =>
        cases hget'
        exact ⟨u, c, r, rfl, hu, hc, .inr hz, hun⟩
    · cases hget'
      exact ⟨u, c, r, rfl, hu, hc, .inl hnil, hun⟩
    · cases hget'
      exact ⟨u, c, r, rfl, hu, hc, hne, hun, hstr, hp, hroom⟩

/-- The one way for it to stop. -/
theorem getMsg_error {e : Bool} {stop : Stop} (h : rb.Unread w) (hget : rb.getMsg e = .error stop) :
    stop = nullBytes := by
  rcases open_or_cut isEol w with hw | ⟨u, c, r, rfl, hu, hc⟩
  · obtain ⟨rb₁, hget', -⟩ := getMsg_open e h hw
    cases hget.symm.trans hget'
  · obtain ⟨rb₁, -, ⟨-, hget'⟩ | ⟨-, hget'⟩ | ⟨-, -, p, hget', -⟩⟩ := getMsg_cut e h hu hc
    all_goals rw [hget] at hget'
    · cases e with
      | true =>
        cases hget'
        rfl
      | false => cases hget'
    · cases hget'
    · cases hget'

/-- Writing in the message leaves the bytes after it. -/
theorem Unread.within {p : Nat} {m' : Mem (.mirror pageSize)} (hun : rb.Unread r)
    (hp : p + u.length + 1 = rb.start) (hroom : u.length + 1 + r.length ≤ pageSize)
    (hwi : Within p (p + u.length + 1) rb.buf m') :
    ({ rb with buf := m' } : ReadBuf pageSize).Unread r := by
  have hd := Layout.mirror_distinct pageSize p (p + pageSize) (Nat.le_refl _)
  have h1 := hun.finish
  have h3 := hun.mapped
  have hrest := hwi.holds hd (Nat.le_refl _) (by omega) (by omega) (by omega) (by omega) hun.holds
  exact ⟨h1, hun.page, h3, hrest⟩

section Loop
variable (env : Env) (opts : Options)

/-- A message is processed in place; the bytes after it stay as they are. -/
theorem processMsg_unread (bot : Bot) {p : Nat} (hun : rb.Unread r) (hstr : rb.buf.CStr p u)
    (hp : p + u.length + 1 = rb.start) (hroom : u.length + 1 + r.length ≤ pageSize) :
    match splitEffect env opts u bot with
    | .error e => processMsg env opts p rb.buf bot = .error e
    | .ok bot' => ∃ m', processMsg env opts p rb.buf bot = .ok (m', bot') ∧
        ({ rb with buf := m' } : ReadBuf pageSize).Unread r := by
  have hd := Layout.mirror_distinct pageSize p (p + pageSize) (Nat.le_refl _)
  have h1 := hun.finish
  have h3 := hun.mapped
  have hcomp := processMsg_computes env opts bot hstr (hd.mono (Nat.le_refl _) (by omega))
    (by change _ < 2 * pageSize; omega)
  unfold Computes at hcomp
  cases he : splitEffect env opts u bot with
  | error e =>
    rw [he] at hcomp
    exact hcomp
  | ok bot' =>
    rw [he] at hcomp
    obtain ⟨m', hm', hwi⟩ := hcomp
    exact ⟨m', hm', hun.within hp hroom hwi⟩

/-- One round, on a complete piece: it is processed as a line, and the bytes
after it are left. -/
theorem handleMsgs_cut (rounds : Nat) (bot : Bot) (h : rb.Unread (u ++ c :: r))
    (hu : ∀ b ∈ u, isEol b = false) (hc : isEol c = true) :
    match processLine env opts u bot with
    | .error e => handleMsgs env opts (rounds + 1) rb bot = .error e
    | .ok bot' => ∃ rb', rb'.Unread r ∧
        handleMsgs env opts (rounds + 1) rb bot = handleMsgs env opts rounds rb' bot' := by
  obtain ⟨rb', hun, hget⟩ := getMsg_cut opts.exitOnInvalidMsg h hu hc
  rw [processLine_eq, handleMsgs]
  rcases hget with ⟨hz, hget⟩ | ⟨rfl, hget⟩ | ⟨hz, hne, p, hget, hstr, hp, hroom⟩
  · rw [hget, if_pos hz]
    cases opts.exitOnInvalidMsg with
    | true => rfl
    | false => exact ⟨rb', hun, rfl⟩
  · rw [hget, if_neg (by simp), if_pos rfl]
    exact ⟨rb', hun, rfl⟩
  · rw [hget, if_neg hz, if_neg hne]
    have hmsg := processMsg_unread env opts bot hun hstr hp hroom
    cases he : splitEffect env opts u bot with
    | error e =>
      rw [he] at hmsg
      simp only [bind, Except.bind, hmsg]
    | ok bot₁ =>
      rw [he] at hmsg
      obtain ⟨m', hm', hrest⟩ := hmsg
      simp only [bind, Except.bind, hm']
      exact ⟨_, hrest, rfl⟩

/-- The loop over the messages processes the complete pieces and leaves the
rest unread. -/
theorem handleMsgs_run (rounds : Nat) (bot : Bot) (h : rb.Unread w) (hr : w.length < rounds) :
    match processLines env opts (pieces isEol w).1 bot with
    | .error e => handleMsgs env opts rounds rb bot = .error e
    | .ok bot' => ∃ rb', handleMsgs env opts rounds rb bot = .ok (rb', bot') ∧
        rb'.Unread (pieces isEol w).2 ∧ rb'.start ≤ pageSize := by
  obtain ⟨rounds, rfl⟩ : ∃ k, rounds = k + 1 := ⟨rounds - 1, by omega⟩
  induction w using cut_induction isEol generalizing rb rounds bot with
  | rest u hu =>
    obtain ⟨rb', hget, hun, hs⟩ := getMsg_open opts.exitOnInvalidMsg h hu
    rw [pieces_of_open hu]
    refine ⟨rb', ?_, hun, hs⟩
    unfold handleMsgs
    rw [hget]
    rfl
  | cut u c r hu hc ih =>
    simp only [List.length_append, List.length_cons] at hr
    have hround := handleMsgs_cut env opts rounds bot h hu hc
    rw [pieces_cut hu hc, processLines]
    cases hline : processLine env opts u bot with
    | error e =>
      rw [hline] at hround
      exact hround
    | ok bot₁ =>
      rw [hline] at hround
      obtain ⟨rb', hun, hrun⟩ := hround
      obtain ⟨rounds, rfl⟩ : ∃ k, rounds = k + 1 := ⟨rounds - 1, by omega⟩
      rw [hrun]
      exact ih bot₁ hun rounds (by omega)

/-- Any number of rounds processes some of the complete pieces, from the first
on. -/
theorem handleMsgs_rounds {rb' : ReadBuf pageSize} {bot bot' : Bot} (rounds : Nat)
    (h : rb.Unread w) (hrun : handleMsgs env opts rounds rb bot = .ok (rb', bot')) :
    ∃ ws, ws <+: (pieces isEol w).1 ∧ processLines env opts ws bot = .ok bot' := by
  induction rounds generalizing rb w bot with
  | zero =>
    cases hrun
    exact ⟨[], List.nil_prefix, rfl⟩
  | succ rounds ih =>
    rcases open_or_cut isEol w with hw | ⟨u, c, r, rfl, hu, hc⟩
    · obtain ⟨rb₁, hget, -⟩ := getMsg_open opts.exitOnInvalidMsg h hw
      unfold handleMsgs at hrun
      rw [hget] at hrun
      cases hrun
      exact ⟨[], List.nil_prefix, rfl⟩
    · have hround := handleMsgs_cut env opts rounds bot h hu hc
      cases hline : processLine env opts u bot with
      | error e =>
        rw [hline, hrun] at hround
        cases hround
      | ok bot₁ =>
        rw [hline] at hround
        obtain ⟨rb₁, hun, hrest⟩ := hround
        obtain ⟨ws, hws, hlines⟩ := ih hun (hrest.symm.trans hrun)
        refine ⟨u :: ws, ?_, by rw [processLines, hline]; exact hlines⟩
        rw [pieces_cut hu hc]
        exact (List.prefix_cons_inj u).mpr hws

/-- Received bytes come after the unread ones, unless those fill the page. -/
theorem recvMsgs_run {data : Bytes} (h : rb.Unread w) (hs : rb.start ≤ pageSize)
    (hdata : w.length < pageSize → w.length + data.length ≤ pageSize) :
    if w.length = pageSize then rb.recvMsgs (.data data) = .error overlong
    else ∃ rb', rb.recvMsgs (.data data) = .ok (some rb') ∧ rb'.Unread (w ++ data) := by
  have h1 := h.finish
  have h2 := h.page
  unfold recvMsgs
  simp only [h.sane, bind, Except.bind, show rb.finish - rb.start = w.length by omega]
  by_cases hfull : w.length = pageSize
  · rw [if_pos hfull, if_pos hfull]
    rfl
  · rw [if_neg hfull, if_neg hfull]
    have hroom := hdata (by omega)
    have hd := Layout.mirror_distinct pageSize rb.start (rb.start + pageSize) (Nat.le_refl _)
    have hnew := holds_storeAll rb.buf rb.finish data (hd.mono (by omega) (by omega))
    have hold := (within_storeAll rb.buf rb.finish data (Nat.le_refl _) (Nat.le_refl _)).holds hd
      (by omega) (by omega) (Nat.le_refl _) (by omega) (by omega) h.holds
    have hun : ({ rb with
        buf := rb.buf.storeAll rb.finish data
        finish := rb.finish + data.length } : ReadBuf pageSize).Unread (w ++ data) :=
      ⟨by simp; omega, by simp; omega, by dsimp only; omega,
        (holds_append _ _ _ _).mpr ⟨hold, by rwa [h1]⟩⟩
    refine ⟨_, ?_, hun⟩
    simp only [hun.sane]
    rfl

/-- One call of `process_msgs` on received data: the exit if the page is full of
one unterminated piece, and else the complete pieces of all the bytes. -/
theorem processMsgs_run {data : Bytes} (bot : Bot) (h : rb.Unread w) (hs : rb.start ≤ pageSize)
    (hdata : w.length < pageSize → w.length + data.length ≤ pageSize) :
    if w.length = pageSize then
      processMsgs env opts rb (.data data) bot = .error overlong
    else match processLines env opts (pieces isEol (w ++ data)).1 bot with
      | .error e => processMsgs env opts rb (.data data) bot = .error e
      | .ok bot' => ∃ rb', processMsgs env opts rb (.data data) bot = .ok (some (rb', bot')) ∧
          rb'.Unread (pieces isEol (w ++ data)).2 ∧ rb'.start ≤ pageSize := by
  have hrecv := recvMsgs_run h hs hdata
  unfold processMsgs
  by_cases hfull : w.length = pageSize
  · rw [if_pos hfull] at hrecv ⊢
    rw [hrecv]
    rfl
  · rw [if_neg hfull] at hrecv ⊢
    obtain ⟨rb₁, hrun, hun⟩ := hrecv
    have hfinish := hun.finish
    have hloop := handleMsgs_run env opts (rb₁.finish - rb₁.start + 1) bot hun (by omega)
    simp only [hrun, bind, Except.bind]
    split at hloop
    · simp only [hloop, Functor.map, Except.map]
    · obtain ⟨rb', hrun', hrest⟩ := hloop
      simp only [hrun', Functor.map, Except.map]
      exact ⟨rb', rfl, hrest⟩

end Loop

end ReadBuf

/-- What a call of `recv` may bring when so many bytes are asked for. -/
def Recv.AtMost (room : Nat) : Recv → Prop
  | .data chunk => chunk.length ≤ room
  | .closed => True

section Received
variable {pageSize : Nat} {env : Env} {opts : Options} {rb rb' : ReadBuf pageSize} {w : Bytes}
  {recv : Recv} {bot bot' : Bot}

/-- A call of `recv_msgs` that answers true. -/
theorem ReadBuf.recvMsgs_some (hun : rb.Unread w) (hs : rb.start ≤ pageSize)
    (hrecv : recv.AtMost (pageSize - (rb.finish - rb.start)))
    (h : rb.recvMsgs recv = .ok (some rb')) :
    ∃ data, recv = .data data ∧ w.length ≠ pageSize ∧ rb'.Unread (w ++ data) := by
  have hf := hun.finish
  cases recv with
  | closed =>
    unfold recvMsgs at h
    rw [hun.sane] at h
    simp only [bind, Except.bind] at h
    split_ifs at h
    cases h
  | data data =>
    have hroom : data.length ≤ _ := hrecv
    have hstep := @recvMsgs_run _ _ _ data hun hs (by omega)
    by_cases hfull : w.length = pageSize
    · rw [if_pos hfull, h] at hstep
      cases hstep
    · rw [if_neg hfull, h] at hstep
      obtain ⟨rb₁, hrun, hun'⟩ := hstep
      cases hrun
      exact ⟨data, rfl, hfull, hun'⟩

/-- A call of `process_msgs` that answers true. -/
theorem ReadBuf.processMsgs_some (hun : rb.Unread w) (hs : rb.start ≤ pageSize)
    (hrecv : recv.AtMost (pageSize - (rb.finish - rb.start)))
    (h : processMsgs env opts rb recv bot = .ok (some (rb', bot'))) :
    ∃ data, recv = .data data ∧
      processLines env opts (pieces isEol (w ++ data)).1 bot = .ok bot' ∧
      rb'.Unread (pieces isEol (w ++ data)).2 ∧ rb'.start ≤ pageSize := by
  have hf := hun.finish
  cases hr : rb.recvMsgs recv with
  | error e =>
    rw [processMsgs, hr] at h
    cases h
  | ok res =>
    cases res with
    | none =>
      rw [processMsgs, hr] at h
      cases h
    | some rb₁ =>
      obtain ⟨data, rfl, hfull, -⟩ := recvMsgs_some hun hs hrecv hr
      have hroom : data.length ≤ _ := hrecv
      have hstep := @processMsgs_run _ _ _ env opts data bot hun hs (by omega)
      refine ⟨data, rfl, ?_⟩
      rw [if_neg hfull] at hstep
      split at hstep
      · rw [h] at hstep
        cases hstep
      · obtain ⟨rb₂, hrun, hun', hs'⟩ := hstep
        rename_i he
        rw [h] at hrun
        cases hrun
        exact ⟨he, hun', hs'⟩

end Received

/-! The reference: the pieces of the whole stream, each split on its own. -/

/-- What `split_msg` makes of a piece, if that is a message. -/
def acceptedMsg (w : Bytes) : Option MsgView :=
  if nul ∈ w ∨ w = [] then none
  else match (splitMsg false 0).run (Mem.ofString w) with
    | .ok msg m => some (msg.view m)
    | .error _ _ => none

def messages (stream : Bytes) : List MsgView := (pieces isEol stream).1.filterMap acceptedMsg

def Bot.handledMsgs (bot : Bot) : List MsgView := bot.trace.filterMap Obs.handledMsg

theorem acceptedMsg_eq {w : Bytes} (h0 : nul ∉ w) (hne : w ≠ []) :
    acceptedMsg w = match parseMsg w with
      | .ok g => some g.view
      | .error _ => none := by
  have hrun := splitMsg_run false (cstr_ofString h0) (Layout.flat_distinct _ _ _)
    (by simp [Layout.flat])
  unfold acceptedMsg
  rw [if_neg (by simp [h0, hne])]
  cases hp : parseMsg w with
  | error t =>
    rw [hp] at hrun
    obtain ⟨m', hr, -⟩ := hrun
    rw [hr]
  | ok g =>
    rw [hp] at hrun
    obtain ⟨msg, m', hr, -, hv⟩ := hrun
    rw [hr]
    exact congrArg some (hv.view_eq (by simp [Layout.flat]))

theorem processLine_handledMsgs {env : Env} {opts : Options} {w : Bytes} {bot bot' : Bot}
    (h : processLine env opts w bot = .ok bot') :
    bot'.handledMsgs = bot.handledMsgs ++ (acceptedMsg w).toList := by
  unfold Bot.handledMsgs
  rcases processLine_cases h with ⟨rfl, hnone⟩ | ⟨g, r, h0, hg, hout, -⟩
  · have : acceptedMsg w = none := by
      by_cases hw : nul ∈ w ∨ w = []
      · exact if_pos hw
      · obtain ⟨h0, hne⟩ := not_or.mp hw
        obtain ⟨t, ht⟩ := (hnone.resolve_left h0).resolve_left hne
        rw [acceptedMsg_eq h0 hne, ht]
    simp [this]
  · have hne : w ≠ [] := by
      rintro rfl
      cases hg
    obtain ⟨obs, ht, -, hobs⟩ := hout.trace
    have hquiet : obs.filterMap Obs.handledMsg = [] := by
      apply List.filterMap_eq_nil_iff.mpr
      intro o ho
      rcases hobs o ho with ⟨r, rfl⟩ | ⟨_, _, _, rfl, -⟩ <;> rfl
    rw [acceptedMsg_eq h0 hne, hg, ht, List.filterMap_append, hquiet]
    simp [Bot.observe, Obs.handledMsg]

private theorem processLines_handledMsgs {env : Env} {opts : Options} {ws : List Bytes}
    {bot bot' : Bot} (h : processLines env opts ws bot = .ok bot') :
    bot'.handledMsgs = bot.handledMsgs ++ ws.filterMap acceptedMsg := by
  induction ws generalizing bot with
  | nil =>
    cases h
    simp
  | cons w ws ih =>
    cases hw : processLine env opts w bot with
    | error e =>
      rw [processLines, hw] at h
      cases h
    | ok bot₁ =>
      rw [processLines, hw] at h
      rw [ih h, processLine_handledMsgs hw, List.append_assoc]
      cases hacc : acceptedMsg w <;> simp [hacc]

theorem processLines_total (env : Env) {opts : Options}
    (hexit : opts.exitOnInvalidMsg = false) (ws : List Bytes) (bot : Bot) :
    ∃ bot', processLines env opts ws bot = .ok bot' := by
  induction ws generalizing bot with
  | nil => exact ⟨bot, rfl⟩
  | cons w ws ih =>
    obtain ⟨bot₁, h₁⟩ := processLine_total env hexit w bot
    obtain ⟨bot', h'⟩ := ih bot₁
    exact ⟨bot', by rw [processLines, h₁]; exact h'⟩

/-- A run of `process_msgs`, once for each chunk that `recv` delivers; `got` is
the stream so far. -/
inductive Fed {pageSize : Nat} (env : Env) (opts : Options) (page : Mem (.mirror pageSize))
    (bot₀ : Bot) : (got : Bytes) → ReadBuf pageSize → Bot → Prop where
  | init : Fed env opts page bot₀ [] ⟨page, 0, 0⟩ bot₀
  | recv {got chunk : Bytes} {rb rb' : ReadBuf pageSize} {bot bot' : Bot} :
      Fed env opts page bot₀ got rb bot → 0 < chunk.length →
      chunk.length ≤ pageSize - (rb.finish - rb.start) →
      rb.processMsgs env opts (.data chunk) bot = .ok (some (rb', bot')) →
      Fed env opts page bot₀ (got ++ chunk) rb' bot'

section Stream
variable {pageSize : Nat} {env : Env} {opts : Options} {page : Mem (.mirror pageSize)}
  {bot₀ bot : Bot} {got : Bytes} {rb : ReadBuf pageSize}

private theorem Fed.inv (h : Fed env opts page bot₀ got rb bot) :
    rb.Unread (pieces isEol got).2 ∧ rb.start ≤ pageSize ∧
      bot.handledMsgs = bot₀.handledMsgs ++ messages got := by
  induction h with
  | init => exact ⟨⟨rfl, Nat.zero_le _, Nat.zero_le _, trivial⟩, Nat.zero_le _, by simp [messages, pieces]⟩
  | @recv got chunk rb rb' bot bot' _ hpos hroom hrun ih =>
    obtain ⟨hun, hs, hmsgs⟩ := ih
    have hrecv : (Recv.data chunk).AtMost (pageSize - (rb.finish - rb.start)) := hroom
    obtain ⟨_, ⟨rfl⟩, hlines, hun', hs'⟩ := ReadBuf.processMsgs_some hun hs hrecv hrun
    rw [messages, pieces_append]
    refine ⟨hun', hs', ?_⟩
    rw [processLines_handledMsgs hlines, hmsgs, List.filterMap_append, List.append_assoc]
    rfl

/-- Framing is independent of how the stream is cut into chunks: the messages
handled are those of the whole stream, its unterminated end is unread, and the
one way to stop is the exit when that end fills the page. -/
theorem process_msgs_independent_of_chunks (hexit : opts.exitOnInvalidMsg = false)
    (h : Fed env opts page bot₀ got rb bot) :
    bot.handledMsgs = bot₀.handledMsgs ++ messages got ∧
    rb.buf.slice rb.start (rb.finish - rb.start) = (pieces isEol got).2 ∧
    (pieces isEol got).2.length ≤ pageSize ∧
    ∀ recv : Recv, recv.AtMost (pageSize - (rb.finish - rb.start)) →
      (rb.processMsgs env opts recv bot = .error ReadBuf.overlong ↔
        (pieces isEol got).2.length = pageSize) ∧
      ((pieces isEol got).2.length ≠ pageSize →
        ∃ res, rb.processMsgs env opts recv bot = .ok res ∧ (res = none ↔ recv = .closed)) := by
  obtain ⟨hun, hs, hmsgs⟩ := h.inv
  have hf := hun.finish
  have hp := hun.page
  have hlen : rb.finish - rb.start = (pieces isEol got).2.length := by omega
  refine ⟨hmsgs, by rw [hlen]; exact slice_of_holds hun.holds, hp, fun recv hrecv => ?_⟩
  have hstop : (pieces isEol got).2.length = pageSize →
      rb.processMsgs env opts recv bot = .error ReadBuf.overlong := by
    intro hfull
    unfold ReadBuf.processMsgs ReadBuf.recvMsgs
    simp only [hun.sane, bind, Except.bind, hlen, if_pos hfull]
    rfl
  have hgo : (pieces isEol got).2.length ≠ pageSize →
      ∃ res, rb.processMsgs env opts recv bot = .ok res ∧ (res = none ↔ recv = .closed) := by
    intro hfull
    cases recv with
    | closed =>
      refine ⟨none, ?_, by simp⟩
      unfold ReadBuf.processMsgs ReadBuf.recvMsgs
      simp only [hun.sane, bind, Except.bind, hlen, if_neg hfull]
      rfl
    | data chunk =>
      have hstep := @ReadBuf.processMsgs_run _ _ _ env opts chunk bot hun hs
        (by have : chunk.length ≤ _ := hrecv; omega)
      obtain ⟨bot', hbot'⟩ := processLines_total env hexit
        (pieces isEol ((pieces isEol got).2 ++ chunk)).1 bot
      rw [if_neg hfull, hbot'] at hstep
      obtain ⟨rb', hrun, -⟩ := hstep
      exact ⟨_, hrun, by simp⟩
  refine ⟨⟨fun herr => ?_, hstop⟩, hgo⟩
  by_contra hfull
  obtain ⟨res, hres, -⟩ := hgo hfull
  rw [herr] at hres
  cases hres

/-- A message in two chunks, the second with the start of another. -/
theorem ping_in_two_chunks : ∃ (rb : ReadBuf 512) (bot : Bot),
    Fed (.still 1 (by decide)) .default ⟨fun _ => 0⟩ .new
      (ascii "PI" ++ ascii "NG :x\r\nPAR") rb bot ∧
    bot.handledMsgs = [⟨none, none, none, none, ascii "PING", [ascii "x"]⟩] := by
  have next : ∀ {got : Bytes} {rb : ReadBuf 512} {bot : Bot} (chunk : Bytes),
      Fed (.still 1 (by decide)) .default ⟨fun _ => 0⟩ .new got rb bot → 0 < chunk.length →
      (pieces isEol got).2.length + chunk.length < 512 → ∃ (rb' : ReadBuf 512) (bot' : Bot),
      Fed (.still 1 (by decide)) .default ⟨fun _ => 0⟩ .new (got ++ chunk) rb' bot' := by
    intro got rb bot chunk h hpos hroom
    obtain ⟨-, hslice, -, hrecv⟩ := process_msgs_independent_of_chunks rfl h
    have hlen := congrArg List.length hslice
    rw [length_slice] at hlen
    have hfits : chunk.length ≤ 512 - (rb.finish - rb.start) := by omega
    obtain ⟨res, hres, hnone⟩ := (hrecv (.data chunk) hfits).2 (by omega)
    cases res with
    | none => simp at hnone
    | some next => exact ⟨_, _, h.recv hpos hfits hres⟩
  obtain ⟨rb₁, bot₁, h₁⟩ := next (ascii "PI") .init (by decide) (by decide)
  obtain ⟨rb₂, bot₂, h₂⟩ := next (ascii "NG :x\r\nPAR") h₁ (by decide) (by decide)
  refine ⟨rb₂, bot₂, h₂, (process_msgs_independent_of_chunks rfl h₂).1.trans ?_⟩
  decide

end Stream
end Botniklas
