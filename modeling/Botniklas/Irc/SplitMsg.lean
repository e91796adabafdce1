import Botniklas.Irc.Grammar

/-! The cursor loops compute the pure parser, and leave each part of the
decomposition as a string of its own. -/
namespace Botniklas.Irc
open Foundation Grammar Mem
variable {L : Layout}

section Access
variable (m : Mem L)

@[simp] theorem peek_run (cur : Nat) : (peek cur).run m = .ok (m.load cur) m := rfl

@[simp] theorem put_run (cur : Nat) (b : UInt8) : (put cur b).run m = .ok () (m.store cur b) := rfl

@[simp] theorem pure_run {α : Type} (a : α) : (pure a : Prog L α).run m = .ok a m := rfl

@[simp] theorem map_run {α β : Type} (f : α → β) (x : Prog L α) :
    (f <$> x).run m = match x.run m with
      | .ok a m' => .ok (f a) m'
      | .error e m' => .error e m' := by
  change EStateM.map f x m = _
  unfold EStateM.map EStateM.run
  cases x m <;> rfl

@[simp] theorem retInvalidMsg_run {α : Type} (e : Bool) (text : String) :
    (retInvalidMsg (L := L) (α := α) e text).run m = .error (rejection e text) m := rfl

theorem assertByte_run {cur : Nat} {c : UInt8} (h : m.load cur = c) :
    (assertByte cur c).run m = .ok () m := by
  simp [assertByte, h]

end Access

section Strings
variable {m : Mem L} {p : Nat} {w : Bytes}

/-- The byte on which a search for `c` ends. -/
private theorem holds_search (c : UInt8) (hm : m.CStr p w) :
    ∃ b, m.Holds p (before c w ++ [b]) ∧
      ((after c w = [] ∧ b = nul) ∨ ((∃ r, after c w = c :: r) ∧ b = c)) := by
  have hh := hm.1
  rw [← before_append_after c w, List.append_assoc] at hh
  rcases after_cases c w with ha | ⟨r, ha⟩
  · exact ⟨nul, by simpa [ha] using hh, .inl ⟨ha, rfl⟩⟩
  · refine ⟨c, ?_, .inr ⟨⟨r, ha⟩, rfl⟩⟩
    rw [ha, List.cons_append, ← List.singleton_append, ← List.append_assoc, holds_append] at hh
    exact hh.1

theorem load_search (c : UInt8) (hm : m.CStr p w) :
    m.load (p + (before c w).length) = if after c w = [] then nul else c := by
  obtain ⟨b, hb, ⟨ha, rfl⟩ | ⟨⟨r, ha⟩, rfl⟩⟩ := holds_search c hm <;>
    simpa [ha] using ((holds_append _ _ _ _).mp hb).2

theorem cstr_after (c : UInt8) (hm : m.CStr p w) :
    m.CStr (p + (before c w).length) (after c w) :=
  CStr.drop (by rwa [before_append_after])

private theorem skipTo_search (stop : UInt8 → Bool) (c : UInt8) (hm : m.CStr p w)
    (hp : p + w.length < L.size) (hu : ∀ b, b ≠ c → b ≠ nul → stop b = false)
    (hc : stop c = true) (h0 : stop nul = true) :
    (skipTo stop p).run m = .ok (p + (before c w).length) m := by
  obtain ⟨b, hb, hstop⟩ := holds_search c hm
  have hs : stop b = true := by rcases hstop with ⟨_, rfl⟩ | ⟨_, rfl⟩ <;> assumption
  have hlen := length_before_add c w
  have hpass : ∀ x ∈ before c w, stop x = false := by
    intro x hx
    apply hu x
    · rintro rfl
      exact not_mem_before _ _ hx
    · rintro rfl
      exact hm.2 (mem_of_mem_before hx)
  have hf := find_eq m stop hb hpass hs (by omega)
  simp only [skipTo, EStateM.run, hf]

theorem skipWord_run (hm : m.CStr p w) (hp : p + w.length < L.size) :
    (skipTo wordEnd p).run m = .ok (p + (before space w).length) m :=
  skipTo_search _ _ hm hp (by simp +contextual [wordEnd]) (by simp [wordEnd]) (by simp [wordEnd])

theorem strchr_run (c : UInt8) (hm : m.CStr p w) (hp : p + w.length < L.size) (hc : c ≠ nul) :
    (strchr p c).run m =
      .ok (if after c w = [] then none else some (p + (before c w).length)) m := by
  have hskip := skipTo_search (fun b => b = c || b = nul) c hm hp (by simp +contextual)
    (by simp) (by simp)
  simp only [strchr, EStateM.run_bind, hskip, peek_run, load_search c hm]
  rcases after_cases c w with ha | ⟨r, ha⟩
  · simp [ha, Ne.symm hc]
  · simp [ha]

end Strings

/-! The four parts of `split_msg`. -/

theorem extractMsgPrefix_run {m : Mem L} {p : Nat} {w : Bytes} (e : Bool) (hm : m.CStr p w)
    (hd : L.Distinct p (p + w.length + 1)) (hp : p + w.length < L.size) :
    match parsePrefix w with
    | .error t => (extractMsgPrefix e p).run m = .error (rejection e t) m
    | .ok (none, rest) => rest = w ∧ (extractMsgPrefix e p).run m = .ok (p, none) m
    | .ok (some P, rest) => ∃ m', w.length = P.length + 2 + rest.length ∧
        (extractMsgPrefix e p).run m = .ok (p + P.length + 2, some (p + 1)) m' ∧
        Within p (p + w.length + 1) m m' ∧ m'.CStr (p + 1) P ∧ m'.CStr (p + P.length + 2) rest := by
  unfold extractMsgPrefix
  cases w with
  | nil => simp [parsePrefix, hm.1.1]
  | cons b r =>
    have hb : m.load p = b := hm.1.1
    have hr : m.CStr (p + 1) r := CStr.drop (a := [b]) hm
    simp only [List.length_cons] at hd hp
    have hskip := skipWord_run hr (by omega)
    have hload := load_search space hr
    by_cases hcol : b = colon
    · simp only [parsePrefix, hcol, ne_eq, not_true_eq_false, if_false]
      rcases cut_cases space r with hr0 | ⟨P, rest, rfl, hP⟩
      · rw [before_of_not_mem hr0] at hskip hload ⊢
        rw [after_of_not_mem hr0] at hload ⊢
        split_ifs with hnil
        · simp [hb, hcol, hskip, hnil]
        · simp [hb, hcol, hskip, hload, hnil]
      · rw [before_append_cons hP] at hskip hload ⊢
        rw [after_append_cons hP] at hload ⊢
        split_ifs with hnil
        · simp [hb, hcol, hskip, hnil]
        · obtain ⟨hcP, hcr⟩ := hr.cut (hd.mono (by omega) (by omega))
          simp only [List.length_append, List.length_cons]
          refine ⟨m.store (p + 1 + P.length) nul, by omega, ?_,
            within_store m _ (by omega) (by omega), hcP, ?_⟩
          · have hassert := assertByte_run m (show m.load (p + 1 + P.length) = space by simpa using hload)
            simp [hb, hcol, hskip, hassert, hload, hnil]
            omega
          · rwa [show p + P.length + 2 = p + 1 + P.length + 1 by omega]
    · simp [parsePrefix, hb, hcol]

/-- An optional pointer with the string it names. -/
def place : Option Nat → Option Bytes → List (Nat × Bytes)
  | some p, some s => [(p, s)]
  | _, _ => []

/-- The pointers of `msg` read as the strings of `v`, which stand one after the
other inside the window. -/
structure Reads (m : Mem L) (lo hi : Nat) (msg : IrcMsg) (v : MsgView) : Prop where
  placed : m.Placed hi lo (place msg.pfx v.pfx ++ place msg.user v.user ++ place msg.host v.host ++
    (msg.cmd, v.cmd) :: msg.params.zip v.params)
  pfx : msg.pfx.isSome = v.pfx.isSome
  user : msg.user.isSome = v.user.isSome
  host : msg.host.isSome = v.host.isSome
  nick : (msg.nick = none ∧ v.nick = none) ∨ (msg.nick = msg.pfx ∧ v.nick = v.pfx)
  params : msg.params.length = v.params.length

theorem extractPrefixComponents_run {m : Mem L} {p : Nat} {g : Grammar} {P : Bytes}
    (hg : g.pfx = some P) (hm : m.CStr p P) (hd : L.Distinct p (p + P.length + 1))
    (hp : p + P.length < L.size) :
    ∃ nick user host m',
      (extractPrefixComponents (some p)).run m = .ok (nick, user, host) m' ∧
      Within p (p + P.length + 1) m m' ∧
      m'.Placed (p + P.length + 1) p
        (place (some p) g.view.pfx ++ place user g.view.user ++ place host g.view.host) ∧
      g.view.pfx.isSome ∧ user.isSome = g.view.user.isSome ∧ host.isSome = g.view.host.isSome ∧
      ((nick = none ∧ g.view.nick = none) ∨ (nick = some p ∧ g.view.nick = g.view.pfx)) := by
  have hfind := strchr_run bang hm hp (by decide)
  unfold extractPrefixComponents
  rcases cut_cases bang P with h0 | ⟨N, u, rfl, hN⟩
  · rw [after_of_not_mem h0] at hfind
    refine ⟨none, none, none, m, by simp [hfind], .refl _ _ _, ?_⟩
    simp [view, hg, after_of_not_mem h0, place, Placed, hm]
  · rw [after_append_cons hN, before_append_cons hN] at hfind
    obtain ⟨hcN, hcu⟩ := hm.cut hd
    simp only [List.length_append, List.length_cons] at hd hp ⊢
    have hw : Within p (p + (N.length + (u.length + 1)) + 1) m (m.store (p + N.length) nul) :=
      within_store m nul (by omega) (by omega)
    have hat := strchr_run atSign hcu (by omega) (by decide)
    rcases cut_cases atSign u with h1 | ⟨U, H, rfl, hU⟩
    · rw [after_of_not_mem h1] at hat
      refine ⟨some p, some (p + N.length + 1), none, m.store (p + N.length) nul,
        by simp [hfind, hat], hw, ?_⟩
      simp only [view, hg, after_append_cons hN, before_append_cons hN, after_of_not_mem h1,
        before_of_not_mem h1, place]
      refine ⟨⟨le_rfl, hcN, le_rfl, hcu, ?_⟩, rfl, rfl, rfl, .inr ⟨trivial, trivial⟩⟩
      change p + N.length + 1 + u.length + 1 ≤ _
      omega
    · rw [after_append_cons hU, before_append_cons hU] at hat
      simp only [List.length_append, List.length_cons] at hd hp hw ⊢
      obtain ⟨hcU, hcH⟩ := hcu.cut (hd.mono (by omega) (by simp; omega))
      have hw' : Within (p + N.length + 1) (p + (N.length + (U.length + (H.length + 1) + 1)) + 1)
          (m.store (p + N.length) nul)
          ((m.store (p + N.length) nul).store (p + N.length + 1 + U.length) nul) :=
        within_store _ nul (by omega) (by omega)
      refine ⟨some p, some (p + N.length + 1), some (p + N.length + 1 + U.length + 1),
        (m.store (p + N.length) nul).store (p + N.length + 1 + U.length) nul,
        by simp [hfind, hat], hw.trans (hw'.mono (by omega) le_rfl), ?_⟩
      have hcN' := hw'.cstr hd (by omega) le_rfl le_rfl (by omega) (by omega) hcN
      simp only [view, hg, after_append_cons hN, before_append_cons hN, after_append_cons hU,
        before_append_cons hU, place]
      refine ⟨⟨le_rfl, hcN', le_rfl, hcU, le_rfl, hcH, ?_⟩, rfl, rfl, rfl, .inr ⟨trivial, trivial⟩⟩
      change p + N.length + 1 + U.length + 1 + H.length + 1 ≤ _
      omega

/-- What the loop over the parameters makes of `w` at `p`: the rejection of the
pure parser, or its parameters behind those found before. -/
def ParamsRun (e : Bool) (room : Nat) (m : Mem L) (p : Nat) (params : List Nat) (w : Bytes) : Prop :=
  match parseParams room w with
  | .error t => ∃ m', (extractMsgParams e room p params).run m = .error (rejection e t) m' ∧
      Within p (p + w.length + 1) m m'
  | .ok (ms, t) => ∃ qs m', (extractMsgParams e room p params).run m = .ok (params ++ qs) m' ∧
      Within p (p + w.length + 1) m m' ∧ m'.load p = nul ∧
      qs.length = (ms ++ t.toList).length ∧
      m'.Placed (p + w.length + 1) (p + 1) (qs.zip (ms ++ t.toList))

private theorem paramsRun_nil (e : Bool) (room : Nat) {m : Mem L} {p : Nat} (params : List Nat)
    (hm : m.CStr p []) : ParamsRun e room m p params [] := by
  have h0 : m.load p = nul := hm.1.1
  unfold ParamsRun extractMsgParams
  cases room <;>
    exact ⟨[], m, by simp [h0], .refl _ _ _, h0, rfl, by simp [Placed]⟩

/-- A parameter that is a word: its end is closed by the turns that follow. -/
private theorem ParamsRun.word {e : Bool} {room : Nat} {m : Mem L} {p : Nat} {params : List Nat}
    {b : UInt8} {t : Bytes} (hsp : m.load p = space) (hr : (m.store p nul).CStr (p + 1) (b :: t))
    (hd : L.Distinct p (p + (t.length + 2) + 1)) (hp : p + (t.length + 2) < L.size)
    (hbs : b ≠ space) (hbc : b ≠ colon)
    (h : ParamsRun e room (m.store p nul) (p + 1 + (before space (b :: t)).length)
      (params ++ [p + 1]) (after space (b :: t))) :
    ParamsRun e (room + 1) m p params (space :: b :: t) := by
  have hstore : Within p (p + (t.length + 2) + 1) m (m.store p nul) :=
    within_store m nul le_rfl (by omega)
  have hassert := assertByte_run m hsp
  have hb : (m.store p nul).load (p + 1) = b := hr.1.1
  have hbn : b ≠ nul := fun he => hr.2 (by simp [he])
  have hskip := skipWord_run hr (by simp; omega)
  have hcut := before_append_after space (b :: t)
  have hlen := length_before_add space (b :: t)
  have hrun : ∀ B, before space (b :: t) = B → (extractMsgParams e (room + 1) p params).run m =
      (extractMsgParams e room (p + 1 + B.length) (params ++ [p + 1])).run (m.store p nul) := by
    rintro B rfl
    rw [extractMsgParams]
    simp [hsp, hassert, hb, hbs, hbn, hbc, hskip]
  unfold ParamsRun at h ⊢
  simp only [parseParams, if_neg hbs, if_neg hbc, List.length_cons]
  generalize before space (b :: t) = B at *
  generalize after space (b :: t) = A at *
  simp only [List.length_cons] at hlen
  rw [hrun B rfl]
  cases hparse : parseParams room A with
  | error t =>
    rw [hparse] at h
    obtain ⟨m', hm', hwi⟩ := h
    exact ⟨m', hm', hstore.trans (hwi.mono (by omega) (by omega))⟩
  | ok res =>
    obtain ⟨ms, tr⟩ := res
    rw [hparse] at h
    obtain ⟨qs, m', hm', hwi, h0, hq, hpl⟩ := h
    have hB : m'.CStr (p + 1) B :=
      hr.closed hcut (hd.mono (by omega) (by simp; omega)) (hwi.mono (by omega) (by simp; omega)) h0
    refine ⟨(p + 1) :: qs, m', by simpa using hm', hstore.trans (hwi.mono (by omega) (by omega)),
      ?_, by simp [hq], le_rfl, hB, ?_⟩
    · rw [hwi.load hd (by omega) (by omega) le_rfl (by omega) (by omega)]
      exact load_store_self _ _ _
    · rwa [show p + (t.length + 1 + 1) + 1 = p + 1 + B.length + A.length + 1 by omega]

theorem extractMsgParams_run (e : Bool) (room : Nat) {m : Mem L} {p : Nat} {w : Bytes}
    (params : List Nat) (hm : m.CStr p w) (hd : L.Distinct p (p + w.length + 1))
    (hp : p + w.length < L.size) (hw : w = [] ∨ ∃ r, w = space :: r) :
    ParamsRun e room m p params w := by
  induction room generalizing m p w params with
  | zero =>
    rcases hw with rfl | ⟨r, rfl⟩
    · exact paramsRun_nil e 0 params hm
    · unfold ParamsRun extractMsgParams
      exact ⟨m, by simp [hm.1.1], .refl _ _ _⟩
  | succ room ih =>
    rcases hw with rfl | ⟨r, rfl⟩
    · exact paramsRun_nil e (room + 1) params hm
    have hsp : m.load p = space := hm.1.1
    obtain ⟨-, hr⟩ := CStr.cut (a := []) hm hd
    simp only [List.length_nil, Nat.add_zero, List.length_cons] at hr hd hp
    have hstore : Within p (p + (r.length + 1) + 1) m (m.store p nul) :=
      within_store m nul le_rfl (by omega)
    have hassert := assertByte_run m hsp
    cases r with
    | nil =>
      unfold ParamsRun extractMsgParams
      exact ⟨m.store p nul, by simp [hsp, hassert, hr.1.1], hstore⟩
    | cons b t =>
      have hb : (m.store p nul).load (p + 1) = b := hr.1.1
      have hbn : b ≠ nul := fun he => hr.2 (by simp [he])
      by_cases hbs : b = space
      · unfold ParamsRun extractMsgParams
        simp only [parseParams, if_pos hbs]
        exact ⟨m.store p nul, by simp_all, hstore⟩
      by_cases hbc : b = colon
      · unfold ParamsRun extractMsgParams
        simp only [parseParams, if_neg hbs, if_pos hbc]
        refine ⟨[p + 1 + 1], m.store p nul, by simp_all, hstore, load_store_self _ _ _, rfl, ?_⟩
        exact ⟨by omega, CStr.drop (a := [b]) hr, by simp [Placed]; omega⟩
      · have hlen := length_before_add space (b :: t)
        exact .word hsp hr hd hp hbs hbc (ih _ (cstr_after space hr) (hd.mono (by omega) (by omega))
          (by omega) (after_cases _ _))

theorem extractMsgCmd_run (e : Bool) {m : Mem L} {p : Nat} {w : Bytes} (hm : m.CStr p w)
    (hp : p + w.length < L.size) :
    (extractMsgCmd e p).run m = match parseCmd w with
      | .error t => .error (rejection e t) m
      | .ok (cmd, _) => .ok (p + cmd.length, p) m := by
  have hskip := skipWord_run hm hp
  unfold extractMsgCmd parseCmd
  by_cases hnil : before space w = []
  · rw [if_pos hnil]
    simp [hskip, hnil]
  · rw [if_neg hnil]
    simp [hskip, hnil]

/-- The command and the parameters, from the cursor past the prefix. -/
private theorem cmdParams_run (e : Bool) {m : Mem L} {p : Nat} {w : Bytes} (hm : m.CStr p w)
    (hd : L.Distinct p (p + w.length + 1)) (hp : p + w.length < L.size) :
    match parseCmd w with
    | .error t => (extractMsgCmd e p).run m = .error (rejection e t) m
    | .ok (cmd, rest) => (extractMsgCmd e p).run m = .ok (p + cmd.length, p) m ∧
      match parseParams maxParams rest with
      | .error t => ∃ m', (extractMsgParams e maxParams (p + cmd.length) []).run m =
          .error (rejection e t) m' ∧ Within p (p + w.length + 1) m m'
      | .ok (ms, t) => ∃ qs m', (extractMsgParams e maxParams (p + cmd.length) []).run m =
          .ok qs m' ∧ Within p (p + w.length + 1) m m' ∧ qs.length = (ms ++ t.toList).length ∧
          m'.Placed (p + w.length + 1) p ((p, cmd) :: qs.zip (ms ++ t.toList)) := by
  have hcmd := extractMsgCmd_run e hm hp
  cases hparse : parseCmd w with
  | error t => rw [hcmd, hparse]
  | ok res =>
    obtain ⟨cmd, rest⟩ := res
    obtain ⟨rfl, -, hrest⟩ := (parseCmd_ok_iff _ _ _).mp hparse
    simp only [List.length_append] at hd hp ⊢
    refine ⟨by rw [hcmd, hparse], ?_⟩
    have hpar := extractMsgParams_run e maxParams [] (CStr.drop hm) (hd.mono (by omega) (by omega))
      (by omega) hrest
    unfold ParamsRun at hpar
    split at hpar
    · obtain ⟨m', hm', hwi⟩ := hpar
      exact ⟨m', hm', hwi.mono (by omega) (by omega)⟩
    · obtain ⟨qs, m', hm', hwi, h0, hq, hpl⟩ := hpar
      refine ⟨qs, m', hm', hwi.mono (by omega) (by omega), by simpa using hq, le_rfl, ?_, ?_⟩
      · refine hm.closed rfl ?_ ?_ h0
        · rwa [List.length_append]
        · rw [List.length_append]
          exact hwi.mono (by omega) (by omega)
      · rwa [show p + (cmd.length + rest.length) + 1 = p + cmd.length + rest.length + 1 by omega]

/-- The prefix and its components together: what is left is the string at the
new cursor, and the parts of the prefix stand before it. -/
private theorem prefix_run (e : Bool) {m : Mem L} {p : Nat} {w : Bytes} (hm : m.CStr p w)
    (hd : L.Distinct p (p + w.length + 1)) (hp : p + w.length < L.size) :
    match parsePrefix w with
    | .error t => (extractMsgPrefix e p).run m = .error (rejection e t) m
    | .ok (P, rest) => ∃ q pfx nick user host m₁ m₂,
        (extractMsgPrefix e p).run m = .ok (q, pfx) m₁ ∧
        (extractPrefixComponents pfx).run m₁ = .ok (nick, user, host) m₂ ∧
        Within p (p + w.length + 1) m m₂ ∧ m₂.CStr q rest ∧ p ≤ q ∧
        q + rest.length = p + w.length ∧
        ∀ g : Grammar, g.pfx = P →
          m₂.Placed q p (place pfx g.view.pfx ++ place user g.view.user ++ place host g.view.host) ∧
          pfx.isSome = g.view.pfx.isSome ∧ user.isSome = g.view.user.isSome ∧
          host.isSome = g.view.host.isSome ∧
          ((nick = none ∧ g.view.nick = none) ∨ (nick = pfx ∧ g.view.nick = g.view.pfx)) := by
  have hpre := extractMsgPrefix_run e hm hd hp
  split at hpre
  · rename_i h
    rwa [h]
  · rename_i rest h
    rw [h]
    obtain ⟨rfl, hpre⟩ := hpre
    refine ⟨p, none, none, none, none, m, m, hpre, rfl, .refl _ _ _, hm, le_rfl, rfl, ?_⟩
    intro g hg
    simp [view, hg, place, Placed]
  · rename_i P rest h
    rw [h]
    obtain ⟨m₁, hlen, hpre, hwi₁, hP, hr⟩ := hpre
    obtain ⟨nick, user, host, m₂, hcomp, hwi₂, -⟩ := extractPrefixComponents_run
      (g := ⟨some P, [], [], none⟩) rfl hP (hd.mono (by omega) (by omega)) (by omega)
    refine ⟨p + P.length + 2, some (p + 1), nick, user, host, m₁, m₂, hpre, hcomp,
      hwi₁.trans (hwi₂.mono (by omega) (by omega)), ?_, by omega, by omega, ?_⟩
    · exact hwi₂.cstr hd (by omega) (by omega) (by omega) (by omega) (by omega) hr
    · intro g hg
      obtain ⟨nick', user', host', m₂', hcomp', -, hpl, hs₁, hs₂, hs₃, hn⟩ :=
        extractPrefixComponents_run hg hP (hd.mono (by omega) (by omega)) (by omega)
      rw [hcomp] at hcomp'
      cases hcomp'
      refine ⟨?_, hs₁.symm, hs₂, hs₃, hn⟩
      rw [show p + P.length + 2 = p + 1 + P.length + 1 by omega]
      exact hpl.mono (by omega)

/-- `split_msg` on a string in memory is the pure parser: the same rejections,
and on success pointers that read as the decomposition. Only the bytes of the
string are written. -/
theorem splitMsg_run (e : Bool) {m : Mem L} {p : Nat} {w : Bytes} (hm : m.CStr p w)
    (hd : L.Distinct p (p + w.length + 1)) (hp : p + w.length < L.size) :
    match parseMsg w with
    | .error t => ∃ m', (splitMsg e p).run m = .error (rejection e t) m' ∧
        Within p (p + w.length + 1) m m'
    | .ok g => ∃ msg m', (splitMsg e p).run m = .ok msg m' ∧ Within p (p + w.length + 1) m m' ∧
        Reads m' p (p + w.length + 1) msg g.view := by
  have hpre := prefix_run e hm hd hp
  unfold splitMsg parseMsg
  cases h₁ : parsePrefix w with
  | error t =>
    rw [h₁] at hpre
    dsimp only
    exact ⟨m, by simp [hpre], .refl _ _ _⟩
  | ok res =>
    obtain ⟨P, rest⟩ := res
    rw [h₁] at hpre
    obtain ⟨q, pfx, nick, user, host, m₁, m₂, hpre, hcomp, hwi, hr, hq, hlen, hview⟩ := hpre
    have hrest := cmdParams_run e hr (hd.mono hq (by omega)) (by omega)
    cases h₂ : parseCmd rest with
    | error t =>
      rw [h₂] at hrest
      simp only [h₂]
      exact ⟨m₂, by simp [hpre, hcomp, hrest], hwi⟩
    | ok res =>
      obtain ⟨cmd, w₂⟩ := res
      rw [h₂] at hrest
      obtain ⟨hcmd, hpar⟩ := hrest
      cases h₃ : parseParams maxParams w₂ with
      | error t =>
        rw [h₃] at hpar
        obtain ⟨m', hm', hwi'⟩ := hpar
        simp only [h₂, h₃]
        exact ⟨m', by simp [hpre, hcomp, hcmd, hm'], hwi.trans (hwi'.mono hq (by omega))⟩
      | ok res =>
        obtain ⟨ms, t⟩ := res
        rw [h₃] at hpar
        obtain ⟨qs, m', hm', hwi', hqs, hpl⟩ := hpar
        obtain ⟨hpl₁, hs₁, hs₂, hs₃, hn⟩ := hview ⟨P, cmd, ms, t⟩ rfl
        have hcmd' : (Grammar.view ⟨P, cmd, ms, t⟩).cmd = cmd := view_cmd _
        have hparams : (Grammar.view ⟨P, cmd, ms, t⟩).params = ms ++ t.toList := view_params _
        have hkeep : ∀ i, p ≤ i → i < q → m'.load i = m₂.load i := fun i hi hi' =>
          hwi'.load hd hq (by omega) hi (by omega) (.inl hi')
        simp only [h₂, h₃]
        refine ⟨⟨pfx, nick, user, host, q, qs⟩, m', by simp [hpre, hcomp, hcmd, hm'],
          hwi.trans (hwi'.mono hq (by omega)), ?_, hs₁, hs₂, hs₃, hn, by rwa [hparams]⟩
        rw [hcmd', hparams]
        refine (hpl₁.congr hkeep).append ?_
        rwa [show q + rest.length + 1 = p + w.length + 1 by omega] at hpl

/-! Reading the pointers back. -/

namespace Reads
variable {m : Mem L} {lo hi : Nat} {msg : IrcMsg} {v : MsgView}

private theorem cstr_of_mem (h : Reads m lo hi msg v) (hs : hi ≤ L.size) {p : Nat} {s : Bytes}
    (hp : (p, s) ∈ place msg.pfx v.pfx ++ place msg.user v.user ++ place msg.host v.host ++
      (msg.cmd, v.cmd) :: msg.params.zip v.params) : m.cstr p = s := by
  obtain ⟨hc, -, hlt⟩ := h.placed.mem hp
  exact cstr_eq hc (by omega)

private theorem map_of_place {a : Option Nat} {b : Option Bytes} (hs : a.isSome = b.isSome)
    (h : ∀ p s, (p, s) ∈ place a b → m.cstr p = s) : a.map m.cstr = b := by
  cases a <;> cases b <;> simp_all [place]

private theorem map_of_zip {ps : List Nat} {ss : List Bytes} (hl : ps.length = ss.length)
    (h : ∀ x ∈ ps.zip ss, m.cstr x.1 = x.2) : ps.map m.cstr = ss := by
  induction ps generalizing ss with
  | nil => simpa [eq_comm] using hl
  | cons p ps ih =>
    cases ss with
    | nil => cases hl
    | cons s ss =>
      simp only [List.zip_cons_cons, List.mem_cons, forall_eq_or_imp] at h
      simp [h.1, ih (by simpa using hl) h.2]

theorem view_eq (h : Reads m lo hi msg v) (hs : hi ≤ L.size) : msg.view m = v := by
  have hpfx : msg.pfx.map m.cstr = v.pfx :=
    map_of_place h.pfx fun p s hp => h.cstr_of_mem hs (by simp [hp])
  have huser : msg.user.map m.cstr = v.user :=
    map_of_place h.user fun p s hp => h.cstr_of_mem hs (by simp [hp])
  have hhost : msg.host.map m.cstr = v.host :=
    map_of_place h.host fun p s hp => h.cstr_of_mem hs (by simp [hp])
  have hparams : msg.params.map m.cstr = v.params :=
    map_of_zip h.params fun x hx => h.cstr_of_mem hs (by simp [hx])
  have hnick : msg.nick.map m.cstr = v.nick := by
    rcases h.nick with ⟨h₁, h₂⟩ | ⟨h₁, h₂⟩
    · rw [h₁, h₂]
      rfl
    · rw [h₁, h₂, hpfx]
  have hcmd : m.cstr msg.cmd = v.cmd := h.cstr_of_mem hs (by simp)
  simp only [IrcMsg.view, hpfx, hnick, huser, hhost, hcmd, hparams]

/-- The second parameter, with what stands before it in memory. -/
theorem second (h : Reads m lo hi msg v) (hs : hi ≤ L.size) {a t : Bytes} {rest : List Bytes}
    (hv : v.params = a :: t :: rest) :
    ∃ pa p, msg.params[0]? = some pa ∧ msg.params[1]? = some p ∧ lo ≤ p ∧ p + t.length < hi ∧
      m.CStr p t ∧ ∀ m' : Mem L, (∀ i, lo ≤ i → i < p → m'.load i = m.load i) →
        m'.cstr pa = a ∧ msg.pfx.map m'.cstr = v.pfx := by
  have hlen := h.params
  rw [hv] at hlen
  obtain ⟨pa, p, ps, hp⟩ : ∃ pa p ps, msg.params = pa :: p :: ps := by
    match hmp : msg.params with
    | [] => simp [hmp] at hlen
    | [_] => simp [hmp] at hlen
    | pa :: p :: ps => exact ⟨pa, p, ps, rfl⟩
  have hpl := h.placed
  rw [hv, hp, List.zip_cons_cons, List.zip_cons_cons,
    show ∀ x y z : Nat × Bytes, ∀ l l' : List (Nat × Bytes),
      l ++ x :: y :: z :: l' = (l ++ [x, y]) ++ z :: l' by simp] at hpl
  obtain ⟨hbefore, hc, hafter⟩ := hpl.split
  refine ⟨pa, p, by simp [hp], by simp [hp], hbefore.le, hafter.le, hc, fun m' hkeep => ?_⟩
  have hpl' := hbefore.congr hkeep
  have hread : ∀ q s, (q, s) ∈ place msg.pfx v.pfx ++ place msg.user v.user ++
      place msg.host v.host ++ [(msg.cmd, v.cmd), (pa, a)] → m'.cstr q = s := by
    intro q s hq
    obtain ⟨hc', -, hlt⟩ := hpl'.mem hq
    exact cstr_eq hc' (by have := hafter.le; omega)
  exact ⟨hread pa a (by simp), map_of_place h.pfx fun q s hq => hread q s (by simp [hq])⟩

end Reads

/-- `split_msg` accepts exactly the strings the grammar describes, returns the
one decomposition there is, and meets only spaces where it asserts one. -/
theorem splitMsg_accepts_grammar (e : Bool) {m : Mem L} {p : Nat} {w : Bytes}
    (hm : m.CStr p w) (hd : L.Distinct p (p + w.length + 1)) (hp : p + w.length < L.size) :
    ((∃ msg m', (splitMsg e p).run m = .ok msg m') ↔ ∃ g : Grammar, g.Valid ∧ g.bytes = w) ∧
    (∀ g g' : Grammar, g.Valid → g.bytes = w → g'.Valid → g'.bytes = w → g = g') ∧
    (∀ g : Grammar, g.Valid → g.bytes = w →
      ∃ msg m', (splitMsg e p).run m = .ok msg m' ∧ msg.view m' = g.view) ∧
    (∀ m', (splitMsg e p).run m ≠ .error .assertion m') := by
  have hrun := splitMsg_run e hm hd hp
  refine ⟨?_, ?_, ?_, ?_⟩
  · cases h : parseMsg w with
    | error t =>
      rw [h] at hrun
      obtain ⟨m', hr, -⟩ := hrun
      constructor
      · rintro ⟨msg, m'', hok⟩
        rw [hr] at hok
        cases hok
      · rintro ⟨g, hg, hb⟩
        rw [(parseMsg_ok_iff w g).mpr ⟨hg, hb⟩] at h
        cases h
    | ok g =>
      rw [h] at hrun
      obtain ⟨msg, m', hr, -⟩ := hrun
      exact ⟨fun _ => ⟨g, (parseMsg_ok_iff w g).mp h⟩, fun _ => ⟨msg, m', hr⟩⟩
  · intro g g' hg hb hg' hb'
    have h := (parseMsg_ok_iff w g).mpr ⟨hg, hb⟩
    rw [(parseMsg_ok_iff w g').mpr ⟨hg', hb'⟩] at h
    exact (Except.ok.inj h).symm
  · intro g hg hb
    rw [(parseMsg_ok_iff w g).mpr ⟨hg, hb⟩] at hrun
    obtain ⟨msg, m', hr, -, hv⟩ := hrun
    exact ⟨msg, m', hr, hv.view_eq (by omega)⟩
  · intro m' hbad
    cases h : parseMsg w with
    | error t =>
      rw [h] at hrun
      obtain ⟨m'', hr, -⟩ := hrun
      rw [hr] at hbad
      cases e <;> simp [rejection] at hbad
    | ok g =>
      rw [h] at hrun
      obtain ⟨msg, m'', hr, -⟩ := hrun
      rw [hr] at hbad
      cases hbad

theorem cstr_ofString {w : Bytes} (hw : nul ∉ w) : (Mem.ofString w).CStr 0 w := by
  refine ⟨(holds_iff _ _ _).mpr fun i hi => ?_, hw⟩
  rw [Nat.zero_add]
  change (w ++ [nul]).getD i 0 = _
  rw [List.getD, List.getElem?_eq_getElem hi, Option.getD_some]

theorem splitMsg_accepts_privmsg : ∃ msg m',
    (splitMsg false 0).run (Mem.ofString (ascii ":al!u@h PRIVMSG #c :hi  you")) = .ok msg m' ∧
    msg.view m' = ⟨some (ascii "al"), some (ascii "al"), some (ascii "u"), some (ascii "h"),
      ascii "PRIVMSG", [ascii "#c", ascii "hi  you"]⟩ :=
  (splitMsg_accepts_grammar false (cstr_ofString (by decide)) (Layout.flat_distinct _ _ _)
    (by decide)).2.2.1 ⟨some (ascii "al!u@h"), ascii "PRIVMSG", [ascii "#c"], some (ascii "hi  you")⟩
    { pfx := fun p hp => by cases hp; exact ⟨by decide, by decide⟩
      cmd := ⟨by decide, by decide⟩
      cmdColon := fun h => by cases h
      middle := fun x hx => by cases List.mem_singleton.mp hx; exact ⟨⟨by decide, by decide⟩, by decide⟩
      count := by decide } (by decide)

end Botniklas.Irc
