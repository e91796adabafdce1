import Botniklas.Irc.Message
import Botniklas.Foundation.Split

/-! The message grammar, and the pure parser whose successes are exactly its
decompositions. -/
namespace Botniklas.Irc
open Foundation

/-- A decomposition: an optional prefix, the command, the middle parameters
and the optional trailing one. -/
structure Grammar where
  pfx : Option Bytes
  cmd : Bytes
  middle : List Bytes
  trailing : Option Bytes
  deriving DecidableEq, Repr

namespace Grammar

def prefixBytes : Option Bytes → Bytes
  | none => []
  | some p => colon :: p ++ [space]

def paramBytes (middle : List Bytes) (trailing : Option Bytes) : Bytes :=
  middle.flatMap (space :: ·) ++ match trailing with
    | none => []
    | some t => space :: colon :: t

def bytes (g : Grammar) : Bytes :=
  prefixBytes g.pfx ++ g.cmd ++ paramBytes g.middle g.trailing

def Word (w : Bytes) : Prop := w ≠ [] ∧ space ∉ w

def Middle (w : Bytes) : Prop := Word w ∧ w.head? ≠ some colon

def params (g : Grammar) : List Bytes := g.middle ++ g.trailing.toList

structure Valid (g : Grammar) : Prop where
  pfx : ∀ p ∈ g.pfx, Word p
  cmd : Word g.cmd
  cmdColon : g.pfx = none → g.cmd.head? ≠ some colon
  middle : ∀ w ∈ g.middle, Middle w
  count : g.params.length ≤ maxParams

/-- Nickname, username and host: the prefix is cut at its first '!', and what
follows at its first '@'. -/
def view (g : Grammar) : MsgView :=
  let v : MsgView := ⟨g.pfx, none, none, none, g.cmd, g.params⟩
  match g.pfx with
  | none => v
  | some p =>
    match after bang p with
    | [] => v
    | _ :: u =>
      { v with
        pfx := some (before bang p)
        nick := some (before bang p)
        user := some (before atSign u)
        host := match after atSign u with
          | [] => none
          | _ :: h => some h }

@[simp] theorem view_cmd (g : Grammar) : g.view.cmd = g.cmd := by
  unfold view
  split
  · rfl
  · split <;> rfl

@[simp] theorem view_params (g : Grammar) : g.view.params = g.params := by
  unfold view
  split
  · rfl
  · split <;> rfl

end Grammar

/-- Every byte of every string of the message satisfies `P`. -/
structure MsgView.All (P : UInt8 → Prop) (v : MsgView) : Prop where
  pfx : ∀ s ∈ v.pfx, ∀ b ∈ s, P b
  nick : ∀ s ∈ v.nick, ∀ b ∈ s, P b
  user : ∀ s ∈ v.user, ∀ b ∈ s, P b
  host : ∀ s ∈ v.host, ∀ b ∈ s, P b
  cmd : ∀ b ∈ v.cmd, P b
  params : ∀ s ∈ v.params, ∀ b ∈ s, P b

namespace Grammar

/-- The parts of a message are made of its bytes. -/
theorem view_all {P : UInt8 → Prop} (g : Grammar) (h : ∀ b ∈ g.bytes, P b) : g.view.All P := by
  have hcmd : ∀ b ∈ g.cmd, P b := fun b hb => h b (by simp [bytes, hb])
  have hparams : ∀ s ∈ g.params, ∀ b ∈ s, P b := by
    intro s hs b hb
    apply h b
    apply List.mem_append_right
    unfold paramBytes
    rcases List.mem_append.mp hs with hs | hs
    · exact List.mem_append_left _ (List.mem_flatMap.mpr ⟨s, hs, .tail _ hb⟩)
    · cases ht : g.trailing with
      | none => simp [ht] at hs
      | some t =>
        rw [ht, Option.toList_some, List.mem_singleton] at hs
        subst hs
        exact List.mem_append_right _ (.tail _ (.tail _ hb))
  have hpfx : ∀ p ∈ g.pfx, ∀ b ∈ p, P b := by
    intro p hp b hb
    refine h b (List.mem_append_left _ (List.mem_append_left _ ?_))
    rw [Option.mem_def.mp hp]
    exact .tail _ (List.mem_append_left _ hb)
  unfold view
  cases hp : g.pfx with
  | none => exact ⟨by simp, by simp, by simp, by simp, hcmd, hparams⟩
  | some p =>
    have hbytes := hpfx p hp
    cases ha : after bang p with
    | nil =>
      simp only [ha]
      exact ⟨by simpa using hbytes, by simp, by simp, by simp, hcmd, hparams⟩
    | cons c u =>
      have hu : ∀ b ∈ u, P b := fun b hb => hbytes b (mem_of_mem_after (by rw [ha]; exact .tail _ hb))
      have hnick : ∀ b ∈ before bang p, P b := fun b hb => hbytes b (mem_of_mem_before hb)
      have huser : ∀ b ∈ before atSign u, P b := fun b hb => hu b (mem_of_mem_before hb)
      simp only [ha]
      refine ⟨by simpa using hnick, by simpa using hnick, by simpa using huser, ?_, hcmd, hparams⟩
      cases hh : after atSign u with
      | nil => simp
      | cons d host =>
        have hhost : ∀ b ∈ host, P b := fun b hb =>
          hu b (mem_of_mem_after (by rw [hh]; exact .tail _ hb))
        simpa using hhost

end Grammar
open Grammar

def parsePrefix (w : Bytes) : Except String (Option Bytes × Bytes) :=
  match w with
  | [] => .ok (none, [])
  | b :: r =>
    if b ≠ colon then .ok (none, b :: r)
    else if before space r = [] then .error "empty prefix"
    else match after space r with
      | [] => .error "missing command after prefix"
      | _ :: rest => .ok (some (before space r), rest)

def parseCmd (w : Bytes) : Except String (Bytes × Bytes) :=
  if before space w = [] then .error "empty command" else .ok (before space w, after space w)

/-- Reads the parameters from the space before the first of them. -/
def parseParams : (room : Nat) → Bytes → Except String (List Bytes × Option Bytes)
  | _, [] => .ok ([], none)
  | 0, _ :: _ => .error "too many parameters"
  | room + 1, _ :: w =>
    match w with
    | [] => .error "empty parameter"
    | b :: t =>
      if b = space then .error "empty parameter"
      else if b = colon then .ok ([], some t)
      else match parseParams room (after space w) with
        | .error e => .error e
        | .ok (ms, t) => .ok (before space w :: ms, t)

def parseMsg (w : Bytes) : Except String Grammar :=
  match parsePrefix w with
  | .error e => .error e
  | .ok (pfx, w) =>
    match parseCmd w with
    | .error e => .error e
    | .ok (cmd, w) =>
      match parseParams maxParams w with
      | .error e => .error e
      | .ok (middle, trailing) => .ok ⟨pfx, cmd, middle, trailing⟩

/-! Soundness and completeness of each part. -/

theorem parsePrefix_ok_iff (w rest : Bytes) (pfx : Option Bytes) :
    parsePrefix w = .ok (pfx, rest) ↔
      w = prefixBytes pfx ++ rest ∧ (∀ p ∈ pfx, Word p) ∧
        (pfx = none → rest.head? ≠ some colon) := by
  constructor
  · intro h
    cases w with
    | nil =>
      obtain ⟨rfl, rfl⟩ := Prod.mk.inj (Except.ok.inj h)
      simp [prefixBytes]
    | cons b r =>
      simp only [parsePrefix] at h
      split_ifs at h with hb hne
      · obtain ⟨rfl, rfl⟩ := Prod.mk.inj (Except.ok.inj h)
        simpa [prefixBytes] using hb
      · split at h
        · cases h
        · rename_i c rest' ha
          obtain ⟨rfl, rfl⟩ := Prod.mk.inj (Except.ok.inj h)
          obtain rfl := head_after ha
          have hcut := before_append_after space r
          rw [ha] at hcut
          refine ⟨by simp_all [prefixBytes], fun p hp => ?_, fun hn => by cases hn⟩
          cases hp
          exact ⟨hne, not_mem_before _ _⟩
  · rintro ⟨rfl, hp, hc⟩
    cases pfx with
    | none =>
      cases rest with
      | nil => rfl
      | cons b rest =>
        have hb : b ≠ colon := fun he => hc rfl (by simp [he])
        simp [parsePrefix, prefixBytes, hb]
    | some p =>
      obtain ⟨hne, hsp⟩ := hp p rfl
      simp [parsePrefix, prefixBytes, before_append_cons hsp, after_append_cons hsp, hne]

theorem parseCmd_ok_iff (w cmd rest : Bytes) :
    parseCmd w = .ok (cmd, rest) ↔
      w = cmd ++ rest ∧ Word cmd ∧ (rest = [] ∨ ∃ r, rest = space :: r) := by
  constructor
  · intro h
    unfold parseCmd at h
    split at h
    · cases h
    · rename_i hne
      obtain ⟨rfl, rfl⟩ := Prod.mk.inj (Except.ok.inj h)
      exact ⟨(before_append_after _ _).symm, ⟨hne, not_mem_before _ _⟩, after_cases _ _⟩
  · rintro ⟨rfl, ⟨hne, hsp⟩, rfl | ⟨r, rfl⟩⟩
    · simp [parseCmd, before_of_not_mem hsp, after_of_not_mem hsp, hne]
    · simp [parseCmd, before_append_cons hsp, after_append_cons hsp, hne]

private theorem paramBytes_cases (ms : List Bytes) (t : Option Bytes) :
    paramBytes ms t = [] ∨ ∃ r, paramBytes ms t = space :: r := by
  cases ms with
  | nil => cases t <;> simp [paramBytes]
  | cons m ms => exact .inr ⟨_, rfl⟩

theorem parseParams_sound (room : Nat) (w : Bytes) (ms : List Bytes) (t : Option Bytes)
    (hw : w = [] ∨ ∃ r, w = space :: r) (h : parseParams room w = .ok (ms, t)) :
    w = paramBytes ms t ∧ (∀ m ∈ ms, Middle m) ∧ (ms ++ t.toList).length ≤ room := by
  induction room generalizing w ms t with
  | zero =>
    rcases hw with rfl | ⟨r, rfl⟩
    · simp only [parseParams, Except.ok.injEq, Prod.mk.injEq] at h
      obtain ⟨rfl, rfl⟩ := h
      simp [paramBytes]
    · simp [parseParams] at h
  | succ room ih =>
    rcases hw with rfl | ⟨r, rfl⟩
    · simp only [parseParams, Except.ok.injEq, Prod.mk.injEq] at h
      obtain ⟨rfl, rfl⟩ := h
      simp [paramBytes]
    cases r with
    | nil => simp [parseParams] at h
    | cons b r =>
      unfold parseParams at h
      simp only at h
      split_ifs at h with hsp hcol
      · simp only [Except.ok.injEq, Prod.mk.injEq] at h
        obtain ⟨rfl, rfl⟩ := h
        simp [paramBytes, hcol]
      · split at h
        · cases h
        · rename_i ms' t' hr
          simp only [Except.ok.injEq, Prod.mk.injEq] at h
          obtain ⟨rfl, rfl⟩ := h
          obtain ⟨hb, hm, hl⟩ := ih _ _ _ (after_cases _ _) hr
          have hcut := before_append_after space (b :: r)
          have hhead : before space (b :: r) = b :: before space r := by
            simp [before, hsp]
          refine ⟨?_, ?_, by simpa using hl⟩
          · rw [hb] at hcut
            simpa [paramBytes] using hcut.symm
          · intro m hm'
            rcases List.mem_cons.mp hm' with rfl | hm'
            · refine ⟨⟨by simp [hhead], not_mem_before _ _⟩, ?_⟩
              simpa [hhead] using hcol
            · exact hm m hm'

theorem parseParams_complete (room : Nat) (ms : List Bytes) (t : Option Bytes)
    (hm : ∀ m ∈ ms, Middle m) (hl : (ms ++ t.toList).length ≤ room) :
    parseParams room (paramBytes ms t) = .ok (ms, t) := by
  induction ms generalizing room with
  | nil =>
    cases t with
    | none => cases room <;> simp [parseParams, paramBytes]
    | some t =>
      obtain ⟨room, rfl⟩ : ∃ k, room = k + 1 := ⟨room - 1, by simp at hl; omega⟩
      simp [parseParams, paramBytes, show ¬ colon = space by decide]
  | cons m ms ih =>
    obtain ⟨room, rfl⟩ : ∃ k, room = k + 1 := ⟨room - 1, by simp at hl; omega⟩
    obtain ⟨⟨hne, hsp⟩, hcol⟩ := hm m (by simp)
    have ih := ih room (fun x hx => hm x (by simp [hx])) (by simpa using hl)
    have hbytes : paramBytes (m :: ms) t = space :: (m ++ paramBytes ms t) := by
      simp [paramBytes]
    have hcut : before space (m ++ paramBytes ms t) = m ∧
        after space (m ++ paramBytes ms t) = paramBytes ms t := by
      rcases paramBytes_cases ms t with he | ⟨r, he⟩
      · simp [he, before_of_not_mem hsp, after_of_not_mem hsp]
      · simp [he, before_append_cons hsp, after_append_cons hsp]
    obtain ⟨b, m, rfl⟩ := List.exists_cons_of_ne_nil hne
    simp only [List.mem_cons, not_or] at hsp
    have hb : b ≠ colon := fun he => hcol (by simp [he])
    simp only [List.cons_append] at hcut hbytes
    rw [hbytes, parseParams]
    simp only [if_neg (Ne.symm hsp.1), if_neg hb, hcut.1, hcut.2, ih]

/-- The parser succeeds with a decomposition exactly when it is a valid one of
these bytes; so a message has at most one. -/
theorem parseMsg_ok_iff (w : Bytes) (g : Grammar) :
    parseMsg w = .ok g ↔ g.Valid ∧ g.bytes = w := by
  constructor
  · intro h
    unfold parseMsg at h
    split at h
    · cases h
    rename_i pfx w₁ h₁
    split at h
    · cases h
    rename_i cmd w₂ h₂
    split at h
    · cases h
    rename_i ms t h₃
    cases h
    obtain ⟨rfl, hp, hc⟩ := (parsePrefix_ok_iff _ _ _).mp h₁
    obtain ⟨rfl, hcmd, hw⟩ := (parseCmd_ok_iff _ _ _).mp h₂
    obtain ⟨rfl, hm, hl⟩ := parseParams_sound _ _ _ _ hw h₃
    refine ⟨⟨hp, hcmd, fun hn => ?_, hm, hl⟩, by simp [bytes]⟩
    have := hc hn
    rwa [List.head?_append_of_ne_nil _ hcmd.1] at this
  · rintro ⟨⟨hp, hcmd, hcol, hm, hl⟩, rfl⟩
    have h₁ : parsePrefix g.bytes = .ok (g.pfx, g.cmd ++ paramBytes g.middle g.trailing) := by
      rw [parsePrefix_ok_iff]
      refine ⟨by simp [bytes], hp, fun hn => ?_⟩
      rw [List.head?_append_of_ne_nil _ hcmd.1]
      exact hcol hn
    have h₂ : parseCmd (g.cmd ++ paramBytes g.middle g.trailing) =
        .ok (g.cmd, paramBytes g.middle g.trailing) :=
      (parseCmd_ok_iff _ _ _).mpr ⟨rfl, hcmd, paramBytes_cases _ _⟩
    have h₃ := parseParams_complete maxParams g.middle g.trailing hm hl
    simp only [parseMsg, h₁, h₂, h₃]

end Botniklas.Irc
