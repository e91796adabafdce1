import Botniklas.Restore
import Botniklas.Foundation.Pieces

/-! The scan as a function of the bytes of the file alone. -/
namespace Botniklas
open Foundation Irc Mem

def scanWhen (w : Bytes) : Except String (Int × Bytes) :=
  if w.takeWhile isdigit = [] then .error "Missing or malformed timestamp"
  else
    match w.dropWhile isdigit with
    | [] => .error "Expected space after timestamp"
    | b :: rest =>
      if b ≠ space then .error "Expected space after timestamp"
      else if (digitsValue (w.takeWhile isdigit) : Int) > llongMax then .error "Timestamp too large"
      else .ok (digitsValue (w.takeWhile isdigit), rest)

/-- A field up to its separator. -/
def scanField (sep : UInt8) (missing unclosed : String) (w : Bytes) : Except String (Bytes × Bytes) :=
  if before sep w = [] then .error missing
  else
    match after sep w with
    | [] => .error unclosed
    | _ :: rest => .ok (before sep w, rest)

def scanTarget : Bytes → Except String (Bytes × Bytes) :=
  scanField space "Missing or malformed target" "Expected space after target"

def scanText : Bytes → Except String (Bytes × Bytes) :=
  scanField lf "Empty reminder message" "Missing newline after reminder message"

def scanRecord (w : Bytes) : Except String (Reminder × Bytes) := do
  let (when, w) ← scanWhen w
  let (target, w) ← scanTarget w
  let (text, w) ← scanText w
  return (⟨when, target, text⟩, w)

/-- What counts as the end of the file. -/
def AtEnd (w : Bytes) : Prop := w = [] ∨ w = [lf]

instance (w : Bytes) : Decidable (AtEnd w) := inferInstanceAs (Decidable (_ ∨ _))

/-- The records before the end or the first line rejected, and why it was. -/
def scanLines : (fuel : Nat) → Bytes → List Reminder × Option String
  | 0, _ => ([], none)
  | fuel + 1, w =>
    if AtEnd w then ([], none)
    else
      match scanRecord w with
      | .error text => ([], some text)
      | .ok (r, rest) => (r :: (scanLines fuel rest).1, (scanLines fuel rest).2)

def scanFile (file : Bytes) : List Reminder × Option String := scanLines (file.length + 1) file

/-- A record as it stands in a file. -/
structure RecordOf (num : Bytes) (r : Reminder) : Prop where
  digits : num ≠ [] ∧ ∀ b ∈ num, isdigit b = true
  when : r.when = digitsValue num
  fits : r.when ≤ llongMax
  target : r.target ≠ [] ∧ space ∉ r.target
  text : r.text ≠ [] ∧ lf ∉ r.text

theorem scanWhen_ok_iff {w rest : Bytes} {when : Int} : scanWhen w = .ok (when, rest) ↔
    ∃ num, w = num ++ space :: rest ∧ (num ≠ [] ∧ ∀ b ∈ num, isdigit b = true) ∧
      when = digitsValue num ∧ when ≤ llongMax := by
  constructor
  · intro h
    unfold scanWhen at h
    by_cases hne : w.takeWhile isdigit = []
    · rw [if_pos hne] at h
      cases h
    · rw [if_neg hne] at h
      cases hrest : w.dropWhile isdigit with
      | nil =>
        rw [hrest] at h
        cases h
      | cons b rest' =>
        rw [hrest] at h
        dsimp only at h
        split_ifs at h with hb hbig
        cases h
        rw [ne_eq, not_not] at hb
        refine ⟨w.takeWhile isdigit, ?_, ⟨hne, fun b hb => List.mem_takeWhile_imp hb⟩, rfl, by omega⟩
        rw [← hb, ← hrest, List.takeWhile_append_dropWhile]
  · rintro ⟨num, rfl, ⟨hne, hd⟩, rfl, hfits⟩
    have htake : (num ++ space :: rest).takeWhile isdigit = num := by
      rw [List.takeWhile_append_of_pos hd]
      simp [show isdigit space = false from rfl]
    have hdrop : (num ++ space :: rest).dropWhile isdigit = space :: rest := by
      rw [List.dropWhile_append_of_pos hd]
      simp [show isdigit space = false from rfl]
    unfold scanWhen
    rw [htake, hdrop, if_neg hne]
    dsimp only
    rw [if_neg (by simp), if_neg (by omega)]

theorem scanField_ok_iff {sep : UInt8} {missing unclosed : String} {w field rest : Bytes} :
    scanField sep missing unclosed w = .ok (field, rest) ↔
      w = field ++ sep :: rest ∧ field ≠ [] ∧ sep ∉ field := by
  constructor
  · intro h
    unfold scanField at h
    split_ifs at h with hne
    rcases after_cases sep w with hrest | ⟨rest', hrest⟩
    · rw [hrest] at h
      cases h
    · rw [hrest] at h
      cases h
      refine ⟨?_, hne, not_mem_before _ _⟩
      rw [← hrest, before_append_after]
  · rintro ⟨rfl, hne, hsep⟩
    unfold scanField
    rw [before_append_cons hsep, after_append_cons hsep, if_neg hne]

/-- The records the scanner accepts; only the text is kept clear of line ends. -/
theorem scanRecord_ok_iff {w rest : Bytes} {r : Reminder} : scanRecord w = .ok (r, rest) ↔
    ∃ num, RecordOf num r ∧
      w = num ++ space :: r.target ++ space :: r.text ++ lf :: rest := by
  constructor
  · intro h
    unfold scanRecord at h
    cases h1 : scanWhen w with
    | error t => simp [h1, bind, Except.bind] at h
    | ok p =>
      obtain ⟨when, w₁⟩ := p
      cases h2 : scanTarget w₁ with
      | error t => simp [h1, h2, bind, Except.bind] at h
      | ok p =>
        obtain ⟨target, w₂⟩ := p
        cases h3 : scanText w₂ with
        | error t => simp [h1, h2, h3, bind, Except.bind] at h
        | ok p =>
          obtain ⟨text, w₃⟩ := p
          simp only [h1, h2, h3, bind, Except.bind, pure, Except.pure, Except.ok.injEq,
            Prod.mk.injEq] at h
          obtain ⟨rfl, rfl⟩ := h
          obtain ⟨num, rfl, hnum, hwhen, hfits⟩ := scanWhen_ok_iff.mp h1
          obtain ⟨rfl, htarget⟩ := scanField_ok_iff.mp h2
          obtain ⟨rfl, htext⟩ := scanField_ok_iff.mp h3
          exact ⟨num, ⟨hnum, hwhen, hfits, htarget, htext⟩, by simp⟩
  · rintro ⟨num, h, rfl⟩
    have h1 : scanWhen (num ++ space :: r.target ++ space :: r.text ++ lf :: rest) =
        .ok (r.when, r.target ++ space :: (r.text ++ lf :: rest)) :=
      scanWhen_ok_iff.mpr ⟨num, by simp, h.digits, h.when, h.fits⟩
    have h2 : scanTarget (r.target ++ space :: (r.text ++ lf :: rest)) =
        .ok (r.target, r.text ++ lf :: rest) := scanField_ok_iff.mpr ⟨rfl, h.target⟩
    have h3 : scanText (r.text ++ lf :: rest) = .ok (r.text, rest) :=
      scanField_ok_iff.mpr ⟨rfl, h.text⟩
    simp only [scanRecord, h1, h2, h3, bind, Except.bind, pure, Except.pure]

theorem length_scanRecord {w rest : Bytes} {r : Reminder}
    (h : scanRecord w = .ok (r, rest)) : rest.length < w.length := by
  obtain ⟨num, -, rfl⟩ := scanRecord_ok_iff.mp h
  simp
  omega

private theorem scanLines_fuel {w : Bytes} {fuel fuel' : Nat} (h : w.length < fuel)
    (h' : w.length < fuel') : scanLines fuel w = scanLines fuel' w := by
  induction fuel generalizing fuel' w with
  | zero => omega
  | succ fuel ih =>
    obtain ⟨fuel', rfl⟩ : ∃ k, fuel' = k + 1 := ⟨fuel' - 1, by omega⟩
    unfold scanLines
    split_ifs
    · rfl
    · split
      · rfl
      · rename_i hr
        have hlen := length_scanRecord hr
        rw [@ih _ fuel' (by omega) (by omega)]

theorem scanFile_eq (w : Bytes) : scanFile w =
    if AtEnd w then ([], none)
    else match scanRecord w with
      | .error text => ([], some text)
      | .ok (r, rest) => (r :: (scanFile rest).1, (scanFile rest).2) := by
  unfold scanFile
  rw [scanLines]
  split_ifs
  · rfl
  · split
    · rfl
    · rename_i r rest hr
      have hlen := length_scanRecord hr
      rw [scanLines_fuel hlen (Nat.lt_succ_self rest.length)]

/-! The buffer: at the cursor stand the bytes that are left. -/

section Buffer
variable {size : Nat} {m : Mem (.flat size)} {cur : Nat} {w : Bytes}

/-- What is left of the buffer. -/
structure Left (m : Mem (.flat size)) (cur : Nat) (w : Bytes) : Prop where
  holds : m.Holds cur w
  size : cur + w.length = size

private theorem passTo_eq (h : Left m cur w) (stop : UInt8 → Bool) :
    passTo m cur stop = cur + (w.takeWhile fun b => !stop b).length := by
  unfold passTo
  rcases open_or_cut stop w with hw | ⟨u, c, r, rfl, hu, hc⟩
  · rw [find_none m stop h.holds hw h.size, List.takeWhile_eq_self_iff.mpr (by simpa using hw)]
    exact h.size.symm
  · have hh := h.holds
    rw [← List.singleton_append, ← List.append_assoc, holds_append] at hh
    have hlen := h.size
    simp only [List.length_append, List.length_cons] at hlen
    rw [find_eq m stop hh.1 hu hc (by change _ < size; omega),
      List.takeWhile_append_of_pos (by simpa using hu), List.takeWhile_cons_of_neg (by simp [hc])]
    simp

/-- The separator after a field is where the loop over the field stops. -/
private theorem Left.field {u r : Bytes} {c : UInt8} (h : Left m cur (u ++ c :: r)) :
    cur + u.length ≠ size ∧ m.load (cur + u.length) = c ∧
      Left (m.store (cur + u.length) nul) (cur + u.length + 1) r ∧
      (m.store (cur + u.length) nul).Holds cur (u ++ [nul]) := by
  obtain ⟨hh, hlen⟩ := h
  have hp := (holds_append _ _ _ _).mp hh
  simp only [List.length_append, List.length_cons] at hlen
  have hd := Layout.flat_distinct size cur size
  have hwi : Within (cur + u.length) (cur + u.length + 1) m (m.store (cur + u.length) nul) :=
    within_store m nul (Nat.le_refl _) (Nat.lt_succ_self _)
  refine ⟨by omega, hp.2.1, ⟨?_, by omega⟩, (holds_append _ _ _ _).mpr ⟨?_, load_store_self _ _ _, trivial⟩⟩
  · exact hwi.holds hd (by omega) (by omega) (by omega) (by omega) (by omega) hp.2.2
  · exact hwi.holds hd (by omega) (by omega) (by omega) (by omega) (by omega) hp.1

private theorem Left.atEnd_iff (h : Left m cur w) :
    (cur = size ∨ (m.load cur = lf ∧ cur + 1 = size)) ↔ AtEnd w := by
  obtain ⟨hh, hlen⟩ := h
  unfold AtEnd
  match w with
  | [] => simp [show cur = size by simpa using hlen]
  | [b] =>
    have hload : m.load cur = b := hh.1
    simp only [List.length_singleton] at hlen
    simp [hload, hlen, show cur ≠ size by omega]
  | b :: c :: w =>
    simp only [List.length_cons] at hlen
    simp
    omega

theorem restoreWhen_eq (h : Left m cur w) :
    match scanWhen w with
    | .error text => restoreWhen m cur = .error text
    | .ok (when, rest) => ∃ cur' m', restoreWhen m cur = .ok (when, cur', m') ∧ Left m' cur' rest := by
  have hpass := passTo_eq h fun b => !isdigit b
  simp only [Bool.not_not] at hpass
  have hw := List.takeWhile_append_dropWhile (p := isdigit) (l := w)
  have hdigits : ∀ b ∈ w.takeWhile isdigit, isdigit b = true := fun b hb => List.mem_takeWhile_imp hb
  unfold restoreWhen scanWhen
  dsimp only
  rw [hpass]
  generalize w.takeWhile isdigit = num at hw hdigits ⊢
  generalize w.dropWhile isdigit = r at hw ⊢
  subst hw
  by_cases hne : num = []
  · rw [if_pos hne]
    exact if_pos (by simp [hne])
  · have hpos := List.length_pos_of_ne_nil hne
    rw [if_neg hne, if_neg (show ¬ ¬ cur < cur + num.length by omega)]
    cases r with
    | nil =>
      have hend := h.size
      rw [List.append_nil] at hend
      exact if_pos (by simp [hend])
    | cons b rest =>
      obtain ⟨hin, hload, hleft, hstr⟩ := h.field
      dsimp only
      by_cases hb : b = space
      · have hlt : cur + num.length < size := by
          have := h.size
          simp only [List.length_append, List.length_cons] at this
          omega
        have hcstr : (m.store (cur + num.length) nul).cstr cur = num :=
          cstr_eq ⟨hstr, fun h0 => absurd (hdigits _ h0) (by decide)⟩ hlt
        have hsep : ¬ ¬ (cur + num.length ≠ size ∧ m.load (cur + num.length) = space) := by
          rw [not_not]
          exact ⟨hin, hload.trans hb⟩
        rw [if_neg (not_not.mpr hb), if_neg hsep, hcstr, strtoll_digits hne hdigits]
        by_cases hbig : (digitsValue num : Int) > llongMax
        · rw [if_pos hbig, if_pos hbig]
          exact if_pos ⟨rfl, rfl⟩
        · rw [if_neg hbig, if_neg hbig]
          exact ⟨_, _, if_neg (by simp), hleft⟩
      · rw [if_pos hb]
        exact if_pos (by simp [hload, hb])

private theorem takeWhile_before (sep : UInt8) (w : Bytes) :
    (w.takeWhile fun b => !decide (b = sep)) = before sep w := rfl

/-- The loop over a field: it takes no byte, runs to the end of the buffer, or
stops at the separator. -/
private theorem Left.scanField (h : Left m cur w) (sep : UInt8) (missing unclosed : String) :
    (scanField sep missing unclosed w = .error missing ∧
      ¬ cur < passTo m cur fun b => b = sep) ∨
    (scanField sep missing unclosed w = .error unclosed ∧
      cur < (passTo m cur fun b => b = sep) ∧ (passTo m cur fun b => b = sep) = size) ∨
    ∃ field rest, scanField sep missing unclosed w = .ok (field, rest) ∧ field ≠ [] ∧
      (passTo m cur fun b => b = sep) = cur + field.length ∧ Left m cur (field ++ sep :: rest) := by
  have hpass := passTo_eq h fun b => b = sep
  rw [takeWhile_before] at hpass
  have hw := before_append_after sep w
  unfold Botniklas.scanField
  rw [hpass]
  by_cases hne : before sep w = []
  · exact .inl ⟨if_pos hne, by simp [hne]⟩
  · have hpos := List.length_pos_of_ne_nil hne
    rw [if_neg hne]
    rcases after_cases sep w with ha | ⟨rest, ha⟩
    · have hend := h.size
      rw [ha, List.append_nil] at hw
      rw [ha, hw]
      exact .inr (.inl ⟨rfl, by rw [← hw]; omega, hend⟩)
    · rw [ha] at hw ⊢
      exact .inr (.inr ⟨_, rest, rfl, hne, rfl, hw.symm ▸ h⟩)

theorem restoreTarget_eq (h : Left m cur w) :
    match scanTarget w with
    | .error text => restoreTarget m cur = .error text
    | .ok (target, rest) => ∃ m', restoreTarget m cur = .ok (cur + target.length + 1, m') ∧
        Left m' (cur + target.length + 1) rest ∧ m'.Holds cur (target ++ [nul]) := by
  unfold restoreTarget scanTarget
  dsimp only
  rcases h.scanField space "Missing or malformed target" "Expected space after target" with
    ⟨hscan, hnone⟩ | ⟨hscan, hsome, hend⟩ | ⟨target, rest, hscan, hne, hstop, hleft⟩
  · rw [hscan, if_pos hnone]
  · rw [hscan, if_neg (not_not.mpr hsome)]
    exact if_pos (by simp [hend])
  · obtain ⟨hin, hload, hrest, hstr⟩ := hleft.field
    have hpos := List.length_pos_of_ne_nil hne
    rw [hscan, hstop, if_neg (not_not.mpr (show cur < cur + target.length by omega)),
      if_neg (not_not.mpr ⟨hin, hload⟩)]
    exact ⟨_, rfl, hrest, hstr⟩

theorem restoreText_eq (h : Left m cur w) :
    match scanText w with
    | .error text => restoreText m cur = .error text
    | .ok (text, rest) => restoreText m cur =
          .ok (cur + text.length + 1, m.store (cur + text.length) nul) ∧
        Left (m.store (cur + text.length) nul) (cur + text.length + 1) rest ∧
        (m.store (cur + text.length) nul).Holds cur (text ++ [nul]) := by
  unfold restoreText scanText
  dsimp only
  rcases h.scanField lf "Empty reminder message" "Missing newline after reminder message" with
    ⟨hscan, hnone⟩ | ⟨hscan, hsome, hend⟩ | ⟨text, rest, hscan, hne, hstop, hleft⟩
  · rw [hscan, if_pos hnone]
  · rw [hscan, if_neg (not_not.mpr hsome), if_pos hend]
  · obtain ⟨hin, -, hrest, hstr⟩ := hleft.field
    have hpos := List.length_pos_of_ne_nil hne
    rw [hscan, hstop, if_neg (not_not.mpr (show cur < cur + text.length by omega)), if_neg hin]
    exact ⟨rfl, hrest, hstr⟩

/-- How the loop ends, given the records accepted and the error. -/
def restoredAt (lineNr : Nat) (scan : List Reminder × Option String) : Restored :=
  match scan.2 with
  | none => .finished
  | some text => .rejected (lineNr + scan.1.length) text

theorem restoredAt_finished_iff {lineNr : Nat} {scan : List Reminder × Option String} :
    restoredAt lineNr scan = .finished ↔ scan.2 = none := by
  unfold restoredAt
  cases scan.2 with
  | none => simp
  | some text => simp

/-- A rejection names the line after those accepted. -/
theorem restoredAt_rejected_iff {lineNr k : Nat} {text : String}
    {scan : List Reminder × Option String} : restoredAt lineNr scan = .rejected k text ↔
      scan.2 = some text ∧ lineNr + scan.1.length = k := by
  unfold restoredAt
  cases scan.2 with
  | none => simp
  | some text' => simp [and_comm]

/-- A record accepted moves the line number on. -/
theorem restoredAt_cons (lineNr : Nat) (r : Reminder) (rs : List Reminder) (error : Option String) :
    restoredAt lineNr (r :: rs, error) = restoredAt (lineNr + 1) (rs, error) := by
  unfold restoredAt
  rw [List.length_cons, Nat.add_assoc, Nat.add_comm 1]

/-- Target and text stand together in the packed format. -/
private theorem packed_slice {target text rest : Bytes}
    (hstr : m.Holds cur (target ++ [nul])) (hleft : Left m (cur + target.length + 1) (text ++ lf :: rest)) :
    (m.store (cur + target.length + 1 + text.length) nul).slice cur
        (cur + target.length + 1 + text.length + 1 - cur) = reminderData target text := by
  obtain ⟨-, -, -, htext⟩ := hleft.field
  have hsize := hleft.size
  simp only [List.length_append, List.length_cons] at hsize
  have hwi : Within (cur + target.length + 1 + text.length)
      (cur + target.length + 1 + text.length + 1) m
      (m.store (cur + target.length + 1 + text.length) nul) :=
    within_store m nul (Nat.le_refl _) (Nat.lt_succ_self _)
  have htarget := hwi.holds (Layout.flat_distinct size cur size) (by omega) (by omega)
    (Nat.le_refl _) (by simp; omega) (.inl (by simp; omega)) hstr
  have hboth : (m.store (cur + target.length + 1 + text.length) nul).Holds cur
      (reminderData target text) :=
    (holds_append _ _ _ _).mpr ⟨htarget, by simpa [Nat.add_assoc] using htext⟩
  have hlen : cur + target.length + 1 + text.length + 1 - cur = (reminderData target text).length := by
    simp [reminderData]
    omega
  rw [hlen, slice_of_holds hboth]

/-- The registrations for the records that are not past. -/
def due (now : Int) (rs : List Reminder) : List (Registration Handler Bytes) :=
  (rs.filter fun r => now ≤ r.when).map Reminder.registration

/-- One turn of the loop takes the record that the pure scan takes. -/
private theorem restoreLines_step (now : Int) (fuel lineNr : Nat) (bot : Bot) (h : Left m cur w)
    (hend : ¬ AtEnd w) :
    match scanRecord w with
    | .error text => restoreLines now (fuel + 1) lineNr m cur bot = (.rejected lineNr text, bot)
    | .ok (r, rest) => ∃ (cur' : Nat) (m' : Mem (.flat size)), Left m' cur' rest ∧
        restoreLines now (fuel + 1) lineNr m cur bot = restoreLines now fuel (lineNr + 1) m' cur'
          (if r.when < now then bot else bot.addTimeEvent r.registration) := by
  have hwhen := restoreWhen_eq h
  unfold scanRecord
  rw [restoreLines, if_neg (mt h.atEnd_iff.mp hend)]
  cases h1 : scanWhen w with
  | error text =>
    rw [h1] at hwhen
    rw [hwhen]
    rfl
  | ok p =>
    obtain ⟨when, w₁⟩ := p
    rw [h1] at hwhen
    obtain ⟨cur₁, m₁, hrun₁, hleft₁⟩ := hwhen
    have htarget := restoreTarget_eq hleft₁
    rw [hrun₁]
    cases h2 : scanTarget w₁ with
    | error text =>
      rw [h2] at htarget
      simp only [htarget, bind, Except.bind, h2]
    | ok p =>
      obtain ⟨target, w₂⟩ := p
      rw [h2] at htarget
      obtain ⟨m₂, hrun₂, hleft₂, hstr₂⟩ := htarget
      have htext := restoreText_eq hleft₂
      cases h3 : scanText w₂ with
      | error text =>
        rw [h3] at htext
        simp only [hrun₂, htext, bind, Except.bind, h2, h3]
      | ok p =>
        obtain ⟨text, w₃⟩ := p
        rw [h3] at htext
        obtain ⟨hrun₃, hleft₃, -⟩ := htext
        obtain ⟨rfl, -⟩ := scanField_ok_iff.mp h3
        simp only [hrun₂, hrun₃, bind, Except.bind, h2, h3, pure, Except.pure,
          packed_slice hstr₂ hleft₂]
        refine ⟨_, _, hleft₃, ?_⟩
        split_ifs
        · rfl
        · rfl

/-- The scan in place registers the records of the pure scan. -/
theorem restoreLines_eq (now : Int) (fuel lineNr : Nat) (bot : Bot) (h : Left m cur w)
    (hfuel : w.length < fuel) : restoreLines now fuel lineNr m cur bot =
      (restoredAt lineNr (scanFile w),
        { bot with queue := bot.queue.addAll (due now (scanFile w).1) }) := by
  induction fuel generalizing lineNr m cur w bot with
  | zero => omega
  | succ fuel ih =>
    rw [scanFile_eq]
    by_cases hend : AtEnd w
    · unfold restoreLines
      rw [if_pos (h.atEnd_iff.mpr hend), if_pos hend]
      rfl
    · rw [if_neg hend]
      have hstep := restoreLines_step now fuel lineNr bot h hend
      cases hrec : scanRecord w with
      | error text =>
        rw [hrec] at hstep
        exact hstep
      | ok p =>
        obtain ⟨r, rest⟩ := p
        rw [hrec] at hstep
        obtain ⟨cur', m', hleft, hturn⟩ := hstep
        have hlen := length_scanRecord hrec
        rw [hturn, ih (lineNr + 1) _ hleft (by omega)]
        rw [restoredAt_cons]
        by_cases hpast : r.when < now
        · simp [due, hpast, show ¬ now ≤ r.when by omega]
        · simp [due, hpast, show now ≤ r.when by omega, Bot.addTimeEvent, EventList.addAll]

end Buffer

theorem holds_fileBuf (file : Bytes) : Left (fileBuf file) 0 file := by
  refine ⟨(holds_iff _ _ _).mpr fun i hi => ?_, Nat.zero_add _⟩
  rw [Nat.zero_add]
  change file.getD i 0 = _
  rw [List.getD, List.getElem?_eq_getElem hi, Option.getD_some]

/-- `restore_remind_state` as the pure scan of the file. -/
theorem restoreRemindState_some (env : Env) {bot : Bot} {file : Bytes}
    (hfile : bot.reminders = some file) : restoreRemindState env bot =
    .ok (restoredAt 1 (scanFile file), { bot with
      instant := bot.instant + 1
      queue := bot.queue.addAll (due (env.clock.now bot.instant) (scanFile file).1) }) := by
  have hpos := env.clock.pos bot.instant
  unfold restoreRemindState Bot.time
  dsimp only
  rw [if_neg (by omega), hfile]
  dsimp only
  rw [restoreLines_eq _ _ _ _ (holds_fileBuf file) (Nat.lt_succ_self _)]

theorem restoreRemindState_none (env : Env) {bot : Bot} (hfile : bot.reminders = none) :
    restoreRemindState env bot = .ok (.noFile, { bot with instant := bot.instant + 1 }) := by
  have hpos := env.clock.pos bot.instant
  unfold restoreRemindState Bot.time
  dsimp only
  rw [if_neg (by omega), hfile]

end Botniklas
