import Botniklas.RemindSyntax

/-! Whitespace put in place of the spaces of a date. -/
namespace Botniklas
open Foundation

/-- The same date with other separators. -/
def DateText.respace (d : DateText) (s₁ s₂ : Sep) : DateText :=
  { d with day := d.day.map fun day =>
      { day with sep := s₁, year := day.year.map fun y => { y with sep := s₂ } } }

/-- Both strings give the same time, or none, and then the same text follows. -/
def SameParse (zone now : Int) (s s' : Bytes) : Prop :=
  (parseDate zone now s).1 = (parseDate zone now s').1 ∧
    ((parseDate zone now s).1 ≠ -1 → (parseDate zone now s).2 = (parseDate zone now s').2)

instance (s : Sep) : Decidable s.Spaced := inferInstanceAs (Decidable (_ = _))

/-- What stands before the first separator that does not begin with a space. -/
def DateText.cut (d : DateText) : DateText :=
  { d with day := d.day.bind fun day =>
      if day.sep.Spaced then
        some { day with year := day.year.bind fun y => if y.sep.Spaced then some y else none }
      else none }

/-- The date is a time: years end with 2037, every field is in range, and the second
before the epoch is the error value. -/
structure DateText.Valid (zone now : Int) (d : DateText) : Prop where
  fits : ∀ y ∈ d.year, y.year.value < 38
  inRange : (d.fields (localtime zone now)).InRange
  ne : (d.fields (localtime zone now)).seconds - zone ≠ -1

/-- The date that stands at the beginning of `w`, as far as it goes, is no time. -/
def NoTime (zone now : Int) (w : Bytes) : Prop :=
  ∀ (d : DateText) (rest : Bytes), d.Spaced → d.EndsBefore rest → w = d.bytes ++ rest →
    ¬ d.Valid zone now

section Parse
variable {zone now : Int} {d : DateText} {rest w : Bytes}

theorem parseDate_valid (hnow : now ≠ -1) (hs : d.Spaced) (h : d.EndsBefore rest)
    (hv : d.Valid zone now) : parseDate zone now (d.bytes ++ rest) =
      ((d.fields (localtime zone now)).seconds - zone, rest) :=
  (parseDate_bytes hnow d hs h).1 hv.fits hv.inRange hv.ne

theorem parseDate_invalid (hnow : now ≠ -1) (hs : d.Spaced) (h : d.EndsBefore rest)
    (hv : ¬ d.Valid zone now) : (parseDate zone now (d.bytes ++ rest)).1 = -1 := by
  by_contra hne
  have hfields : d.fields { localtime zone now with sec := 0 } = d.fields (localtime zone now) := rfl
  rw [parseDate_fields hnow, parseFields_bytes d hs h rfl, hfields] at hne
  split_ifs at hne with hfits
  · dsimp only at hne
    split_ifs at hne with hbad
    · exact hne rfl
    · rw [not_or, not_not] at hbad
      exact hv ⟨hfits, Tm.ofSeconds_seconds_iff.mp hbad.2, hbad.1⟩
  · exact hne rfl

theorem parseDate_fails_iff (hnow : now ≠ -1) :
    (parseDate zone now w).1 = -1 ↔ NoTime zone now w := by
  constructor
  · rintro h d rest hs hends rfl hv
    rw [parseDate_valid hnow hs hends hv] at h
    exact hv.ne h
  · intro h
    by_contra hne
    obtain ⟨d, hs, hbytes, hends, hy, hr, ht⟩ := parseDate_sound hnow
      (show parseDate zone now w = ((parseDate zone now w).1, (parseDate zone now w).2) from rfl) hne
    exact h d _ hs hends hbytes ⟨hy, hr, ht ▸ hne⟩

end Parse

/-! Separators that begin with a space are all the same to the parser. -/

section Respace
variable {tm : Tm} {rest w : Bytes}

private theorem parseYear_sep (sep sep' : Sep) (year : Numeral) :
    parseYear tm (sep.bytes ++ (year.digits ++ w)) =
      parseYear tm (sep'.bytes ++ (year.digits ++ w)) := by
  unfold parseYear
  rw [parseNumber_skip sep.toGap, parseNumber_skip sep'.toGap]
  cases hp : parseOneOrTwoDigits (year.digits ++ w) false with
  | none =>
    rw [← parseNumber_skip sep.toGap] at hp
    refine absurd ?_ (parseNumber_none_iff.mp hp)
    rw [dropWhile_gap sep.toGap]
    exact year.head w
  | some p => rfl

private theorem parseDay_sep (sep sep' : Sep) (mday : Numeral) :
    parseDay tm (sep.bytes ++ (mday.digits ++ slash :: w)) =
      parseDay tm (sep'.bytes ++ (mday.digits ++ slash :: w)) := by
  unfold parseDay
  rw [parseNumber_gap sep.toGap (mday.endsBefore_cons rfl),
    parseNumber_gap sep'.toGap (mday.endsBefore_cons rfl)]

private theorem parseDay_mon (sep : Sep) (mday mon : Numeral) (hw : w.head? = some space) :
    parseDay tm (sep.bytes ++ (mday.digits ++ slash :: (mon.digits ++ w))) =
      parseYear { tm with mday := mday.value, mon := mon.value - 1 } w := by
  have hends : mon.EndsBefore w := by
    obtain ⟨w, rfl⟩ := List.head?_eq_some_iff.mp hw
    exact mon.endsBefore_cons rfl
  have hmon : parseOneOrTwoDigits (mon.digits ++ w) false = some (mon.value, w) :=
    parseNumber_iff.mpr ⟨mon, rfl, rfl, hends⟩
  unfold parseDay
  rw [parseNumber_gap sep.toGap (mday.endsBefore_cons rfl)]
  simp only [eat, if_true, Option.bind_eq_bind, Option.bind_some, hmon, hw]

/-- A day with other separators, both beginning with a space. -/
private theorem parseDay_respace (day : DayText) (hs : day.Spaced) {s₁ s₂ : Sep}
    (h₂ : day.year.isSome → s₂.Spaced) :
    parseDay tm (day.bytes ++ rest) = parseDay tm (DayText.bytes
      { day with sep := s₁, year := day.year.map fun y => { y with sep := s₂ } } ++ rest) := by
  obtain ⟨sep, mday, mon, year⟩ := day
  unfold DayText.bytes
  simp only [List.append_assoc, List.cons_append]
  cases year with
  | none => exact parseDay_sep _ _ _
  | some y =>
    simp only [Option.map_some, Option.elim_some, YearText.bytes, List.append_assoc]
    rw [parseDay_mon _ _ _ ((hs.2 y rfl).head _), parseDay_mon _ _ _ ((h₂ rfl).head _)]
    exact parseYear_sep _ _ _

/-- A date with other separators, all beginning with a space. -/
private theorem parseFields_respace (d : DateText) (hs : d.Spaced) {s₁ s₂ : Sep}
    (h : (d.respace s₁ s₂).Spaced) (htm : tm.sec = 0) :
    parseFields tm (d.bytes ++ rest) = parseFields tm ((d.respace s₁ s₂).bytes ++ rest) := by
  obtain ⟨lead, hour, min, sec, day⟩ := d
  cases day with
  | none => rfl
  | some day =>
    have hday := hs day rfl
    have hday' := h _ rfl
    unfold DateText.bytes DateText.respace
    simp only [List.append_assoc, List.cons_append, Option.map_some, Option.elim_some]
    rw [parseFields_time _ _ _ _ htm (endsTime_of_space _ _ (day.head hday rest)),
      parseFields_time _ _ _ _ htm (endsTime_of_space _ _ (DayText.head hday' rest)),
      if_pos (day.head hday rest), if_pos (DayText.head hday' rest)]
    refine parseDay_respace day hday fun hyear => ?_
    obtain ⟨y, hy⟩ := Option.isSome_iff_exists.mp hyear
    exact hday'.2 { y with sep := s₂ } (by simp [hy])

end Respace

/-! A separator that begins otherwise ends the date. -/

section Cut
variable {d : DateText} {s : Sep}

theorem isdigit_of_isspace {b : UInt8} (h : isspace b = true) : isdigit b = false := by
  by_contra hd
  rw [Bool.not_eq_false] at hd
  rw [isspace_of_isdigit hd] at h
  cases h

private theorem Sep.unspaced (h : ¬ s.Spaced) :
    ∃ c t, s.bytes = c :: t ∧ isspace c = true ∧ c ≠ space := by
  obtain ⟨c, t, hs⟩ := List.exists_cons_of_ne_nil s.nonempty
  refine ⟨c, t, hs, s.white c (by simp [hs]), ?_⟩
  rintro rfl
  exact h (by simp [Sep.Spaced, hs])

/-- Other whitespace goes on with nothing. -/
private theorem not_startsPart {c : UInt8} {w : Bytes} (hne : c ≠ space) : ¬ StartsPart (c :: w) :=
  fun h => hne (Option.some.inj h.1)

private theorem endsTime_of_white {c : UInt8} {w : Bytes} (hc : isspace c = true) (min : Numeral)
    (sec : Option Numeral) : EndsTime min sec (c :: w) := by
  cases sec with
  | none =>
    refine ⟨min.endsBefore_cons (isdigit_of_isspace hc), ?_⟩
    rintro ⟨⟩
    exact absurd hc (by decide)
  | some s => exact s.endsBefore_cons (isdigit_of_isspace hc)

theorem DateText.cut_spaced (d : DateText) : d.cut.Spaced := by
  intro day hday
  obtain ⟨day', -, hday'⟩ := Option.bind_eq_some_iff.mp hday
  split_ifs at hday' with hs
  cases hday'
  refine ⟨hs, fun y hy => ?_⟩
  obtain ⟨y', -, hy'⟩ := Option.bind_eq_some_iff.mp hy
  split_ifs at hy' with hs'
  cases hy'
  exact hs'

/-- The parser stops at the first separator that does not begin with a space. -/
theorem DateText.cut_spec (h : ¬ d.Spaced) : ∃ c tail, isspace c = true ∧ c ≠ space ∧
    d.bytes = d.cut.bytes ++ c :: tail ∧ ∀ rest, d.cut.EndsBefore (c :: tail ++ rest) := by
  obtain ⟨lead, hour, min, sec, day⟩ := d
  cases day with
  | none => exact absurd (fun day hday => by cases hday) h
  | some day =>
    by_cases hsep : day.sep.Spaced
    · cases hyear : day.year with
      | none =>
        refine absurd ?_ h
        rintro _ ⟨⟩
        exact ⟨hsep, fun y hy => by rw [hyear] at hy; cases hy⟩
      | some y =>
        have hy : ¬ y.sep.Spaced := by
          intro hy
          apply h
          rintro _ ⟨⟩
          refine ⟨hsep, fun y' hy' => ?_⟩
          rw [hyear] at hy'
          cases hy'
          exact hy
        have hcut : DateText.cut ⟨lead, hour, min, sec, some day⟩ =
            ⟨lead, hour, min, sec, some { day with year := none }⟩ := by
          simp [DateText.cut, hsep, hyear, hy]
        obtain ⟨c, t, hbytes, hc, hne⟩ := Sep.unspaced hy
        rw [hcut]
        refine ⟨c, t ++ y.year.digits, hc, hne, ?_, fun rest => ?_⟩
        · simp [DateText.bytes, DayText.bytes, hyear, YearText.bytes, hbytes]
        · exact ⟨day.mon.endsBefore_cons (isdigit_of_isspace hc), not_startsPart hne⟩
    · have hcut : DateText.cut ⟨lead, hour, min, sec, some day⟩ =
          ⟨lead, hour, min, sec, none⟩ := by
        simp [DateText.cut, hsep]
      obtain ⟨c, t, hbytes, hc, hne⟩ := Sep.unspaced hsep
      rw [hcut]
      refine ⟨c, t ++ (day.mday.digits ++ slash :: (day.mon.digits ++
        day.year.elim [] YearText.bytes)), hc, hne, ?_, fun rest => ?_⟩
      · simp [DateText.bytes, DayText.bytes, hbytes]
      · exact ⟨not_startsPart hne, endsTime_of_white hc min sec⟩

/-- Whitespace that is no space. -/
def OtherWhite (b : UInt8) : Prop := isspace b = true ∧ b ≠ space

private theorem Numeral.not_white (n : Numeral) : ∀ b ∈ n.digits, ¬ OtherWhite b := fun b hb hw => by
  have hspace := isspace_of_isdigit (n.all b hb)
  rw [hw.1] at hspace
  cases hspace

private theorem Sep.Single.not_white (h : s.Single) : ∀ b ∈ s.bytes, ¬ OtherWhite b := fun b hb hw => by
  rw [h] at hb
  exact hw.2 (List.mem_singleton.mp hb)

private theorem DayText.not_white {day : DayText} (h : day.sep.Single)
    (hy : ∀ y ∈ day.year, y.sep.Single) : ∀ b ∈ day.bytes, ¬ OtherWhite b := by
  have hyear : ∀ b ∈ day.year.elim [] YearText.bytes, ¬ OtherWhite b := by
    cases hyear : day.year with
    | none => simp
    | some y => exact List.forall_mem_append.mpr ⟨(hy y hyear).not_white, y.year.not_white⟩
  have hmon : ∀ b ∈ slash :: day.mon.digits, ¬ OtherWhite b :=
    List.forall_mem_cons.mpr ⟨fun hw => absurd hw.1 (by decide), day.mon.not_white⟩
  exact List.forall_mem_append.mpr ⟨List.forall_mem_append.mpr
    ⟨List.forall_mem_append.mpr ⟨h.not_white, day.mday.not_white⟩, hmon⟩, hyear⟩

/-- A plain date holds no whitespace but spaces. -/
private theorem DateText.Plain.not_white (h : d.Plain) : ∀ b ∈ d.bytes, ¬ OtherWhite b := by
  have hcolon : ∀ n : Numeral, ∀ b ∈ colon :: n.digits, ¬ OtherWhite b := fun n =>
    List.forall_mem_cons.mpr ⟨fun hw => absurd hw.1 (by decide), n.not_white⟩
  have hlead : ∀ b ∈ d.lead.bytes, ¬ OtherWhite b := by simp [h.1]
  have hsec : ∀ b ∈ d.sec.elim [] (fun s => colon :: s.digits), ¬ OtherWhite b := by
    cases d.sec with
    | none => simp
    | some s => exact hcolon s
  have hday : ∀ b ∈ d.day.elim [] DayText.bytes, ¬ OtherWhite b := by
    cases hday : d.day with
    | none => simp
    | some day => exact DayText.not_white (h.2 day hday).1 (h.2 day hday).2
  exact List.forall_mem_append.mpr ⟨List.forall_mem_append.mpr ⟨List.forall_mem_append.mpr
    ⟨List.forall_mem_append.mpr ⟨hlead, d.hour.not_white⟩, hcolon d.min⟩, hsec⟩, hday⟩

end Cut

section Same
variable {zone now : Int} {d : DateText} {rest : Bytes} {s₁ s₂ : Sep}

private theorem sameParse_of_spaced (hnow : now ≠ -1) (hplain : d.Plain)
    (h : (d.respace s₁ s₂).Spaced) :
    SameParse zone now (d.bytes ++ rest) ((d.respace s₁ s₂).bytes ++ rest) := by
  have hfields := @parseFields_respace { localtime zone now with sec := 0 } rest d hplain.spaced
    s₁ s₂ h rfl
  unfold SameParse
  rw [parseDate_fields hnow, parseDate_fields hnow, hfields]
  cases parseFields { localtime zone now with sec := 0 } ((d.respace s₁ s₂).bytes ++ rest) with
  | none => exact ⟨rfl, fun h => absurd rfl h⟩
  | some p =>
    dsimp only
    split_ifs
    · exact ⟨rfl, fun h => absurd rfl h⟩
    · exact ⟨rfl, fun _ => rfl⟩

/-- Where the parser stops at a separator, the plain date gives the same only if
both give nothing. -/
private theorem sameParse_iff_of_not_spaced (hnow : now ≠ -1) (hplain : d.Plain)
    (h : ¬ (d.respace s₁ s₂).Spaced) :
    SameParse zone now (d.bytes ++ rest) ((d.respace s₁ s₂).bytes ++ rest) ↔
      ¬ (d.respace s₁ s₂).cut.Valid zone now ∧ NoTime zone now (d.bytes ++ rest) := by
  obtain ⟨c, tail, hwhite, hne, hbytes, hends⟩ := DateText.cut_spec h
  have hspaced := (d.respace s₁ s₂).cut_spaced
  generalize (d.respace s₁ s₂).cut = cut at hbytes hends hspaced ⊢
  rw [hbytes, List.append_assoc]
  constructor
  · intro hsame
    have hinvalid : ¬ cut.Valid zone now := by
      intro hv
      obtain ⟨htime, hrest⟩ := hsame
      rw [parseDate_valid hnow hspaced (hends rest) hv] at htime hrest
      have hok : (parseDate zone now (d.bytes ++ rest)).1 ≠ -1 := htime ▸ hv.ne
      obtain ⟨D, -, hD, -⟩ := parseDate_sound hnow
        (show parseDate zone now (d.bytes ++ rest) = (_, c :: tail ++ rest) from
          Prod.ext rfl (hrest hok)) hok
      -- the separator would be part of the plain date
      rw [← List.append_assoc] at hD
      have hmem : c ∈ d.bytes := by
        rw [List.append_cancel_right hD]
        simp
      exact hplain.not_white c hmem ⟨hwhite, hne⟩
    refine ⟨hinvalid, (parseDate_fails_iff hnow).mp ?_⟩
    exact hsame.1.trans (parseDate_invalid hnow hspaced (hends rest) hinvalid)
  · rintro ⟨hinvalid, hnone⟩
    have hfails := (parseDate_fails_iff hnow).mpr hnone
    exact ⟨hfails.trans (parseDate_invalid hnow hspaced (hends rest) hinvalid).symm,
      fun hok => absurd hfails hok⟩

end Same

/-- Any whitespace may stand for the spaces of a date if and only if each run of it
begins with a space, or neither the part before the first that does not nor the
date with its spaces is a time. -/
theorem separators_interchangeable_iff {zone now : Int} (hnow : now ≠ -1) {d : DateText}
    (hplain : d.Plain) (s₁ s₂ : Sep) (rest : Bytes) :
    SameParse zone now (d.bytes ++ rest) ((d.respace s₁ s₂).bytes ++ rest) ↔
      (d.respace s₁ s₂).Spaced ∨
      (¬ (d.respace s₁ s₂).cut.Valid zone now ∧ NoTime zone now (d.bytes ++ rest)) := by
  by_cases h : (d.respace s₁ s₂).Spaced
  · exact iff_of_true (sameParse_of_spaced hnow hplain h) (.inl h)
  · rw [sameParse_iff_of_not_spaced hnow hplain h]
    exact (or_iff_right h).symm

/-- The promise of the header: any whitespace may stand for a space. -/
def Interchangeable : Prop :=
  ∀ (zone now : Int) (d : DateText) (s₁ s₂ : Sep) (rest : Bytes), now ≠ -1 → d.Plain →
    SameParse zone now (d.bytes ++ rest) ((d.respace s₁ s₂).bytes ++ rest)

/-- Noon on the fifth of June, without a year. -/
def fifthOfJune : DateText where
  lead := .none
  hour := ⟨ascii "12", .inr rfl, List.all_eq_true.mp rfl⟩
  min := ⟨ascii "00", .inr rfl, List.all_eq_true.mp rfl⟩
  sec := none
  day := some {
    sep := .one
    mday := ⟨ascii "5", .inl rfl, List.all_eq_true.mp rfl⟩
    mon := ⟨ascii "6", .inl rfl, List.all_eq_true.mp rfl⟩
    year := none }

theorem fifthOfJune_plain : fifthOfJune.Plain := by
  refine ⟨rfl, ?_⟩
  rintro _ ⟨⟩
  exact ⟨rfl, by rintro _ ⟨⟩⟩

/-- With a tab for the space, noon of the current day is returned. -/
theorem tab_not_interchangeable : ¬ Interchangeable := by
  intro h
  have hsame := (h 0 1 fifthOfJune ⟨⟨ascii "\t", List.all_eq_true.mp rfl⟩, by decide⟩ .one []
    (by decide) fifthOfJune_plain).1
  exact absurd hsame (by decide)

theorem two_spaces_interchangeable :
    SameParse 0 1 (ascii "12:00 5/6 tea") (ascii "12:00  5/6 tea") := by
  let two : Sep := ⟨⟨ascii "  ", List.all_eq_true.mp rfl⟩, by decide⟩
  refine (@separators_interchangeable_iff 0 1 (by decide) fifthOfJune fifthOfJune_plain two two
    (ascii " tea")).mpr (.inl ?_)
  rintro _ ⟨⟩
  exact ⟨rfl, by rintro _ ⟨⟩⟩

end Botniklas
