import Botniklas.DateText

/-! `parse_date` returns the time written, in both directions. -/
namespace Botniklas
open Foundation Calendar

/-- Zones are less than a week ahead of UTC or behind it. -/
def IsOffset (zone : Int) : Prop := -604800 < zone ∧ zone < 604800

/-- Seconds, date and year are all written. -/
def DateText.Full (d : DateText) : Prop := d.sec.isSome ∧ d.year.isSome

theorem DateText.Full.endsBefore {d : DateText} (h : d.Full) {rest : Bytes}
    (hrest : ∀ b ∈ rest.head?, isdigit b = false) : d.EndsBefore rest := by
  obtain ⟨y, hy⟩ := Option.isSome_iff_exists.mp h.2
  obtain ⟨day, hday, hyear⟩ := Option.bind_eq_some_iff.mp hy
  unfold DateText.EndsBefore DayText.EndsBefore
  rw [hday]
  dsimp only
  rw [hyear]
  exact .inr hrest

/-- From 2000 on, no time is the error value. -/
theorem seconds_ne {zone : Int} (hzone : IsOffset zone) {tm : Tm} (h : tm.InRange)
    (hyear : 100 ≤ tm.year) : tm.seconds - zone ≠ -1 := by
  have hfrom := daysBeforeYear_mono (show (2000 : Int) ≤ tm.year + 1900 by omega)
  have hstart : daysBeforeYear 2000 = 10957 := by decide
  have hday := h.year_spec.1
  have hlt := hzone.2
  omega

theorem localtime_seconds (zone : Int) {tm : Tm} (h : tm.InRange) :
    localtime zone (tm.seconds - zone) = tm := by
  unfold localtime
  rw [Int.sub_add_cancel]
  exact Tm.ofSeconds_seconds h

/-- Every rendering of a time from 2000 to 2037 is read as that time, and what is
returned was written just so; whatever is no time is rejected, and a rejection
leaves the cursor alone. -/
theorem parse_date_returns_time_written {zone now : Int} (hzone : IsOffset zone)
    (hnow : now ≠ -1) :
    (∀ tm : Tm, tm.InRange → 100 ≤ tm.year → tm.year ≤ 137 → ∀ (d : DateText) (rest : Bytes),
      d.Full → d.Spaced → d.fields (localtime zone now) = tm →
      (∀ b ∈ rest.head?, isdigit b = false) →
      ∃ t, localtime zone t = tm ∧ parseDate zone now (d.bytes ++ rest) = (t, rest)) ∧
    (∀ s t rest, parseDate zone now s = (t, rest) → t ≠ -1 →
      ∃ d : DateText, d.Spaced ∧ s = d.bytes ++ rest ∧ (∀ y ∈ d.year, y.year.value < 38) ∧
        (d.fields (localtime zone now)).InRange ∧
        localtime zone t = d.fields (localtime zone now)) ∧
    (∀ (d : DateText) (rest : Bytes), d.Spaced → d.EndsBefore rest →
      ¬ (d.fields (localtime zone now)).InRange →
      parseDate zone now (d.bytes ++ rest) = (-1, d.bytes ++ rest)) ∧
    ∀ s, (parseDate zone now s).1 = -1 → (parseDate zone now s).2 = s := by
  refine ⟨?_, ?_, ?_, ?_⟩
  · intro tm htm hlo hhi d rest hfull hs hfields hrest
    refine ⟨tm.seconds - zone, localtime_seconds zone htm, ?_⟩
    have hparse := (@parseDate_bytes zone now rest hnow d hs (hfull.endsBefore hrest)).1
    rw [hfields] at hparse
    refine hparse (fun y hy => ?_) htm (seconds_ne hzone htm hlo)
    have hyear := DateText.year_fields_some hy (localtime zone now)
    rw [hfields] at hyear
    omega
  · intro s t rest h ht
    obtain ⟨d, hs, hbytes, -, hy, hr, rfl⟩ := parseDate_sound hnow h ht
    exact ⟨d, hs, hbytes, hy, hr, localtime_seconds zone hr⟩
  · intro d rest hs hends hr
    exact (parseDate_bytes hnow d hs hends).2 (.inr hr)
  · intro s h
    rw [parseDate_failed h]

/-- A leap day, some of its numbers with one digit. -/
def leapDay : DateText where
  lead := Sep.one.toGap
  hour := ⟨ascii "9", .inl rfl, List.all_eq_true.mp rfl⟩
  min := ⟨ascii "05", .inr rfl, List.all_eq_true.mp rfl⟩
  sec := some ⟨ascii "7", .inl rfl, List.all_eq_true.mp rfl⟩
  day := some {
    sep := .one
    mday := ⟨ascii "29", .inr rfl, List.all_eq_true.mp rfl⟩
    mon := ⟨ascii "2", .inl rfl, List.all_eq_true.mp rfl⟩
    year := some ⟨⟨⟨ascii " \t", List.all_eq_true.mp rfl⟩, by decide⟩,
      ⟨ascii "8", .inl rfl, List.all_eq_true.mp rfl⟩⟩ }

theorem leap_day_read : ∃ t, localtime 3600 t = ⟨7, 5, 9, 29, 1, 108⟩ ∧
    parseDate 3600 1 (ascii " 9:05:7 29/2 \t8 tea") = (t, ascii " tea") := by
  have hday : leapDay.bytes ++ ascii " tea" = ascii " 9:05:7 29/2 \t8 tea" := by decide
  rw [← hday]
  refine (@parse_date_returns_time_written 3600 1 ⟨by decide, by decide⟩
    (by decide)).1 ⟨7, 5, 9, 29, 1, 108⟩ ?_ (by decide) (by decide) leapDay _
    ⟨rfl, rfl⟩ ?_ rfl ?_
  · refine ⟨?_, ?_, ?_, ?_, ?_⟩ <;> decide
  · rintro _ ⟨⟩
    refine ⟨rfl, ?_⟩
    rintro _ ⟨⟩
    rfl
  · rintro _ ⟨⟩
    rfl

end Botniklas
