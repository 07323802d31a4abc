import OpenDB.Frontend.JsonEncoder
import OpenDB.Library.Calendar
import OpenDB.Library.MachineWord

/-!
# The printers of dates

A day count is turned into a date twice: by the encoder of answers on 64 bits, and by `Value::toString`
on 32 bits. Both use the closed form of the calendar, which the encoder computes exactly for every day
(`JsonEncoder.isoDate_calendar`).

The printer of values adds to the day before it widens anything. Its checked version, which returns
nothing where a result of 32 bits overflows, returns up to the day 2146764179 and prints the same date
(`dateToIso?_eq`). The texts differ in the years from -99 to -1: there the stream of the encoder puts
zeros in front of the sign. These two are all that keeps the printers apart (`printers_agree_iff`).
-/

set_option autoImplicit false

namespace OpenDB

open OpenDB.Library OpenDB.Library.Calendar MachineWord

/-- The division of both printers, which rounds towards zero, made to round down. -/
theorem era_eq (z : Int) : (if 0 ≤ z then z else z - 146096).tdiv 146097 = z / 146097 := by
  split_ifs with h
  · exact Int.tdiv_eq_ediv_of_nonneg h
  · have hneg : z - 146096 = -(146096 - z) := by omega
    rw [hneg, Int.neg_tdiv, Int.tdiv_eq_ediv_of_nonneg (by omega)]
    omega

theorem zeroFilled_signedDecimal {width : Nat} {n : Int} (h : 0 ≤ n) :
    zeroFilled width (signedDecimal n) = zeroPadded width n := by
  simp [zeroFilled, signedDecimal, zeroPadded, not_lt.2 h]

/-! ## The closed form on machine words -/

section Words

variable {α : Type} [MachineWord α] {doe yoe doy mp : α} {x y : Int}

/-- The words hold what is computed within an era. -/
def HoldsEra (α : Type) [MachineWord α] : Prop := MachineWord.min α ≤ 0 ∧ 146097 ≤ MachineWord.max α

theorem HoldsEra.fits (h : HoldsEra α) {n : Int} (hpos : 0 ≤ n) (hle : n ≤ 146097) : Fits α n :=
  ⟨h.1.trans hpos, hle.trans h.2⟩

/-- The year of the era. -/
theorem exists_yearOfEra? (c₁ c₂ c₃ c₄ : α) (hα : HoldsEra α) (hdoe : val doe = x) (hpos : 0 ≤ x)
    (hle : x ≤ 146096) (h₁ : val c₁ = 1460) (h₂ : val c₂ = 36524) (h₃ : val c₃ = 146096)
    (h₄ : val c₄ = 365) :
    ∃ r₁ r₂ r₃, sub? doe (doe / c₁) = some r₁ ∧ add? r₁ (doe / c₂) = some r₂ ∧
      sub? r₂ (doe / c₃) = some r₃ ∧ val (r₃ / c₄) = yearOfEra x := by
  have hfours := val_div_of_nonneg hdoe h₁ hpos (by decide)
  have hcenturies := val_div_of_nonneg hdoe h₂ hpos (by decide)
  have hera := val_div_of_nonneg hdoe h₃ hpos (by decide)
  obtain ⟨r₁, hr₁?, hr₁⟩ := exists_sub? hdoe hfours (hα.fits (by omega) (by omega))
  obtain ⟨r₂, hr₂?, hr₂⟩ := exists_add? hr₁ hcenturies (hα.fits (by omega) (by omega))
  obtain ⟨r₃, hr₃?, hr₃⟩ := exists_sub? hr₂ hera (hα.fits (by omega) (by omega))
  exact ⟨r₁, r₂, r₃, hr₁?, hr₂?, hr₃?, val_div_of_nonneg hr₃ h₄ (by omega) (by decide)⟩

/-- The day of the year. -/
theorem exists_dayOfYear? (c₁ c₂ c₃ : α) (hα : HoldsEra α) (hdoe : val doe = x) (hle : x ≤ 146096)
    (hyoe : val yoe = y) (hy : 0 ≤ y ∧ y ≤ 399) (hday : 0 ≤ x - eraDays y)
    (h₁ : val c₁ = 365) (h₂ : val c₂ = 4) (h₃ : val c₃ = 100) :
    ∃ r₁ r₂ r₃ doy, mul? c₁ yoe = some r₁ ∧ add? r₁ (yoe / c₂) = some r₂ ∧
      sub? r₂ (yoe / c₃) = some r₃ ∧ sub? doe r₃ = some doy ∧ val doy = x - eraDays y := by
  have hfours := val_div_of_nonneg hyoe h₂ hy.1 (by decide)
  have hcenturies := val_div_of_nonneg hyoe h₃ hy.1 (by decide)
  rw [eraDays] at hday ⊢
  obtain ⟨r₁, hr₁?, hr₁⟩ := exists_mul? h₁ hyoe (hα.fits (by omega) (by omega))
  obtain ⟨r₂, hr₂?, hr₂⟩ := exists_add? hr₁ hfours (hα.fits (by omega) (by omega))
  obtain ⟨r₃, hr₃?, hr₃⟩ := exists_sub? hr₂ hcenturies (hα.fits (by omega) (by omega))
  obtain ⟨doy, hdoy?, hdoy⟩ := exists_sub? hdoe hr₃ (hα.fits hday (by omega))
  exact ⟨r₁, r₂, r₃, doy, hr₁?, hr₂?, hr₃?, hdoy?, hdoy⟩

/-- The month from March on. -/
theorem exists_marchMonth? (c₁ c₂ c₃ : α) (hα : HoldsEra α) (hdoy : val doy = x) (hpos : 0 ≤ x)
    (hle : x ≤ 365) (h₁ : val c₁ = 5) (h₂ : val c₂ = 2) (h₃ : val c₃ = 153) :
    ∃ r₁ r₂, mul? c₁ doy = some r₁ ∧ add? r₁ c₂ = some r₂ ∧ val (r₂ / c₃) = marchMonth x := by
  obtain ⟨r₁, hr₁?, hr₁⟩ := exists_mul? h₁ hdoy (hα.fits (by omega) (by omega))
  obtain ⟨r₂, hr₂?, hr₂⟩ := exists_add? hr₁ h₂ (hα.fits (by omega) (by omega))
  exact ⟨r₁, r₂, hr₁?, hr₂?, val_div_of_nonneg hr₂ h₃ (by omega) (by decide)⟩

/-- The day of the month. -/
theorem exists_marchDay? (c₁ c₂ c₃ c₄ : α) (hα : HoldsEra α) (hdoy : val doy = x) (hle : x ≤ 365)
    (hmp : val mp = y) (hy : 0 ≤ y ∧ y ≤ 11) (hday : marchDays y ≤ x)
    (h₁ : val c₁ = 153) (h₂ : val c₂ = 2) (h₃ : val c₃ = 5) (h₄ : val c₄ = 1) :
    ∃ r₁ r₂ r₃ d, mul? c₁ mp = some r₁ ∧ add? r₁ c₂ = some r₂ ∧ sub? doy (r₂ / c₃) = some r₃ ∧
      add? r₃ c₄ = some d ∧ val d = x - marchDays y + 1 := by
  rw [marchDays] at hday ⊢
  obtain ⟨r₁, hr₁?, hr₁⟩ := exists_mul? h₁ hmp (hα.fits (by omega) (by omega))
  obtain ⟨r₂, hr₂?, hr₂⟩ := exists_add? hr₁ h₂ (hα.fits (by omega) (by omega))
  have hfront := val_div_of_nonneg hr₂ h₃ (by omega) (by decide)
  obtain ⟨r₃, hr₃?, hr₃⟩ := exists_sub? hdoy hfront (hα.fits (by omega) (by omega))
  obtain ⟨d, hd?, hd⟩ := exists_add? hr₃ h₄ (hα.fits (by omega) (by omega))
  exact ⟨r₁, r₂, r₃, d, hr₁?, hr₂?, hr₃?, hd?, hd⟩

end Words

theorem holdsEra_int64 : HoldsEra Int64 := ⟨by decide, by decide⟩

theorem holdsEra_uint32 : HoldsEra UInt32 := ⟨by decide, by decide⟩

/-- The years of 32 bits of days fit into 32 bits by far. -/
theorem marchYear_bounds (days : Int32) :
    -6000000 ≤ marchYear days.toInt ∧ marchYear days.toInt ≤ 6000000 := by
  have hlow := days.le_toInt
  have hhigh := days.toInt_lt
  obtain ⟨hdoe0, hdoe1⟩ := dayOfEra_bounds days.toInt
  obtain ⟨⟨hyoe0, hyoe1⟩, -⟩ := yearOfEra_spec hdoe0 hdoe1
  have hera : -14697 ≤ (days.toInt + 719468) / 146097 ∧ (days.toInt + 719468) / 146097 ≤ 14704 := by
    omega
  rw [marchYear]
  omega

namespace JsonEncoder

/-- On 64 bits nothing overflows, for any day of 32 bits. -/
theorem isoDate_eq (days : Int32) :
    (isoDate days).1.toInt = (Date.ofDays days.toInt).year ∧
      (isoDate days).2.1.toInt = (Date.ofDays days.toInt).month ∧
      (isoDate days).2.2.toInt = (Date.ofDays days.toInt).day := by
  have hlow := days.le_toInt
  have hhigh := days.toInt_lt
  unfold isoDate
  -- one intermediate result after the other, each with the integer it stands for
  extract_lets z era doe yoe y doy mp d m
  have hz : val z = days.toInt + 719468 :=
    val_add (Int32.toInt_toInt64 days) rfl (fits_int64.2 (by omega))
  clear_value z
  have hera : val era = (days.toInt + 719468) / 146097 := by
    have hshifted : val (if 0 ≤ z then z else z - 146096) =
        if 0 ≤ days.toInt + 719468 then days.toInt + 719468
        else days.toInt + 719468 - 146096 := by
      have hsign : (0 ≤ z) ↔ 0 ≤ days.toInt + 719468 := by
        rw [Int64.le_iff_toInt_le]
        exact hz ▸ Iff.rfl
      simp only [hsign]
      split_ifs
      · exact hz
      · exact val_sub hz rfl (fits_int64.2 (by omega))
    rw [← era_eq]
    exact val_div hshifted rfl (by decide)
  clear_value era
  have hdoe : val doe = dayOfEra days.toInt := by
    have hmul := val_mul (b := (146097 : Int64)) (y := 146097) hera rfl (fits_int64.2 (by omega))
    have hsub := val_sub hz hmul (fits_int64.2 (by omega))
    rw [dayOfEra]
    exact hsub.trans (by omega)
  clear_value doe
  obtain ⟨hdoe0, hdoe1⟩ := dayOfEra_bounds days.toInt
  have hyoe : val yoe = yearOfEra (dayOfEra days.toInt) := by
    obtain ⟨r₁, r₂, r₃, h₁, h₂, h₃, hval⟩ := exists_yearOfEra? (1460 : Int64) 36524 146096 365
      holdsEra_int64 hdoe hdoe0 hdoe1 rfl rfl rfl rfl
    obtain rfl := eq_of_sub? h₁
    obtain rfl := eq_of_add? h₂
    obtain rfl := eq_of_sub? h₃
    exact hval
  clear_value yoe
  obtain ⟨⟨hyoe0, hyoe1⟩, -⟩ := yearOfEra_spec hdoe0 hdoe1
  have hy : val y = marchYear days.toInt :=
    val_add hyoe (val_mul (b := (400 : Int64)) (y := 400) hera rfl (fits_int64.2 (by omega)))
      (fits_int64.2 (by omega))
  clear_value y
  obtain ⟨hdoy0, hdoy1⟩ := dayOfYear_bounds days.toInt
  have hdoy : val doy = dayOfYear days.toInt := by
    obtain ⟨r₁, r₂, r₃, doy', h₁, h₂, h₃, h₄, hval⟩ := exists_dayOfYear? (365 : Int64) 4 100
      holdsEra_int64 hdoe hdoe1 hyoe ⟨hyoe0, hyoe1⟩ hdoy0 rfl rfl rfl
    obtain rfl := eq_of_mul? h₁
    obtain rfl := eq_of_add? h₂
    obtain rfl := eq_of_sub? h₃
    obtain rfl := eq_of_sub? h₄
    exact hval
  clear_value doy
  obtain ⟨⟨hmp0, hmp1⟩, hfirst, -⟩ := marchMonth_spec hdoy0 (by omega)
  have hmp : val mp = marchMonth (dayOfYear days.toInt) := by
    obtain ⟨r₁, r₂, h₁, h₂, hval⟩ := exists_marchMonth? (5 : Int64) 2 153
      holdsEra_int64 hdoy hdoy0 (by omega) rfl rfl rfl
    obtain rfl := eq_of_mul? h₁
    obtain rfl := eq_of_add? h₂
    exact hval
  clear_value mp
  have hd : val d = (Date.ofDays days.toInt).day := by
    obtain ⟨r₁, r₂, r₃, d', h₁, h₂, h₃, h₄, hval⟩ := exists_marchDay? (153 : Int64) 2 5 1
      holdsEra_int64 hdoy (by omega) hmp ⟨hmp0, hmp1⟩ hfirst rfl rfl rfl rfl
    obtain rfl := eq_of_mul? h₁
    obtain rfl := eq_of_add? h₂
    obtain rfl := eq_of_sub? h₃
    obtain rfl := eq_of_add? h₄
    exact hval
  have hm : val m = monthOf (marchMonth (dayOfYear days.toInt)) := by
    have hlt : mp < 10 ↔ marchMonth (dayOfYear days.toInt) < 10 := by
      rw [Int64.lt_iff_toInt_lt]
      exact hmp ▸ Iff.rfl
    have hstep : val (if mp < 10 then (3 : Int64) else -9) =
        if marchMonth (dayOfYear days.toInt) < 10 then 3 else -9 := by
      simp only [hlt]
      split_ifs <;> rfl
    rw [monthOf]
    exact (val_add hmp hstep (fits_int64.2 (by split_ifs <;> omega))).trans (by split_ifs <;> omega)
  clear_value m
  have hle : m ≤ 2 ↔ monthOf (marchMonth (dayOfYear days.toInt)) ≤ 2 := by
    rw [Int64.le_iff_toInt_le]
    exact hm ▸ Iff.rfl
  refine ⟨?_, ?_, hd⟩
  · have hyear : val (if m ≤ 2 then (1 : Int64) else 0) =
        if monthOf (marchMonth (dayOfYear days.toInt)) ≤ 2 then 1 else 0 := by
      simp only [hle]
      split_ifs <;> rfl
    have hbound := marchYear_bounds days
    refine (val_add hy hyear (fits_int64.2 (by split_ifs <;> omega))).trans ?_
    rw [Date.ofDays]
    dsimp only
    split_ifs <;> omega
  · have hpos : 0 ≤ monthOf (marchMonth (dayOfYear days.toInt)) := by
      rw [monthOf]
      split_ifs <;> omega
    exact hm.trans (Int.toNat_of_nonneg hpos).symm

theorem encodeIsoDate_eq (days : Int32) :
    encodeIsoDate days = zeroFilled 4 (signedDecimal (Date.ofDays days.toInt).year) ++
      (ascii "-" ++ (zeroPadded 2 (Date.ofDays days.toInt).month ++ (ascii "-" ++
        zeroPadded 2 (Date.ofDays days.toInt).day))) := by
  obtain ⟨hyear, hmonth, hday⟩ := isoDate_eq days
  have hpos := (Date.ofDays days.toInt).day_pos
  rw [← zeroFilled_signedDecimal (Int.natCast_nonneg _), ← zeroFilled_signedDecimal (by omega),
    ← hyear, ← hmonth, ← hday]
  rfl

/-- What `encodeIsoDate` computes is a date of the calendar, and the calendar counts up to it by the days
that it was computed from. -/
theorem isoDate_calendar (days : Int32) :
    ∃ date : Date, date.dayNumber = days.toInt ∧ (isoDate days).1.toInt = date.year ∧
      (isoDate days).2.1.toInt = date.month ∧ (isoDate days).2.2.toInt = date.day ∧
        encodeIsoDate days = zeroFilled 4 (signedDecimal date.year) ++ (ascii "-" ++
          (zeroPadded 2 date.month ++ (ascii "-" ++ zeroPadded 2 date.day))) := by
  obtain ⟨hyear, hmonth, hday⟩ := isoDate_eq days
  exact ⟨Date.ofDays days.toInt, Date.dayNumber_ofDays _, hyear, hmonth, hday, encodeIsoDate_eq days⟩

end JsonEncoder

/-! ## The printer of values, on 32 bits -/

/-- `dateToIso`, nothing where an intermediate result of 32 bits overflows. -/
def dateToIso? (days : Int32) : Option Bytes := do
  let z ← add? days 719468
  let shifted ← (if 0 ≤ z then some z else sub? z 146096 :)
  let era := shifted / 146097
  let doe := (← sub? z (← mul? era 146097)).toUInt32
  let yoe := (← sub? (← add? (← sub? doe (doe / 1460)) (doe / 36524)) (doe / 146096)) / 365
  let y ← add? yoe.toInt32 (← mul? era 400)
  let doy ← sub? doe (← sub? (← add? (← mul? 365 yoe) (yoe / 4)) (yoe / 100))
  let mp := (← add? (← mul? 5 doy) 2) / 153
  let d ← add? (← sub? doy ((← add? (← mul? 153 mp) 2) / 5)) 1
  let m ← (if mp < 10 then add? mp 3 else sub? mp 9 :)
  let y ← (if m ≤ 2 then add? y 1 else some y :)
  some (zeroPadded 4 y.toInt ++ (ascii "-" ++ (zeroPadded 2 m.toNat ++ (ascii "-" ++
    zeroPadded 2 d.toNat))))

/-- What the checked computation goes on with. -/
theorem eq_of_bind {α β : Type} {x : Option α} {a : α} {f : α → Option β} {b : β}
    (hx : ∀ {c}, x = some c → c = a) (h : x.bind f = some b) : f a = some b := by
  obtain ⟨c, hc, hf⟩ := Option.bind_eq_some_iff.1 h
  exact hx hc ▸ hf

theorem bind_eq {α β : Type} {x : Option α} {a : α} {f : α → Option β} {b : Option β}
    (hx : x = some a) (h : f a = b) : x.bind f = b := by
  rw [hx]
  exact h

/-- Without an overflow it prints what `dateToIso` prints. -/
theorem dateToIso_of_checked {days : Int32} {text : Bytes} (h : dateToIso? days = some text) :
    dateToIso days = text := by
  -- the three branches, one checked operation in each
  have hshifted : ∀ {z c : Int32}, (if 0 ≤ z then some z else sub? z 146096) = some c →
      c = if 0 ≤ z then z else z - 146096 := by
    intro z c hc
    split_ifs at hc ⊢
    · exact (Option.some.inj hc).symm
    · exact eq_of_sub? hc
  have hmonth : ∀ {mp c : UInt32}, (if mp < 10 then add? mp 3 else sub? mp 9) = some c →
      c = if mp < 10 then mp + 3 else mp - 9 := by
    intro mp c hc
    split_ifs at hc ⊢
    · exact eq_of_add? hc
    · exact eq_of_sub? hc
  have hyear : ∀ {m : UInt32} {y c : Int32}, (if m ≤ 2 then add? y 1 else some y) = some c →
      c = if m ≤ 2 then y + 1 else y := by
    intro m y c hc
    split_ifs at hc ⊢
    · exact eq_of_add? hc
    · exact (Option.some.inj hc).symm
  rw [dateToIso?] at h
  -- the era, and the day of it
  replace h := eq_of_bind eq_of_add? h
  replace h := eq_of_bind hshifted h
  replace h := eq_of_bind eq_of_mul? h
  replace h := eq_of_bind eq_of_sub? h
  -- the year of the era, and the year
  replace h := eq_of_bind eq_of_sub? h
  replace h := eq_of_bind eq_of_add? h
  replace h := eq_of_bind eq_of_sub? h
  replace h := eq_of_bind eq_of_mul? h
  replace h := eq_of_bind eq_of_add? h
  -- the day of the year
  replace h := eq_of_bind eq_of_mul? h
  replace h := eq_of_bind eq_of_add? h
  replace h := eq_of_bind eq_of_sub? h
  replace h := eq_of_bind eq_of_sub? h
  -- its month and its day
  replace h := eq_of_bind eq_of_mul? h
  replace h := eq_of_bind eq_of_add? h
  replace h := eq_of_bind eq_of_mul? h
  replace h := eq_of_bind eq_of_add? h
  replace h := eq_of_bind eq_of_sub? h
  replace h := eq_of_bind eq_of_add? h
  replace h := eq_of_bind hmonth h
  replace h := eq_of_bind hyear h
  exact Option.some.inj h

theorem dateToIso?_eq {days : Int32} (h : days.toInt ≤ 2146764179) :
    dateToIso? days = some (zeroPadded 4 (Date.ofDays days.toInt).year ++ (ascii "-" ++
      (zeroPadded 2 (Date.ofDays days.toInt).month ++ (ascii "-" ++
        zeroPadded 2 (Date.ofDays days.toInt).day)))) := by
  have hlow := days.le_toInt
  obtain ⟨z, hz?, hz⟩ := exists_add? (a := days) (b := 719468) (x := days.toInt) (y := 719468) rfl rfl
    (fits_int32.2 (by omega))
  obtain ⟨shifted, hshifted?, hshifted⟩ : ∃ c, (if 0 ≤ z then some z else sub? z 146096) = some c ∧
      val c = if 0 ≤ days.toInt + 719468 then days.toInt + 719468
        else days.toInt + 719468 - 146096 := by
    have hsign : (0 ≤ z) ↔ 0 ≤ days.toInt + 719468 := by
      rw [Int32.le_iff_toInt_le]
      exact hz ▸ Iff.rfl
    simp only [hsign]
    split_ifs
    · exact ⟨z, rfl, hz⟩
    · exact exists_sub? hz rfl (fits_int32.2 (by omega))
  have hera : val (shifted / 146097) = (days.toInt + 719468) / 146097 := by
    rw [← era_eq]
    exact val_div hshifted rfl (by decide)
  obtain ⟨back, hback?, hback⟩ := exists_mul? (b := 146097) (y := 146097) hera rfl
    (fits_int32.2 (by omega))
  obtain ⟨left, hleft?, hleft⟩ := exists_sub? hz hback (fits_int32.2 (by omega))
  obtain ⟨hdoe0, hdoe1⟩ := dayOfEra_bounds days.toInt
  have hdoe : val left.toUInt32 = dayOfEra days.toInt :=
    val_toUInt32 (hleft.trans (by rw [dayOfEra]; omega)) hdoe0
  -- the year of the era
  obtain ⟨r₁, r₂, r₃, hr₁?, hr₂?, hr₃?, hyoe⟩ := exists_yearOfEra? (1460 : UInt32) 36524 146096 365
    holdsEra_uint32 hdoe hdoe0 hdoe1 rfl rfl rfl rfl
  obtain ⟨⟨hyoe0, hyoe1⟩, -⟩ := yearOfEra_spec hdoe0 hdoe1
  have hsigned : val (r₃ / 365).toInt32 = yearOfEra (dayOfEra days.toInt) :=
    val_toInt32 hyoe (by omega)
  obtain ⟨first, hfirst?, hfirst⟩ := exists_mul? (b := 400) (y := 400) hera rfl
    (fits_int32.2 (by omega))
  obtain ⟨y, hy?, hy⟩ : ∃ y, add? (r₃ / 365).toInt32 first = some y ∧ val y = marchYear days.toInt :=
    exists_add? hsigned hfirst (fits_int32.2 (by omega))
  -- the day of the year
  obtain ⟨hdoy0, hdoy1⟩ := dayOfYear_bounds days.toInt
  obtain ⟨r₄, r₅, r₆, doy, hr₄?, hr₅?, hr₆?, hdoy?, hdoy⟩ := exists_dayOfYear? (365 : UInt32) 4 100
    holdsEra_uint32 hdoe hdoe1 hyoe ⟨hyoe0, hyoe1⟩ hdoy0 rfl rfl rfl
  -- its month and its day
  obtain ⟨⟨hmp0, hmp1⟩, hfront, -⟩ := marchMonth_spec hdoy0 (by omega)
  obtain ⟨r₇, r₈, hr₇?, hr₈?, hmp⟩ := exists_marchMonth? (5 : UInt32) 2 153
    holdsEra_uint32 hdoy hdoy0 (show dayOfYear days.toInt ≤ 365 by omega) rfl rfl rfl
  obtain ⟨r₉, r₁₀, r₁₁, d, hr₉?, hr₁₀?, hr₁₁?, hd?, hd⟩ := exists_marchDay? (153 : UInt32) 2 5 1
    holdsEra_uint32 hdoy (show dayOfYear days.toInt ≤ 365 by omega) hmp ⟨hmp0, hmp1⟩ hfront rfl rfl rfl
    rfl
  have hday : (d.toNat : Int) = (Date.ofDays days.toInt).day := hd
  obtain ⟨m, hm?, hm⟩ : ∃ m, (if r₈ / 153 < 10 then add? (r₈ / 153) 3 else sub? (r₈ / 153) 9) =
      some m ∧ val m = monthOf (marchMonth (dayOfYear days.toInt)) := by
    have hlt : r₈ / 153 < 10 ↔ marchMonth (dayOfYear days.toInt) < 10 := by
      rw [UInt32.lt_iff_toNat_lt, ← Int.ofNat_lt]
      exact hmp ▸ Iff.rfl
    simp only [hlt, monthOf]
    split_ifs
    · exact exists_add? hmp rfl (fits_uint32.2 (by omega))
    · exact exists_sub? hmp rfl (fits_uint32.2 (by omega))
  obtain ⟨year, hyear?, hyear⟩ : ∃ c, (if m ≤ 2 then add? y 1 else some y) = some c ∧
      val c = (Date.ofDays days.toInt).year := by
    have hle : m ≤ 2 ↔ monthOf (marchMonth (dayOfYear days.toInt)) ≤ 2 := by
      rw [UInt32.le_iff_toNat_le, ← Int.ofNat_le]
      exact hm ▸ Iff.rfl
    have hbound := marchYear_bounds days
    simp only [hle, Date.ofDays]
    split_ifs
    · exact exists_add? hy rfl (fits_int32.2 (by omega))
    · exact ⟨y, rfl, hy⟩
  have hmonth : (m.toNat : Int) = (Date.ofDays days.toInt).month := by
    have hpos : 0 ≤ monthOf (marchMonth (dayOfYear days.toInt)) := hm ▸ Int.natCast_nonneg _
    exact hm.trans (Int.toNat_of_nonneg hpos).symm
  rw [← hyear, ← hmonth, ← hday, dateToIso?]
  exact bind_eq hz? (bind_eq hshifted? (bind_eq hback? (bind_eq hleft? (bind_eq hr₁? (bind_eq hr₂?
    (bind_eq hr₃? (bind_eq hfirst? (bind_eq hy? (bind_eq hr₄? (bind_eq hr₅? (bind_eq hr₆?
      (bind_eq hdoy? (bind_eq hr₇? (bind_eq hr₈? (bind_eq hr₉? (bind_eq hr₁₀? (bind_eq hr₁₁?
        (bind_eq hd? (bind_eq hm? (bind_eq hyear? rfl))))))))))))))))))))

/-! ## Timestamps -/

/-- `timestampToIso`, likewise: only the step back by a day is on 32 bits. -/
def timestampToIso? (millis : Int64) : Option Bytes := do
  let sec := millis / 1000
  let ms := millis % 1000
  let sec' := if ms < 0 then sec - 1 else sec
  let ms' := if ms < 0 then ms + 1000 else ms
  let days := (sec' / 86400).toInt32
  let rem := sec' % 86400
  let days' ← (if rem < 0 then sub? days 1 else some days :)
  let rem' := if rem < 0 then rem + 86400 else rem
  let hh := (rem' / 3600).toInt32
  let mm := (rem' / 60 % 60).toInt32
  let ss := (rem' % 60).toInt32
  let date ← dateToIso? days'
  some (date ++ (ascii "T" ++ (zeroPadded 2 hh.toInt ++ (ascii ":" ++ (zeroPadded 2 mm.toInt ++
    (ascii ":" ++ (zeroPadded 2 ss.toInt ++ (ascii "." ++ (zeroPadded 3 ms'.toInt ++ ascii "Z")))))))))

/-- `encodeIsoTimestamp`, likewise. -/
def JsonEncoder.encodeIsoTimestamp? (ms : Int64) : Option Bytes := do
  let days := (ms / 86400000).toInt32
  let rem := ms % 86400000
  let days' ← (if rem < 0 then sub? days 1 else some days :)
  let rem' := if rem < 0 then rem + 86400000 else rem
  let h := (rem' / 3600000).toInt32
  let rem := rem' % 3600000
  let mn := (rem / 60000).toInt32
  let rem := rem % 60000
  let s := (rem / 1000).toInt32
  let fff := (rem % 1000).toInt32
  some (encodeIsoDate days' ++ (ascii "T" ++ (zeroFilled 2 (signedDecimal h.toInt) ++ (ascii ":" ++
    (zeroFilled 2 (signedDecimal mn.toInt) ++ (ascii ":" ++ (zeroFilled 2 (signedDecimal s.toInt) ++
      (ascii "." ++ (zeroFilled 3 (signedDecimal fff.toInt) ++ ascii "Z")))))))))

/-- Both printers write the same text for a date, and nothing overflows on 32 bits on the way. -/
def DatesAgree (days : Int32) : Prop :=
  ∃ text, dateToIso? days = some text ∧ (Value.date days).toString = text ∧
    JsonEncoder.encodeValue (.date days) = ascii "\"" ++ text ++ ascii "\""

def TimestampsAgree (ms : Int64) : Prop :=
  ∃ text, timestampToIso? ms = some text ∧ JsonEncoder.encodeIsoTimestamp? ms = some text ∧
    (Value.timestamp ms).toString = text ∧
      JsonEncoder.encodeValue (.timestamp ms) = ascii "\"" ++ text ++ ascii "\""

/-- The step back by a day. -/
theorem previousDay_eq {rem : Int64} {days c : Int32}
    (h : (if rem < 0 then sub? days 1 else some days) = some c) :
    c = if rem < 0 then days - 1 else days := by
  split_ifs at h ⊢
  · exact eq_of_sub? h
  · exact (Option.some.inj h).symm

theorem timestampToIso_of_checked {ms : Int64} {text : Bytes} (h : timestampToIso? ms = some text) :
    timestampToIso ms = text := by
  rw [timestampToIso?] at h
  replace h := eq_of_bind previousDay_eq h
  replace h := eq_of_bind (fun hdate => (dateToIso_of_checked hdate).symm) h
  exact Option.some.inj h

theorem JsonEncoder.encodeIsoTimestamp_of_checked {ms : Int64} {text : Bytes}
    (h : encodeIsoTimestamp? ms = some text) : encodeIsoTimestamp ms = text := by
  rw [encodeIsoTimestamp?] at h
  replace h := eq_of_bind previousDay_eq h
  exact Option.some.inj h

/-- The step back does not overflow unless it leads to the last day of 32 bits. -/
theorem previousDay?_eq {q rem : Int64} {day : Int} (hday : val (if rem < 0 then q - 1 else q) = day)
    (h : (Int32.ofInt day).toInt < 2 ^ 31 - 1) :
    (if rem < 0 then sub? q.toInt32 1 else some q.toInt32) = some (Int32.ofInt day) := by
  have hcut := toInt32_eq_ofInt hday
  split_ifs at hcut ⊢
  · rw [Int64.toInt32_sub] at hcut
    have hone : (1 : Int64).toInt32 = 1 := rfl
    rw [hone] at hcut
    rw [← hcut] at h ⊢
    have hlow := q.toInt32.le_toInt
    have hhigh := q.toInt32.toInt_lt
    refine if_pos (fits_int32.2 ⟨?_, ?_⟩)
    · by_contra hover
      have hfirst : q.toInt32.toInt = -2 ^ 31 := by
        have hval : val q.toInt32 - val (1 : Int32) = q.toInt32.toInt - 1 := rfl
        omega
      rw [Int32.toInt_sub, hfirst] at h
      exact absurd h (by decide)
    · have hval : val q.toInt32 - val (1 : Int32) = q.toInt32.toInt - 1 := rfl
      omega
  · rw [hcut]

/-- The time of the day, by its milliseconds. -/
def clock (t : Int) : Bytes :=
  ascii "T" ++ (zeroPadded 2 (t / 3600000) ++ (ascii ":" ++ (zeroPadded 2 (t / 60000 % 60) ++
    (ascii ":" ++ (zeroPadded 2 (t / 1000 % 60) ++ (ascii "." ++ (zeroPadded 3 (t % 1000) ++
      ascii "Z")))))))

theorem timestampToIso?_eq {ms : Int64} {date : Bytes}
    (h : (Int32.ofInt (ms.toInt / 86400000)).toInt < 2 ^ 31 - 1)
    (hdate : dateToIso? (Int32.ofInt (ms.toInt / 86400000)) = some date) :
    timestampToIso? ms = some (date ++ clock (ms.toInt % 86400000)) := by
  obtain ⟨hsec, hms⟩ := val_floor (a := ms) (b := 1000) (x := ms.toInt) (y := 1000) rfl rfl (by decide)
  obtain ⟨hday, hrem⟩ := val_floor (b := 86400) (y := 86400) hsec rfl (by decide)
  have hdays : ms.toInt / 1000 / 86400 = ms.toInt / 86400000 := by omega
  rw [hdays] at hday
  have hpos : 0 ≤ ms.toInt / 1000 % 86400 := by omega
  have hhh := val_int64_toInt32 (val_div_of_nonneg (b := 3600) (y := 3600) hrem rfl hpos (by decide))
    (fits_int32.2 (by omega))
  have hmin := val_div_of_nonneg (b := 60) (y := 60) hrem rfl hpos (by decide)
  have hmm := val_int64_toInt32 (val_mod_of_nonneg (b := 60) (y := 60) hmin rfl (by omega))
    (fits_int32.2 (by omega))
  have hss := val_int64_toInt32 (val_mod_of_nonneg (b := 60) (y := 60) hrem rfl (by omega))
    (fits_int32.2 (by omega))
  -- both clocks count within the day
  have hours : ms.toInt % 86400000 / 3600000 = ms.toInt / 1000 % 86400 / 3600 := by omega
  have minutes : ms.toInt % 86400000 / 60000 % 60 = ms.toInt / 1000 % 86400 / 60 % 60 := by omega
  have seconds : ms.toInt % 86400000 / 1000 % 60 = ms.toInt / 1000 % 86400 % 60 := by omega
  have millis : ms.toInt % 86400000 % 1000 = ms.toInt % 1000 := by omega
  rw [timestampToIso?, clock, hours, minutes, seconds, millis, ← hhh, ← hmm, ← hss, ← hms]
  exact bind_eq (previousDay?_eq hday h) (bind_eq hdate rfl)

theorem JsonEncoder.encodeIsoTimestamp?_eq {ms : Int64}
    (h : (Int32.ofInt (ms.toInt / 86400000)).toInt < 2 ^ 31 - 1) :
    encodeIsoTimestamp? ms = some (encodeIsoDate (Int32.ofInt (ms.toInt / 86400000)) ++
      clock (ms.toInt % 86400000)) := by
  obtain ⟨hday, hrem⟩ := val_floor (a := ms) (b := 86400000) (x := ms.toInt) (y := 86400000) rfl rfl
    (by decide)
  have hpos : 0 ≤ ms.toInt % 86400000 := by omega
  have hh := val_int64_toInt32
    (val_div_of_nonneg (b := 3600000) (y := 3600000) hrem rfl hpos (by decide))
    (fits_int32.2 (by omega))
  have hrem₁ := val_mod_of_nonneg (b := 3600000) (y := 3600000) hrem rfl hpos
  have hmn := val_int64_toInt32
    (val_div_of_nonneg (b := 60000) (y := 60000) hrem₁ rfl (by omega) (by decide))
    (fits_int32.2 (by omega))
  have hrem₂ := val_mod_of_nonneg (b := 60000) (y := 60000) hrem₁ rfl (by omega)
  have hs := val_int64_toInt32
    (val_div_of_nonneg (b := 1000) (y := 1000) hrem₂ rfl (by omega) (by decide))
    (fits_int32.2 (by omega))
  have hfff := val_int64_toInt32
    (val_mod_of_nonneg (b := 1000) (y := 1000) hrem₂ rfl (by omega))
    (fits_int32.2 (by omega))
  have minutes : ms.toInt % 86400000 / 60000 % 60 =
      ms.toInt % 86400000 % 3600000 / 60000 := by omega
  have seconds : ms.toInt % 86400000 / 1000 % 60 =
      ms.toInt % 86400000 % 3600000 % 60000 / 1000 := by omega
  have millis : ms.toInt % 86400000 % 1000 =
      ms.toInt % 86400000 % 3600000 % 60000 % 1000 := by omega
  rw [encodeIsoTimestamp?, clock, minutes, seconds, millis,
    ← zeroFilled_signedDecimal (by omega), ← zeroFilled_signedDecimal (by omega),
    ← zeroFilled_signedDecimal (by omega), ← zeroFilled_signedDecimal (by omega), ← hh, ← hmn, ← hs,
    ← hfff]
  exact bind_eq (previousDay?_eq hday h) rfl

/-! ## Where the printers agree -/

theorem length_decimal_le_iff {n k : Nat} (hk : 0 < k) : (decimal n).length ≤ k ↔ n < 10 ^ k := by
  rw [decimal, List.length_map]
  exact Nat.length_toDigits_le_iff (by decide) hk

/-- The stream fills up in front of the sign, `printf` behind it: it shows on a negative number with
less than three digits. -/
theorem zeroFilled_year_iff (y : Int) :
    zeroFilled 4 (signedDecimal y) = zeroPadded 4 y ↔ ¬(-99 ≤ y ∧ y ≤ -1) := by
  by_cases hneg : y < 0
  · have hminus : ascii "-" = [45] := by decide
    have hfilled : zeroFilled 4 (signedDecimal y) =
        List.replicate (3 - (decimal y.natAbs).length) 48 ++ 45 :: decimal y.natAbs := by
      simp [zeroFilled, signedDecimal, if_pos hneg, hminus]
    have hpadded : zeroPadded 4 y =
        45 :: (List.replicate (3 - (decimal y.natAbs).length) 48 ++ decimal y.natAbs) := by
      simp [zeroPadded, if_pos hneg, hminus]
    rw [hfilled, hpadded]
    by_cases hshort : (decimal y.natAbs).length ≤ 2
    · have hsmall := (length_decimal_le_iff (by decide)).1 hshort
      obtain ⟨k, hk⟩ : ∃ k, 3 - (decimal y.natAbs).length = k + 1 :=
        ⟨2 - (decimal y.natAbs).length, by omega⟩
      refine iff_of_false ?_ (not_not.2 ⟨by omega, by omega⟩)
      rw [hk, List.replicate_succ]
      intro heq
      exact absurd (List.cons.inj heq).1 (by decide)
    · have hlarge := (length_decimal_le_iff (by decide)).not.1 hshort
      have hzero : 3 - (decimal y.natAbs).length = 0 := by omega
      refine iff_of_true ?_ (by omega)
      rw [hzero]
      rfl
  · exact iff_of_true (zeroFilled_signedDecimal (not_lt.1 hneg)) (by omega)

/-- The days that both printers write in the same way. -/
def PrintableDay (day : Int) : Prop := day ≤ 2146764179 ∧ ¬(-755687 ≤ day ∧ day ≤ -719529)

theorem year_ofDays_iff (day : Int) :
    (-99 ≤ (Date.ofDays day).year ∧ (Date.ofDays day).year ≤ -1) ↔ -755687 ≤ day ∧ day ≤ -719529 := by
  have hfirst := (Date.ofDays day).le_year_iff (y := -99)
  have hnext := (Date.ofDays day).le_year_iff (y := 0)
  have hfirst' : daysBeforeYear (-99) = -755687 := by rw [daysBeforeYear_eq]; decide
  have hnext' : daysBeforeYear 0 = -719528 := by rw [daysBeforeYear_eq]; decide
  rw [Date.dayNumber_ofDays, hfirst'] at hfirst
  rw [Date.dayNumber_ofDays, hnext'] at hnext
  omega

theorem dateToIso?_eq_none {days : Int32} (h : 2146764179 < days.toInt) : dateToIso? days = none := by
  have hover : add? days 719468 = none :=
    add?_eq_none (x := days.toInt) (y := 719468) rfl rfl (by rw [fits_int32]; omega)
  rw [dateToIso?, hover]
  rfl

/-- Both texts of the day are there and are the same. -/
theorem dateToIso?_eq_encodeIsoDate_iff (days : Int32) :
    dateToIso? days = some (JsonEncoder.encodeIsoDate days) ↔ PrintableDay days.toInt := by
  rw [JsonEncoder.encodeIsoDate_eq, PrintableDay, ← year_ofDays_iff, ← zeroFilled_year_iff]
  by_cases hlast : days.toInt ≤ 2146764179
  · rw [dateToIso?_eq hlast, Option.some.injEq, List.append_left_inj, and_iff_right hlast]
    exact eq_comm
  · rw [dateToIso?_eq_none (not_le.1 hlast)]
    exact iff_of_false nofun fun h => hlast h.1

/-- A timestamp that is printed has a day that is printed. -/
theorem exists_dateToIso? {ms : Int64} {text : Bytes} (h : timestampToIso? ms = some text) :
    ∃ date, dateToIso? (Int32.ofInt (ms.toInt / 86400000)) = some date := by
  obtain ⟨hsec, -⟩ := val_floor (a := ms) (b := 1000) (x := ms.toInt) (y := 1000) rfl rfl (by decide)
  obtain ⟨hday, -⟩ := val_floor (b := 86400) (y := 86400) hsec rfl (by decide)
  have hdays : ms.toInt / 1000 / 86400 = ms.toInt / 86400000 := by omega
  have hcut := toInt32_eq_ofInt hday
  rw [hdays] at hcut
  rw [timestampToIso?] at h
  replace h := eq_of_bind previousDay_eq h
  obtain ⟨date, hdate, -⟩ := Option.bind_eq_some_iff.1 h
  refine ⟨date, hcut ▸ ?_⟩
  rw [← hdate, apply_ite Int64.toInt32, Int64.toInt32_sub]
  rfl

theorem datesAgree_iff (days : Int32) : DatesAgree days ↔ PrintableDay days.toInt := by
  rw [← dateToIso?_eq_encodeIsoDate_iff]
  constructor
  · rintro ⟨text, hchecked, -, hjson⟩
    rw [hchecked, List.append_cancel_left (List.append_cancel_right hjson)]
  · intro h
    exact ⟨_, h, dateToIso_of_checked h, rfl⟩

theorem timestampsAgree_iff (ms : Int64) :
    TimestampsAgree ms ↔ PrintableDay (Int32.ofInt (ms.toInt / 86400000)).toInt := by
  rw [← dateToIso?_eq_encodeIsoDate_iff]
  constructor
  · rintro ⟨text, hchecked, hiso, -, -⟩
    obtain ⟨date, hdate⟩ := exists_dateToIso? hchecked
    have hlast : (Int32.ofInt (ms.toInt / 86400000)).toInt ≤ 2146764179 := by
      by_contra hover
      rw [dateToIso?_eq_none (not_le.1 hover)] at hdate
      cases hdate
    rw [timestampToIso?_eq (by omega) hdate] at hchecked
    rw [JsonEncoder.encodeIsoTimestamp?_eq (by omega), ← hchecked] at hiso
    rw [hdate, List.append_cancel_right (Option.some.inj hiso)]
  · intro h
    have hlast := ((dateToIso?_eq_encodeIsoDate_iff _).1 h).1
    have hvalue := timestampToIso?_eq (by omega) h
    refine ⟨_, hvalue, JsonEncoder.encodeIsoTimestamp?_eq (by omega),
      timestampToIso_of_checked hvalue, ?_⟩
    rw [JsonEncoder.encodeValue,
      JsonEncoder.encodeIsoTimestamp_of_checked (JsonEncoder.encodeIsoTimestamp?_eq (by omega))]

/-- Where the two printers agree and nothing overflows on 32 bits: for dates by the day, for timestamps by
the day that is left of theirs on 32 bits. When that cut is not to lose anything either, the day has to
be one of 32 bits. -/
theorem printers_agree_iff (days : Int32) (ms : Int64) :
    (DatesAgree days ↔ PrintableDay days.toInt) ∧
      (TimestampsAgree ms ↔ PrintableDay (Int32.ofInt (ms.toInt / 86400000)).toInt) ∧
        (TimestampsAgree ms ∧ Fits Int32 (ms.toInt / 86400000) ↔
          -2 ^ 31 ≤ ms.toInt / 86400000 ∧ PrintableDay (ms.toInt / 86400000)) := by
  refine ⟨datesAgree_iff days, timestampsAgree_iff ms, ?_⟩
  rw [timestampsAgree_iff, fits_int32]
  constructor
  · rintro ⟨hday, hlow, hhigh⟩
    rw [Int32.toInt_ofInt_of_le hlow (by omega)] at hday
    exact ⟨hlow, hday⟩
  · rintro ⟨hlow, hday⟩
    have hhigh := hday.1
    rw [Int32.toInt_ofInt_of_le hlow (by omega)]
    exact ⟨hday, hlow, by omega⟩

/-- A day of the year -5: the one prints -005-12-21, the other 00-5-12-21. On the last day of 32 bits the
first addition overflows. -/
theorem printers_differ :
    (Value.date (-721000)).toString = ascii "-005-12-21" ∧
      JsonEncoder.encodeValue (.date (-721000)) = ascii "\"00-5-12-21\"" ∧
        ¬ DatesAgree (-721000) ∧ ¬ TimestampsAgree (-62294400000000) ∧ ¬ DatesAgree 2147483647 := by
  -- both texts are of the same day
  have hday : ¬ PrintableDay (-721000) := fun h => h.2 ⟨by decide, by decide⟩
  refine ⟨by decide +kernel, by decide +kernel, ?_, ?_, ?_⟩
  · rw [datesAgree_iff]
    exact hday
  · rw [timestampsAgree_iff]
    exact hday
  · rw [datesAgree_iff]
    exact fun h => absurd h.1 (by decide)

end OpenDB
