import Deadwood.Proofs.Opening
import Mathlib.Data.List.Lex
import Mathlib.Data.String.Basic

/-!
# The order of stamps

The names of sessions start with a stamp of the moment at which they were opened. Stamps are compared as texts.

* **`Moment.stamp_lt_iff`**: stamps of years with four digits are in the order of time.
-/

namespace Deadwood

open Text List

variable {us vs : List Char} {j k m n width : Nat}

/-! ## Fields of digits -/

section Fields

variable {xs ys us vs : List Char} {c : Char}

theorem append_lt_append_iff (h : xs.length = ys.length) : xs ++ us < ys ++ vs ↔ xs < ys ∨ xs = ys ∧ us < vs := by
  induction xs generalizing ys with
  | nil =>
    obtain rfl := length_eq_zero_iff.1 h.symm
    simp
  | cons x xs ih =>
    cases ys with
    | nil => cases h
    | cons y ys =>
      rw [cons_append, cons_append, cons_lt_cons_iff, cons_lt_cons_iff, ih (Nat.succ.inj h), List.cons.injEq]
      tauto

theorem digitsValue_cons (c : Char) (cs : List Char) :
    digitsValue (c :: cs) = 10 ^ cs.length * digitValue c + digitsValue cs := by
  have h : digitsValue (c :: cs) = Nat.ofDigitChars 10 (c :: cs) 0 := rfl
  rw [h, Nat.ofDigitChars_cons, Nat.mul_zero, Nat.zero_add, Nat.ofDigitChars_eq_ofDigitChars_zero]
  rfl

theorem digitValue_lt (h : isAsciiDigit c = true) : digitValue c < 10 := by
  simp only [isAsciiDigit, Bool.and_eq_true, decide_eq_true_eq] at h
  have hlow : 48 ≤ c.toNat ∧ c.toNat ≤ 57 := ⟨h.1, h.2⟩
  have hzero : '0'.toNat = 48 := rfl
  unfold digitValue
  omega

theorem digitValue_lt_iff {d : Char} (hc : isAsciiDigit c = true) (hd : isAsciiDigit d = true) :
    c < d ↔ digitValue c < digitValue d := by
  simp only [isAsciiDigit, Bool.and_eq_true, decide_eq_true_eq] at hc hd
  have hc' : 48 ≤ c.toNat := hc.1
  have hd' : 48 ≤ d.toNat := hd.1
  have hzero : '0'.toNat = 48 := rfl
  have hlt : c < d ↔ c.toNat < d.toNat := Iff.rfl
  rw [hlt]
  unfold digitValue
  omega

theorem digitsValue_lt {ds : List Char} (h : ∀ c ∈ ds, isAsciiDigit c = true) :
    digitsValue ds < 10 ^ ds.length := by
  induction ds with
  | nil => decide
  | cons c ds ih =>
    obtain ⟨hc, hds⟩ := forall_mem_cons.1 h
    have hrest := ih hds
    have hfirst := Nat.mul_le_mul_left (10 ^ ds.length) (Nat.le_of_lt_succ (digitValue_lt hc))
    rw [digitsValue_cons, length_cons, Nat.pow_succ]
    omega

theorem lt_of_digitsValue_lt (hlen : xs.length = ys.length) (hxs : ∀ c ∈ xs, isAsciiDigit c = true)
    (hys : ∀ c ∈ ys, isAsciiDigit c = true) (h : digitsValue xs < digitsValue ys) : xs < ys := by
  induction xs generalizing ys with
  | nil =>
    obtain rfl := length_eq_zero_iff.1 hlen.symm
    cases h
  | cons x xs ih =>
    cases ys with
    | nil => cases hlen
    | cons y ys =>
      obtain ⟨hx, hxs'⟩ := forall_mem_cons.1 hxs
      obtain ⟨hy, hys'⟩ := forall_mem_cons.1 hys
      have hlen' : xs.length = ys.length := Nat.succ.inj hlen
      rw [digitsValue_cons, digitsValue_cons, hlen'] at h
      rw [cons_lt_cons_iff]
      rcases lt_trichotomy x y with hlt | rfl | hgt
      · exact .inl hlt
      · exact .inr ⟨rfl, ih hlen' hxs' hys' (Nat.lt_of_add_lt_add_left h)⟩
      · -- the first digit outweighs all that follow
        have hrest := digitsValue_lt hys'
        have hfirst := Nat.mul_le_mul_left (10 ^ ys.length) ((digitValue_lt_iff hy hx).1 hgt)
        rw [Nat.mul_succ] at hfirst
        omega

end Fields

theorem paddedDigits_inj : paddedDigits width n = paddedDigits width m ↔ n = m := by
  constructor
  · intro h
    rw [← digitsValue_paddedDigits width n, h, digitsValue_paddedDigits]
  · rintro rfl
    rfl

theorem paddedDigits_lt_iff (hw : 0 < width) (hn : n < 10 ^ width) (hm : m < 10 ^ width) :
    paddedDigits width n < paddedDigits width m ↔ n < m := by
  have hlt {n m : Nat} (hn : n < 10 ^ width) (hm : m < 10 ^ width) (h : n < m) :
      paddedDigits width n < paddedDigits width m := by
    refine lt_of_digitsValue_lt ?_ (isDigit_padded width n) (isDigit_padded width m) ?_
    · rw [length_paddedDigits hw hn, length_paddedDigits hw hm]
    · rwa [digitsValue_paddedDigits, digitsValue_paddedDigits]
  refine ⟨fun h => ?_, hlt hn hm⟩
  rcases Nat.lt_trichotomy n m with hnm | rfl | hmn
  · exact hnm
  · exact absurd h (lt_irrefl _)
  · exact absurd (hlt hm hn hmn) (lt_asymm h)

theorem field_lt_field_iff (hw : 0 < width) (hn : n < 10 ^ width)
    (hm : m < 10 ^ width) : paddedDigits width n ++ us < paddedDigits width m ++ vs ↔ n < m ∨ n = m ∧ us < vs := by
  rw [append_lt_append_iff (by rw [length_paddedDigits hw hn, length_paddedDigits hw hm]),
    paddedDigits_lt_iff hw hn hm, paddedDigits_inj]

theorem mark_lt_mark_iff {c : Char} : c :: us < c :: vs ↔ us < vs := by
  rw [cons_lt_cons_iff]
  simp

namespace Moment

variable {m : Moment} {d y : Nat}

/-! ## Dates in order -/

theorem startOf_lt {z : Nat} (hyz : y < z) (hd : d ≤ 365) (hlast : d = 365 → y % 4 = 3 ∧ (y % 100 ≠ 99 ∨ y = 399))
    (hz : z ≤ 399) : startOf y + d < startOf z := by
  have hcenturies : y / 100 ≤ y / 4 ∧ z / 100 ≤ z / 4 := by omega
  have hleaps : y / 4 ≤ z / 4 ∧ z / 100 ≤ y / 100 + (z - y) := by omega
  have hnext (h : z = y + 1) : y / 4 + z / 100 + d ≤ z / 4 + y / 100 + 364 := by
    by_cases hfull : d = 365
    · obtain ⟨hfour, hcentury⟩ := hlast hfull
      have : z / 4 = y / 4 + 1 := by omega
      have : z / 100 = y / 100 := by omega
      omega
    · omega
  unfold startOf
  omega

theorem startOf_add_lt (hy : y ≤ 399) (hd : d ≤ 365) : startOf y + d < 146097 := by
  unfold startOf
  omega

theorem month_dateWithin (cycle : Int) (y : Nat) (hd : d ≤ 365) :
    (dateWithin cycle y d).year * 12 + (dateWithin cycle y d).month =
        (y + cycle * 400) * 12 + ((5 * d + 2) / 153 + 3 : Nat) ∧
      1 ≤ (dateWithin cycle y d).month ∧ (dateWithin cycle y d).month ≤ 12 := by
  have hm : (5 * d + 2) / 153 ≤ 11 := by omega
  unfold dateWithin
  generalize (5 * d + 2) / 153 = m at hm
  dsimp only
  by_cases hturn : m < 10
  · rw [if_pos hturn, if_neg (by omega)]
    omega
  · rw [if_neg hturn, if_pos (by omega)]
    omega

theorem dateOf_lt {day day' : Int} (h : day < day') : (dateOf day).year < (dateOf day').year ∨
    (dateOf day).year = (dateOf day').year ∧ ((dateOf day).month < (dateOf day').month ∨
      (dateOf day).month = (dateOf day').month ∧ (dateOf day).day < (dateOf day').day) := by
  obtain ⟨cycle, y, d, hdate, hday, hy, hd, hlast⟩ := exists_dateWithin day
  obtain ⟨cycle', y', d', hdate', hday', hy', hd', hlast'⟩ := exists_dateWithin day'
  -- years are counted from March on
  have hyears : y + cycle * 400 < y' + cycle' * 400 ∨ y + cycle * 400 = y' + cycle' * 400 ∧ d < d' := by
    have hin := startOf_add_lt hy hd
    have hin' := startOf_add_lt hy' hd'
    rcases lt_trichotomy cycle cycle' with hlt | rfl | hgt
    · omega
    · rcases Nat.lt_trichotomy y y' with hlt | rfl | hgt
      · omega
      · omega
      · have := startOf_lt hgt hd' hlast' hy
        omega
    · omega
  obtain ⟨hmonth, hmonths⟩ := month_dateWithin cycle y hd
  obtain ⟨hmonth', hmonths'⟩ := month_dateWithin cycle' y' hd'
  have hdays : (dateWithin cycle y d).day = d - (153 * ((5 * d + 2) / 153) + 2) / 5 + 1 := rfl
  have hdays' : (dateWithin cycle' y' d').day = d' - (153 * ((5 * d' + 2) / 153) + 2) / 5 + 1 := rfl
  rw [hdate, hdate']
  clear hday hday' hdate hdate' h hlast hlast'
  rcases hyears with hlt | ⟨heq, hlt⟩
  · omega
  · have hle : (5 * d + 2) / 153 ≤ (5 * d' + 2) / 153 := by omega
    rcases Nat.eq_or_lt_of_le hle with hsame | hlt
    · rw [← hsame] at hmonth' hdays'
      omega
    · omega

/-! ## Moments in order -/

/-- The position of a moment in time, in nanoseconds. Every second has room for a leap second. -/
def ticks (m : Moment) : Int := (m.day * 86400 + m.second) * (2 * nanosPerSecond) + m.nano

def milli (m : Moment) : Int := m.ticks / 1000000

/-- A moment of a year that is written with four digits. -/
structure IsPlain (m : Moment) : Prop extends m.IsValid where
  first : 0 ≤ (dateOf m.day).year
  last : (dateOf m.day).year ≤ 9999

theorem milli_eq (m : Moment) : m.milli = (m.day * 86400 + m.second) * 2000 + (m.nano / 1000000 : Nat) := by
  unfold milli ticks nanosPerSecond
  omega

theorem IsValid.nano_lt (h : m.IsValid) : m.nano / 1000000 < 2000 := by
  have hnano := h.nano
  unfold nanosPerSecond at hnano
  omega

theorem IsPlain.toList_stamp (h : m.IsPlain) : m.stamp.toList =
    paddedDigits 4 (dateOf m.day).year.toNat ++ (paddedDigits 2 (dateOf m.day).month ++
      (paddedDigits 2 (dateOf m.day).day ++ ('-' :: (paddedDigits 2 m.clock.1 ++ (paddedDigits 2 m.clock.2.1 ++
        (paddedDigits 2 m.clock.2.2 ++ ('-' :: paddedDigits 3 (m.nano % nanosPerSecond / 1000000)))))))) := by
  have hyear : (yearText (dateOf m.day).year).toList = paddedDigits 4 (dateOf m.day).year.toNat := by
    rw [yearText, if_pos (by simp [h.first, h.last]), toList_paddedNat]
  simp [stamp, two, toList_paddedNat, hyear]

theorem IsPlain.fields_lt (h : m.IsPlain) : (dateOf m.day).year.toNat < 10 ^ 4 ∧ (dateOf m.day).month < 10 ^ 2 ∧
    (dateOf m.day).day < 10 ^ 2 ∧ m.clock.1 < 10 ^ 2 ∧ m.clock.2.1 < 10 ^ 2 ∧ m.clock.2.2 < 10 ^ 2 ∧
      m.nano % nanosPerSecond / 1000000 < 10 ^ 3 := by
  obtain ⟨-, hmonth, -, hday⟩ := date_isValid m.day
  obtain ⟨hhour, hminute, hsecond, -⟩ := clock_spec h.toIsValid
  have hyear := h.last
  have hdays : daysIn (dateOf m.day).year (dateOf m.day).month ≤ 31 := by
    unfold daysIn
    split <;> split <;> decide
  unfold nanosPerSecond
  omega

section Order

variable {a b : Moment}

theorem IsPlain.stamp_lt_stamp_iff (ha : a.IsPlain) (hb : b.IsPlain) : a.stamp < b.stamp ↔
    (dateOf a.day).year.toNat < (dateOf b.day).year.toNat ∨ (dateOf a.day).year.toNat = (dateOf b.day).year.toNat ∧
      ((dateOf a.day).month < (dateOf b.day).month ∨ (dateOf a.day).month = (dateOf b.day).month ∧
        ((dateOf a.day).day < (dateOf b.day).day ∨ (dateOf a.day).day = (dateOf b.day).day ∧
          (a.clock.1 < b.clock.1 ∨ a.clock.1 = b.clock.1 ∧ (a.clock.2.1 < b.clock.2.1 ∨ a.clock.2.1 = b.clock.2.1 ∧
            (a.clock.2.2 < b.clock.2.2 ∨ a.clock.2.2 = b.clock.2.2 ∧
              a.nano % nanosPerSecond / 1000000 < b.nano % nanosPerSecond / 1000000))))) := by
  obtain ⟨ha₀, ha₁, ha₂, ha₃, ha₄, ha₅, ha₆⟩ := ha.fields_lt
  obtain ⟨hb₀, hb₁, hb₂, hb₃, hb₄, hb₅, hb₆⟩ := hb.fields_lt
  rw [String.lt_iff_toList_lt, ha.toList_stamp, hb.toList_stamp, field_lt_field_iff (by decide) ha₀ hb₀,
    field_lt_field_iff (by decide) ha₁ hb₁, field_lt_field_iff (by decide) ha₂ hb₂, mark_lt_mark_iff,
    field_lt_field_iff (by decide) ha₃ hb₃, field_lt_field_iff (by decide) ha₄ hb₄,
    field_lt_field_iff (by decide) ha₅ hb₅, mark_lt_mark_iff, paddedDigits_lt_iff (by decide) ha₆ hb₆]

theorem stamp_lt_of_milli_lt (ha : a.IsPlain) (hb : b.IsPlain) (h : a.milli < b.milli) : a.stamp < b.stamp := by
  rw [milli_eq, milli_eq] at h
  have hnano := ha.nano_lt
  have hnano' := hb.nano_lt
  have hsecond := ha.second
  have hsecond' := hb.second
  have hfirst := ha.first
  have hfirst' := hb.first
  rw [ha.stamp_lt_stamp_iff hb]
  rcases lt_trichotomy a.day b.day with hday | hday | hday
  · have := dateOf_lt hday
    omega
  · rw [hday]
    refine .inr ⟨rfl, .inr ⟨rfl, .inr ⟨rfl, ?_⟩⟩⟩
    have hleap := ha.nano
    have hleap' := hb.nano
    unfold clock
    unfold nanosPerSecond at *
    dsimp only
    omega
  · omega

theorem stamp_eq_of_milli_eq (ha : a.IsValid) (hb : b.IsValid) (h : a.milli = b.milli) : a.stamp = b.stamp := by
  rw [milli_eq, milli_eq] at h
  have hnano := ha.nano_lt
  have hnano' := hb.nano_lt
  have hsecond := ha.second
  have hsecond' := hb.second
  have hday : a.day = b.day := by omega
  have hclock : a.second = b.second := by omega
  have hmilli : a.nano / 1000000 = b.nano / 1000000 := by omega
  have hleap : a.nano / nanosPerSecond = b.nano / nanosPerSecond := by
    unfold nanosPerSecond
    omega
  have hrest : a.nano % nanosPerSecond / 1000000 = b.nano % nanosPerSecond / 1000000 := by
    unfold nanosPerSecond
    omega
  simp only [stamp, clock, hday, hclock, hleap, hrest]

/-- **Stamps are in the order of time.** -/
theorem stamp_lt_iff (ha : a.IsPlain) (hb : b.IsPlain) : a.stamp < b.stamp ↔ a.milli < b.milli := by
  refine ⟨fun h => ?_, stamp_lt_of_milli_lt ha hb⟩
  rcases lt_trichotomy a.milli b.milli with hlt | heq | hgt
  · exact hlt
  · rw [stamp_eq_of_milli_eq ha.toIsValid hb.toIsValid heq] at h
    exact absurd h (lt_irrefl _)
  · exact absurd (stamp_lt_of_milli_lt hb ha hgt) (lt_asymm h)

theorem stamp_eq_iff (ha : a.IsPlain) (hb : b.IsPlain) : a.stamp = b.stamp ↔ a.milli = b.milli := by
  refine ⟨fun h => ?_, stamp_eq_of_milli_eq ha.toIsValid hb.toIsValid⟩
  rcases lt_trichotomy a.milli b.milli with hlt | heq | hgt
  · exact absurd h (stamp_lt_of_milli_lt ha hb hlt).ne
  · exact heq
  · exact absurd h (stamp_lt_of_milli_lt hb ha hgt).ne'

theorem IsPlain.length_stamp (ha : a.IsPlain) : a.stamp.toList.length = 19 := by
  rw [ha.toList_stamp]
  simp only [length_append, length_cons, length_paddedDigits, ha.fields_lt, Nat.zero_lt_succ]

end Order

end Moment

/-! ## Names of sessions -/

theorem attemptText_lt (h : j < k) (hk : k < 10) : attemptText j < attemptText k := by
  unfold attemptText
  rw [if_neg (show k ≠ 0 by omega)]
  split
  · exact nil_lt_cons _ _
  · rw [mark_lt_mark_iff]
    refine lt_of_digitsValue_lt ?_ (isAsciiDigit_toDigits j) (isAsciiDigit_toDigits k) ?_
    · rw [Nat.toDigits_of_lt_base (h.trans hk), Nat.toDigits_of_lt_base hk]
      rfl
    · rwa [digitsValue_toDigits, digitsValue_toDigits]

section Names

variable {a b : Moment} {j k : Nat}

theorem sessionName_lt_iff (ha : a.IsPlain) (hb : b.IsPlain) : sessionName a.stamp j < sessionName b.stamp k ↔
    a.milli < b.milli ∨ a.milli = b.milli ∧ attemptText j < attemptText k := by
  rw [String.lt_iff_toList_lt, toList_sessionName, toList_sessionName,
    append_lt_append_iff (ha.length_stamp.trans hb.length_stamp.symm), ← String.lt_iff_toList_lt,
    Moment.stamp_lt_iff ha hb, String.toList_inj, Moment.stamp_eq_iff ha hb]

theorem sessionName_inj (ha : a.IsPlain) (hb : b.IsPlain) :
    sessionName a.stamp j = sessionName b.stamp k ↔ a.milli = b.milli ∧ j = k := by
  rw [← String.toList_inj, toList_sessionName, toList_sessionName]
  constructor
  · intro h
    obtain ⟨hstamp, hattempt⟩ := append_inj h (ha.length_stamp.trans hb.length_stamp.symm)
    exact ⟨(Moment.stamp_eq_iff ha hb).1 (String.toList_inj.1 hstamp), attemptText_inj.1 hattempt⟩
  · rintro ⟨hstamp, rfl⟩
    rw [(Moment.stamp_eq_iff ha hb).2 hstamp]

end Names

end Deadwood
