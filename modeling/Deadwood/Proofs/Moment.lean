import Deadwood.Proofs.Digits
import Deadwood.Quarantine.Moment

/-!
# Moments and their written form

* **`Moment.dayOf_dateOf`**: the date of a day belongs to that day;
* **`Moment.read?_rfc3339`**: a moment is read back from its written form.
-/

namespace Deadwood.Moment

open Text Option List

variable {c : Char} {cycle : Int} {ds rest : List Char} {m : Moment} {d k n q width y : Nat}

/-! ## The calendar

A cycle of 400 years starts in March. Its centuries have 36524 days, but the last one has 36525; a group
of four years has 1461, but the last one of a century may have 1460. -/

def startOf (y : Nat) : Nat := 365 * y + y / 4 - y / 100

theorem exists_parts (h : n < 146097) : ∃ c q k d, n = 36524 * c + 1461 * q + 365 * k + d ∧
    c ≤ 3 ∧ q ≤ 24 ∧ k ≤ 3 ∧ d ≤ 365 ∧ (d = 365 → k = 3 ∧ (q < 24 ∨ c = 3)) := by
  have hcentury : ∃ c r, n = 36524 * c + r ∧ c ≤ 3 ∧ r ≤ 36524 ∧ (r = 36524 → c = 3) := by
    by_cases hlast : n = 146096
    · exact ⟨3, 36524, by omega, by omega, by omega, by omega⟩
    · exact ⟨n / 36524, n % 36524, by omega, by omega, by omega, by omega⟩
  obtain ⟨c, r, rfl, hc, hr, hcr⟩ := hcentury
  have hyear : ∃ k d, r % 1461 = 365 * k + d ∧ k ≤ 3 ∧ d ≤ 365 ∧ (d = 365 → k = 3) := by
    by_cases hlast : r % 1461 = 1460
    · exact ⟨3, 365, by omega, by omega, by omega, by omega⟩
    · exact ⟨r % 1461 / 365, r % 1461 % 365, by omega, by omega, by omega, by omega⟩
  obtain ⟨k, d, hd, hk, hd', hkd⟩ := hyear
  exact ⟨c, r / 1461, k, d, by omega, hc, by omega, hk, hd', by omega⟩

theorem startOf_parts {c : Nat} (hq : q ≤ 24) (hk : k ≤ 3) :
    startOf (100 * c + 4 * q + k) = 36524 * c + 1461 * q + 365 * k := by
  unfold startOf
  omega

theorem year_of_parts {c : Nat} (hn : n = 36524 * c + 1461 * q + 365 * k + d) (hc : c ≤ 3) (hq : q ≤ 24)
    (hk : k ≤ 3) (hd : d ≤ 365) (hlast : d = 365 → k = 3 ∧ (q < 24 ∨ c = 3)) :
    (n - n / 1460 + n / 36524 - n / 146096) / 365 = 100 * c + 4 * q + k := by
  have hgroups : n / 1460 = 25 * c + q + (24 * c + q + 365 * k + d) / 1460 := by omega
  have hcenturies : n / 36524 - n / 146096 = c := by omega
  have hcycle : n / 146096 ≤ n / 36524 := by omega
  generalize ht : (24 * c + q + 365 * k + d) / 1460 = t at hgroups
  omega

/-- The date of a day of a year, both counted from March on, in a cycle. -/
def dateWithin (cycle : Int) (y d : Nat) : Date :=
  let m := (5 * d + 2) / 153
  let month := if m < 10 then m + 3 else m - 9
  ⟨y + cycle * 400 + (if month ≤ 2 then 1 else 0), month, d - (153 * m + 2) / 5 + 1⟩

theorem exists_dateWithin (day : Int) : ∃ (cycle : Int) (y d : Nat),
    dateOf day = dateWithin cycle y d ∧ day = cycle * 146097 + (startOf y + d : Nat) - 719468 ∧ y ≤ 399 ∧
      d ≤ 365 ∧ (d = 365 → y % 4 = 3 ∧ (y % 100 ≠ 99 ∨ y = 399)) := by
  obtain ⟨n, hn⟩ : ∃ n : Nat, (day + 719468 - (day + 719468) / 146097 * 146097).toNat = n := ⟨_, rfl⟩
  have hlt : n < 146097 := by omega
  have hday : day = (day + 719468) / 146097 * 146097 + n - 719468 := by omega
  obtain ⟨c, q, k, d, rfl, hc, hq, hk, hd, hlast⟩ := exists_parts hlt
  have hstart := startOf_parts (c := c) hq hk
  have hyear := year_of_parts rfl hc hq hk hd hlast
  have hrest : 36524 * c + 1461 * q + 365 * k + d - startOf (100 * c + 4 * q + k) = d := by
    rw [hstart, Nat.add_sub_cancel_left]
  have hlast' : d = 365 → (100 * c + 4 * q + k) % 4 = 3 ∧
      ((100 * c + 4 * q + k) % 100 ≠ 99 ∨ 100 * c + 4 * q + k = 399) := by
    clear hday hn hyear hrest
    omega
  refine ⟨(day + 719468) / 146097, 100 * c + 4 * q + k, d, ?_, by rw [hstart]; exact hday, by grind, hd, hlast'⟩
  unfold dateOf dateWithin
  dsimp only
  rw [hn, hyear, ← startOf, hrest]


theorem dayOf_eq {m : Nat} {date : Date} (hy : y ≤ 399)
    (hyear : (if date.month ≤ 2 then date.year - 1 else date.year) = y + cycle * 400)
    (hm : (if date.month > 2 then date.month - 3 else date.month + 9) = m)
    (hd : (153 * m + 2) / 5 + date.day - 1 = d) :
    dayOf date = cycle * 146097 + (startOf y + d : Nat) - 719468 := by
  have hcycle : (y + cycle * 400 : Int) / 400 = cycle := by omega
  have hrest : (y + cycle * 400 - cycle * 400 : Int).toNat = y := by omega
  unfold dayOf startOf
  dsimp only
  rw [hyear, hm, hd, hcycle, hrest, Nat.mul_comm y]

theorem dayOf_dateWithin (hy : y ≤ 399) (hd : d ≤ 365) :
    dayOf (dateWithin cycle y d) = cycle * 146097 + (startOf y + d : Nat) - 719468 := by
  unfold dateWithin
  generalize hm : (5 * d + 2) / 153 = m
  have hfirst : (153 * m + 2) / 5 ≤ d := by omega
  refine dayOf_eq (m := m) hy ?_ ?_ (by dsimp only; omega)
  · dsimp only
    split <;> omega
  · dsimp only
    split <;> split <;> omega

/-- **The date of a day belongs to that day.** -/
theorem dayOf_dateOf (day : Int) : dayOf (dateOf day) = day := by
  obtain ⟨cycle, y, d, hdate, hday, hy, hd, -⟩ := exists_dateWithin day
  rw [hdate, dayOf_dateWithin hy hd, ← hday]

theorem isLeapYear_of_last (hy : y % 4 = 3 ∧ (y % 100 ≠ 99 ∨ y = 399)) : isLeapYear (y + cycle * 400 + 1) = true := by
  have hfour : (y + cycle * 400 + 1 : Int) % 4 = 0 := by omega
  have hcentury : (y + cycle * 400 + 1 : Int) % 100 ≠ 0 ∨ (y + cycle * 400 + 1 : Int) % 400 = 0 := by omega
  simpa [isLeapYear, hfour] using hcentury

def Date.IsValid (d : Date) : Prop :=
  1 ≤ d.month ∧ d.month ≤ 12 ∧ 1 ≤ d.day ∧ d.day ≤ daysIn d.year d.month

theorem daysIn_month : ∀ m < 11, (if [4, 6, 9, 11].contains (if m < 10 then m + 3 else m - 9) then 30 else 31) =
    (153 * (m + 1) + 2) / 5 - (153 * m + 2) / 5 := by
  decide

theorem date_isValid (day : Int) : (dateOf day).IsValid := by
  obtain ⟨cycle, y, d, hdate, -, hy, hd, hlast⟩ := exists_dateWithin day
  rw [hdate]
  unfold dateWithin Date.IsValid
  generalize hm : (5 * d + 2) / 153 = m
  have hmonth : m ≤ 11 := by omega
  dsimp only
  refine ⟨by split <;> omega, by split <;> omega, by omega, ?_⟩
  by_cases hfeb : m = 11
  · subst hfeb
    rw [if_neg (show ¬ 11 < 10 by decide), if_pos (show 11 - 9 ≤ 2 by decide), daysIn, if_pos (by decide)]
    by_cases hleap : d = 365
    · rw [if_pos (isLeapYear_of_last (hlast hleap))]
      omega
    · split <;> omega
  · have hnext : d < (153 * (m + 1) + 2) / 5 := by omega
    have hne : (if m < 10 then m + 3 else m - 9) ≠ 2 := by split <;> omega
    rw [daysIn, if_neg (by simpa using hne), daysIn_month m (by omega)]
    omega

/-! ## Reading -/

theorem isBlank_of_isAsciiDigit (h : isAsciiDigit c = true) : isBlank c = false := by
  have hlow : 48 ≤ c.toNat ∧ c.toNat ≤ 57 := by
    simp only [isAsciiDigit, Bool.and_eq_true, decide_eq_true_eq] at h
    exact ⟨h.1, h.2⟩
  simp only [isBlank, Bool.or_eq_false_iff, Bool.and_eq_false_iff, decide_eq_false_iff_not, beq_eq_false_iff_ne]
  omega

theorem skipBlanks_cons (h : isBlank c = false) (rest : List Char) : skipBlanks (c :: rest) = c :: rest := by
  simp [skipBlanks, h]

theorem skipBlanks_digits (hne : ds ≠ []) (hds : ∀ c ∈ ds, isAsciiDigit c = true)
    (rest : List Char) : skipBlanks (ds ++ rest) = ds ++ rest := by
  obtain ⟨c, ds, rfl⟩ := exists_cons_of_ne_nil hne
  exact skipBlanks_cons (isBlank_of_isAsciiDigit (hds c mem_cons_self)) _

theorem readNumber?_digits (hne : ds ≠ []) (hds : ∀ c ∈ ds, isAsciiDigit c = true) (hwidth : ds.length ≤ width)
    (hrest : ds.length = width ∨ EndsDigits rest) :
    readNumber? width (ds ++ rest) = some (digitsValue ds, rest) := by
  have hdigits : ((ds ++ rest).take width).takeWhile isAsciiDigit = ds := by
    rw [take_append, take_of_length_le hwidth]
    refine takeWhile_digits hds fun c hc => ?_
    rcases hrest with hlen | hrest
    · rw [hlen, Nat.sub_self] at hc
      cases hc
    · refine hrest c ?_
      rw [head?_take] at hc
      split at hc
      · cases hc
      · exact hc
  unfold readNumber?
  dsimp only
  rw [skipBlanks_digits hne hds, hdigits, if_neg (by simpa using hne), drop_left]

theorem readNumber?_padded (hw : 0 < width) (h : n < 10 ^ width) (rest : List Char) :
    readNumber? width (paddedDigits width n ++ rest) = some (n, rest) := by
  have hlen := length_paddedDigits hw h
  rw [readNumber?_digits (paddedDigits_ne_nil width n) (isDigit_padded width n) (Nat.le_of_eq hlen)
    (.inl hlen), digitsValue_paddedDigits]

theorem readMark?_cons (h : isBlank c = false) (rest : List Char) : readMark? c (c :: rest) = some rest := by
  rw [readMark?, skipBlanks_cons h]
  exact if_pos rfl

theorem readNumber?_signed (n : Nat) (hrest : EndsDigits rest) : ((paddedDigits 4 n ++ rest).headD ' ').isDigit = true ∧
      readNumber? (paddedDigits 4 n ++ rest).length (paddedDigits 4 n ++ rest) = some (n, rest) := by
  have hds := isDigit_padded 4 n
  refine ⟨?_, ?_⟩
  · obtain ⟨c, ds, hcons⟩ := exists_cons_of_ne_nil (paddedDigits_ne_nil 4 n)
    rw [hcons] at hds ⊢
    exact hds c mem_cons_self
  · rw [readNumber?_digits (paddedDigits_ne_nil 4 n) hds (by simp) (.inr hrest), digitsValue_paddedDigits]

theorem readYear?_yearText (year : Int) (hrest : EndsDigits rest) :
    readYear? ((yearText year).toList ++ rest) = some (year, rest) := by
  obtain ⟨hdigit, hread⟩ := readNumber?_signed year.natAbs hrest
  unfold yearText
  split
  · rename_i hrange
    simp only [Bool.and_eq_true, decide_eq_true_eq] at hrange
    have hread := readNumber?_padded (show 0 < 4 by decide) (show year.toNat < 10 ^ 4 by omega) rest
    have hds := isDigit_padded 4 year.toNat
    have hne := paddedDigits_ne_nil 4 year.toNat
    rw [toList_paddedNat, readYear?, skipBlanks_digits hne hds]
    have hhead (c : Char) (hc : isAsciiDigit c = false) (tail : List Char) :
        paddedDigits 4 year.toNat ++ rest ≠ c :: tail := by
      obtain ⟨d, ds, hcons⟩ := exists_cons_of_ne_nil hne
      rw [hcons] at hds ⊢
      intro heq
      have := hds d mem_cons_self
      rw [(List.cons.inj heq).1, hc] at this
      cases this
    split
    · rename_i heq
      exact absurd heq (hhead '-' (by decide) _)
    · rename_i heq
      exact absurd heq (hhead '+' (by decide) _)
    · rw [hread, map_some]
      exact congrArg (fun year => some (year, rest)) (Int.toNat_of_nonneg hrange.1)
  · rename_i hrange
    split
    · rename_i hneg
      rw [String.toList_append, toList_paddedNat]
      change readYear? ('-' :: (paddedDigits 4 year.natAbs ++ rest)) = _
      rw [readYear?, skipBlanks_cons (by decide)]
      refine (if_pos hdigit).trans ?_
      rw [hread, map_some]
      exact congrArg (fun year => some (year, rest)) (show -(year.natAbs : Int) = year by omega)
    · rename_i hneg
      rw [String.toList_append, toList_paddedNat]
      change readYear? ('+' :: (paddedDigits 4 year.natAbs ++ rest)) = _
      rw [readYear?, skipBlanks_cons (by decide)]
      refine (if_pos hdigit).trans ?_
      rw [hread, map_some]
      exact congrArg (fun year => some (year, rest)) (show (year.natAbs : Int) = year by omega)

theorem readFraction?_digits (hw : 0 < width) (hwidth : width ≤ 9) (h : n < 10 ^ width) (hrest : EndsDigits rest) :
    readFraction? ('.' :: (paddedDigits width n ++ rest)) = some (n * 10 ^ (9 - width), rest) := by
  have hlen := length_paddedDigits hw h
  rw [readFraction?]
  dsimp only
  rw [takeWhile_digits (isDigit_padded width n) hrest,
    if_neg (by simpa using paddedDigits_ne_nil width n), take_of_length_le (by omega), drop_left, hlen,
    digitsValue_paddedDigits]
  rfl

theorem readFraction?_fractionText (nano : Nat) (rest : List Char) :
    readFraction? ((fractionText nano).toList ++ 'Z' :: rest) = some (nano % nanosPerSecond, 'Z' :: rest) := by
  have hend : EndsDigits ('Z' :: rest) := endsDigits_cons (by decide) rest
  have hlt : nano % nanosPerSecond < 10 ^ 9 := Nat.mod_lt _ (by decide)
  unfold fractionText
  generalize nano % nanosPerSecond = n at hlt
  dsimp only
  split
  · rename_i hzero
    rw [beq_iff_eq.1 hzero]
    rfl
  · split
    · rename_i hmilli
      rw [beq_iff_eq] at hmilli
      rw [String.toList_append, toList_paddedNat]
      refine (readFraction?_digits (by decide) (by decide) (by omega) hend).trans ?_
      rw [show n / 1000000 * 10 ^ (9 - 3) = n by omega]
    · split
      · rename_i hmicro
        rw [beq_iff_eq] at hmicro
        rw [String.toList_append, toList_paddedNat]
        refine (readFraction?_digits (by decide) (by decide) (by omega) hend).trans ?_
        rw [show n / 1000 * 10 ^ (9 - 6) = n by omega]
      · rw [String.toList_append, toList_paddedNat]
        refine (readFraction?_digits (by decide) (by decide) hlt hend).trans ?_
        rw [Nat.sub_self, Nat.pow_zero, Nat.mul_one]

/-- A moment whose time of day exists, in a year that can be read. Only the last second of a minute may be
followed by a leap second. -/
structure IsValid (m : Moment) : Prop where
  second : m.second < 86400
  nano : m.nano < nanosPerSecond ∨ m.second % 60 = 59 ∧ m.nano < 2 * nanosPerSecond
  year : yearInRange (dateOf m.day).year = true

theorem clock_spec (h : m.IsValid) : m.clock.1 ≤ 23 ∧ m.clock.2.1 ≤ 59 ∧ m.clock.2.2 ≤ 60 ∧
      (if m.clock.2.2 == 60 then (59, m.nano % nanosPerSecond + nanosPerSecond)
        else (m.clock.2.2, m.nano % nanosPerSecond)) = (m.second % 60, m.nano) := by
  obtain ⟨hsecond, hnano, -⟩ := h
  unfold clock nanosPerSecond at *
  dsimp only
  refine ⟨by omega, by omega, by omega, ?_⟩
  split
  · rename_i hleap
    rw [beq_iff_eq] at hleap
    exact Prod.ext (by dsimp only; omega) (by dsimp only; omega)
  · rename_i hleap
    rw [beq_iff_eq] at hleap
    exact Prod.ext (by dsimp only; omega) (by dsimp only; omega)

theorem ofLocal?_clock (h : m.IsValid) :
    ofLocal? (dateOf m.day) m.clock.1 m.clock.2.1 m.clock.2.2 (m.nano % nanosPerSecond) 0 = some m := by
  obtain ⟨hmonth, hmonth', hday, hday'⟩ := date_isValid m.day
  obtain ⟨hhour, hminute, hleap, hpair⟩ := clock_spec h
  have hsecond := h.second
  unfold ofLocal?
  rw [if_neg, hpair, dayOf_dateOf]
  · have htotal : m.day * 86400 + (m.clock.1 * 3600 + m.clock.2.1 * 60 + m.second % 60 : Nat) - 0 =
        m.day * 86400 + m.second := by
      unfold clock
      dsimp only
      omega
    dsimp only
    rw [htotal, show (m.day * 86400 + m.second : Int) / 86400 = m.day by omega,
      show ((m.day * 86400 + m.second : Int) % 86400).toNat = m.second by omega]
  · simp only [Bool.or_eq_true, decide_eq_true_eq, h.year, Bool.not_true, Bool.false_eq_true, false_or]
    omega

/-- **A moment is read back from its written form.** -/
theorem read?_rfc3339 (h : m.IsValid) : read? m.rfc3339 = some m := by
  obtain ⟨hmonth, hmonth', hday, hday'⟩ := date_isValid m.day
  obtain ⟨hhour, hminute, hleap, -⟩ := clock_spec h
  have hdays : (dateOf m.day).day ≤ 31 := by
    refine Nat.le_trans hday' ?_
    unfold daysIn
    split <;> split <;> omega
  have hlist : m.rfc3339.toList = (yearText (dateOf m.day).year).toList ++
      '-' :: (paddedDigits 2 (dateOf m.day).month ++ '-' :: (paddedDigits 2 (dateOf m.day).day ++
        'T' :: (paddedDigits 2 m.clock.1 ++ ':' :: (paddedDigits 2 m.clock.2.1 ++
          ':' :: (paddedDigits 2 m.clock.2.2 ++ ((fractionText m.nano).toList ++ ['Z'])))))) := by
    simp [rfc3339, dateText, clockText, two, toList_paddedNat]
  have htwo {n : Nat} (hn : n ≤ 60) (rest : List Char) : readNumber? 2 (paddedDigits 2 n ++ rest) = some (n, rest) :=
    readNumber?_padded (by decide) (by omega) rest
  have hdash := readMark?_cons (c := '-') (by decide)
  have hcolon := readMark?_cons (c := ':') (by decide)
  unfold read?
  rw [hlist]
  refine bind_eq_some_iff.2 ⟨_, readYear?_yearText _ (endsDigits_cons (by decide) _), ?_⟩
  refine bind_eq_some_iff.2 ⟨_, hdash _, ?_⟩
  refine bind_eq_some_iff.2 ⟨_, htwo (by omega) _, ?_⟩
  refine bind_eq_some_iff.2 ⟨_, hdash _, ?_⟩
  refine bind_eq_some_iff.2 ⟨_, htwo (by omega) _, ?_⟩
  refine bind_eq_some_iff.2 ⟨_, rfl, ?_⟩
  refine bind_eq_some_iff.2 ⟨_, htwo (by omega) _, ?_⟩
  refine bind_eq_some_iff.2 ⟨_, hcolon _, ?_⟩
  refine bind_eq_some_iff.2 ⟨_, htwo (by omega) _, ?_⟩
  refine bind_eq_some_iff.2 ⟨_, hcolon _, ?_⟩
  refine bind_eq_some_iff.2 ⟨_, htwo (by omega) _, ?_⟩
  refine bind_eq_some_iff.2 ⟨_, readFraction?_fractionText m.nano [], ?_⟩
  refine bind_eq_some_iff.2 ⟨(0, []), rfl, ?_⟩
  exact ofLocal?_clock h

end Deadwood.Moment
