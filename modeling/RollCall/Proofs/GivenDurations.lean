import RollCall.Proofs.Rereading
import RollCall.Settings

/-!
# Durations that are given to settings

Settings take a duration as a number of seconds, which is the double nearest to the whole seconds
plus the double nearest to the rest, rounded once more, and make a duration of it again. So a
duration goes through four roundings. One nanosecond does not vanish in them. At the other end the
greatest doubles below `2⁶⁴` are `2048` apart, so whole seconds that are at most `1024` short of
`2⁶⁴` are rounded up to it, and `2⁶⁴` seconds are no duration. All others stay below it.
-/

namespace RollCall

namespace Binary64

variable {m num den n : ℕ}

theorem isFinite_ofMagnitude (negative : Bool) (hm : m < infinityMagnitude) :
    (ofMagnitude negative m).isFinite = true := by
  rw [isFinite, magnitude_ofMagnitude negative (Nat.lt_trans hm infinityMagnitude_lt)]
  exact decide_eq_true hm

theorem units_ofRatio (negative : Bool)
    (hlt : nearest (num * unitsPerOne) den < infinityMagnitude) :
    (ofRatio negative num den).units = unitsOf (nearest (num * unitsPerOne) den) := by
  rw [ofRatio, nearestMagnitude_of_lt hlt, units_ofMagnitude negative hlt]

/-! ## The end of the range -/

/-- The magnitude of the greatest double below `2⁶⁴`. -/
def lastBelow : ℕ := nearest ((2 ^ 64 - 2048) * unitsPerOne) 1

theorem lastBelow_lt : lastBelow < infinityMagnitude := by decide +kernel

theorem succ_lastBelow_lt : lastBelow + 1 < infinityMagnitude := by decide +kernel

/-- The middle between the greatest double below `2⁶⁴` and `2⁶⁴` is rounded up. -/
theorem nearest_middle : nearest ((2 ^ 64 - 1024) * unitsPerOne) 1 = lastBelow + 1 := by
  decide +kernel

theorem nearest_before_middle : nearest ((2 ^ 64 - 1025) * unitsPerOne) 1 = lastBelow := by
  decide +kernel

theorem unitsOf_lastBelow : unitsOf lastBelow = (2 ^ 64 - 2048) * unitsPerOne := by decide +kernel

theorem unitsOf_succ_lastBelow : unitsOf (lastBelow + 1) = 2 ^ 64 * unitsPerOne := by
  decide +kernel

/-- A whole number that is less than `1024` short of `2⁶⁴`, or exactly so much, is rounded up. -/
theorem units_ofNat_of_middle_le (hle : 2 ^ 64 - 1024 ≤ n) (hn : n ≤ 2 ^ 64) :
    (ofNat n).units = 2 ^ 64 * unitsPerOne := by
  have hnearest : nearest (n * unitsPerOne) 1 = lastBelow + 1 := by
    apply Nat.le_antisymm
    · apply nearest_le Nat.one_pos
      rw [unitsOf_succ_lastBelow, Nat.mul_one]
      exact Nat.mul_le_mul_right _ hn
    · rw [← nearest_middle]
      exact nearest_mul_unitsPerOne_mono hle
  rw [units_ofNat hn, hnearest, unitsOf_succ_lastBelow]

theorem units_ofNat_of_lt_middle (hlt : n < 2 ^ 64 - 1024) :
    (ofNat n).units ≤ (2 ^ 64 - 2048) * unitsPerOne := by
  have hnearest : nearest (n * unitsPerOne) 1 ≤ lastBelow := by
    rw [← nearest_before_middle]
    exact nearest_mul_unitsPerOne_mono (Nat.le_sub_one_of_lt hlt)
  rw [units_ofNat (by omega), ← unitsOf_lastBelow]
  exact unitsOf_strictMono.monotone hnearest

end Binary64

namespace Duration

open Binary64

variable {d : Duration} {m : ℕ}

theorem seconds_lt (d : Duration) : d.seconds < 2 ^ 64 :=
  (Nat.div_lt_iff_lt_mul (by decide)).mpr d.nanos_lt

theorem subNanos_lt (d : Duration) : d.subNanos < nanosPerSecond := Nat.mod_lt _ (by decide)

/-! ## A duration as a number of seconds -/

/-- The double nearest to the nanoseconds beyond the whole seconds is at most one. -/
theorem nearest_subNanos_le (d : Duration) :
    nearest (d.subNanos * unitsPerOne) nanosPerSecond ≤ nearest unitsPerOne 1 := by
  apply nearest_mono (by decide) Nat.one_pos
  rw [Nat.mul_one, Nat.mul_comm]
  exact Nat.mul_le_mul_left _ (Nat.le_of_lt d.subNanos_lt)

theorem units_rest (d : Duration) :
    (ofRatio false d.subNanos nanosPerSecond).units =
      unitsOf (nearest (d.subNanos * unitsPerOne) nanosPerSecond) := by
  have hone : nearest unitsPerOne 1 < infinityMagnitude := by decide +kernel
  exact units_ofRatio false (Nat.lt_of_le_of_lt d.nearest_subNanos_le hone)

theorem units_rest_le (d : Duration) :
    (ofRatio false d.subNanos nanosPerSecond).units ≤ unitsPerOne := by
  have hone : unitsOf (nearest unitsPerOne 1) = unitsPerOne := by decide +kernel
  rw [units_rest]
  calc unitsOf (nearest (d.subNanos * unitsPerOne) nanosPerSecond)
      ≤ unitsOf (nearest unitsPerOne 1) := unitsOf_strictMono.monotone d.nearest_subNanos_le
    _ = unitsPerOne := hone

/-- The magnitude of a duration as a number of seconds, as long as it is finite. -/
def secondsMagnitude (d : Duration) : ℕ :=
  nearest ((ofNat d.seconds).units + (ofRatio false d.subNanos nanosPerSecond).units) 1

theorem toSeconds_eq (hlt : d.secondsMagnitude < infinityMagnitude) :
    d.toSeconds = ofMagnitude false d.secondsMagnitude := by
  rw [toSeconds, add, nearestMagnitude_of_lt hlt, secondsMagnitude]

/-- Durations whose seconds are rounded up to `2⁶⁴` are `2⁶⁴` seconds as a double. -/
theorem secondsMagnitude_of_middle_le (hle : 2 ^ 64 - 1024 ≤ d.seconds) :
    d.secondsMagnitude = lastBelow + 1 := by
  have hwhole := units_ofNat_of_middle_le hle (Nat.le_of_lt d.seconds_lt)
  have hnext : nearest (2 ^ 64 * unitsPerOne + unitsPerOne) 1 = lastBelow + 1 := by decide +kernel
  rw [secondsMagnitude, hwhole]
  apply Nat.le_antisymm
  · rw [← hnext]
    apply nearest_mono Nat.one_pos Nat.one_pos
    rw [Nat.mul_one, Nat.mul_one]
    exact Nat.add_le_add_left d.units_rest_le _
  · apply le_nearest Nat.one_pos
    rw [unitsOf_succ_lastBelow, Nat.mul_one]
    exact Nat.le_add_right _ _

/-- All other durations stay below, since a second more does not reach the middle. -/
theorem secondsMagnitude_of_lt_middle (hlt : d.seconds < 2 ^ 64 - 1024) :
    d.secondsMagnitude ≤ lastBelow := by
  have hnext : nearest ((2 ^ 64 - 2048) * unitsPerOne + unitsPerOne) 1 = lastBelow := by
    decide +kernel
  rw [secondsMagnitude, ← hnext]
  apply nearest_mono Nat.one_pos Nat.one_pos
  rw [Nat.mul_one, Nat.mul_one]
  exact Nat.add_le_add (units_ofNat_of_lt_middle hlt) d.units_rest_le

def nanoMagnitude : ℕ := nearest (1 * unitsPerOne) nanosPerSecond

theorem nanoMagnitude_le (hpos : 0 < d.nanos) : nanoMagnitude ≤ d.secondsMagnitude := by
  have hsplit : nanosPerSecond * d.seconds + d.subNanos = d.nanos := Nat.div_add_mod _ _
  apply le_nearest Nat.one_pos
  rw [Nat.mul_one]
  rcases Nat.eq_zero_or_pos d.seconds with hzero | hsecond
  · rw [hzero, Nat.mul_zero, Nat.zero_add] at hsplit
    have hrest : nanoMagnitude ≤ nearest (d.subNanos * unitsPerOne) nanosPerSecond := by
      apply nearest_mono (by decide) (by decide)
      exact Nat.mul_le_mul_right _ (Nat.mul_le_mul_right _ (by omega))
    rw [units_rest]
    exact Nat.le_add_left_of_le (unitsOf_strictMono.monotone hrest)
  · have hone : unitsOf nanoMagnitude ≤ (ofNat 1).units := by decide +kernel
    have hwhole : (ofNat 1).units ≤ (ofNat d.seconds).units :=
      units_ofNat_mono hsecond (Nat.le_of_lt d.seconds_lt)
    exact Nat.le_add_right_of_le (Nat.le_trans hone hwhole)

/-! ## And back -/

/-- The nanoseconds nearest to a finite double without a sign. -/
def nanosOf (m : ℕ) : ℕ := roundHalfEven (unitsOf m * nanosPerSecond) unitsPerOne

theorem nanosOf_mono {m n : ℕ} (hle : m ≤ n) : nanosOf m ≤ nanosOf n :=
  roundHalfEven_mono (Nat.mul_le_mul_right _ (unitsOf_strictMono.monotone hle))

theorem ofSeconds?_ofMagnitude (hm : m < infinityMagnitude) :
    ofSeconds? (ofMagnitude false m) = ofNanos? (nanosOf m) := by
  have hsign := negative_ofMagnitude false (Nat.lt_trans hm infinityMagnitude_lt)
  simp only [ofSeconds?, isFinite_ofMagnitude false hm, hsign, units_ofMagnitude false hm, nanosOf,
    Bool.not_false, Bool.true_or, Bool.and_self, if_true]

theorem ofSeconds?_toSeconds_of_middle_le (hle : 2 ^ 64 - 1024 ≤ d.seconds) :
    d.toSeconds = Binary64.ofNat (2 ^ 64) ∧ ofSeconds? d.toSeconds = none := by
  have hmagnitude := secondsMagnitude_of_middle_le hle
  have hseconds : d.toSeconds = ofMagnitude false (lastBelow + 1) := by
    rw [← hmagnitude]
    exact toSeconds_eq (hmagnitude ▸ succ_lastBelow_lt)
  rw [hseconds]
  exact ⟨by decide +kernel, by decide +kernel⟩

theorem ofSeconds?_toSeconds_of_lt_middle (hlt : d.seconds < 2 ^ 64 - 1024) :
    ∃ e, ofSeconds? d.toSeconds = some e ∧ (0 < d.nanos → 0 < e.nanos) := by
  have hmagnitude := secondsMagnitude_of_lt_middle hlt
  have hfinite : d.secondsMagnitude < infinityMagnitude :=
    Nat.lt_of_le_of_lt hmagnitude lastBelow_lt
  have hlast : nanosOf lastBelow < Nat.pow 2 64 * nanosPerSecond := by decide +kernel
  have hnanos : nanosOf d.secondsMagnitude < Nat.pow 2 64 * nanosPerSecond :=
    Nat.lt_of_le_of_lt (nanosOf_mono hmagnitude) hlast
  refine ⟨⟨nanosOf d.secondsMagnitude, hnanos⟩, ?_, ?_⟩
  · rw [toSeconds_eq hfinite, ofSeconds?_ofMagnitude hfinite, ofNanos?_eq_some_iff]
  · intro hpos
    have hnano : 0 < nanosOf nanoMagnitude := by decide +kernel
    have hle : nanosOf nanoMagnitude ≤ nanosOf d.secondsMagnitude :=
      nanosOf_mono (nanoMagnitude_le hpos)
    dsimp only
    exact Nat.lt_of_lt_of_le hnano hle

end Duration

namespace Settings

open Duration

theorem seconds_given_timeout (s : Settings) (timeout interval : Duration) :
    ((s.withTimeout timeout).withInterval interval).seconds .timeout = timeout.toSeconds := by
  rw [withTimeout_eq, withInterval_eq, seconds_setSeconds_of_ne _ _ (by decide),
    seconds_setSeconds_self]

theorem seconds_given_interval (s : Settings) (timeout interval : Duration) :
    ((s.withTimeout timeout).withInterval interval).seconds .interval = interval.toSeconds := by
  rw [withInterval_eq, seconds_setSeconds_self]

/-- What becomes of a duration that a span is given as. -/
theorem duration_of_given {s : Settings} {span : Span} {d : Duration}
    (hgiven : s.seconds span = d.toSeconds) :
    (d.seconds < 2 ^ 64 - 1024 ∧ ∃ e, s.duration span = .ok e ∧ (0 < d.nanos → 0 < e.nanos)) ∨
      (2 ^ 64 - 1024 ≤ d.seconds ∧
        s.duration span = .error (.notADuration span (Binary64.ofNat (2 ^ 64)))) := by
  rcases Nat.lt_or_ge d.seconds (2 ^ 64 - 1024) with hlt | hle
  · obtain ⟨e, he, hpos⟩ := ofSeconds?_toSeconds_of_lt_middle hlt
    exact Or.inl ⟨hlt, e, duration_eq_ok_iff.mpr (hgiven ▸ he), hpos⟩
  · obtain ⟨hseconds, hnone⟩ := ofSeconds?_toSeconds_of_middle_le hle
    right
    refine ⟨hle, ?_⟩
    simp only [duration, hgiven, hnone]
    rw [hseconds]

/-- Settings that are given durations can be used, whatever they were before, exactly if neither
duration is so long that its seconds are rounded up to `2⁶⁴`. Otherwise the first that is too long
is refused, as `2⁶⁴` seconds. An interval that is not empty is never refused as empty. -/
theorem check_given_iff (s : Settings) (timeout interval : Duration) (hpos : 0 < interval.nanos) :
    let given := (s.withTimeout timeout).withInterval interval
    (given.check = .ok () ↔
      timeout.seconds < 2 ^ 64 - 1024 ∧ interval.seconds < 2 ^ 64 - 1024) ∧
    (2 ^ 64 - 1024 ≤ timeout.seconds →
      given.check = .error (.notADuration .timeout (Binary64.ofNat (2 ^ 64)))) ∧
    (timeout.seconds < 2 ^ 64 - 1024 → 2 ^ 64 - 1024 ≤ interval.seconds →
      given.check = .error (.notADuration .interval (Binary64.ofNat (2 ^ 64)))) ∧
    given.check ≠ .error .emptyInterval := by
  intro given
  have htimeout : given.seconds .timeout = timeout.toSeconds := seconds_given_timeout s _ _
  have hinterval : given.seconds .interval = interval.toSeconds := seconds_given_interval s _ _
  clear_value given
  rcases duration_of_given htimeout with ⟨hlt, d, hd, -⟩ | ⟨hle, hlong⟩
  · have hshort := Nat.not_le_of_lt hlt
    rcases duration_of_given hinterval with ⟨hlt', e, he, hkept⟩ | ⟨hle', hlong'⟩
    · have hcheck := check_of_ok hd he (hkept hpos)
      have hshort' := Nat.not_le_of_lt hlt'
      rw [hcheck]
      exact ⟨iff_of_true rfl ⟨hlt, hlt'⟩, fun h => absurd h hshort, fun _ h => absurd h hshort',
        by simp⟩
    · have hcheck := check_of_interval_error hd hlong'
      rw [hcheck]
      exact ⟨iff_of_false (by simp) fun h => absurd h.2 (Nat.not_lt_of_le hle'),
        fun h => absurd h hshort, fun _ _ => rfl, by simp⟩
  · have hcheck := check_of_timeout_error hlong
    rw [hcheck]
    exact ⟨iff_of_false (by simp) fun h => absurd h.1 (Nat.not_lt_of_le hle), fun _ => rfl,
      fun h => absurd h (Nat.not_lt_of_le hle), by simp⟩

/-- The longest timeout that can be given, with the shortest interval. -/
theorem greatest_given_duration_accepted :
    let timeout : Duration := ⟨18446744073709550591999999999, by decide⟩
    let interval : Duration := ⟨1, by decide⟩
    0 < interval.nanos ∧
      ((standard.withTimeout timeout).withInterval interval).check = .ok () := by
  intro timeout interval
  have hpos : 0 < interval.nanos := Nat.one_pos
  have hseconds : timeout.seconds < 2 ^ 64 - 1024 ∧ interval.seconds < 2 ^ 64 - 1024 := by decide
  exact ⟨hpos, (check_given_iff standard timeout interval hpos).1.mpr hseconds⟩

/-- The longest duration is refused, as a timeout and as an interval. -/
theorem longest_duration_refused :
    let longest : Duration := ⟨18446744073709551615999999999, by decide⟩
    let second : Duration := ⟨nanosPerSecond, by decide⟩
    ((standard.withTimeout longest).withInterval second).check =
        .error (.notADuration .timeout (Binary64.ofNat (2 ^ 64))) ∧
      ((standard.withTimeout second).withInterval longest).check =
        .error (.notADuration .interval (Binary64.ofNat (2 ^ 64))) := by
  exact ⟨by decide +kernel, by decide +kernel⟩

end Settings

end RollCall
