import RollCall.Plan
import RollCall.Proofs.Rereading
import RollCall.Proofs.WrittenNumber

/-!
# Plans as documents

A plan is read back from the document that it is written as: every name, every list and every delay
is what it was. Only its two spans, which are read in several roundings, may become doubles next to
the ones that were written.
-/

namespace RollCall

/-! ## Doubles -/

namespace Binary64

open Json

variable {x y : Binary64} {m : ℕ}

/-- Whether the significand and the power of ten of the text of a double are exact doubles. -/
def IsShort (x : Binary64) : Prop :=
  x.writtenDecimal.digits ≤ 2 ^ 53 ∧ -22 ≤ x.writtenDecimal.exponent ∧
    x.writtenDecimal.exponent ≤ 22

/-- What a finite double may be read as from its text: one of the same sign at most two places
away, and itself if it is a zero or short. -/
structure ReadsAs (x y : Binary64) : Prop where
  finite : y.isFinite = true
  negative : y.negative = x.negative
  magnitude_le : y.magnitude ≤ x.magnitude + 2
  le_magnitude : x.magnitude ≤ y.magnitude + 2
  same : x.isZero = true ∨ x.IsShort → y = x

/-- The greatest finite doubles, whose neighbours may be infinite. -/
theorem scaled?_greatest (negative : Bool) {k : ℕ} (hk : k < 2) :
    let x := ofMagnitude negative (infinityMagnitude - 2 + k)
    scaled? x.writtenDecimal.digits x.writtenDecimal.exponent =
      some (ofMagnitude false (infinityMagnitude - 1)) := by
  have hall : ∀ negative, ∀ k < 2,
      scaled? (ofMagnitude negative (infinityMagnitude - 2 + k)).writtenDecimal.digits
          (ofMagnitude negative (infinityMagnitude - 2 + k)).writtenDecimal.exponent =
        some (ofMagnitude false (infinityMagnitude - 1)) := by decide +kernel
  exact hall negative k hk

/-- The decimal of a positive double is read as a double near it. -/
theorem exists_scaled (hfinite : x.magnitude < infinityMagnitude) (hpos : 0 < x.magnitude) :
    ∃ m, scaled? x.writtenDecimal.digits x.writtenDecimal.exponent =
        some (ofMagnitude false m) ∧
      m < infinityMagnitude ∧ m ≤ x.magnitude + 2 ∧ x.magnitude ≤ m + 2 := by
  by_cases htop : x.magnitude + 2 < infinityMagnitude
  · have hwrites := writes_writtenDecimal hpos
    have hfit : x.writtenDecimal.digits ≤ 2 ^ 64 := Nat.le_trans hwrites.digits_le (by decide)
    obtain ⟨m, hscaled, hle, hge⟩ := scaled?_near hwrites.digits_pos hfit hwrites.exponent_ge
      (hwrites.exponent_le hfinite) hwrites.rounds htop
    exact ⟨m, hscaled, Nat.lt_of_le_of_lt hle htop, hle, hge⟩
  · obtain ⟨k, hk⟩ := Nat.exists_eq_add_of_le' (Nat.le_of_not_lt htop)
    have hmagnitude : x.magnitude = infinityMagnitude - 2 + k := by omega
    have hscaled := scaled?_greatest x.negative (k := k) (by omega)
    rw [← hmagnitude, ofMagnitude_magnitude] at hscaled
    have hinfinity : 2 ≤ infinityMagnitude := by decide
    exact ⟨_, hscaled, by omega, by omega, by omega⟩

theorem signed_ofMagnitude (negative : Bool) (hm : m < 2 ^ 63) :
    (if negative then (ofMagnitude false m).neg else ofMagnitude false m) =
      ofMagnitude negative m := by
  cases negative with
  | false => rfl
  | true =>
    rw [if_pos rfl, neg, negative_ofMagnitude false hm, magnitude_ofMagnitude false hm]
    rfl

/-- A finite double is read from its text as one that it may be read as. -/
theorem exists_reads (hx : x.isFinite = true) :
    ∃ y, x.ReadsAs y ∧ Reader.real.Reads (writtenNumber x) y := by
  have hfinite : x.magnitude < infinityMagnitude := of_decide_eq_true hx
  by_cases hzero : x.isZero = true
  · have hmagnitude : x.magnitude = 0 := of_decide_eq_true hzero
    have hscaled : scaled? x.writtenDecimal.digits x.writtenDecimal.exponent =
        some (ofMagnitude false 0) := by
      rw [writtenDecimal, if_pos hzero]
      decide +kernel
    have hreads := reads_writtenNumber hx hscaled
    rw [signed_ofMagnitude x.negative (by decide), ← hmagnitude, ofMagnitude_magnitude] at hreads
    exact ⟨x, ⟨hx, rfl, by omega, by omega, fun _ => rfl⟩, hreads⟩
  · have hpos : 0 < x.magnitude := Nat.pos_of_ne_zero fun hmagnitude =>
      hzero (decide_eq_true hmagnitude)
    obtain ⟨m, hscaled, hlt, hle, hge⟩ := exists_scaled hfinite hpos
    have hm := Nat.lt_trans hlt infinityMagnitude_lt
    have hreads := reads_writtenNumber hx hscaled
    rw [signed_ofMagnitude x.negative hm] at hreads
    have hmagnitude := magnitude_ofMagnitude x.negative hm
    have hnegative := negative_ofMagnitude x.negative hm
    refine ⟨_, ⟨?_, hnegative, ?_, ?_, ?_⟩, hreads⟩
    · rw [isFinite, hmagnitude, decide_eq_true hlt]
    · rw [hmagnitude]
      exact hle
    · rw [hmagnitude]
      exact hge
    · rintro (hnone | ⟨hdigits, hlow, hhigh⟩)
      · exact absurd hnone hzero
      · have hwrites := writes_writtenDecimal hpos
        have hexact := scaled?_exact hwrites.digits_pos hdigits hlow hhigh hwrites.rounds hfinite
        rw [hscaled] at hexact
        have hsame := congrArg magnitude (Option.some.inj hexact)
        rw [magnitude_ofMagnitude false hm, magnitude_ofMagnitude false
          (Nat.lt_trans hfinite infinityMagnitude_lt)] at hsame
        rw [hsame, ofMagnitude_magnitude]

-- Two places away does occur: this is the double nearest to `9.050766042302855e-8`.
example :
    let x : Binary64 := ⟨0x3e784ba399c15d18⟩
    scaled? x.writtenDecimal.digits x.writtenDecimal.exponent =
      some (ofMagnitude false (x.magnitude + 2)) := by decide +kernel

end Binary64

/-! ## Records -/

open Json

/-- Settings are read from their document, with spans as those are read. -/
theorem Settings.reads_written {s : Settings} {timeout interval : Binary64}
    (htimeout : Reader.real.Reads (writtenNumber s.timeout) timeout)
    (hinterval : Reader.real.Reads (writtenNumber s.interval) interval) :
    Settings.reader.Reads s.written { s with timeout, interval } := by
  have hstem := Reader.reads_written s.stem
  have hfills : Member.Fills members {}
      [("timeout_secs", writtenNumber s.timeout),
       ("poll_interval_secs", writtenNumber s.interval),
       ("identity_prefix", Json.written s.stem)]
      ⟨some timeout, some interval, some s.stem⟩ := by
    refine .cons rfl rfl (htimeout.map fun x (d : Draft) => { d with timeout := some x }) ?_
    refine .cons rfl rfl (hinterval.map fun x (d : Draft) => { d with interval := some x }) ?_
    exact .cons rfl rfl (hstem.map fun x (d : Draft) => { d with stem := some x }) (.nil _)
  exact Member.reads_writtenObject hfills rfl

theorem Entrant.reads_written {e : Entrant} (hdelay : e.delay < Entrant.delayBound) :
    Entrant.reader.Reads e.written e := by
  have hname := Reader.reads_written e.name
  have hnumeral := reads_numeral hdelay
  have hfills : Member.Fills members {}
      [("name", Json.written e.name), ("delay_ms", Text.numeral e.delay)]
      ⟨some e.name, some e.delay⟩ := by
    refine .cons rfl rfl (hname.map fun x (d : Draft) => { d with name := some x }) ?_
    exact .cons rfl rfl (hnumeral.map fun x (d : Draft) => { d with delay := some x }) (.nil _)
  exact Member.reads_writtenObject hfills rfl

theorem Plan.reads_names (names : List String) :
    (Reader.list Reader.string).Reads (writtenList (names.map Json.written)) names :=
  Reader.reads_writtenList fun name _ => Reader.reads_written name

theorem Plan.reads_entrants {entrants : List Entrant}
    (hdelays : ∀ e ∈ entrants, e.delay < Entrant.delayBound) :
    (Reader.list Entrant.reader).Reads (writtenList (entrants.map Entrant.written)) entrants :=
  Reader.reads_writtenList fun e he => Entrant.reads_written (hdelays e he)

/-- A plan is read from its document, with spans as those are read. -/
theorem Plan.reads_written {p : Plan} {timeout interval : Binary64}
    (htimeout : Reader.real.Reads (writtenNumber p.settings.timeout) timeout)
    (hinterval : Reader.real.Reads (writtenNumber p.settings.interval) interval)
    (hdelays : ∀ e ∈ p.participants, e.delay < Entrant.delayBound) :
    Plan.reader.Reads p.written { p with settings := { p.settings with timeout, interval } } := by
  have hsettings := Settings.reads_written htimeout hinterval
  have hexpected := Plan.reads_names p.expected
  have hparticipants := Plan.reads_entrants hdelays
  have hfills : Member.Fills members {}
      [("wait", p.settings.written), ("expected", writtenList (p.expected.map Json.written)),
       ("participants", writtenList (p.participants.map Entrant.written))]
      ⟨some { p.settings with timeout, interval }, some p.expected, some p.participants⟩ := by
    refine .cons rfl rfl (hsettings.map fun x (d : Draft) => { d with settings := some x }) ?_
    refine .cons rfl rfl (hexpected.map fun x (d : Draft) => { d with expected := some x }) ?_
    exact .cons rfl rfl
      (hparticipants.map fun x (d : Draft) => { d with participants := some x }) (.nil _)
  exact Member.reads_writtenObject hfills rfl

/-- A plan with finite spans is read back from its document with all its names, lists and delays;
each span is read as a double that it may be read as. -/
theorem Plan.json_read_back (p : Plan) (htimeout : p.settings.timeout.isFinite = true)
    (hinterval : p.settings.interval.isFinite = true)
    (hdelays : ∀ e ∈ p.participants, e.delay < Entrant.delayBound) :
    ∃ timeout interval, p.settings.timeout.ReadsAs timeout ∧
      p.settings.interval.ReadsAs interval ∧
      Plan.reader.document p.json =
        .ok { p with settings := { p.settings with timeout, interval } } := by
  obtain ⟨timeout, htimeoutAs, htimeoutReads⟩ := Binary64.exists_reads htimeout
  obtain ⟨interval, hintervalAs, hintervalReads⟩ := Binary64.exists_reads hinterval
  refine ⟨timeout, interval, htimeoutAs, hintervalAs, ?_⟩
  exact (Plan.reads_written htimeoutReads hintervalReads hdelays).document

/-- The demonstration, whose spans are short, is read back as it is. -/
theorem Plan.demonstration_read_back :
    Plan.demonstration.settings.timeout.isFinite = true ∧
      Plan.demonstration.settings.interval.isFinite = true ∧
      (∀ e ∈ Plan.demonstration.participants, e.delay < Entrant.delayBound) ∧
      Plan.reader.document Plan.demonstration.json = .ok Plan.demonstration := by
  have htimeout : Plan.demonstration.settings.timeout.isFinite = true := by decide +kernel
  have hinterval : Plan.demonstration.settings.interval.isFinite = true := by decide +kernel
  have hdelays : ∀ e ∈ Plan.demonstration.participants, e.delay < Entrant.delayBound := by
    decide +kernel
  obtain ⟨timeout, interval, htimeoutAs, hintervalAs, hdocument⟩ :=
    Plan.json_read_back Plan.demonstration htimeout hinterval hdelays
  have htimeoutSame := htimeoutAs.same
    (Or.inr ⟨by decide +kernel, by decide +kernel, by decide +kernel⟩)
  have hintervalSame := hintervalAs.same
    (Or.inr ⟨by decide +kernel, by decide +kernel, by decide +kernel⟩)
  rw [htimeoutSame, hintervalSame] at hdocument
  exact ⟨htimeout, hinterval, hdelays, hdocument⟩

/-- The demonstration with the last double before one second as its timeout. -/
def Plan.belowOneSecond : Plan :=
  { Plan.demonstration with settings := { Settings.standard with timeout := ⟨0x3fefffffffffffff⟩ } }

/-- It is read back with a timeout of one second. -/
theorem Plan.belowOneSecond_read_back :
    Plan.belowOneSecond.settings.timeout.isFinite = true ∧
      Plan.belowOneSecond.settings.interval.isFinite = true ∧
      (∀ e ∈ Plan.belowOneSecond.participants, e.delay < Entrant.delayBound) ∧
      Plan.reader.document Plan.belowOneSecond.json =
        .ok { Plan.belowOneSecond with
          settings := { Settings.standard with timeout := Binary64.ofNat 1 } } ∧
      Binary64.ofNat 1 ≠ Plan.belowOneSecond.settings.timeout := by
  have htimeout : Reader.real.Reads (writtenNumber Plan.belowOneSecond.settings.timeout)
      (Binary64.ofNat 1) := by
    have hreads := reads_writtenNumber (x := Plan.belowOneSecond.settings.timeout)
      (y := Binary64.ofNat 1) (by decide +kernel) (by decide +kernel)
    rwa [if_neg (by decide +kernel)] at hreads
  have hinterval : Reader.real.Reads (writtenNumber Plan.belowOneSecond.settings.interval)
      Settings.standard.interval := by
    have hreads := reads_writtenNumber (x := Plan.belowOneSecond.settings.interval)
      (y := Settings.standard.interval) (by decide +kernel) (by decide +kernel)
    rwa [if_neg (by decide +kernel)] at hreads
  have hdelays : ∀ e ∈ Plan.belowOneSecond.participants, e.delay < Entrant.delayBound := by
    decide +kernel
  refine ⟨by decide +kernel, by decide +kernel, hdelays, ?_, by decide +kernel⟩
  exact (Plan.reads_written htimeout hinterval hdelays).document

end RollCall
