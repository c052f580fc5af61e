import OscHost.TimeTag

/-!
# Times of day as tags

A tag is the exact time rounded down to units of 2⁻³² seconds, less the whole eras of 2³² seconds that its
seconds have no room for (`UnixTime.era_add_tag`). A unit is shorter than a nanosecond, so within an era tags
are in the order of their times, and the nanoseconds that are read back are those that went in or one less
(`UnixTime.tag_faithful`).
-/

namespace OscHost

namespace TimeTag

theorem toNat_ofParts (seconds fraction : UInt32) :
    (ofParts seconds fraction).bits.toNat = seconds.toNat * UInt32.size + fraction.toNat := by
  have low : fraction.toNat < 2 ^ 32 := fraction.toNat_lt
  have word : seconds.toNat <<< 32 < 2 ^ 64 := by
    have high := seconds.toNat_lt
    rw [Nat.shiftLeft_eq]
    omega
  rw [ofParts, UInt64.toNat_or, UInt64.toNat_shiftLeft, UInt32.toNat_toUInt64, UInt32.toNat_toUInt64]
  show seconds.toNat <<< 32 % 2 ^ 64 ||| fraction.toNat = _
  rw [Nat.mod_eq_of_lt word, ← Nat.shiftLeft_add_eq_or_of_lt low, Nat.shiftLeft_eq]

theorem toNat_fraction (tag : TimeTag) : tag.fraction.toNat = tag.bits.toNat % UInt32.size := by
  rw [fraction, UInt64.toNat_toUInt32]

end TimeTag

/-- Units of 2⁻³² seconds, rounded down. -/
def units (nanos : Nat) : Nat := nanos * UInt32.size / 1000000000

/-- A unit is shorter than a nanosecond. -/
theorem units_lt {nanos later : Nat} (before : nanos < later) : units nanos < units later := by
  have apart : nanos * UInt32.size + 1000000000 ≤ later * UInt32.size := by
    calc nanos * UInt32.size + 1000000000
        ≤ (nanos + 1) * UInt32.size := by rw [Nat.succ_mul]; exact Nat.add_le_add_left (by decide) _
      _ ≤ later * UInt32.size := Nat.mul_le_mul_right _ before
  calc units nanos
      < (nanos * UInt32.size + 1000000000) / 1000000000 := by
        rw [Nat.add_div_right _ (by decide)]
        exact Nat.lt_succ_self _
    _ ≤ units later := Nat.div_le_div_right apart

theorem units_lt_size {nanos : Nat} (part : nanos < 1000000000) : units nanos < UInt32.size :=
  units_lt part

theorem units_le {nanos later : Nat} (atMost : nanos ≤ later) : units nanos ≤ units later :=
  Nat.div_le_div_right (Nat.mul_le_mul_right _ atMost)

theorem units_ne_one (nanos : Nat) : units nanos ≠ 1 := by
  cases nanos with
  | zero => decide
  | succ nanos =>
    have four : 4 ≤ units (nanos + 1) := units_le (Nat.succ_le_succ nanos.zero_le)
    omega

/-- What is read back from a fraction, in nanoseconds. -/
def readBack (units : Nat) : Nat := units * 1000000000 / UInt32.size

theorem readBack_units (nanos : Nat) :
    readBack (units nanos) = nanos ∨ readBack (units nanos) + 1 = nanos := by
  -- Each of the two roundings loses less than a nanosecond.
  have below : units nanos * 1000000000 ≤ nanos * UInt32.size := Nat.div_mul_le_self _ _
  have above : nanos * UInt32.size < units nanos * 1000000000 + 1000000000 :=
    Nat.lt_div_mul_add (by decide)
  have most : readBack (units nanos) ≤ nanos := by
    calc readBack (units nanos)
        ≤ nanos * UInt32.size / UInt32.size := Nat.div_le_div_right below
      _ = nanos := Nat.mul_div_cancel _ (by decide)
  have least : nanos < readBack (units nanos) + 2 := by
    have short : units nanos * 1000000000 < (readBack (units nanos) + 1) * UInt32.size := by
      rw [Nat.succ_mul]
      exact Nat.lt_div_mul_add (by decide)
    refine Nat.lt_of_mul_lt_mul_right (a := UInt32.size) ?_
    calc nanos * UInt32.size
        < units nanos * 1000000000 + 1000000000 := above
      _ < (readBack (units nanos) + 1) * UInt32.size + UInt32.size := Nat.add_lt_add short (by decide)
      _ = (readBack (units nanos) + 2) * UInt32.size := (Nat.succ_mul _ _).symm
  omega

theorem readBack_units_eq_iff {nanos : Nat} : readBack (units nanos) = nanos ↔ 1953125 ∣ nanos := by
  have below : units nanos * 1000000000 ≤ nanos * UInt32.size := Nat.div_mul_le_self _ _
  have whole : 1000000000 ∣ nanos * UInt32.size ↔ 1953125 ∣ nanos := by
    rw [show UInt32.size = 8388608 * 512 from rfl, ← Nat.mul_assoc]
    show 1953125 * 512 ∣ _ ↔ _
    rw [Nat.mul_dvd_mul_iff_right (by decide)]
    exact ⟨Nat.Coprime.dvd_of_dvd_mul_right (by decide), fun whole => Nat.dvd_mul_right_of_dvd whole _⟩
  rw [← whole]
  constructor
  · intro same
    have above : nanos * UInt32.size ≤ units nanos * 1000000000 :=
      (Nat.le_div_iff_mul_le (by decide)).mp (Nat.le_of_eq same.symm)
    exact ⟨units nanos, by rw [Nat.mul_comm 1000000000]; exact Nat.le_antisymm above below⟩
  · intro whole
    rw [readBack, units, Nat.div_mul_cancel whole]
    exact Nat.mul_div_cancel _ (by decide)

/-- A time since 1970. -/
structure UnixTime where
  secs : UInt64
  nanos : UInt32
  nanos_lt : nanos.toNat < 1000000000

namespace UnixTime

variable (time : UnixTime)

def tag : TimeTag := .ofUnix time.secs time.nanos

/-- Since 1900. -/
def wholeSeconds : Nat := time.secs.toNat + TimeTag.unixOffset

/-- How often the seconds of a tag have come round. -/
def era : Nat := time.wholeSeconds / UInt32.size

def exactNanos : Nat := time.wholeSeconds * 1000000000 + time.nanos.toNat

/-- The seconds decide, and where they are the same the nanoseconds. -/
def Before (time later : UnixTime) : Prop :=
  time.secs < later.secs ∨ time.secs = later.secs ∧ time.nanos < later.nanos

theorem exactNanos_lt {time later : UnixTime} (before : time.Before later) : time.exactNanos < later.exactNanos := by
  have part := time.nanos_lt
  rw [exactNanos, exactNanos, wholeSeconds, wholeSeconds]
  rcases before with earlier | ⟨same, earlier⟩
  · have := UInt64.lt_iff_toNat_lt.mp earlier
    omega
  · have := UInt32.lt_iff_toNat_lt.mp earlier
    rw [same]
    omega

theorem toNat_tag :
    time.tag.bits.toNat = time.wholeSeconds % UInt32.size * UInt32.size + units time.nanos.toNat := by
  have fits := units_lt_size time.nanos_lt
  rw [tag, TimeTag.ofUnix, TimeTag.toNat_ofParts, UInt32.toNat_ofNat', ← units, UInt32.toNat_ofNat_of_lt' fits]
  rfl

/-- The tag and the eras before it are the exact time, rounded down. -/
theorem era_add_tag : time.era * UInt64.size + time.tag.bits.toNat = units time.exactNanos := by
  have split : time.exactNanos * UInt32.size =
      time.nanos.toNat * UInt32.size + time.wholeSeconds * UInt32.size * 1000000000 := by
    rw [exactNanos]
    grind
  have seconds : UInt32.size * time.era + time.wholeSeconds % UInt32.size = time.wholeSeconds :=
    Nat.div_add_mod _ _
  calc time.era * UInt64.size + time.tag.bits.toNat
      = (UInt32.size * time.era + time.wholeSeconds % UInt32.size) * UInt32.size + units time.nanos.toNat := by
        rw [toNat_tag, show UInt64.size = UInt32.size * UInt32.size from rfl]
        grind
    _ = units time.exactNanos := by
        rw [seconds, units, units, split, Nat.add_mul_div_right _ _ (by decide), Nat.add_comm]

theorem toNat_fraction_tag : time.tag.fraction.toNat = units time.nanos.toNat := by
  rw [TimeTag.toNat_fraction, toNat_tag, Nat.mul_add_mod_self_right, Nat.mod_eq_of_lt (units_lt_size time.nanos_lt)]

theorem toNat_fractionNanos : time.tag.fractionNanos.toNat = readBack (units time.nanos.toNat) := by
  have small : readBack (units time.nanos.toNat) < UInt32.size := by
    have part := time.nanos_lt
    rcases readBack_units time.nanos.toNat with same | less
    · rw [same]
      exact time.nanos.toNat_lt
    · rw [show UInt32.size = 4294967296 from rfl]
      omega
  rw [TimeTag.fractionNanos, toNat_fraction_tag, ← readBack, UInt32.toNat_ofNat_of_lt' small]

/-- The nanoseconds of whole units are read back as they were, and no others. -/
theorem fractionNanos_eq_iff : time.tag.fractionNanos = time.nanos ↔ 1953125 ∣ time.nanos.toNat := by
  rw [← UInt32.toNat_inj, toNat_fractionNanos]
  exact readBack_units_eq_iff

theorem tag_ne_immediate : time.tag ≠ .immediate := by
  intro same
  have fraction := time.toNat_fraction_tag
  rw [same] at fraction
  exact units_ne_one _ fraction.symm

theorem tag_lt {time later : UnixTime} (before : time.Before later) (same : time.era = later.era) :
    time.tag.bits < later.tag.bits := by
  have less := units_lt (exactNanos_lt before)
  rw [← era_add_tag, ← era_add_tag, same] at less
  exact UInt64.lt_iff_toNat_lt.mpr (Nat.lt_of_add_lt_add_left less)

/-- Within an era the tag of an earlier time is the smaller one. The nanoseconds that are read back from a tag
are those of the time or one less. No time has the tag that asks for execution at once. -/
theorem tag_faithful (time : UnixTime) :
    (∀ later : UnixTime, time.Before later → time.era = later.era → time.tag.bits < later.tag.bits) ∧
      (time.tag.fractionNanos.toNat = time.nanos.toNat ∨
        time.tag.fractionNanos.toNat + 1 = time.nanos.toNat) ∧
      time.tag.isImmediate = false := by
  refine ⟨fun later before same => tag_lt before same, ?_, beq_false_of_ne time.tag_ne_immediate⟩
  rw [toNat_fractionNanos]
  exact readBack_units _

/-- The last nanosecond of a second and the first of the next, in the second era. -/
theorem tag_faithful_second :
    let time : UnixTime := ⟨2085978496, 999999999, by decide⟩
    let later : UnixTime := ⟨2085978497, 0, by decide⟩
    time.Before later ∧ time.era = 1 ∧ later.era = 1 ∧ time.tag.bits < later.tag.bits := by
  intro time later
  have before : time.Before later := .inl (by decide)
  exact ⟨before, by decide, by decide, (tag_faithful time).1 later before (by decide)⟩

end UnixTime

/-- No reading of a clock has the tag that asks for execution at once. -/
theorem TimeTag.ofUnixNanos_ne_immediate (nanos : Int) : ofUnixNanos nanos ≠ immediate := by
  have part : (UInt32.ofNat (nanos.toNat % 1000000000)).toNat < 1000000000 := by
    rw [UInt32.toNat_ofNat']
    omega
  exact UnixTime.tag_ne_immediate ⟨_, _, part⟩

end OscHost
