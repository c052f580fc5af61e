/-!
A wake-up signal. Notifications up to the next acknowledgement count as one, and at most one wake-up
is ever queued.
-/

namespace OscHost

structure Signal where
  /-- A notification came since the last acknowledgement. -/
  pending : Bool := false
  /-- A wake-up waits to be taken. A channel with one place: another wake-up is refused as long as this one is
  there, and taking it empties the channel. -/
  queued : Bool := false
  deriving DecidableEq, Repr, Inhabited

namespace Signal

/-- Raise the signal. The answer is whether this call sent the wake-up. -/
def notify (s : Signal) : Bool × Signal :=
  if s.pending then (false, s) else (true, { pending := true, queued := true })

/-- Let the next notification send a wake-up again. Comes before the data is looked at. -/
def acknowledge (s : Signal) : Signal := { s with pending := false }

/-- Take the queued wake-up, if there is one. -/
def takeWake (s : Signal) : Bool × Signal := (s.queued, { s with queued := false })

theorem notify_of_pending {s : Signal} (pending : s.pending = true) : s.notify = (false, s) := if_pos pending

theorem notify_of_calm {s : Signal} (calm : s.pending = false) :
    s.notify = (true, { pending := true, queued := true }) :=
  if_neg (Bool.eq_false_iff.mp calm)

@[simp] theorem pending_notify (s : Signal) : s.notify.2.pending = true := by
  unfold notify
  split <;> simp_all

@[simp] theorem pending_acknowledge (s : Signal) : s.acknowledge.pending = false := rfl

end Signal

end OscHost
