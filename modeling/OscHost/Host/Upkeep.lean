import OscHost.Host.Host

/-!
Upkeep: what the period cycle must not do itself. A pass reads the clocks if that is due, answers the
pool's requests, and turns all pending diagnostics into lines of the log. Passes are made by hand or
by a background worker, which makes one whenever it is woken or the clocks are due.
-/

namespace OscHost

structure Pass where
  resynced : Bool
  toppedUp : Nat
  logged : Nat
  deriving DecidableEq, Repr, Inhabited

namespace Host

/-- Read the clocks if that is due at the instant `now`. -/
def resyncIfDue (host : Host μ) (now : Nat) (reading : ClockPair) : Bool × Host μ :=
  if now < host.nextResync then (false, host)
  else
    let (pair, clamped) := host.clocks.pair.resync reading host.settings.maxClockCorrection
    let hub := match clamped with
      | some step => host.hub.send upkeepSender (.clockStep step)
      | none => host.hub
    (true, { host with
      hub
      clocks := { host.clocks with pair }
      nextResync := now + host.settings.resyncPeriod.nanos })

/-- One pass, and what it logs. The pool's signal is acknowledged before its requests are looked
at. -/
def upkeep (host : Host μ) (now : Nat) (reading : ClockPair) : Pass × List LogLine × Host μ :=
  let (resynced, host) := host.resyncIfDue now reading
  let (sent, pool) := host.pool.acknowledge.topUp
  let (lines, hub) := host.hub.log
  ({ resynced, toppedUp := Pool.shipped sent, logged := lines.length },
    sent.map TopUp.logLine ++ lines, { host with pool, hub })

/-- A pass by hand, which is possible as long as the worker was not started. -/
def upkeepByHand (host : Host μ) (now : Nat) (reading : ClockPair) :
    Option (Pass × List LogLine) × Host μ :=
  match host.worker with
  | .byHand =>
    let (pass, lines, host) := host.upkeep now reading
    (some (pass, lines), host)
  | _ => (none, host)

/-- Have the next pass read the clocks. Has no effect once the worker was started. -/
def forceResync (host : Host μ) (now : Nat) : Host μ :=
  match host.worker with
  | .byHand => { host with nextResync := now }
  | _ => host

/-- Start the worker. One that was told to stop before only logs what is pending. -/
def start (host : Host μ) : Except HostError Unit × Host μ :=
  match host.worker with
  | .byHand =>
    if host.stopRequested then (.ok (), { host with worker := .ended, hub := host.hub.log.2 })
    else (.ok (), { host with worker := .running })
  | _ => (.error .alreadyStarted, host)

def isRunning (host : Host μ) : Bool :=
  match host.worker with
  | .running | .ended => true
  | .byHand | .joined => false

/-- Let a running worker make the pass that it was woken for or that is due. -/
def attend (host : Host μ) (now : Nat) (reading : ClockPair) : Host μ :=
  match host.worker with
  | .running =>
    let (woken, pool) := host.pool.takeWake
    if woken || host.nextResync ≤ now then
      ({ host with pool }.upkeep now reading).2.2
    else
      host
  | _ => host

/-- Stop the worker and wait for it. A running one makes a last pass. -/
def stop (host : Host μ) (now : Nat) (reading : ClockPair) : Host μ :=
  let host := { host with pool := host.pool.notify.2 }
  let host := host.attend now reading
  let worker := if host.worker = .byHand then .byHand else .joined
  { host with stopRequested := true, worker }

end Host

end OscHost
