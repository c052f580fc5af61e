import OscHost.Host.Behaviour

/-!
A module that asks for the same messages in every period.
-/

namespace OscHost

/-- A message, by its distance from the start of the period. -/
structure Cue where
  destination : Destination
  offset : UInt64
  path : String
  args : List Argument
  deriving DecidableEq, Repr

def Cue.request (period : Period) (cue : Cue) : Request :=
  .message cue.destination (period.frame + cue.offset) cue.path cue.args

structure Sequencer where
  name : String
  inputs : List Cue := []
  outputs : List Cue := []
  /-- A muted one asks for nothing. -/
  muted : Bool := false
  deriving DecidableEq, Repr

def Sequencer.play (s : Sequencer) (period : Period) (cues : List Cue) : List Request :=
  if s.muted then [] else cues.map (·.request period)

instance : Behaviour Sequencer where
  name s := s.name
  input period s := (s.play period s.inputs, s)
  output period s := (s.play period s.outputs, s)
  deliver _ _ s := s

end OscHost
