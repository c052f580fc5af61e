import OscHost.Packet.Message

/-!
Methods by address and format. Patterns are compared for equality, a missing one fits everything,
and of the methods that match a message only the one added first is run.
-/

namespace OscHost

/-- A step on a state, for the messages that fit its patterns. -/
structure Method (σ : Type) where
  path : Option String
  /-- Without the comma in front. -/
  format : Option String
  run : UInt64 → Message → σ → σ

namespace Method

/-- One comma in front of the format is dropped. -/
def ofPatterns (path format : Option String) (run : UInt64 → Message → σ → σ) : Method σ :=
  { path, format := format.map Text.dropComma, run }

def fits (method : Method σ) (m : Message) : Bool :=
  method.path.all (· == m.path) && method.format.all (· == m.format)

end Method

/-- Methods in the order in which they were added. -/
abbrev MethodTable (σ : Type) := List (Method σ)

namespace MethodTable

def add (table : MethodTable σ) (path format : Option String)
    (run : UInt64 → Message → σ → σ) : MethodTable σ :=
  table ++ [Method.ofPatterns path format run]

def dispatch (table : MethodTable σ) (time : UInt64) (m : Message) (state : σ) : Bool × σ :=
  match table.find? (·.fits m) with
  | some method => (true, method.run time m state)
  | none => (false, state)

end MethodTable

end OscHost
