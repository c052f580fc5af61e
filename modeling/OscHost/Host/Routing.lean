import OscHost.Schedule.Event

/-!
Who receives an event. A broadcast reaches the top-level modules; an event addressed to a module
reaches the children connected under it. Both keep the order in which they were added.
-/

namespace OscHost

structure Routing where
  topLevel : List ModuleId := []
  /-- Parent and child of each connection, oldest first. -/
  connections : List (ModuleId × ModuleId) := []
  deriving DecidableEq, Repr, Inhabited

namespace Routing

def addTopLevel (r : Routing) (id : ModuleId) : Routing :=
  if id ∈ r.topLevel then r else { r with topLevel := r.topLevel ++ [id] }

def connect (r : Routing) (parent child : ModuleId) : Routing :=
  if (parent, child) ∈ r.connections then r
  else { r with connections := r.connections ++ [(parent, child)] }

/-- The answer is whether there was such a connection. -/
def disconnect (r : Routing) (parent child : ModuleId) : Bool × Routing :=
  ((parent, child) ∈ r.connections,
    { r with connections := r.connections.filter (· ≠ (parent, child)) })

/-- Forget a module at the top level, as a parent and as a child. -/
def remove (r : Routing) (id : ModuleId) : Routing :=
  { topLevel := r.topLevel.filter (· ≠ id)
    connections := r.connections.filter fun (parent, child) => parent ≠ id ∧ child ≠ id }

def targets (r : Routing) : Destination → List ModuleId
  | .broadcast => r.topLevel
  | .module id => (r.connections.filter fun (parent, _) => parent = id).map (·.2)

def isTopLevel (r : Routing) (id : ModuleId) : Bool := id ∈ r.topLevel

end Routing

end OscHost
