import OscHost.Packet.Bundle

/-!
Flattening packets. A packet is checked as a whole and then walked depth first; each message is
handed on together with the frame time that belongs to its innermost enclosing bundle. A packet
that fails the check is never walked.
-/

namespace OscHost

/-- How far bundles are taken apart. -/
inductive UnrollMode where
  /-- A bundle is handed on whole. -/
  | none
  /-- At present the same as `full`. -/
  | partway
  | full
  deriving DecidableEq, Repr

instance : Inhabited UnrollMode := ⟨.full⟩

/-- What receives the parts of a packet, as steps on a state. -/
structure UnrollHandler (σ : Type) where
  /-- The frame time for a time tag: asked once per bundle, and for a message on its own. -/
  timestamp : TimeTag → σ → UInt64 × σ
  message : UInt64 → List UInt8 → σ → σ
  /-- A bundle that is not taken apart. -/
  bundle : UInt64 → List UInt8 → σ → σ := fun _ _ state => state

theorem total_splitElements_le (body : List UInt8) :
    total ((splitElements body).map fun element => element.length + 2) ≤ body.length := by
  fun_induction splitElements body with
  | case1 body element rest read shorter ih =>
    rw [List.map_cons, total]
    omega
  | case2 => exact Nat.zero_le _

theorem Bundle.total_elements_le (b : Bundle) :
    total (b.elements.map fun element => element.length + 2) ≤ b.bytes.length := by
  have := total_splitElements_le b.body
  simp only [Bundle.body, List.length_drop] at this
  simp only [Bundle.elements, Bundle.body]
  omega

theorem Bundle.bytes_of_header {bytes : List UInt8} {b : Bundle} (h : Bundle.header bytes = .ok b) :
    b.bytes = bytes := by
  unfold Bundle.header at h
  split at h
  · split at h <;> cases h
  · split at h
    · cases h
    · cases h
      rfl

mutual

def walkBundle (handler : UnrollHandler σ) (b : Bundle) : EStateM WireError σ Unit := fun state =>
  let (time, state) := handler.timestamp b.time state
  have := b.total_elements_le
  walkElements handler time b.elements state
termination_by b.bytes.length + 1
decreasing_by omega

/-- Walk elements of a bundle whose frame time is `time`. -/
def walkElements (handler : UnrollHandler σ) (time : UInt64) (elements : List (List UInt8)) :
    EStateM WireError σ Unit := fun state =>
  match elements with
  | [] => .ok () state
  | element :: rest =>
    if element.head? = some bundleStart then
      match h : Bundle.header element with
      | .error error => .error error state
      | .ok nested =>
        have := Bundle.bytes_of_header h
        match walkBundle handler nested state with
        | .ok () state => walkElements handler time rest state
        | .error error state => .error error state
    else
      walkElements handler time rest (handler.message time element state)
termination_by total (elements.map fun element => element.length + 2)
decreasing_by all_goals grind [total]

end

def unroll (handler : UnrollHandler σ) (mode : UnrollMode) (bytes : List UInt8) :
    EStateM WireError σ Unit := fun state =>
  match Packet.parse bytes with
  | .error error => .error error state
  | .ok (.message m) =>
    let (time, state) := handler.timestamp .immediate state
    .ok () (handler.message time m.bytes state)
  | .ok (.bundle b) =>
    match mode with
    | .none =>
      let (time, state) := handler.timestamp b.time state
      .ok () (handler.bundle time b.bytes state)
    | .partway | .full => walkBundle handler b state

end OscHost
