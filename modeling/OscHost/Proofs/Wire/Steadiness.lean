import OscHost.Proofs.Wire.Appending

/-!
# Steady steps

A step of writing does not look beyond the cursor. It goes by what is written and by how much room is left, and
moves the cursor through a buffer whose length stays the same. Both are said of a view of the state, so that
steps of composing can be said to be steady too.
-/

namespace OscHost

/-! ### Steps that go by a view -/

section

variable {ε σ ν α β : Type} {view : σ → ν} {room : ν → Nat}

/-- What is seen of an outcome. -/
def seen (view : σ → ν) : EStateM.Result ε σ α → Except ε α × ν
  | .ok a s => (.ok a, view s)
  | .error e s => (.error e, view s)

/-- The step goes by what is seen of the state, and keeps the room. -/
structure Steady (view : σ → ν) (room : ν → Nat) (step : EStateM ε σ α) : Prop where
  alike : ∀ s t, view s = view t → seen view (step s) = seen view (step t)
  room : ∀ s, room (seen view (step s)).2 = room (view s)

theorem steady_pure (a : α) : Steady view room (pure a : EStateM ε σ α) := by
  constructor
  · intro s t same
    exact congrArg (Prod.mk (Except.ok a)) same
  · intro s
    rfl

theorem steady_throw (e : ε) : Steady view room (throw e : EStateM ε σ α) := by
  constructor
  · intro s t same
    exact congrArg (Prod.mk (Except.error e)) same
  · intro s
    rfl

theorem steady_thrown (e : ε) (next : α → EStateM ε σ β) : Steady view room (throw e >>= next) :=
  steady_throw e

theorem steady_modify {f : σ → σ} (alike : ∀ s t, view s = view t → view (f s) = view (f t))
    (kept : ∀ s, room (view (f s)) = room (view s)) : Steady view room (modify f : EStateM ε σ PUnit) := by
  constructor
  · intro s t same
    exact congrArg (Prod.mk (Except.ok PUnit.unit)) (alike s t same)
  · exact kept

theorem steady_ite {c : Prop} [Decidable c] {x y : EStateM ε σ α} (first : Steady view room x)
    (second : Steady view room y) : Steady view room (if c then x else y) := by
  split
  · exact first
  · exact second

theorem steady_bind {step : EStateM ε σ α} {next : α → EStateM ε σ β} (first : Steady view room step)
    (second : ∀ a, Steady view room (next a)) : Steady view room (step >>= next) := by
  constructor
  · intro s t same
    have stepped := first.alike s t same
    simp only [bind, EStateM.bind]
    generalize step s = one at stepped ⊢
    generalize step t = other at stepped ⊢
    cases one <;> cases other <;> simp only [seen, Prod.mk.injEq, reduceCtorEq, false_and] at stepped
    case ok.ok a u b v =>
      obtain ⟨⟨⟩, reached⟩ := stepped
      exact (second a).alike u v reached
    case error.error e u f v =>
      obtain ⟨⟨⟩, reached⟩ := stepped
      exact congrArg (Prod.mk (Except.error e)) reached
  · intro s
    have kept := first.room s
    simp only [bind, EStateM.bind]
    generalize step s = outcome at kept ⊢
    cases outcome with
    | ok a u => exact ((second a).room u).trans kept
    | error e u => exact kept

/-- The view tells which steady step it is. -/
theorem steady_of_acts {step : EStateM ε σ α}
    (acts : ∀ s, ∃ other, Steady view room other ∧ ∀ t, view s = view t → step t = other t) :
    Steady view room step := by
  constructor
  · intro s t same
    obtain ⟨other, steady, act⟩ := acts s
    rw [act s rfl, act t same]
    exact steady.alike s t same
  · intro s
    obtain ⟨other, steady, act⟩ := acts s
    rw [act s rfl]
    exact steady.room s

theorem steady_get {next : σ → EStateM ε σ α} (alike : ∀ s t, view s = view t → next s = next t)
    (steady : ∀ s, Steady view room (next s)) : Steady view room (get >>= next) := by
  apply steady_of_acts
  intro s
  refine ⟨next s, steady s, ?_⟩
  intro t same
  show next t t = next s t
  rw [alike s t same]

end

/-! ### Writing -/

/-- What is written and how much room is left. -/
structure Cursor where
  written : List UInt8
  remaining : Nat
  deriving DecidableEq, Repr

def Cursor.room (cursor : Cursor) : Nat := cursor.written.length + cursor.remaining

namespace Writer

def cursor (w : Writer) : Cursor := ⟨w.written, w.remaining⟩

abbrev Steady (step : Write α) : Prop := OscHost.Steady cursor Cursor.room step

theorem cursor_eq_iff {w w' : Writer} :
    w.cursor = w'.cursor ↔ w.written = w'.written ∧ w.remaining = w'.remaining := by
  simp [cursor]

theorem cursor_rewind (w : Writer) (position : Nat) :
    (w.rewind position).cursor =
      ⟨w.written.take position, (w.written.drop position).length + w.remaining⟩ := by
  simp [rewind, cursor, remaining]

theorem room_rewind (w : Writer) (position : Nat) : (w.rewind position).cursor.room = w.cursor.room := by
  have whole (w : Writer) : w.cursor.room = w.buffer.length := List.length_append.symm
  rw [whole, whole, buffer_rewind]

theorem steady_put (bytes : List UInt8) : Steady (put bytes) := by
  constructor
  · intro w w' same
    obtain ⟨written, remaining⟩ := cursor_eq_iff.mp same
    rw [put, put, ← remaining]
    split
    · simp only [seen, cursor, Writer.remaining, List.length_drop, written] at remaining ⊢
      rw [remaining]
    · exact congrArg (Prod.mk _) same
  · intro w
    rw [put]
    split
    · simp only [seen, cursor, Cursor.room, remaining, List.length_append, List.length_drop] at *
      omega
    · rfl

theorem steady_putText (text : String) : Steady (putText text) :=
  steady_ite (steady_throw _) (steady_put _)

theorem steady_putBlob (data : List UInt8) : Steady (putBlob data) := by
  have steady := steady_put (sized data)
  constructor
  · intro w w' same
    have remaining := (cursor_eq_iff.mp same).2
    rw [putBlob, putBlob, ← remaining]
    split
    · exact steady.alike w w' same
    · exact congrArg (Prod.mk _) same
  · intro w
    rw [putBlob]
    split
    · exact steady.room w
    · rfl

theorem steady_putArgument (arg : Argument) : Steady (putArgument arg) := by
  cases arg with
  | string text | symbol text => exact steady_ite (steady_putText text) (steady_throw _)
  | blob data => exact steady_putBlob data
  | true | false | nil | bang => exact steady_pure ()
  | _ => exact steady_put _

theorem steady_putArguments (args : List Argument) : Steady (putArguments args) := by
  induction args with
  | nil => exact steady_pure ()
  | cons arg args ih => exact steady_bind (steady_putArgument arg) fun _ => ih

theorem steady_putMessage (path : String) (args : List Argument) : Steady (putMessage path args) := by
  refine steady_ite (steady_ite (steady_get ?_ ?_) (steady_thrown _ _)) (steady_thrown _ _)
  · intro w w' same
    rw [(cursor_eq_iff.mp same).2]
  · intro w
    refine steady_ite (steady_thrown _ _) ?_
    exact steady_bind (steady_putText path) fun _ =>
      steady_bind (steady_put _) fun _ => steady_putArguments args

theorem steady_beginElement : Steady beginElement := by
  apply steady_get
  · intro w w' same
    have written := (cursor_eq_iff.mp same).1
    rw [position, position, written]
  · intro w
    exact steady_bind (steady_put _) fun _ => steady_pure _

theorem length_overwrite {bytes patch : List UInt8} {offset : Nat} (inside : offset + patch.length ≤ bytes.length) :
    (overwrite bytes offset patch).length = bytes.length := by
  simp only [overwrite, List.length_append, List.length_take, List.length_drop]
  omega

theorem steady_endElement (mark : ElementMark) : Steady (endElement mark) := by
  constructor
  · intro w w' same
    obtain ⟨written, remaining⟩ := cursor_eq_iff.mp same
    rw [endElement, endElement, position, position, ← written]
    split
    · exact congrArg (Prod.mk _) (cursor_eq_iff.mpr ⟨rfl, remaining⟩)
    · exact congrArg (Prod.mk _) same
  · intro w
    rw [endElement]
    split
    · rename_i fits
      simp only [seen, cursor, Cursor.room]
      rw [length_overwrite (by rw [length_bigEndian]; exact fits.1)]
      rfl
    · rfl

theorem endElement_error {mark : ElementMark} {w w' : Writer} {e : WireError}
    (failed : endElement mark w = .error e w') : w' = w := by
  unfold endElement at failed
  split at failed <;> cases failed
  rfl

theorem rewind_position (w : Writer) : w.rewind w.position = w := by
  rw [rewind, position, List.take_length, List.drop_length, List.nil_append]

theorem steady_putElement {content : Write Unit} (steady : Steady content) : Steady (putElement content) :=
  steady_bind steady_beginElement fun mark => steady_bind steady fun _ => steady_endElement mark

end Writer

end OscHost
