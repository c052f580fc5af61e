import OscHost.Packet.Message
import OscHost.Proofs.Wire.Steps

/-!
# Appending

Every step of writing but one only adds to what is written, even when it fails half-way; so moving the
cursor back to where it was undoes it. The exception is the length word of an element, which is filled
in once the element is complete.
-/

namespace OscHost

namespace Writer

/-- Whether it succeeds or fails, the step keeps what is written. -/
def Appends (step : Write α) : Prop :=
  ∀ w, (∀ a w', step w = .ok a w' → w.written <+: w'.written) ∧
    ∀ e w', step w = .error e w' → w.written <+: w'.written

/-- What is written in the first state is still written in the second. -/
def Extends (w w' : Writer) : Prop := w.written <+: w'.written

theorem extends_refl (w : Writer) : w.Extends w := List.prefix_rfl

theorem appends_pure (a : α) : Appends (pure a) := follows_pure extends_refl a

theorem appends_get : Appends (get : Write Writer) := follows_get extends_refl

theorem appends_throw (error : WireError) : Appends (throw error : Write α) := follows_throw extends_refl error

theorem appends_bind {step : Write α} {next : α → Write β} (first : Appends step)
    (second : ∀ a, Appends (next a)) : Appends (step >>= next) :=
  follows_bind (R := Extends) List.IsPrefix.trans first second

section Checks

variable {c : Prop} [Decidable c] {error : WireError} {f : α → Write β} {step : Write β}

theorem appends_unless (next : Appends step) : Appends (if c then step else throw error >>= f) :=
  follows_ite (R := Extends) next (appends_throw error)

theorem appends_when (next : Appends step) : Appends (if c then throw error >>= f else step) :=
  follows_ite (R := Extends) (appends_throw error) next

end Checks

theorem appends_put (bytes : List UInt8) : Appends (put bytes) := by
  intro w
  constructor
  · intro a w' done
    rw [(put_eq_ok.mp done).2]
    exact List.prefix_append _ _
  · intro e w' failed
    rw [put] at failed
    split at failed
    · cases failed
    · cases failed
      exact List.prefix_rfl

theorem appends_putText (text : String) : Appends (putText text) := by
  rw [putText]
  split
  · exact appends_throw _
  · exact appends_put _

theorem appends_putArgument (arg : Argument) : Appends (putArgument arg) := by
  cases arg with
  | string text | symbol text =>
    show Appends (putPlain text)
    rw [putPlain]
    split
    · exact appends_putText text
    · exact appends_throw _
  | blob data =>
    show Appends (putBlob data)
    intro w
    rw [putBlob]
    split
    · exact appends_put _ w
    · exact ⟨nofun, fun e w' failed => by cases failed; exact List.prefix_rfl⟩
  | true | false | nil | bang => exact appends_pure ()
  | _ => exact appends_put _

theorem appends_putArguments (args : List Argument) : Appends (putArguments args) := by
  induction args with
  | nil => exact appends_pure ()
  | cons arg args ih => exact appends_bind (appends_putArgument arg) fun _ => ih

theorem appends_putMessage (path : String) (args : List Argument) : Appends (putMessage path args) := by
  refine appends_unless (appends_unless (appends_bind appends_get fun w => appends_when ?_))
  exact appends_bind (appends_putText path) fun _ =>
    appends_bind (appends_put _) fun _ => appends_putArguments args

theorem appends_putBundleHeader (time : TimeTag) : Appends (putBundleHeader time) := appends_put _

theorem written_rewind {w w' : Writer} (kept : w.written <+: w'.written) :
    (w'.rewind w.position).written = w.written :=
  (List.prefix_iff_eq_take.mp kept).symm

/-! ### Elements -/

theorem overwrite_middle {front old back patch : List UInt8} (same : old.length = patch.length) :
    overwrite (front ++ old ++ back) front.length patch = front ++ patch ++ back := by
  rw [overwrite, ← same, ← List.length_append, List.drop_left, List.append_assoc front, List.take_left]

variable {w w' : Writer} {front bytes : List UInt8} {content : Write Unit}

theorem beginElement_eq_ok {mark : ElementMark} :
    beginElement w = .ok mark w' ↔ ⟨w.written.length⟩ = mark ∧ put (zeros 4) w = .ok () w' := by
  simp only [beginElement, bind_eq_ok, get_eq_ok, pure_eq_ok]
  constructor
  · rintro ⟨_, _, ⟨rfl, rfl⟩, _, _, put, rfl, rfl⟩
    exact ⟨rfl, put⟩
  · rintro ⟨rfl, put⟩
    exact ⟨w, w, ⟨rfl, rfl⟩, (), w', put, rfl, rfl⟩

theorem appends_beginElement : Appends beginElement :=
  appends_bind appends_get fun _ => appends_bind (appends_put _) fun _ => appends_pure _

/-- The length word of an element is filled in where it was left blank. -/
theorem endElement_eq_ok {done : Unit} (blank : w.written = front ++ (zeros 4 ++ bytes)) :
    endElement ⟨front.length⟩ w = .ok done w' ↔
      bytes.length ≤ maxLength ∧ w' = { w with written := front ++ (bigEndian 4 bytes.length ++ bytes) } := by
  have position : w.position = front.length + 4 + bytes.length := by
    rw [Writer.position, blank, List.length_append, List.length_append, length_zeros]
    omega
  have size : w.position - (front.length + 4) = bytes.length := by omega
  have filled : overwrite w.written front.length (bigEndian 4 bytes.length) =
      front ++ (bigEndian 4 bytes.length ++ bytes) := by
    rw [blank, ← List.append_assoc, overwrite_middle (by rw [length_zeros, length_bigEndian]),
      List.append_assoc]
  have behind : front.length + 4 ≤ w.position := by omega
  rw [endElement, size]
  dsimp only
  rw [filled]
  by_cases short : bytes.length ≤ maxLength
  · rw [if_pos ⟨behind, short⟩, EStateM.Result.ok.injEq]
    simp only [short, true_and]
    exact eq_comm
  · rw [if_neg fun both => short both.2]
    exact iff_of_false nofun fun both => short both.1

/-- An element with this content. -/
def putElement (content : Write Unit) : Write Unit := do
  let mark ← beginElement
  content
  endElement mark

theorem appends_putElement (appends : Appends content) : Appends (putElement content) := by
  intro w
  constructor
  · intro done w' put
    simp only [putElement, bind_eq_ok, beginElement_eq_ok] at put
    obtain ⟨_, u, ⟨rfl, begun⟩, _, v, filled, put⟩ := put
    obtain ⟨more, whole⟩ := (appends u).1 _ v filled
    rw [(put_eq_ok.mp begun).2, List.append_assoc] at whole
    rw [((endElement_eq_ok whole.symm).mp put).2]
    exact List.prefix_append _ _
  · intro e w' failed
    simp only [putElement, bind_eq_error] at failed
    rcases failed with failed | ⟨mark, u, begun, failed | ⟨_, v, filled, failed⟩⟩
    · exact (appends_beginElement w).2 e w' failed
    · exact ((appends_beginElement w).1 mark u begun).trans ((appends u).2 e w' failed)
    · have kept := ((appends_beginElement w).1 mark u begun).trans ((appends u).1 _ v filled)
      rw [endElement] at failed
      split at failed
      · cases failed
      · cases failed
        exact kept

theorem putElement_ok {done : Unit} (writes : ∀ u u', content u = .ok () u' → u'.written = u.written ++ bytes)
    (put : putElement content w = .ok done w') :
    (∃ u u', content u = .ok () u') ∧ bytes.length ≤ maxLength ∧
      w'.written = w.written ++ (bigEndian 4 bytes.length ++ bytes) := by
  simp only [putElement, bind_eq_ok, beginElement_eq_ok] at put
  obtain ⟨_, u, ⟨rfl, begun⟩, _, v, filled, put⟩ := put
  have whole := writes u v filled
  rw [(put_eq_ok.mp begun).2, List.append_assoc] at whole
  obtain ⟨short, rfl⟩ := (endElement_eq_ok whole).mp put
  exact ⟨⟨u, v, filled⟩, short, rfl⟩

end Writer

end OscHost
