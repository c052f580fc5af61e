import OscHost.Packet.Message
import OscHost.Proofs.Wire.Locality

/-!
# Where a message ends

Nothing in a packet says how long a message is, yet every message ends at one place: with bytes behind it they
are left over, and short of it something is missing. The address, the format and the arguments are read by
local steps, one for each of them, so this comes down to what a single step does.
-/

namespace OscHost

namespace Read

/-- The steps of a message up to the end of its last argument. -/
def parts : Read (String × List Kind) := do
  let path ← text
  unless Text.isAddress path do throw .invalidPath
  let format ← text
  match utf8 format with
  | first :: tags =>
    if first ≠ comma then throw .invalidFormat
    let kinds ← kinds tags
    return (path, kinds)
  | [] => throw .invalidFormat

theorem local_kinds (letters : List UInt8) : Local (kinds letters) := by
  induction letters with
  | nil => exact local_pure _
  | cons letter letters ih =>
    unfold kinds
    cases Kind.ofByte? letter with
    | none => exact local_throw _
    | some kind => exact local_bind (local_argument kind) fun _ => local_bind ih fun _ => local_pure _

theorem local_parts : Local parts := by
  apply local_bind local_text
  intro path
  apply local_ite _ (local_thrown _ _)
  apply local_bind local_text
  intro format
  cases utf8 format with
  | nil => exact local_throw _
  | cons first letters =>
    apply local_ite (local_thrown _ _)
    apply local_bind (local_kinds letters)
    intro kinds
    exact local_pure _

end Read

/-- What becomes of a message whose parts were read: nothing may be left behind them. -/
def completed {α : Type} : EStateM.Result WireError (List UInt8) α → Except WireError α
  | .ok value [] => .ok value
  | .ok _ rest => .error (.trailingBytes rest.length)
  | .error e _ => .error e

theorem Message.parse_parts {bytes : List UInt8} (some : bytes ≠ []) :
    (Message.parse bytes).map (fun m => (m.path, m.kinds)) = completed (Read.parts bytes) := by
  have nonempty : ¬bytes.isEmpty = true := by simpa using some
  unfold Message.parse Read.message Read.parts
  simp only [get_bind, if_neg nonempty]
  cases read : Read.text bytes with
  | error e left =>
    simp only [bind_of_error read]
    rfl
  | ok path left =>
    simp only [bind_of_ok read]
    by_cases address : Text.isAddress path = true
    · simp only [if_pos address]
      cases read : Read.text left with
      | error e left =>
        simp only [bind_of_error read]
        rfl
      | ok format left =>
        simp only [bind_of_ok read]
        cases utf8 format with
        | nil => rfl
        | cons first letters =>
          by_cases other : first ≠ comma
          · simp only [if_pos other]
            rfl
          · simp only [if_neg other, get_bind]
            cases read : Read.kinds letters left with
            | error e left =>
              simp only [bind_of_error read]
              rfl
            | ok kinds left =>
              simp only [bind_of_ok read, get_bind]
              cases left with
              | nil => rfl
              | cons byte left => rfl
    · simp only [if_neg address]
      rfl

theorem completed_eq_ok {α : Type} {result : EStateM.Result WireError (List UInt8) α} {value : α}
    (accepted : completed result = .ok value) : result = .ok value [] := by
  cases result with
  | error e rest => cases accepted
  | ok found rest =>
    cases rest with
    | nil =>
      cases accepted
      rfl
    | cons byte rest => cases accepted

theorem Message.parts_of_parse {bytes : List UInt8} {m : Message} (parsed : Message.parse bytes = .ok m) :
    bytes ≠ [] ∧ Read.parts bytes = .ok (m.path, m.kinds) [] := by
  have some : bytes ≠ [] := by
    rintro rfl
    cases parsed
  have read := Message.parse_parts some
  rw [parsed] at read
  exact ⟨some, completed_eq_ok read.symm⟩

theorem Message.parse_error {bytes : List UInt8} {e : WireError} (some : bytes ≠ [])
    (failed : completed (Read.parts bytes) = .error e) : Message.parse bytes = .error e := by
  have read := Message.parse_parts some
  rw [failed] at read
  cases parsed : Message.parse bytes with
  | error e' =>
    rw [parsed] at read
    cases read
    rfl
  | ok m =>
    rw [parsed] at read
    cases read

/-- An accepted message ends where it does. With bytes behind it just these are left over, and a part of it
that stops short, wherever that is, is empty or lacks bytes. -/
theorem Message.parse_prefix_free {bytes : List UInt8} {m : Message} (parsed : Message.parse bytes = .ok m) :
    (∀ more, more ≠ [] → Message.parse (bytes ++ more) = .error (.trailingBytes more.length)) ∧
      ∀ front, front <+: bytes → front ≠ bytes →
        front = [] ∧ Message.parse front = .error .empty ∨
          ∃ needed available, available < needed ∧
            Message.parse front = .error (.truncated needed available) := by
  obtain ⟨some, whole⟩ := Message.parts_of_parse parsed
  constructor
  · intro more extra
    have read := Read.local_parts.further more whole
    apply Message.parse_error
    · simp [some]
    · rw [read, List.nil_append]
      cases more with
      | nil => exact absurd rfl extra
      | cons byte more => rfl
  · rintro front ⟨missing, rfl⟩ proper
    by_cases none : front = []
    · subst none
      exact .inl ⟨rfl, rfl⟩
    · refine .inr ?_
      rcases Read.local_parts.cut whole with ⟨rest, -, nothing⟩ | ⟨needed, available, rest, few, failed⟩
      · -- The parts end inside of the front, so nothing is missing.
        obtain ⟨-, rfl⟩ := List.append_eq_nil_iff.mp nothing
        exact absurd (List.append_nil front).symm proper
      · refine ⟨needed, available, few, Message.parse_error none ?_⟩
        rw [failed]
        rfl

/-- A message that ends with arguments without bytes: neither a front of it nor it with a byte behind it is a
message. -/
theorem Message.parse_prefix_free_flags :
    let bytes : List UInt8 := [0x2F, 0x61, 0, 0, 0x2C, 0x62, 0x54, 0x4E, 0, 0, 0, 0, 0, 0, 0, 1, 9, 0, 0, 0]
    (∃ m, Message.parse bytes = .ok m ∧ m.arguments = [.blob [9], .true, .nil]) ∧
      Message.parse (bytes ++ [0]) = .error (.trailingBytes 1) ∧
      ∀ length < 20, ∀ m, Message.parse (bytes.take length) ≠ .ok m := by
  intro bytes
  have accepted : (Message.parse bytes).toOption.map Message.arguments = some [.blob [9], .true, .nil] := by
    decide +kernel
  cases parsed : Message.parse bytes with
  | error e =>
    rw [parsed] at accepted
    cases accepted
  | ok m =>
    rw [parsed] at accepted
    obtain ⟨extended, cut⟩ := Message.parse_prefix_free parsed
    refine ⟨⟨m, rfl, Option.some.inj accepted⟩, extended [0] (List.cons_ne_nil _ _), ?_⟩
    intro length short m' whole
    have proper : bytes.take length ≠ bytes := by
      intro same
      have lengths := congrArg List.length same
      rw [List.length_take, show bytes.length = 20 from rfl] at lengths
      omega
    rcases cut _ (List.take_prefix length bytes) proper with ⟨-, failed⟩ | ⟨_, _, -, failed⟩
    · cases failed.symm.trans whole
    · cases failed.symm.trans whole

end OscHost
