import OscHost.Wire.Argument
import OscHost.Wire.WireError

/-!
Reading packets. The state of a reading step is the list of bytes not read yet; `take` is the only
step that shortens it, and it takes all the bytes asked for or none.
-/

namespace OscHost

/-- Steps of reading. A failed step leaves the bytes that it had not taken. -/
abbrev Read := EStateM WireError (List UInt8)

namespace Read

def take (count : Nat) : Read (List UInt8) := fun unread =>
  if count ≤ unread.length then .ok (unread.take count) (unread.drop count)
  else .error (.truncated count unread.length) unread

def word (width : Nat) : Read Nat := ofBigEndian <$> take width

def u32 : Read UInt32 := UInt32.ofNat <$> word 4

def i32 : Read Int32 := UInt32.toInt32 <$> u32

def u64 : Read UInt64 := UInt64.ofNat <$> word 8

/-- Text up to the first zero byte. The terminator and the padding have to be there. -/
def text : Read String := do
  let unread ← get
  match unread.findIdx? (· == 0) with
  | none => throw (.truncated (unread.length + 1) unread.length)
  | some length =>
    let slot ← take (paddedLength length)
    match ofUtf8? (slot.take length) with
    | some text => pure text
    | none => throw .invalidString

/-- The text of a string argument. -/
def plain : Read String := do
  let text ← text
  if Text.isPlain text then pure text else throw .invalidString

def blob : Read (List UInt8) := do
  let size ← i32
  if size < 0 then throw (.negativeBlobSize size)
  let size := size.toInt.toNat
  let slot ← take (blobLength size - 4)
  pure (slot.take size)

def argument : Kind → Read Argument
  | .int => .int <$> i32
  | .float => .float <$> u32
  | .string => .string <$> plain
  | .blob => .blob <$> blob
  | .true => pure .true
  | .false => pure .false
  | .nil => pure .nil
  | .bang => pure .bang
  | .long => do pure (.long (← u64).toInt64)
  | .double => .double <$> u64
  | .time => do pure (.time ⟨← u64⟩)
  | .symbol => .symbol <$> plain
  | .char => do pure (.char (← u32).toUInt8)
  | .midi => do pure (.midi (.ofBytes (← take 4)))

theorem take_ok {count : Nat} {unread : List UInt8} (h : count ≤ unread.length) :
    take count unread = .ok (unread.take count) (unread.drop count) := if_pos h

theorem take_error {count : Nat} {unread : List UInt8} (h : unread.length < count) :
    take count unread = .error (.truncated count unread.length) unread := if_neg (Nat.not_le.2 h)

/-- What `take` yields and what it leaves make up what was there. -/
theorem append_of_take {count : Nat} {unread taken rest : List UInt8}
    (h : take count unread = .ok taken rest) : taken ++ rest = unread ∧ taken.length = count := by
  unfold take at h
  split at h
  · cases h
    simp
    omega
  · cases h

theorem length_of_i32 {unread rest : List UInt8} {value : Int32}
    (h : i32 unread = .ok value rest) : 4 + rest.length = unread.length := by
  simp only [i32, u32, word, Functor.map, EStateM.map] at h
  cases taken : take 4 unread with
  | error _ _ => simp [taken] at h
  | ok bytes left =>
    simp only [taken, EStateM.Result.ok.injEq] at h
    obtain ⟨whole, four⟩ := append_of_take taken
    rw [← whole, ← h.2, List.length_append, four]

end Read

structure Reader where
  length : Nat
  unread : List UInt8
  deriving DecidableEq, Repr, Inhabited

namespace Reader

def ofBytes (bytes : List UInt8) : Reader := ⟨bytes.length, bytes⟩

def position (r : Reader) : Nat := r.length - r.unread.length

def run (r : Reader) (step : Read α) : Except WireError α × Reader :=
  match step r.unread with
  | .ok value unread => (.ok value, { r with unread })
  | .error error unread => (.error error, { r with unread })

end Reader

end OscHost
