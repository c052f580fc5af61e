import OscHost.Proofs.Wire.Locality

/-!
# Running out of bytes

Whatever is asked of a reader, what is unread is what lies behind its position (`Reader.Reached.unread_eq`). A
step that runs out of bytes has taken none, so it can be made again once more bytes have come. A blob is the
exception: its size word stays taken when too few bytes follow (`Reader.run_truncated`).
-/

namespace OscHost

section

variable {α β : Type}

/-- What is left is an end of what was unread. -/
def Leaves (unread rest : List UInt8) : Prop := rest <:+ unread

theorem leaves_refl (unread : List UInt8) : Leaves unread unread := List.suffix_rfl

abbrev Advances (step : Read α) : Prop := Follows Leaves step

theorem advances_pure (a : α) : Advances (pure a) := follows_pure leaves_refl a

theorem advances_throw (error : WireError) : Advances (throw error : Read α) := follows_throw leaves_refl error

theorem advances_thrown (error : WireError) (next : α → Read β) : Advances (throw error >>= next) :=
  advances_throw error

theorem advances_bind {step : Read α} {next : α → Read β} (first : Advances step)
    (second : ∀ a, Advances (next a)) : Advances (step >>= next) :=
  follows_bind (R := Leaves) (fun one other => List.IsSuffix.trans other one) first second

theorem advances_map {step : Read α} (f : α → β) (first : Advances step) : Advances (f <$> step) :=
  advances_bind first fun a => advances_pure (f a)

theorem advances_ite {c : Prop} [Decidable c] {x y : Read α} (first : Advances x) (second : Advances y) :
    Advances (if c then x else y) := follows_ite first second

/-- The step never runs out of bytes. -/
def Conclusive (step : Read α) : Prop :=
  ∀ unread needed available rest, step unread ≠ .error (.truncated needed available) rest

/-- A step that runs out of bytes leaves all that was unread. -/
def Patient (step : Read α) : Prop :=
  ∀ unread needed available rest, step unread = .error (.truncated needed available) rest → rest = unread

theorem conclusive_pure (a : α) : Conclusive (pure a) := fun _ _ _ _ => pure_ne_error

theorem conclusive_invalid : Conclusive (throw .invalidString : Read α) := by
  intro unread needed available rest failed
  cases (throw_eq_error.mp failed).1

theorem Conclusive.patient {step : Read α} (conclusive : Conclusive step) : Patient step :=
  fun unread needed available rest failed => absurd failed (conclusive unread needed available rest)

theorem patient_bind {step : Read α} {next : α → Read β} (first : Patient step)
    (second : ∀ a, Conclusive (next a)) : Patient (step >>= next) := by
  intro unread needed available rest failed
  rcases bind_eq_error.mp failed with failed | ⟨a, between, -, failed⟩
  · exact first unread needed available rest failed
  · exact absurd failed (second a between needed available rest)

theorem patient_map {step : Read α} (f : α → β) (first : Patient step) : Patient (f <$> step) :=
  patient_bind first fun a => conclusive_pure (f a)

end

namespace Read

variable {unread rest : List UInt8}

theorem advances_take (count : Nat) : Advances (take count) := by
  intro unread
  constructor
  · intro bytes rest taken
    exact ⟨bytes, (take_eq_ok.mp taken).2⟩
  · intro e rest failed
    obtain ⟨-, -, rfl⟩ := take_eq_error.mp failed
    exact List.suffix_rfl

theorem patient_take (count : Nat) : Patient (take count) := by
  intro unread needed available rest failed
  exact (take_eq_error.mp failed).2.2.symm

/-! ### Words -/

theorem advances_i32 : Advances i32 := advances_map _ (advances_map _ (advances_map _ (advances_take 4)))

theorem advances_u32 : Advances u32 := advances_map _ (advances_map _ (advances_take 4))

theorem advances_u64 : Advances u64 := advances_map _ (advances_map _ (advances_take 8))

theorem patient_i32 : Patient i32 := patient_map _ (patient_map _ (patient_map _ (patient_take 4)))

theorem patient_u32 : Patient u32 := patient_map _ (patient_map _ (patient_take 4))

theorem patient_u64 : Patient u64 := patient_map _ (patient_map _ (patient_take 8))

/-! ### Texts -/

theorem advances_text : Advances text := by
  intro unread
  rw [text_eq]
  cases unread.findIdx? (· == 0) with
  | none => exact ⟨nofun, fun e rest failed => by cases failed; exact List.suffix_rfl⟩
  | some length =>
    refine advances_bind (advances_take _) (fun slot => ?_) unread
    split
    · exact advances_pure _
    · exact advances_throw _

theorem patient_text : Patient text := by
  intro unread needed available rest failed
  rw [text_eq] at failed
  cases found : unread.findIdx? (· == 0) with
  | none =>
    rw [found] at failed
    cases failed
    rfl
  | some length =>
    rw [found] at failed
    refine patient_bind (patient_take _) (fun slot => ?_) unread needed available rest failed
    split
    · exact conclusive_pure _
    · exact conclusive_invalid

theorem advances_plain : Advances plain :=
  advances_bind advances_text fun _ => advances_ite (advances_pure _) (advances_throw _)

theorem patient_plain : Patient plain := by
  refine patient_bind patient_text fun text => ?_
  split
  · exact conclusive_pure _
  · exact conclusive_invalid

/-! ### Blobs -/

theorem advances_blob : Advances blob := by
  refine advances_bind advances_i32 fun size => advances_ite (advances_thrown _ _) ?_
  exact advances_bind (advances_take _) fun slot => advances_pure _

theorem i32_eq_error {e : WireError} :
    i32 unread = .error e rest ↔ unread.length < 4 ∧ .truncated 4 unread.length = e ∧ unread = rest := by
  simp only [i32, u32, word, map_eq_error, take_eq_error]

/-- A blob runs out of bytes in its size word, and leaves all that was unread, or behind it, and leaves what
follows the word. -/
theorem blob_eq_truncated {needed available : Nat} :
    blob unread = .error (.truncated needed available) rest ↔
      unread.length < 4 ∧ needed = 4 ∧ available = unread.length ∧ rest = unread ∨
      ∃ size, size ≤ maxLength ∧ bigEndian 4 size ++ rest = unread ∧
        rest.length < blobLength size - 4 ∧ needed = blobLength size - 4 ∧ available = rest.length := by
  simp only [blob, bind_eq_error, when_eq_error, i32_eq_error, take_eq_error, pure_ne_error, and_false,
    exists_false, or_false, WireError.truncated.injEq, reduceCtorEq, false_and, false_or]
  constructor
  · rintro (⟨short, ⟨rfl, rfl⟩, rfl⟩ | ⟨size, left, read, positive, short, ⟨rfl, rfl⟩, rfl⟩)
    · exact .inl ⟨short, rfl, rfl, rfl⟩
    · obtain ⟨fits, whole⟩ := length_eq_ok.mp ⟨size, read, positive, rfl⟩
      exact .inr ⟨_, fits, whole, short, rfl, rfl⟩
  · rintro (⟨short, rfl, rfl, rfl⟩ | ⟨length, fits, whole, short, rfl, rfl⟩)
    · exact .inl ⟨short, ⟨rfl, rfl⟩, rfl⟩
    · obtain ⟨size, read, positive, rfl⟩ := length_eq_ok.mpr ⟨fits, whole⟩
      exact .inr ⟨size, rest, read, positive, short, ⟨rfl, rfl⟩, rfl⟩

/-! ### Arguments -/

theorem advances_argument (kind : Kind) : Advances (argument kind) := by
  cases kind with
  | int => exact advances_map _ advances_i32
  | float => exact advances_map _ advances_u32
  | double => exact advances_map _ advances_u64
  | string | symbol => exact advances_map _ advances_plain
  | blob => exact advances_map _ advances_blob
  | true | false | nil | bang => exact advances_pure _
  | long | time => exact advances_bind advances_u64 fun _ => advances_pure _
  | char => exact advances_bind advances_u32 fun _ => advances_pure _
  | midi => exact advances_bind (advances_take 4) fun _ => advances_pure _

theorem patient_argument {kind : Kind} (other : kind ≠ .blob) : Patient (argument kind) := by
  cases kind with
  | int => exact patient_map _ patient_i32
  | float => exact patient_map _ patient_u32
  | double => exact patient_map _ patient_u64
  | string | symbol => exact patient_map _ patient_plain
  | blob => exact absurd rfl other
  | true | false | nil | bang => exact (conclusive_pure _).patient
  | long | time => exact patient_bind patient_u64 fun _ => conclusive_pure _
  | char => exact patient_bind patient_u32 fun _ => conclusive_pure _
  | midi => exact patient_bind (patient_take 4) fun _ => conclusive_pure _

end Read

namespace Reader

/-- What a reader is asked for. Other values of fixed width are read as arguments. -/
inductive Call where
  | bytes (count : Nat)
  | u32
  | i32
  | u64
  | text
  | blob
  | argument (kind : Kind)
  deriving DecidableEq, Repr

namespace Call

/-- The step that a call takes, without the value that it yields. -/
def step : Call → Read Unit
  | bytes count => (fun _ => ()) <$> Read.take count
  | u32 => (fun _ => ()) <$> Read.u32
  | i32 => (fun _ => ()) <$> Read.i32
  | u64 => (fun _ => ()) <$> Read.u64
  | text => (fun _ => ()) <$> Read.text
  | blob => (fun _ => ()) <$> Read.blob
  | argument kind => (fun _ => ()) <$> Read.argument kind

def ReadsBlob (call : Call) : Prop := call = blob ∨ call = argument .blob

instance (call : Call) : Decidable call.ReadsBlob := inferInstanceAs (Decidable (_ ∨ _))

theorem advances (call : Call) : Advances call.step := by
  cases call with
  | bytes count => exact advances_map _ (Read.advances_take count)
  | u32 => exact advances_map _ Read.advances_u32
  | i32 => exact advances_map _ Read.advances_i32
  | u64 => exact advances_map _ Read.advances_u64
  | text => exact advances_map _ Read.advances_text
  | blob => exact advances_map _ Read.advances_blob
  | argument kind => exact advances_map _ (Read.advances_argument kind)

theorem patient {call : Call} (other : ¬call.ReadsBlob) : Patient call.step := by
  cases call with
  | bytes count => exact patient_map _ (Read.patient_take count)
  | u32 => exact patient_map _ Read.patient_u32
  | i32 => exact patient_map _ Read.patient_i32
  | u64 => exact patient_map _ Read.patient_u64
  | text => exact patient_map _ Read.patient_text
  | blob => exact absurd (.inl rfl) other
  | argument kind => exact patient_map _ (Read.patient_argument fun same => other (.inr (by rw [same])))

theorem ReadsBlob.eq_error {call : Call} (readsBlob : call.ReadsBlob) {unread rest : List UInt8} {e : WireError} :
    call.step unread = .error e rest ↔ Read.blob unread = .error e rest := by
  rcases readsBlob with rfl | rfl
  · exact map_eq_error
  · exact map_eq_error.trans map_eq_error

/-- A call that runs out of bytes leaves all that was unread, unless it has found the size word of a blob. -/
theorem step_truncated {call : Call} {unread rest : List UInt8} {needed available : Nat}
    (failed : call.step unread = .error (.truncated needed available) rest) :
    rest = if call.ReadsBlob ∧ 4 ≤ unread.length then unread.drop 4 else unread := by
  by_cases readsBlob : call.ReadsBlob
  · rcases Read.blob_eq_truncated.mp (readsBlob.eq_error.mp failed) with
      ⟨short, -, -, rfl⟩ | ⟨size, -, rfl, -, -, -⟩
    · rw [if_neg fun both => Nat.not_le.mpr short both.2]
    · have word : (bigEndian 4 size).length = 4 := length_bigEndian 4 size
      have enough : 4 ≤ (bigEndian 4 size ++ rest).length := by
        rw [List.length_append, word]
        exact Nat.le_add_right 4 _
      rw [if_pos ⟨readsBlob, enough⟩, List.drop_left' word]
  · rw [if_neg fun both => readsBlob both.1]
    exact patient readsBlob unread needed available rest failed

end Call

/-! ### Readers -/

/-- The readers that calls lead to, whatever their outcomes. -/
inductive Reached (bytes : List UInt8) : Reader → Prop where
  | start : Reached bytes (.ofBytes bytes)
  | call {r : Reader} (reached : Reached bytes r) (call : Call) : Reached bytes (r.run call.step).2

theorem run_suffix (r : Reader) (call : Call) :
    (r.run call.step).2.length = r.length ∧ (r.run call.step).2.unread <:+ r.unread := by
  obtain ⟨kept, lost⟩ := call.advances r.unread
  rw [run]
  cases answer : call.step r.unread with
  | ok value rest => exact ⟨rfl, kept value rest answer⟩
  | error e rest => exact ⟨rfl, lost e rest answer⟩

variable {bytes : List UInt8} {r r' : Reader}

theorem Reached.suffix (reached : Reached bytes r) : r.length = bytes.length ∧ r.unread <:+ bytes := by
  induction reached with
  | start => exact ⟨rfl, List.suffix_rfl⟩
  | call reached call ih =>
    obtain ⟨length, suffix⟩ := run_suffix _ call
    exact ⟨length.trans ih.1, suffix.trans ih.2⟩

/-- The position lies in the packet, and what is unread is what lies behind it. -/
theorem Reached.unread_eq (reached : Reached bytes r) :
    r.position ≤ bytes.length ∧ r.unread = bytes.drop r.position := by
  obtain ⟨length, suffix⟩ := reached.suffix
  have position : r.position = bytes.length - r.unread.length := by rw [Reader.position, length]
  rw [position]
  exact ⟨Nat.sub_le _ _, List.suffix_iff_eq_drop.mp suffix⟩

/-- A call that runs out of bytes leaves the reader as it was. The exception is a call for a blob whose size word
is there, but too few bytes behind it: it leaves the reader behind the word. -/
theorem run_truncated (reached : Reached bytes r) {call : Call} {needed available : Nat}
    (failed : r.run call.step = (.error (.truncated needed available), r')) :
    (call.ReadsBlob ∧ 4 ≤ r.unread.length → r'.position = r.position + 4 ∧ r'.unread = r.unread.drop 4) ∧
      (¬(call.ReadsBlob ∧ 4 ≤ r.unread.length) → r' = r) := by
  rw [run] at failed
  cases answer : call.step r.unread with
  | ok value rest =>
    rw [answer] at failed
    cases failed
  | error e rest =>
    rw [answer] at failed
    cases failed
    have left := Call.step_truncated answer
    constructor
    · intro word
      rw [if_pos word] at left
      subst left
      refine ⟨?_, rfl⟩
      obtain ⟨length, suffix⟩ := reached.suffix
      have inside := suffix.length_le
      simp only [position, List.length_drop]
      omega
    · intro noWord
      rw [if_neg noWord] at left
      rw [left]

/-- The size word of a blob is there and says four bytes, none of which is. -/
theorem run_truncated_blob :
    (ofBytes [0, 0, 0, 4]).run Call.blob.step = (.error (.truncated 4 0), ⟨4, []⟩) ∧
      (ofBytes [0, 0, 0, 4]).position = 0 ∧ (⟨4, []⟩ : Reader).position = 4 ∧
      (⟨4, []⟩ : Reader).unread ≠ (ofBytes [0, 0, 0, 4]).unread := by
  have failed : (ofBytes [0, 0, 0, 4]).run Call.blob.step = (.error (.truncated 4 0), ⟨4, []⟩) := rfl
  have word : Call.blob.ReadsBlob ∧ 4 ≤ (ofBytes [0, 0, 0, 4]).unread.length := by decide
  exact ⟨failed, rfl, ((run_truncated .start failed).1 word).1, by decide⟩

theorem run_truncated_moves :
    ¬∀ (bytes : List UInt8) (r r' : Reader) (call : Call) (needed available : Nat), Reached bytes r →
      r.run call.step = (.error (.truncated needed available), r') →
        r'.position = r.position ∧ r'.unread = r.unread := by
  intro unmoved
  have still := unmoved [0, 0, 0, 4] (ofBytes [0, 0, 0, 4]) ⟨4, []⟩ .blob 4 0 .start rfl
  exact absurd still.1 (by decide)

end Reader

end OscHost
