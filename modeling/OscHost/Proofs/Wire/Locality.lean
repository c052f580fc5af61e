import OscHost.Proofs.Wire.Field

/-!
# Local steps

A step of reading looks at the bytes that it takes and at none behind them. So bytes that are added behind
stay unread, and where bytes are missing the step does the same as before or says that it needs more.
-/

namespace OscHost

/-- The step fails for want of bytes. -/
def RunsOut {α : Type} (step : Read α) (unread : List UInt8) : Prop :=
  ∃ needed available rest, available < needed ∧ step unread = .error (.truncated needed available) rest

structure Local {α : Type} (step : Read α) : Prop where
  further : ∀ {unread rest : List UInt8} {value : α} (more : List UInt8),
    step unread = .ok value rest → step (unread ++ more) = .ok value (rest ++ more)
  cut : ∀ {unread more left : List UInt8} {value : α}, step (unread ++ more) = .ok value left →
    (∃ rest, step unread = .ok value rest ∧ rest ++ more = left) ∨ RunsOut step unread

section

variable {α β : Type}

theorem local_pure (a : α) : Local (pure a) := by
  constructor
  · intro unread rest value more read
    rw [pure_eq_ok] at read ⊢
    exact ⟨read.1, by rw [read.2]⟩
  · intro unread more left value read
    rw [pure_eq_ok] at read
    obtain ⟨rfl, rfl⟩ := read
    exact .inl ⟨unread, rfl, rfl⟩

theorem local_throw (e : WireError) : Local (throw e : Read α) := by
  constructor
  · intro unread rest value more read
    exact absurd read throw_ne_ok
  · intro unread more left value read
    exact absurd read throw_ne_ok

theorem local_thrown (e : WireError) (next : α → Read β) : Local (throw e >>= next) := local_throw e

theorem local_ite {c : Prop} [Decidable c] {x y : Read α} (first : Local x) (second : Local y) :
    Local (if c then x else y) := by
  split
  · exact first
  · exact second

theorem local_bind {step : Read α} {next : α → Read β} (first : Local step) (second : ∀ a, Local (next a)) :
    Local (step >>= next) := by
  constructor
  · intro unread rest value more read
    rw [bind_eq_ok] at read ⊢
    obtain ⟨a, left, read, onwards⟩ := read
    exact ⟨a, left ++ more, first.further more read, (second a).further more onwards⟩
  · intro unread more left value read
    obtain ⟨a, between, whole, onwards⟩ := bind_eq_ok.mp read
    rcases first.cut whole with ⟨rest, begun, rfl⟩ | ⟨needed, available, rest, few, failed⟩
    · rcases (second a).cut onwards with ⟨stop, done, rfl⟩ | ⟨needed, available, stop, few, failed⟩
      · exact .inl ⟨stop, bind_eq_ok.mpr ⟨a, rest, begun, done⟩, rfl⟩
      · exact .inr ⟨needed, available, stop, few, bind_eq_error.mpr (.inr ⟨a, rest, begun, failed⟩)⟩
    · exact .inr ⟨needed, available, rest, few, bind_eq_error.mpr (.inl failed)⟩

theorem local_map {step : Read α} (f : α → β) (first : Local step) : Local (f <$> step) := by
  have mapped : f <$> step = step >>= fun a => pure (f a) := rfl
  rw [mapped]
  exact local_bind first fun a => local_pure (f a)

end

namespace Read

theorem local_take (count : Nat) : Local (take count) := by
  constructor
  · intro unread rest value more read
    rw [take_eq_ok] at read ⊢
    exact ⟨read.1, by rw [← read.2, List.append_assoc]⟩
  · intro unread more left value read
    by_cases enough : count ≤ unread.length
    · have kept := take_ok enough
      obtain ⟨length, whole⟩ := take_eq_ok.mp kept
      rw [← whole, List.append_assoc, take_eq_ok.mpr ⟨length, rfl⟩] at read
      cases read
      exact .inl ⟨_, kept, rfl⟩
    · have short := Nat.lt_of_not_le enough
      exact .inr ⟨count, unread.length, unread, short, take_error short⟩

theorem local_i32 : Local i32 := local_map _ (local_map _ (local_map _ (local_take 4)))

theorem local_u32 : Local u32 := local_map _ (local_map _ (local_take 4))

theorem local_u64 : Local u64 := local_map _ (local_map _ (local_take 8))

/-- What is left of reading a text once its length is known. -/
def textOf (length : Nat) : Read String := do
  let slot ← take (paddedLength length)
  match ofUtf8? (slot.take length) with
  | some text => pure text
  | none => throw .invalidString

theorem text_eq (unread : List UInt8) :
    text unread = match unread.findIdx? (· == 0) with
      | none => .error (.truncated (unread.length + 1) unread.length) unread
      | some length => textOf length unread := by
  show (match unread.findIdx? (· == 0) with | none => _ | some length => _ : Read String) unread = _
  cases unread.findIdx? (· == 0) with
  | none => rfl
  | some length => rfl

theorem local_textOf (length : Nat) : Local (textOf length) := by
  apply local_bind (local_take _)
  intro slot
  split
  · exact local_pure _
  · exact local_throw _

theorem local_text : Local text := by
  constructor
  · intro unread rest value more read
    rw [text_eq] at read ⊢
    rw [List.findIdx?_append]
    cases found : unread.findIdx? (· == 0) with
    | none =>
      rw [found] at read
      cases read
    | some length =>
      rw [found] at read
      exact (local_textOf length).further more read
  · intro unread more left value read
    rw [text_eq, List.findIdx?_append] at read
    unfold RunsOut
    rw [text_eq]
    cases found : unread.findIdx? (· == 0) with
    | none => exact .inr ⟨_, _, unread, Nat.lt_succ_self _, rfl⟩
    | some length =>
      rw [found] at read
      exact (local_textOf length).cut read

theorem local_plain : Local plain := by
  apply local_bind local_text
  intro text
  exact local_ite (local_pure _) (local_throw _)

theorem local_blob : Local blob := by
  apply local_bind local_i32
  intro size
  apply local_ite (local_thrown _ _)
  apply local_bind (local_take _)
  intro slot
  exact local_pure _

theorem local_argument (kind : Kind) : Local (argument kind) := by
  cases kind with
  | int => exact local_map _ local_i32
  | float => exact local_map _ local_u32
  | double => exact local_map _ local_u64
  | string | symbol => exact local_map _ local_plain
  | blob => exact local_map _ local_blob
  | true | false | nil | bang => exact local_pure _
  | long | time => exact local_bind local_u64 fun _ => local_pure _
  | char => exact local_bind local_u32 fun _ => local_pure _
  | midi => exact local_bind (local_take 4) fun _ => local_pure _

end Read

end OscHost
