import OscHost.Wire.Reader
import OscHost.Wire.Writer

/-!
# Outcomes of steps

A sequence of steps succeeds just when each of them succeeds in the state that those before it left.
The words of a packet read back from their bytes, and only from those.
-/

namespace OscHost

section Outcomes

variable {ε σ α β : Type} {s t : σ} {a : α} {b : β}

@[simp] theorem bind_eq_ok {x : EStateM ε σ α} {f : α → EStateM ε σ β} :
    (x >>= f) s = .ok b t ↔ ∃ a u, x s = .ok a u ∧ f a u = .ok b t := by
  simp only [bind, EStateM.bind]
  cases x s with
  | ok a u =>
    constructor
    · intro done
      exact ⟨a, u, rfl, done⟩
    · rintro ⟨_, _, same, done⟩
      cases same
      exact done
  | error e u => simp

@[simp] theorem map_eq_ok {x : EStateM ε σ α} {f : α → β} :
    (f <$> x) s = .ok b t ↔ ∃ a, x s = .ok a t ∧ f a = b := by
  simp only [Functor.map, EStateM.map]
  cases x s with
  | ok a u =>
    constructor
    · intro done
      cases done
      exact ⟨a, rfl, rfl⟩
    · rintro ⟨_, same, rfl⟩
      cases same
      rfl
  | error e u => simp

@[simp] theorem pure_eq_ok {a' : α} : (pure a : EStateM ε σ α) s = .ok a' t ↔ a = a' ∧ s = t := by
  simp [pure, EStateM.pure]

@[simp] theorem get_eq_ok {u : σ} : (get : EStateM ε σ σ) s = .ok u t ↔ s = u ∧ s = t := by
  show EStateM.Result.ok s s = .ok u t ↔ _
  rw [EStateM.Result.ok.injEq]

@[simp] theorem throw_ne_ok {e : ε} : (throw e : EStateM ε σ α) s ≠ .ok a t := by
  intro thrown
  cases thrown

theorem except_map_eq_ok {x : Except ε α} {f : α → β} : x.map f = .ok b ↔ ∃ a, x = .ok a ∧ f a = b := by
  cases x <;> simp [Except.map]

/-- A check in front of the remaining steps. -/
@[simp] theorem unless_eq_ok {c : Prop} [Decidable c] {e : ε} {f : α → EStateM ε σ β} {x : EStateM ε σ β} :
    (if c then x else throw e >>= f) s = .ok b t ↔ c ∧ x s = .ok b t := by
  by_cases holds : c <;> simp [holds]

@[simp] theorem when_eq_ok {c : Prop} [Decidable c] {e : ε} {f : α → EStateM ε σ β} {x : EStateM ε σ β} :
    (if c then throw e >>= f else x) s = .ok b t ↔ ¬c ∧ x s = .ok b t := by
  by_cases holds : c <;> simp [holds]

@[simp] theorem set_eq_ok {u : σ} {done : PUnit} :
    (set u : EStateM ε σ PUnit) s = .ok done t ↔ u = t := by
  show EStateM.Result.ok PUnit.unit u = .ok done t ↔ _
  simp

@[simp] theorem modify_eq_ok {f : σ → σ} {done : PUnit} :
    (modify f : EStateM ε σ PUnit) s = .ok done t ↔ f s = t := by
  show EStateM.Result.ok PUnit.unit (f s) = .ok done t ↔ _
  simp

/-! A sequence of steps fails where the first of them does. -/

variable {e : ε}

@[simp] theorem bind_eq_error {x : EStateM ε σ α} {f : α → EStateM ε σ β} :
    (x >>= f) s = .error e t ↔ x s = .error e t ∨ ∃ a u, x s = .ok a u ∧ f a u = .error e t := by
  simp only [bind, EStateM.bind]
  cases x s with
  | ok a u =>
    constructor
    · intro failed
      exact .inr ⟨a, u, rfl, failed⟩
    · rintro (same | ⟨_, _, same, failed⟩)
      · cases same
      · cases same
        exact failed
  | error e' u => simp

@[simp] theorem map_eq_error {x : EStateM ε σ α} {f : α → β} : (f <$> x) s = .error e t ↔ x s = .error e t := by
  simp only [Functor.map, EStateM.map]
  cases x s <;> simp

@[simp] theorem throw_eq_error {e' : ε} : (throw e' : EStateM ε σ α) s = .error e t ↔ e' = e ∧ s = t := by
  show EStateM.Result.error e' s = .error e t ↔ _
  rw [EStateM.Result.error.injEq]

@[simp] theorem pure_ne_error : (pure a : EStateM ε σ α) s ≠ .error e t := nofun

@[simp] theorem get_ne_error : (get : EStateM ε σ σ) s ≠ .error e t := nofun

@[simp] theorem modify_ne_error {f : σ → σ} : (modify f : EStateM ε σ PUnit) s ≠ .error e t := nofun

@[simp] theorem unless_eq_error {c : Prop} [Decidable c] {e' : ε} {f : α → EStateM ε σ β}
    {x : EStateM ε σ β} :
    (if c then x else throw e' >>= f) s = .error e t ↔ c ∧ x s = .error e t ∨ ¬c ∧ e' = e ∧ s = t := by
  by_cases holds : c <;> simp [holds]

@[simp] theorem when_eq_error {c : Prop} [Decidable c] {e' : ε} {f : α → EStateM ε σ β}
    {x : EStateM ε σ β} :
    (if c then throw e' >>= f else x) s = .error e t ↔ c ∧ e' = e ∧ s = t ∨ ¬c ∧ x s = .error e t := by
  by_cases holds : c <;> simp [holds]

/-! The remaining steps of a sequence whose first step is known. -/

theorem bind_of_ok {x : EStateM ε σ α} {f : α → EStateM ε σ β} (read : x s = .ok a t) :
    (x >>= f) s = f a t := by
  simp only [bind, EStateM.bind, read]

theorem bind_of_error {x : EStateM ε σ α} {f : α → EStateM ε σ β} (read : x s = .error e t) :
    (x >>= f) s = .error e t := by
  simp only [bind, EStateM.bind, read]

theorem get_bind (f : σ → EStateM ε σ β) : (get >>= f) s = f s s := rfl

/-! Where every step leads to a state that is related to the one before it, a sequence of steps does, too. -/

variable {R : σ → σ → Prop} {x : EStateM ε σ α}

/-- Whether it succeeds or fails, the step leads to a state that is related to the one before it. -/
def Follows (R : σ → σ → Prop) (x : EStateM ε σ α) : Prop :=
  ∀ s, (∀ a t, x s = .ok a t → R s t) ∧ ∀ e t, x s = .error e t → R s t

theorem follows_pure (refl : ∀ s, R s s) (a : α) : Follows R (pure a : EStateM ε σ α) := by
  intro s
  constructor
  · intro a' t done
    obtain ⟨-, rfl⟩ := pure_eq_ok.mp done
    exact refl s
  · intro e t failed
    exact absurd failed pure_ne_error

theorem follows_get (refl : ∀ s, R s s) : Follows R (get : EStateM ε σ σ) := by
  intro s
  constructor
  · intro a t done
    obtain ⟨-, rfl⟩ := get_eq_ok.mp done
    exact refl s
  · intro e t failed
    exact absurd failed get_ne_error

theorem follows_throw (refl : ∀ s, R s s) (e : ε) : Follows R (throw e : EStateM ε σ α) := by
  intro s
  constructor
  · intro a t done
    exact absurd done throw_ne_ok
  · intro e' t failed
    obtain ⟨-, rfl⟩ := throw_eq_error.mp failed
    exact refl s

theorem follows_bind (trans : ∀ {s t u}, R s t → R t u → R s u) {f : α → EStateM ε σ β} (first : Follows R x)
    (second : ∀ a, Follows R (f a)) : Follows R (x >>= f) := by
  intro s
  constructor
  · intro b u done
    obtain ⟨a, t, stepped, done⟩ := bind_eq_ok.mp done
    exact trans ((first s).1 a t stepped) ((second a t).1 b u done)
  · intro e u failed
    rcases bind_eq_error.mp failed with failed | ⟨a, t, stepped, failed⟩
    · exact (first s).2 e u failed
    · exact trans ((first s).1 a t stepped) ((second a t).2 e u failed)

theorem follows_ite {c : Prop} [Decidable c] {y : EStateM ε σ α} (first : Follows R x) (second : Follows R y) :
    Follows R (if c then x else y) := by
  split
  · exact first
  · exact second

end Outcomes

namespace Read

variable {unread rest : List UInt8}

theorem take_eq_ok {count : Nat} {taken : List UInt8} :
    take count unread = .ok taken rest ↔ taken.length = count ∧ taken ++ rest = unread := by
  constructor
  · intro took
    exact (append_of_take took).symm
  · rintro ⟨rfl, rfl⟩
    rw [take_ok (by simp)]
    simp

theorem take_eq_error {count : Nat} {e : WireError} :
    take count unread = .error e rest ↔
      unread.length < count ∧ .truncated count unread.length = e ∧ unread = rest := by
  by_cases enough : count ≤ unread.length
  · rw [take_ok enough]
    exact iff_of_false nofun fun short => absurd enough (Nat.not_le.mpr short.1)
  · have short := Nat.lt_of_not_le enough
    rw [take_error short, EStateM.Result.error.injEq]
    exact (and_iff_right short).symm

theorem word_eq_ok {width value : Nat} :
    word width unread = .ok value rest ↔ value < span width ∧ bigEndian width value ++ rest = unread := by
  simp only [word, map_eq_ok, take_eq_ok]
  constructor
  · rintro ⟨bytes, ⟨rfl, whole⟩, rfl⟩
    exact ⟨ofBigEndian_lt bytes, by rw [bigEndian_ofBigEndian, whole]⟩
  · rintro ⟨fits, whole⟩
    exact ⟨bigEndian width value, ⟨length_bigEndian width value, whole⟩,
      by rw [ofBigEndian_bigEndian, Nat.mod_eq_of_lt fits]⟩

@[simp] theorem u32_eq_ok {value : UInt32} :
    u32 unread = .ok value rest ↔ bigEndian 4 value.toNat ++ rest = unread := by
  simp only [u32, map_eq_ok, word_eq_ok]
  constructor
  · rintro ⟨n, ⟨fits, whole⟩, rfl⟩
    rw [UInt32.toNat_ofNat_of_lt' fits, whole]
  · intro whole
    exact ⟨value.toNat, ⟨value.toNat_lt, whole⟩, UInt32.ofNat_toNat⟩

@[simp] theorem u64_eq_ok {value : UInt64} :
    u64 unread = .ok value rest ↔ bigEndian 8 value.toNat ++ rest = unread := by
  simp only [u64, map_eq_ok, word_eq_ok]
  constructor
  · rintro ⟨n, ⟨fits, whole⟩, rfl⟩
    rw [UInt64.toNat_ofNat_of_lt' fits, whole]
  · intro whole
    exact ⟨value.toNat, ⟨value.toNat_lt, whole⟩, UInt64.ofNat_toNat⟩

@[simp] theorem i32_eq_ok {value : Int32} :
    i32 unread = .ok value rest ↔ bigEndian 4 value.toUInt32.toNat ++ rest = unread := by
  simp only [i32, map_eq_ok, u32_eq_ok]
  constructor
  · rintro ⟨word, whole, rfl⟩
    exact whole
  · intro whole
    exact ⟨value.toUInt32, whole, rfl⟩

/-- A length is a word that is not negative. -/
theorem length_eq_ok {length : Nat} :
    (∃ value, i32 unread = .ok value rest ∧ ¬value < 0 ∧ value.toInt.toNat = length) ↔
      length ≤ maxLength ∧ bigEndian 4 length ++ rest = unread := by
  simp only [i32_eq_ok]
  constructor
  · rintro ⟨value, whole, positive, rfl⟩
    have := value.toNatClampNeg_lt
    rw [Int32.toNat_toUInt32_of_le (Int32.not_lt.mp positive)] at whole
    exact ⟨by rw [Int32.toNat_toInt, maxLength]; omega, whole⟩
  · rintro ⟨fits, whole⟩
    have small : length < 2 ^ 31 := Nat.lt_succ_of_le fits
    have positive : 0 ≤ Int32.ofNat length := by
      rw [Int32.le_iff_toInt_le, Int32.toInt_ofNat_of_lt small]
      simp
    refine ⟨Int32.ofNat length, ?_, Int32.not_lt.mpr positive, ?_⟩
    · rw [Int32.toNat_toUInt32_of_le positive, Int32.toNatClampNeg_ofNat_of_lt small, whole]
    · rw [Int32.toNat_toInt, Int32.toNatClampNeg_ofNat_of_lt small]

end Read

namespace Writer

variable {bytes more : List UInt8} {w w' : Writer} {done : Unit}

theorem put_eq_ok :
    put bytes w = .ok done w' ↔
      bytes.length ≤ w.beyond.length ∧ w' = ⟨w.written ++ bytes, w.beyond.drop bytes.length⟩ := by
  constructor
  · intro put
    by_cases fits : bytes.length ≤ w.beyond.length
    · rw [put_ok fits] at put
      cases put
      exact ⟨fits, rfl⟩
    · rw [put_error (Nat.not_le.mp fits)] at put
      cases put
  · rintro ⟨fits, rfl⟩
    exact put_ok fits

theorem put_append :
    put (bytes ++ more) w = .ok done w' ↔ ∃ u, put bytes w = .ok () u ∧ put more u = .ok () w' := by
  simp only [put_eq_ok]
  constructor
  · rintro ⟨fits, rfl⟩
    rw [List.length_append] at fits
    refine ⟨_, ⟨by omega, rfl⟩, ?_, ?_⟩
    · rw [List.length_drop]
      omega
    · simp
  · rintro ⟨_, ⟨fits, rfl⟩, room, rfl⟩
    rw [List.length_drop] at room
    refine ⟨?_, ?_⟩
    · rw [List.length_append]
      omega
    · simp

end Writer

end OscHost
