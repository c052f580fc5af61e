import OscHost.Text
import OscHost.Bytes

/-!
# Text as bytes

The UTF-8 form of a text holds a zero byte only if the text holds the character NUL, and that of an
ASCII text is the list of its code points. Addresses, string arguments and formats therefore end at
the first zero byte.
-/

namespace OscHost

theorem utf8_eq_flatMap (text : String) : utf8 text = text.toList.flatMap String.utf8EncodeChar := by
  rw [utf8, ← String.utf8Encode_toList, List.utf8Encode]
  simp

theorem utf8_append (s t : String) : utf8 (s ++ t) = utf8 s ++ utf8 t := by
  simp [utf8_eq_flatMap]

/-- In the form of a character other than NUL, no byte is zero. -/
theorem zero_mem_utf8EncodeChar {c : Char} (zero : 0 ∈ String.utf8EncodeChar c) : c.toNat = 0 := by
  have low : ∀ n, 0 = UInt8.ofNat n → n % 256 = 0 := by
    intro n same
    simpa using (congrArg UInt8.toNat same).symm
  simp only [String.utf8EncodeChar] at zero
  -- The first byte of a longer form is at least 0xC0, each further one at least 0x80.
  split at zero
  · have := low _ (List.mem_singleton.mp zero)
    show c.val.toNat = 0
    omega
  · exfalso
    split at zero
    · simp only [List.mem_cons, List.not_mem_nil, or_false] at zero
      rcases zero with first | second
      · have := low _ first
        omega
      · have := low _ second
        omega
    · split at zero
      · simp only [List.mem_cons, List.not_mem_nil, or_false] at zero
        rcases zero with first | second | third
        · have := low _ first
          omega
        · have := low _ second
          omega
        · have := low _ third
          omega
      · simp only [List.mem_cons, List.not_mem_nil, or_false] at zero
        rcases zero with first | second | third | fourth
        · have := low _ first
          omega
        · have := low _ second
          omega
        · have := low _ third
          omega
        · have := low _ fourth
          omega

theorem zero_mem_utf8 {text : String} (zero : 0 ∈ utf8 text) : ∃ c ∈ text.toList, c.toNat = 0 := by
  rw [utf8_eq_flatMap, List.mem_flatMap] at zero
  obtain ⟨c, member, zero⟩ := zero
  exact ⟨c, member, zero_mem_utf8EncodeChar zero⟩

theorem zero_not_mem_of_isPlain {text : String} (plain : Text.isPlain text = true) : 0 ∉ utf8 text := by
  intro zero
  obtain ⟨c, member, isNul⟩ := zero_mem_utf8 zero
  have allowed := List.all_eq_true.mp plain c member
  simp [Text.isControl, isNul] at allowed

theorem zero_not_mem_of_isAddress {text : String} (address : Text.isAddress text = true) :
    0 ∉ utf8 text := by
  intro zero
  obtain ⟨c, member, isNul⟩ := zero_mem_utf8 zero
  rw [Text.isAddress, Bool.and_eq_true] at address
  have allowed := List.all_eq_true.mp address.2 c member
  simp [isNul] at allowed

theorem utf8_of_isAddress {text : String} (address : Text.isAddress text = true) :
    ∃ rest, utf8 text = 0x2F :: rest := by
  rw [Text.isAddress, Bool.and_eq_true, beq_iff_eq] at address
  obtain ⟨rest, slash⟩ := List.head?_eq_some_iff.mp address.1
  rw [utf8_eq_flatMap, slash, List.flatMap_cons]
  exact ⟨_, rfl⟩

theorem utf8_ofList {cs : List Char} (ascii : ∀ c ∈ cs, c.toNat < 128) :
    utf8 (String.ofList cs) = cs.map fun c => UInt8.ofNat c.toNat := by
  have single : ∀ c ∈ cs, String.utf8EncodeChar c = [UInt8.ofNat c.toNat] := by
    intro c member
    have small : c.val.toNat ≤ 0x7F := Nat.le_of_lt_succ (ascii c member)
    rw [String.utf8EncodeChar, if_pos small]
    rfl
  rw [utf8_eq_flatMap, String.toList_ofList, List.map_eq_flatMap, List.flatMap, List.flatMap,
    List.map_congr_left single]

end OscHost
