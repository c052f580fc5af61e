/-!
Byte strings: words in either byte order, zero padding, overwriting in place. A word of a given
width reads back from its bytes, and a byte string is the word form of the number it denotes.
-/

namespace OscHost

/-- How many numbers a word of this width can hold. -/
def span : (width : Nat) → Nat
  | 0 => 1
  | width + 1 => 256 * span width

/-- The low `width` bytes of a number, most significant first. -/
def bigEndian : (width n : Nat) → List UInt8
  | 0, _ => []
  | width + 1, n => UInt8.ofNat (n / span width) :: bigEndian width n

/-- The number whose base-256 digits are `bytes`, most significant first. -/
def ofBigEndian (bytes : List UInt8) : Nat :=
  bytes.foldl (fun n byte => 256 * n + byte.toNat) 0

def littleEndian (width n : Nat) : List UInt8 := (bigEndian width n).reverse

/-- The number whose base-256 digits are `bytes`, least significant first. -/
def ofLittleEndian (bytes : List UInt8) : Nat := ofBigEndian bytes.reverse

def zeros (n : Nat) : List UInt8 := List.replicate n 0

/-- The bytes with those from `offset` on replaced by `patch`. -/
def overwrite (bytes : List UInt8) (offset : Nat) (patch : List UInt8) : List UInt8 :=
  bytes.take offset ++ patch ++ bytes.drop (offset + patch.length)

/-- The sum of sizes. -/
def total : List Nat → Nat
  | [] => 0
  | size :: sizes => size + total sizes

@[simp] theorem length_bigEndian (width n : Nat) : (bigEndian width n).length = width := by
  induction width with
  | zero => rfl
  | succ width ih => simp [bigEndian, ih]

@[simp] theorem length_littleEndian (width n : Nat) : (littleEndian width n).length = width := by
  simp [littleEndian]

@[simp] theorem length_zeros (n : Nat) : (zeros n).length = n := by simp [zeros]

theorem total_append (sizes more : List Nat) : total (sizes ++ more) = total sizes + total more := by
  induction sizes with
  | nil => simp [total]
  | cons size sizes ih => simp [total, ih, Nat.add_assoc]

theorem span_pos (width : Nat) : 0 < span width := by
  induction width with
  | zero => decide
  | succ width ih =>
    rw [span]
    omega

theorem foldl_bigEndian (acc width n : Nat) :
    (bigEndian width n).foldl (fun n byte => 256 * n + byte.toNat) acc =
      acc * span width + n % span width := by
  induction width generalizing acc with
  | zero => simp [bigEndian, span, Nat.mod_one]
  | succ width ih =>
    have digit : n % span (width + 1) = span width * (n / span width % 256) + n % span width := by
      rw [span, Nat.mul_comm 256, Nat.mod_mul, Nat.add_comm]
    rw [bigEndian, List.foldl_cons, ih, digit, UInt8.toNat_ofNat', span]
    grind

/-- A word reads back as its low bytes. -/
theorem ofBigEndian_bigEndian (width n : Nat) : ofBigEndian (bigEndian width n) = n % span width := by
  simp [ofBigEndian, foldl_bigEndian]

theorem ofBigEndian_of_lt {width n : Nat} (fits : n < span width) :
    ofBigEndian (bigEndian width n) = n := by
  rw [ofBigEndian_bigEndian, Nat.mod_eq_of_lt fits]

theorem foldl_ofBigEndian (acc : Nat) (bytes : List UInt8) :
    bytes.foldl (fun n byte => 256 * n + byte.toNat) acc =
      acc * span bytes.length + ofBigEndian bytes := by
  induction bytes generalizing acc with
  | nil => simp [ofBigEndian, span]
  | cons byte bytes ih =>
    rw [ofBigEndian, List.foldl_cons, List.foldl_cons, ih, ih, List.length_cons, span]
    grind

theorem ofBigEndian_cons (byte : UInt8) (bytes : List UInt8) :
    ofBigEndian (byte :: bytes) = byte.toNat * span bytes.length + ofBigEndian bytes := by
  rw [ofBigEndian, List.foldl_cons, foldl_ofBigEndian]
  simp

theorem ofBigEndian_lt (bytes : List UInt8) : ofBigEndian bytes < span bytes.length := by
  induction bytes with
  | nil => simp [ofBigEndian, span]
  | cons byte bytes ih =>
    have digit : byte.toNat + 1 ≤ 256 := byte.toNat_lt
    calc ofBigEndian (byte :: bytes)
        < (byte.toNat + 1) * span bytes.length := by rw [ofBigEndian_cons, Nat.succ_mul]; omega
      _ ≤ 256 * span bytes.length := Nat.mul_le_mul_right _ digit
      _ = span (byte :: bytes).length := rfl

/-- Only the low digits of a number show in a word. -/
theorem bigEndian_add_mul (width k n : Nat) : bigEndian width (k * span width + n) = bigEndian width n := by
  induction width generalizing k with
  | zero => rfl
  | succ width ih =>
    have shifted : k * span (width + 1) + n = k * 256 * span width + n := by
      rw [span, Nat.mul_assoc]
    have digit : (k * 256 * span width + n) / span width = n / span width + 256 * k := by
      rw [Nat.add_comm, Nat.add_mul_div_right _ _ (span_pos width), Nat.mul_comm k]
    rw [shifted, bigEndian, bigEndian, ih, digit]
    congr 1
    apply UInt8.toNat_inj.mp
    simp

/-- A byte string is the word form of the number it denotes. -/
theorem bigEndian_ofBigEndian (bytes : List UInt8) :
    bigEndian bytes.length (ofBigEndian bytes) = bytes := by
  induction bytes with
  | nil => rfl
  | cons byte bytes ih =>
    have digit : ofBigEndian (byte :: bytes) / span bytes.length = byte.toNat := by
      rw [ofBigEndian_cons, Nat.add_comm, Nat.add_mul_div_right _ _ (span_pos bytes.length),
        Nat.div_eq_of_lt (ofBigEndian_lt bytes), Nat.zero_add]
    rw [List.length_cons, bigEndian, digit, ofBigEndian_cons, bigEndian_add_mul, ih]
    simp

/-- The last byte of a word is its lowest. -/
theorem bigEndian_succ (width n : Nat) :
    bigEndian (width + 1) n = bigEndian width (n / 256) ++ [UInt8.ofNat n] := by
  induction width with
  | zero => simp [bigEndian, span]
  | succ width ih =>
    have digit : n / span (width + 1) = n / 256 / span width := by
      rw [Nat.div_div_eq_div_mul, span]
    rw [bigEndian, ih, digit, ← List.cons_append, bigEndian]

theorem ofLittleEndian_littleEndian (width n : Nat) :
    ofLittleEndian (littleEndian width n) = n % span width := by
  simp [ofLittleEndian, littleEndian, ofBigEndian_bigEndian]

end OscHost
