/-!
Text on the wire: its UTF-8 bytes, the classes of text that addresses and string arguments admit,
and the quoted form in which a single character appears in a message to the user.
-/

namespace OscHost

def utf8 (text : String) : List UInt8 := text.toByteArray.data.toList

/-- The text that `bytes` encode, if they are valid UTF-8. -/
def ofUtf8? (bytes : List UInt8) : Option String := String.fromUTF8? ⟨bytes.toArray⟩

theorem ofUtf8?_utf8 (text : String) : ofUtf8? (utf8 text) = some text := by
  have valid : (⟨(utf8 text).toArray⟩ : ByteArray) = text.toByteArray := by simp [utf8]
  rw [ofUtf8?, valid, String.fromUTF8?, dif_pos text.isValidUTF8]
  rfl

theorem utf8_ofUtf8? {bytes : List UInt8} {text : String} (h : ofUtf8? bytes = some text) :
    utf8 text = bytes := by
  rw [ofUtf8?, String.fromUTF8?] at h
  split at h
  · cases h
    simp [utf8, String.fromUTF8]
  · cases h

namespace Text

/-- Control characters are the ASCII ones, DEL and those of the Latin-1 supplement. -/
def isControl (c : Char) : Bool := c.toNat < 0x20 || (0x7F ≤ c.toNat && c.toNat < 0xA0)

/-- An address starts with a slash and holds visible ASCII characters other than `#`. -/
def isAddress (text : String) : Bool :=
  text.toList.head? == some '/' &&
    text.toList.all fun c => 0x21 ≤ c.toNat && c.toNat ≤ 0x7E && c != '#'

/-- A string argument has no space, no `#` and no control character; it need not be ASCII. -/
def isPlain (text : String) : Bool :=
  text.toList.all fun c => !isControl c && c != ' ' && c != '#'

/-- The text without one leading comma, if it has one. -/
def dropComma (text : String) : String :=
  match text.toList with
  | ',' :: rest => String.ofList rest
  | _ => text

/-- Of the first 256 code points, those that print as themselves. -/
def isPrintableByte (byte : UInt8) : Bool :=
  0x20 ≤ byte.toNat && byte.toNat < 0x7F || 0xA0 < byte.toNat && byte != 0xAD

/-- A byte as the code point of the same number, in single quotes, with escapes for the quote, the
backslash and what does not print. -/
def quotedByte (byte : UInt8) : String :=
  let body :=
    if byte = 0 then "\\0"
    else if byte = 9 then "\\t"
    else if byte = 10 then "\\n"
    else if byte = 13 then "\\r"
    else if byte = 0x27 then "\\'"
    else if byte = 0x5C then "\\\\"
    else if isPrintableByte byte then String.singleton (Char.ofNat byte.toNat)
    else "\\u\x7b" ++ String.ofList (Nat.toDigits 16 byte.toNat) ++ "\x7d"
  "'" ++ body ++ "'"

def hexByte (byte : UInt8) : String :=
  String.ofList [Nat.digitChar (byte.toNat / 16), Nat.digitChar (byte.toNat % 16)]

end Text

end OscHost
