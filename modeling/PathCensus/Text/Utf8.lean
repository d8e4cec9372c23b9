/-!
# Bytes and characters

Text is stored as UTF-8; reading it back fails on a malformed sequence.
-/

namespace PathCensus.Text

/-- The UTF-8 bytes of a text. -/
def encode (text : String) : List UInt8 :=
  text.toByteArray.data.toList

/-- The text that the bytes encode, `none` if they are not UTF-8. -/
def decode? (bytes : List UInt8) : Option (List Char) :=
  (ByteArray.utf8Decode? ⟨bytes.toArray⟩).map Array.toList

/-- What was encoded can be decoded. -/
theorem decode?_encode (text : String) : decode? (encode text) = some text.toList := by
  have h : (⟨(encode text).toArray⟩ : ByteArray) = text.toList.utf8Encode := by
    rw [String.utf8Encode_toList]; simp [encode]
  rw [decode?, h, List.utf8Decode?_utf8Encode]
  simp

end PathCensus.Text
