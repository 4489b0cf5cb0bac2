/-!
# Text and bytes

Text reaches the machine as its UTF-8 bytes. An input queue is read from its
last byte, so the queue of a text holds the text's bytes in reverse.
-/
namespace TapeMachine.Text

def bytes (s : String) : List UInt8 :=
  s.toList.flatMap String.utf8EncodeChar

/-- The text that bytes spell in UTF-8, if they are valid. -/
def ofBytes? (bs : List UInt8) : Option String :=
  String.fromUTF8? ⟨bs.toArray⟩

/-- The input queue from which the bytes of `s` are read in order. -/
def queue (s : String) : Array UInt8 :=
  (bytes s).reverse.toArray

theorem bytes_append (s t : String) : bytes (s ++ t) = bytes s ++ bytes t := by
  simp [bytes]

theorem toList_queue (s : String) : (queue s).toList = (bytes s).reverse := by
  simp [queue]

end TapeMachine.Text
