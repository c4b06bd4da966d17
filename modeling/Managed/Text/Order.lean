/-!
# The order of texts

Texts compare by the bytes of their UTF-8 form.
-/

namespace Managed.Text

/-- The bytes of a text in UTF-8. -/
def bytes (text : String) : List UInt8 :=
  text.toUTF8.data.toList

def byteOrder (a b : String) : Ordering :=
  compare (bytes a) (bytes b)

end Managed.Text
