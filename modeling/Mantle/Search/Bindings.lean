import Mantle.Access.Envelope

/-!
# Mantle.Search.Bindings — what binds a blob to its slot (`sse/posting.py`, `oracle.py`)

The associated data give every id but the last with its length, so no two slots share them.  The text a cell key is
derived from sets two ids apart by a NUL alone, and the legacy binding is the principal's id as it stands.

A binding is the text whose UTF-8 bytes the code passes on; the encoding of texts is injective.
-/

namespace Mantle.Bindings

open Envelope

/-- An id with its length in bytes. -/
def field (s : String) : String := toString s.utf8ByteSize ++ ":" ++ s

end Mantle.Bindings
