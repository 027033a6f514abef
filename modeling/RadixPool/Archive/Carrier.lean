import RadixPool.Error
import RadixPool.Json.Printer
import RadixPool.Json.Reader
import RadixPool.MessagePack.Reader
import RadixPool.MessagePack.Writer

/-!
Carriers: how a document is put into bytes.

* `Carrier`, `Carrier.encode`, `Carrier.decode`.
-/

namespace RadixPool

/-- The form in which a document is put into bytes. -/
inductive Carrier where
  /-- JSON text on one line. -/
  | json
  /-- JSON text with indentation. -/
  | prettyJson
  | messagePack
deriving DecidableEq

namespace Carrier

/-- The bytes of a document. -/
def encode : Carrier → Json → ByteArray
  | .json, j => j.compact.toUTF8
  | .prettyJson, j => j.pretty.toUTF8
  | .messagePack, j => MessagePack.encode j

/-- The document in some bytes. -/
def decode (c : Carrier) (bytes : ByteArray) : Except Error Json :=
  let read := match c with
    | .json | .prettyJson => Json.ofUtf8? bytes
    | .messagePack => MessagePack.decode? bytes
  match read with
  | some j => .ok j
  | none => .error (.document .malformed)

end Carrier

end RadixPool
