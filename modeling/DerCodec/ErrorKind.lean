/-!
# Classes of failure

Each layer has its own type of causes. A cause belongs to one of five classes, so that a caller
can tell a cut-off input from a value that makes no sense without knowing every cause.
-/

namespace DerCodec

inductive ErrorKind where
  /-- Octets that end too early or that no element starts with. -/
  | framing
  /-- A tag or a number of elements other than the expected one. -/
  | shape
  /-- Content that is well framed but no value of its type. -/
  | value
  /-- Fields that are valid each and disagree with each other. -/
  | crossCheck
  /-- A value that has no encoding. -/
  | encoding
deriving DecidableEq, Repr

def ErrorKind.label : ErrorKind → String
  | .framing => "framing"
  | .shape => "shape"
  | .value => "value"
  | .crossCheck => "cross-check"
  | .encoding => "encoding"

/-- Types of causes, which all have a class of failure and a message. -/
class Cause (ε : Type) where
  kind : ε → ErrorKind
  message : ε → String

end DerCodec
