import DerCodec.Element.Access
import DerCodec.Json.Primitive

/-!
# Validity

A certificate is valid between two times. Times from 1950 to 2049 are written as UTCTime, which has
whole seconds only, and all others as GeneralizedTime; a time that was read keeps the string type
that it had.
-/

namespace DerCodec

inductive CertificateTime where
  | utc (time : DateTime)
  | generalized (time : DateTime)
deriving DecidableEq

namespace CertificateTime

def ofDateTime (time : DateTime) : CertificateTime :=
  if UtcTime.hasYear time.year then utc time.wholeSecond else generalized time

def dateTime : CertificateTime → DateTime
  | utc time => time
  | generalized time => time

def ofElement : Element → Except ElementError CertificateTime
  | .primitive .utcTime time => .ok (utc time)
  | .primitive .generalizedTime time => .ok (generalized time)
  | element => .error (element.unexpected "UTCTime or GeneralizedTime")

def toElement : CertificateTime → Element
  | utc time => .primitive .utcTime time
  | generalized time => .primitive .generalizedTime time

def toJson : CertificateTime → Json
  | utc time => .variant "Utc" time.toJson
  | generalized time => .variant "Generalized" time.toJson

end CertificateTime

structure Validity where
  notBefore : CertificateTime
  notAfter : CertificateTime
deriving DecidableEq

namespace Validity

def ofDateTimes (notBefore notAfter : DateTime) : Validity :=
  ⟨.ofDateTime notBefore, .ofDateTime notAfter⟩

def ofElement (element : Element) : Except ElementError Validity := do
  match ← element.asSequence with
  | [notBefore, notAfter] =>
    let notBefore ← CertificateTime.ofElement notBefore
    let notAfter ← CertificateTime.ofElement notAfter
    return ⟨notBefore, notAfter⟩
  | elements => .error (.elementCount "Validity" 2 elements.length)

def toElement (validity : Validity) : Element :=
  .sequence [validity.notBefore.toElement, validity.notAfter.toElement]

def toJson (validity : Validity) : Json :=
  .object [("not_before", validity.notBefore.toJson), ("not_after", validity.notAfter.toJson)]

end Validity

end DerCodec
