import DerCodec.Json.Primitive
import DerCodec.Schema

/-!
# Delivery of one-time passwords

The value lists the mechanisms by which a one-time password can be delivered to a user. Whether a
mechanism is supported is absent when the server could not tell.
-/

namespace DerCodec

structure OtpMechanism where
  name : String
  isSupported : Option Bool
  /-- Where the password would be sent, such as a phone number. -/
  recipientId : Option String
deriving DecidableEq, Repr

namespace OtpMechanism

def nameTag : Tag := .context 0
def isSupportedTag : Tag := .context 1
def recipientIdTag : Tag := .context 2

def schema : Schema where
  name := "SupportedOTPDeliveryMechanismInfo"
  positional := [.required "deliveryMechanism" nameTag]
  optional := [.optional "isSupported" isSupportedTag, .optional "recipientID" recipientIdTag]
  extensible := false

def ofElement (element : Element) : Except ElementError OtpMechanism := do
  let elements ← element.asSequence
  let fields ← (schema.decode elements).mapError .schema
  let nameField ← (fields.required 0).mapError .schema
  let name ← nameField.decodeAs .octetString nameTag
  let isSupported ← (fields.optional? isSupportedTag).mapM (Element.decodeAs .boolean isSupportedTag)
  let recipient ← (fields.optional? recipientIdTag).mapM (Element.decodeAs .octetString recipientIdTag)
  let name ← Utf8.decode Primitive.octetString.formalName name
  let recipientId ← recipient.mapM (Utf8.decode Primitive.octetString.formalName)
  return ⟨name, isSupported, recipientId⟩

def toElement (mechanism : OtpMechanism) : Except ElementError Element := do
  let isSupported ← mechanism.isSupported.mapM (Element.implicit .boolean isSupportedTag)
  let recipientId ← mechanism.recipientId.mapM fun id =>
    Element.implicit .octetString recipientIdTag (Utf8.encode id)
  let name ← Element.implicit .octetString nameTag (Utf8.encode mechanism.name)
  let children ← (schema.encode [some name]
    [(isSupportedTag, isSupported), (recipientIdTag, recipientId)]).mapError .schema
  return .sequence children

def toJson (mechanism : OtpMechanism) : Json :=
  .object [("delivery_mechanism", .text mechanism.name),
    ("is_supported", .ofOption .bool mechanism.isSupported),
    ("recipient_id", .ofOption .text mechanism.recipientId)]

end OtpMechanism

end DerCodec
