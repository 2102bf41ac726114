import DerCodec.Json.Primitive
import DerCodec.Schema

/-!
# Notification destinations

The value lists the destinations of notifications with the subscriptions registered against each.
Destinations and subscriptions have an identifier and details, which are opaque octets.
-/

namespace DerCodec

structure NotificationSubscription where
  id : String
  details : List Bytes
deriving DecidableEq, Repr

structure NotificationDestination where
  id : String
  details : List Bytes
  subscriptions : List NotificationSubscription
deriving DecidableEq, Repr

namespace NotificationDestination

def idOfElement (element : Element) : Except ElementError String := do
  let octets ← element.value .octetString
  Utf8.decode Primitive.octetString.formalName octets

def idToElement (id : String) : Element :=
  .primitive .octetString (Utf8.encode id)

def detailsOfElement (element : Element) : Except ElementError (List Bytes) := do
  let elements ← element.asSequence
  elements.mapM (Element.asPrimitive .octetString)

def detailsToElement (details : List Bytes) : Element :=
  .sequence (details.map (.primitive .octetString))

def detailsToJson (details : List Bytes) : Json :=
  .list (details.map OctetString.toJson)

end NotificationDestination

namespace NotificationSubscription

open NotificationDestination

def schema : Schema where
  name := "NotificationSubscriptionDetails"
  positional := [.required "subscriptionID" Primitive.octetString.tag,
    .required "subscriptionDetails" Universal.sequence.tag]
  optional := []
  extensible := false

def ofElement (element : Element) : Except ElementError NotificationSubscription := do
  let elements ← element.asSequence
  let fields ← (schema.decode elements).mapError .schema
  let idField ← (fields.required 0).mapError .schema
  let id ← idOfElement idField
  let detailsField ← (fields.required 1).mapError .schema
  let details ← detailsOfElement detailsField
  return ⟨id, details⟩

def toElement (subscription : NotificationSubscription) : Except ElementError Element := do
  let children ← (schema.encode [some (idToElement subscription.id),
    some (detailsToElement subscription.details)] []).mapError .schema
  return .sequence children

def toJson (subscription : NotificationSubscription) : Json :=
  .object [("id", .text subscription.id), ("details", detailsToJson subscription.details)]

end NotificationSubscription

namespace NotificationDestination

def schema : Schema where
  name := "NotificationDestinationDetails"
  positional := [.required "destinationID" Primitive.octetString.tag,
    .required "destinationDetails" Universal.sequence.tag,
    .required "subscriptions" Universal.sequence.tag]
  optional := []
  extensible := false

/-- The subscriptions are read before the identifier and the details. -/
def ofElement (element : Element) : Except ElementError NotificationDestination := do
  let elements ← element.asSequence
  let fields ← (schema.decode elements).mapError .schema
  let subscriptionsField ← (fields.required 2).mapError .schema
  let subscriptionElements ← subscriptionsField.asSequence
  let subscriptions ← subscriptionElements.mapM NotificationSubscription.ofElement
  let idField ← (fields.required 0).mapError .schema
  let id ← idOfElement idField
  let detailsField ← (fields.required 1).mapError .schema
  let details ← detailsOfElement detailsField
  return ⟨id, details, subscriptions⟩

def toElement (destination : NotificationDestination) : Except ElementError Element := do
  let subscriptions ← destination.subscriptions.mapM NotificationSubscription.toElement
  let children ← (schema.encode [some (idToElement destination.id),
    some (detailsToElement destination.details), some (.sequence subscriptions)]
    []).mapError .schema
  return .sequence children

def toJson (destination : NotificationDestination) : Json :=
  .object [("id", .text destination.id), ("details", detailsToJson destination.details),
    ("subscriptions", .list (destination.subscriptions.map NotificationSubscription.toJson))]

end NotificationDestination

end DerCodec
