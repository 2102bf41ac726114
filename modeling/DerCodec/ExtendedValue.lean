import DerCodec.Event
import DerCodec.ExtendedValue.BackupCompatibility
import DerCodec.ExtendedValue.Error
import DerCodec.ExtendedValue.NotificationDestination
import DerCodec.ExtendedValue.OtpDelivery

/-!
# Values of extended operations

The value that an extended request or result carries is an octet string with one encoded SEQUENCE
in it. The identifier of the operation selects the reader. A value with an unregistered identifier
is left to the caller.
-/

namespace DerCodec

inductive ExtendedOperation where
  | otpDelivery
  | backupCompatibility
  | notificationSubscriptions
deriving DecidableEq, Repr

namespace ExtendedOperation

def all : List ExtendedOperation := [otpDelivery, backupCompatibility, notificationSubscriptions]

def oid : ExtendedOperation → String
  | otpDelivery => "1.3.6.1.4.1.30221.2.6.48"
  | backupCompatibility => "1.3.6.1.4.1.30221.2.6.32"
  | notificationSubscriptions => "1.3.6.1.4.1.30221.2.6.41"

def name : ExtendedOperation → String
  | otpDelivery => "Get Supported OTP Delivery Mechanisms Result"
  | backupCompatibility => "Identify Backup Compatibility Problems Request"
  | notificationSubscriptions => "List Notification Subscriptions Result"

def label : ExtendedOperation → String
  | otpDelivery => "GetSupportedOtpDeliveryMechanisms"
  | backupCompatibility => "IdentifyBackupCompatibilityProblems"
  | notificationSubscriptions => "ListNotificationSubscriptions"

/-- The operation registered under exactly this text. -/
def ofOid? (oid : String) : Option ExtendedOperation :=
  all.find? fun operation => operation.oid == oid

end ExtendedOperation

inductive ExtendedValue where
  | otpDelivery (mechanisms : List OtpMechanism)
  | backupCompatibility (request : BackupCompatibility)
  | notificationSubscriptions (destinations : List NotificationDestination)
deriving DecidableEq, Repr

namespace ExtendedValue

def operation : ExtendedValue → ExtendedOperation
  | otpDelivery _ => .otpDelivery
  | backupCompatibility _ => .backupCompatibility
  | notificationSubscriptions _ => .notificationSubscriptions

/-- The elements of the one SEQUENCE that the value holds. -/
def elements (value : Bytes) : Except ElementError (List Element) := do
  let element ← Element.decode value
  element.asSequence

/-- The value of an operation that carries one. -/
def ofOctets (operation : ExtendedOperation) (value : Bytes) :
    Except ElementError ExtendedValue := do
  let elements ← elements value
  match operation with
  | .otpDelivery =>
    let mechanisms ← elements.mapM OtpMechanism.ofElement
    return otpDelivery mechanisms
  | .backupCompatibility =>
    let request ← BackupCompatibility.ofElements elements
    return backupCompatibility request
  | .notificationSubscriptions =>
    let destinations ← elements.mapM NotificationDestination.ofElement
    return notificationSubscriptions destinations

/-- The meaning of an operation without a value: an empty list, if it may lack one. -/
def ofAbsent : ExtendedOperation → Except ExtendedValueError ExtendedValue
  | .otpDelivery => .ok (otpDelivery [])
  | .backupCompatibility => .error (.missingValue ExtendedOperation.backupCompatibility.name)
  | .notificationSubscriptions => .ok (notificationSubscriptions [])

def ofValue (operation : ExtendedOperation) (value : Option Bytes) :
    Except ExtendedValueError ExtendedValue :=
  match value with
  | none => ofAbsent operation
  | some value => (ofOctets operation value).mapError (.inValue operation.name)

/-- Reads the value with the reader registered for `oid`, if there is one. -/
def decode (oid : String) (value : Option Bytes) :
    Logged ExtendedValueError (Option ExtendedValue) :=
  match ExtendedOperation.ofOid? oid with
  | none => pure none
  | some operation =>
    (Logged.ofExcept ((ofValue operation value).map some)).debugFailure fun e =>
      s!"failed to decode {operation.name} ({operation.oid}): {e.message}"

/-- Refuses a value of more than `limit` octets before reading any of it. -/
def decodeWithin (limit : Nat) (oid : String) (value : Option Bytes) :
    Logged ExtendedValueError (Option ExtendedValue) :=
  let length := (value.getD []).length
  if limit < length then
    let name := ((ExtendedOperation.ofOid? oid).map ExtendedOperation.name).getD "extended value"
    .fail (.tooLarge name length limit)
  else decode oid value

/-- The octets to send; an empty list of destinations is sent as no value at all. -/
def encode : ExtendedValue → Except ElementError (Option Bytes)
  | otpDelivery mechanisms => do
    let elements ← mechanisms.mapM OtpMechanism.toElement
    let octets ← (Element.sequence elements).encode
    return some octets
  | backupCompatibility request => do
    let elements ← request.toElements
    let octets ← (Element.sequence elements).encode
    return some octets
  | notificationSubscriptions [] => .ok none
  | notificationSubscriptions destinations => do
    let elements ← destinations.mapM NotificationDestination.toElement
    let octets ← (Element.sequence elements).encode
    return some octets

/-- The content of the value without its type. -/
def contentJson : ExtendedValue → Json
  | otpDelivery mechanisms =>
    .object [("delivery_mechanisms", .list (mechanisms.map OtpMechanism.toJson))]
  | backupCompatibility request => request.toJson
  | notificationSubscriptions destinations =>
    .object [("destinations", .list (destinations.map NotificationDestination.toJson))]

def toJson (value : ExtendedValue) : Json :=
  .object [("type", .text value.operation.label), ("value", value.contentJson)]

end ExtendedValue

end DerCodec
