import DerCodec.Certificate.Name
import DerCodec.Extension.Error
import DerCodec.Extension.IpAddress

/-!
# General names

A name of one of nine forms, told apart by tag number. Three forms hold elements that are not read
further. Lists of names have at least one member when they are read.
-/

namespace DerCodec

inductive GeneralName where
  | other (elements : List Element)
  | email (address : String)
  | dns (name : String)
  | x400 (elements : List Element)
  | directory (name : Name)
  | ediParty (elements : List Element)
  | uri (address : String)
  | ip (address : IpAddress)
  | registeredId (oid : Oid)
deriving DecidableEq

namespace GeneralName

def emailTag : Tag := .context 1
def dnsTag : Tag := .context 2
def uriTag : Tag := .context 6
def ipTag : Tag := .context 7
def registeredIdTag : Tag := .context 8

def inElement (cause : ElementError) : ExtensionError :=
  .element .generalName cause

/-- The directory name inside its explicit tag. -/
def directoryOfElement (element : Element) : Except ElementError Name := do
  let inner ← element.explicitInner 4
  Name.ofElement inner

def ipOfElement (element : Element) : Except ExtensionError IpAddress := do
  let octets ← (element.decodeAs .octetString ipTag).mapError inElement
  match IpAddress.ofOctets? octets with
  | some address => .ok address
  | none => .error (.addressLength octets.length)

def ofElement (element : Element) : Except ExtensionError GeneralName :=
  let list (number : UInt32) : Except ExtensionError (List Element) :=
    (element.childrenUnder (.contextConstructed number)).mapError inElement
  let ascii (tag : Tag) : Except ExtensionError String :=
    (element.decodeAs .ia5String tag).mapError inElement
  if element.tag.tagClass ≠ .contextSpecific then .error (.unknownGeneralName element.tag)
  else
    match element.tag.number with
    | 0 => (list 0).map other
    | 1 => (ascii emailTag).map email
    | 2 => (ascii dnsTag).map dns
    | 3 => (list 3).map x400
    | 4 => ((directoryOfElement element).mapError inElement).map directory
    | 5 => (list 5).map ediParty
    | 6 => (ascii uriTag).map uri
    | 7 => (ipOfElement element).map ip
    | 8 => ((element.decodeAs .oid registeredIdTag).mapError inElement).map registeredId
    | _ => .error (.unknownGeneralName element.tag)

def toElement : GeneralName → Except ExtensionError Element
  | other elements => .ok (.implicitList (.contextConstructed 0) elements)
  | email address => (Element.implicit .ia5String emailTag address).mapError inElement
  | dns name => (Element.implicit .ia5String dnsTag name).mapError inElement
  | x400 elements => .ok (.implicitList (.contextConstructed 3) elements)
  | directory name => .ok (.explicit 4 name.toElement)
  | ediParty elements => .ok (.implicitList (.contextConstructed 5) elements)
  | uri address => (Element.implicit .ia5String uriTag address).mapError inElement
  | ip address => (Element.implicit .octetString ipTag address.octets).mapError inElement
  | registeredId oid => (Element.implicit .oid registeredIdTag oid).mapError inElement

def text : GeneralName → String
  | other _ => "otherName:<unsupported>"
  | email address => s!"email:{address}"
  | dns name => s!"DNS:{name}"
  | x400 _ => "X400Name:<unsupported>"
  | directory name => s!"DirName:{name.text}"
  | ediParty _ => "EdiPartyName:<unsupported>"
  | uri address => s!"URI:{address}"
  | ip address => s!"IP:{address.text}"
  | registeredId oid => s!"RID:{oid.text}"

/-- Elements are reported by their encoding. -/
def elementsJson (elements : List Element) : Except ElementError Json := do
  let octets ← Element.encodeAll elements
  return OctetString.toJson octets

def toJson : GeneralName → Except ElementError Json
  | other elements => (elementsJson elements).map (.variant "OtherName")
  | email address => .ok (.variant "Rfc822Name" (.text address))
  | dns name => .ok (.variant "DnsName" (.text name))
  | x400 elements => (elementsJson elements).map (.variant "X400Address")
  | directory name => .ok (.variant "DirectoryName" name.toJson)
  | ediParty elements => (elementsJson elements).map (.variant "EdiPartyName")
  | uri address => .ok (.variant "Uri" (.text address))
  | ip address => .ok (.variant "IpAddress" (.text address.text))
  | registeredId oid => .ok (.variant "RegisteredId" oid.toJson)

/-- A list of names inside an extension of the given kind. -/
def listOfElements (kind : ExtensionKind) (elements : List Element) :
    Except ExtensionError (List GeneralName) :=
  if elements.isEmpty then .error (.emptyList kind) else elements.mapM ofElement

def listToElements (names : List GeneralName) : Except ExtensionError (List Element) :=
  names.mapM toElement

def listJson (names : List GeneralName) : Except ElementError Json :=
  (names.mapM toJson).map .list

end GeneralName

end DerCodec
