import DerCodec.Text.Blank
import DerCodec.Text.Hex
import DerCodec.Text.Utf8

/-!
# Text form of octet strings

Octets are written as hexadecimal pairs. The reader lets blank characters, colons and hyphens
stand anywhere. It takes the remaining text two octets of UTF-8 at a time, and accepts a plus sign
in place of the first digit of a pair. A pair whose border falls inside a character has a cause of
its own.
-/

namespace DerCodec

inductive HexError where
  | oddLength
  | invalidDigit
  | splitCharacter
deriving DecidableEq, Repr

def HexError.message : HexError → String
  | oddLength => "hex string must have even length"
  | invalidDigit => "invalid hex string: invalid digit found in string"
  | splitCharacter => "hex string is cut inside a character"

namespace OctetString

def toText (octets : Bytes) : String :=
  Hex.encode octets

def isSeparator (c : Char) : Bool :=
  isBlank c || c == ':' || c == '-'

/-- The octet written by a pair of ASCII characters. -/
def pairValue (high low : Char) : Except HexError UInt8 :=
  let high := if high = '+' then some 0 else Hex.digitValue? high
  match high, Hex.digitValue? low with
  | some high, some low => .ok (UInt8.ofNat (high * 16 + low))
  | _, _ => .error .invalidDigit

def readPairs : List Char → Except HexError Bytes
  | [] => .ok []
  | c :: rest =>
    if c.utf8Size = 1 then
      match rest with
      | [] => .error .oddLength
      | d :: rest =>
        if d.utf8Size = 1 then do
          let octet ← pairValue c d
          let octets ← readPairs rest
          return octet :: octets
        else .error .splitCharacter
    else if c.utf8Size = 2 then .error .invalidDigit
    else .error .splitCharacter

/-- How many octets the characters take in UTF-8. -/
def utf8Length : List Char → Nat
  | [] => 0
  | c :: rest => c.utf8Size + utf8Length rest

def ofText (text : String) : Except HexError Bytes :=
  let chars := text.toList.filter (!isSeparator ·)
  if utf8Length chars % 2 = 0 then readPairs chars else .error .oddLength

end OctetString

end DerCodec
