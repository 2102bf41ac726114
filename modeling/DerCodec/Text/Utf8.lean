import DerCodec.Bytes

/-!
# UTF-8 text

`encode` and `decode?` are exact: `decode?` refuses octets that no text is written as. `lossy`
reads any octets, for use in messages; each longest run that starts a character and does not
finish one gives a single U+FFFD.
-/

namespace DerCodec.Utf8

def encode (text : String) : Bytes :=
  text.toByteArray.data.toList

def decode? (bytes : Bytes) : Option String :=
  String.fromUTF8? bytes.toByteArray

def isAscii (text : String) : Bool :=
  text.toList.all (·.toNat < 128)

/-- Whether `octet` may follow `lead` as the second octet of a character of three or four. -/
def mayFollow (lead octet : UInt8) : Bool :=
  if lead = 0xe0 then 0xa0 ≤ octet && octet ≤ 0xbf
  else if lead = 0xed then 0x80 ≤ octet && octet ≤ 0x9f
  else if lead = 0xf0 then 0x90 ≤ octet && octet ≤ 0xbf
  else if lead = 0xf4 then 0x80 ≤ octet && octet ≤ 0x8f
  else 0x80 ≤ octet && octet ≤ 0xbf

def isContinuation (octet : UInt8) : Bool :=
  0x80 ≤ octet && octet ≤ 0xbf

/-- The low six bits of a continuation octet, after those read before. -/
def extend (n : Nat) (octet : UInt8) : Nat :=
  n * 64 + octet.toNat % 64

/-- The character at the front of `first :: rest`, U+FFFD for a broken one, and how many octets of
`rest` belong to it. -/
def lossyFront (first : UInt8) (rest : Bytes) : Char × Nat :=
  let broken := Char.ofNat 0xfffd
  if first < 0x80 then (Char.ofNat first.toNat, 0)
  else if 0xc2 ≤ first && first ≤ 0xdf then
    match rest with
    | b :: _ =>
      if isContinuation b then (Char.ofNat (extend (first.toNat % 32) b), 1) else (broken, 0)
    | [] => (broken, 0)
  else if 0xe0 ≤ first && first ≤ 0xef then
    match rest with
    | b :: c :: _ =>
      if !mayFollow first b then (broken, 0)
      else if !isContinuation c then (broken, 1)
      else (Char.ofNat (extend (extend (first.toNat % 16) b) c), 2)
    | [b] => if mayFollow first b then (broken, 1) else (broken, 0)
    | [] => (broken, 0)
  else if 0xf0 ≤ first && first ≤ 0xf4 then
    match rest with
    | b :: c :: d :: _ =>
      if !mayFollow first b then (broken, 0)
      else if !isContinuation c then (broken, 1)
      else if !isContinuation d then (broken, 2)
      else (Char.ofNat (extend (extend (extend (first.toNat % 8) b) c) d), 3)
    | [b, c] =>
      if !mayFollow first b then (broken, 0)
      else if !isContinuation c then (broken, 1)
      else (broken, 2)
    | [b] => if mayFollow first b then (broken, 1) else (broken, 0)
    | [] => (broken, 0)
  else (broken, 0)

def lossyChars : Bytes → List Char
  | [] => []
  | first :: rest =>
    (lossyFront first rest).1 :: lossyChars (rest.drop (lossyFront first rest).2)
termination_by bytes => bytes.length
decreasing_by simp only [List.length_drop, List.length_cons]; omega

def lossy (bytes : Bytes) : String :=
  String.ofList (lossyChars bytes)

end DerCodec.Utf8
