/-! # Modified UTF-8

Texts in a class file are written by UTF-16 unit: a unit from 1 to 0x7F is one byte, zero and the
units below 0x800 are two, all others three. A character outside the basic plane is thus the six
bytes of its two surrogates, and no byte of an encoded text is zero.

Decoding takes any bytes: a lead byte without enough bytes after it, and a surrogate without its
partner, give the replacement character.
-/

namespace SmalltalkJvm.ModifiedUtf8

def replacement : Nat := 0xFFFD

/-- The UTF-16 units of a character. -/
def charUnits (c : Char) : List Nat :=
  if c.toNat < 0x10000 then [c.toNat]
  else [0xD800 + (c.toNat - 0x10000) / 1024, 0xDC00 + (c.toNat - 0x10000) % 1024]

def unitBytes (u : Nat) : List UInt8 :=
  if 0 < u ∧ u < 0x80 then [u.toUInt8]
  else if u < 0x800 then [(0xC0 + u / 64).toUInt8, (0x80 + u % 64).toUInt8]
  else [(0xE0 + u / 4096).toUInt8, (0x80 + u / 64 % 64).toUInt8, (0x80 + u % 64).toUInt8]

def unitSize (u : Nat) : Nat :=
  if 0 < u ∧ u < 0x80 then 1 else if u < 0x800 then 2 else 3

def units (text : String) : List Nat := text.toList.flatMap charUnits

def encode (text : String) : List UInt8 := (units text).flatMap unitBytes

/-- The number of bytes of the encoded text, without encoding it. -/
def size (text : String) : Nat := (units text).foldl (fun n u => n + unitSize u) 0

/-- Whether a byte opens a two-byte unit. -/
def leadsTwo (b : UInt8) : Bool := 0xC0 ≤ b && b < 0xE0

def unitOfTwo (b c : UInt8) : Nat := b.toNat % 32 * 64 + c.toNat % 64

def unitOfThree (b c d : UInt8) : Nat :=
  b.toNat % 16 * 4096 + c.toNat % 64 * 64 + d.toNat % 64

/-- The units that a run of bytes holds. Every byte from 0x80 that opens no two-byte unit is taken
to open a three-byte one. -/
def unitsOfBytes : List UInt8 → List Nat
  | [] => []
  | [b] => [if b < 0x80 then b.toNat else replacement]
  | [b, c] =>
    if b < 0x80 then b.toNat :: unitsOfBytes [c]
    else if leadsTwo b then [unitOfTwo b c]
    else replacement :: unitsOfBytes [c]
  | b :: c :: d :: rest =>
    if b < 0x80 then b.toNat :: unitsOfBytes (c :: d :: rest)
    else if leadsTwo b then unitOfTwo b c :: unitsOfBytes (d :: rest)
    else unitOfThree b c d :: unitsOfBytes rest

def isHigh (u : Nat) : Bool := 0xD800 ≤ u && u < 0xDC00

def isLow (u : Nat) : Bool := 0xDC00 ≤ u && u < 0xE000

def charOfPair (hi lo : Nat) : Char :=
  Char.ofNat (0x10000 + (hi - 0xD800) * 1024 + (lo - 0xDC00))

/-- The character of a unit that is part of no surrogate pair. -/
def charOfUnit (u : Nat) : Char :=
  if isHigh u || isLow u then Char.ofNat replacement else Char.ofNat u

def charsOfUnits : List Nat → List Char
  | [] => []
  | [u] => [charOfUnit u]
  | u :: v :: rest =>
    if isHigh u && isLow v then charOfPair u v :: charsOfUnits rest
    else charOfUnit u :: charsOfUnits (v :: rest)

def decode (bytes : List UInt8) : String := String.ofList (charsOfUnits (unitsOfBytes bytes))

end SmalltalkJvm.ModifiedUtf8
