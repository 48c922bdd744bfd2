import EventStore.Lib.Encodings
import EventStore.Core.Transactions

/-!
The bytes that a command's identity digest hashes, in the three languages. Strings are characters
in Rust, bytes in Go and UTF-16 code units in TypeScript; each sorts the targets in its own way.
-/
namespace EventStore

open Encodings

def CommandIdentity.digestInput (identity : CommandIdentity) (metadata : Metadata) : DigestInput :=
  ⟨identity.commandType, identity.targets, identity.payload, principal metadata⟩

def digestTag : String := "evt-cmd-digest-v1"

/-- The tag and a zero byte, then the fields, each behind its length. -/
def digestBytes (commandType : List UInt8) (targets : List (List UInt8))
    (payload : Bytes) (principal : List UInt8) : List UInt8 :=
  utf8Bytes digestTag.toList ++ [0] ++ framed commandType ++
    (uint32 targets.length ++ targets.flatMap framed) ++
    framed payload.data.toList ++ framed principal

def textBytes (text : String) : List UInt8 := utf8Bytes text.toList

def sortedTargets (targets : List EntityId) : List EntityId :=
  compact (targets.insertionSort fun a b => textBytes a ≤ textBytes b)

def canonicalDigestBytes (input : DigestInput) : List UInt8 :=
  digestBytes (textBytes input.commandType) ((sortedTargets input.targets).map textBytes)
    input.payload (textBytes input.principal)

namespace Go

/-- A string is its bytes. -/
structure DigestInput where
  commandType : List UInt8
  targets : List (List UInt8)
  payload : Bytes
  principal : List UInt8

def canonicalDigestBytes (input : DigestInput) : List UInt8 :=
  digestBytes input.commandType (compact (input.targets.insertionSort (· ≤ ·))) input.payload
    input.principal

def DigestInput.of (input : EventStore.DigestInput) : DigestInput :=
  ⟨textBytes input.commandType, input.targets.map textBytes, input.payload,
    textBytes input.principal⟩

end Go

namespace TypeScript

/-- A string is its UTF-16 code units. -/
structure DigestInput where
  commandType : List UInt16
  targets : List (List UInt16)
  payload : Bytes
  principal : List UInt16

/-- The code point at the start, with U+FFFD in the place of a lone surrogate. -/
def codePointAt : List UInt16 → Nat
  | [] => 0
  | unit :: units =>
    match units with
    | next :: _ =>
      if isHighSurrogate unit && isLowSurrogate next then pairCodePoint unit next
      else if isSurrogate unit then 0xfffd else unit.toNat
    | [] => if isSurrogate unit then 0xfffd else unit.toNat

def codePointUnits (x : Nat) : Nat := if 0xffff < x then 2 else 1

def compareUtf8 : List UInt16 → List UInt16 → Int
  | u :: a, v :: b =>
    let x := codePointAt (u :: a)
    let y := codePointAt (v :: b)
    if x ≠ y then if x < y then -1 else 1
    else compareUtf8 ((u :: a).drop (codePointUnits x)) ((v :: b).drop (codePointUnits y))
  | a, b => a.length - b.length
termination_by a => a.length
decreasing_by
  simp only [List.length_drop, List.length_cons, codePointUnits]
  split <;> omega

def sortedTargets (targets : List (List UInt16)) : List (List UInt16) :=
  targets.reverse.dedup.reverse.insertionSort fun a b => compareUtf8 a b ≤ 0

def utf8Encode (text : List UInt16) : List UInt8 := utf8Bytes (scalars text)

def canonicalDigestBytes (input : DigestInput) : List UInt8 :=
  digestBytes (utf8Encode input.commandType) ((sortedTargets input.targets).map utf8Encode)
    input.payload (utf8Encode input.principal)

def DigestInput.of (input : EventStore.DigestInput) : DigestInput :=
  ⟨utf16 input.commandType.toList, input.targets.map (utf16 ·.toList), input.payload,
    utf16 input.principal.toList⟩

end TypeScript

end EventStore
