import EventStore.Lib.Encodings
import EventStore.Core.Validation

/-!
The canonical text of the numbers in a JSON document, as Rust, Go and TypeScript write it. Rust
and Go read bytes, TypeScript UTF-16 code units; each has an arithmetic of its own.
-/
namespace EventStore.Numbers

open Encodings

section Scanning

variable {α : Type} (E : AsciiEncoding α)

def is (c : Char) (a : α) : Bool := E.code a = c.toNat

def ascii (c : Char) : α := E.unit c.toNat

def isDigit (a : α) : Bool := '0'.toNat ≤ E.code a && E.code a ≤ '9'.toNat

def isNumberUnit (a : α) : Bool :=
  isDigit E a || is E '-' a || is E '+' a || is E '.' a || is E 'e' a || is E 'E' a

inductive Token (α : Type) where
  | other (text : List α)
  | number (text : List α)

def flush (run : List α) : List (Token α) := if run.isEmpty then [] else [.other run]

/-- Splits a document into number literals and the runs between; `none` is a slice that panics. -/
def scan (cut : List α → Bool) (inString : Bool) (run : List α) (text : List α) :
    Option (List (Token α)) :=
  match text with
  | [] => some (flush run)
  | c :: rest =>
    if inString && is E '\\' c then
      scan cut inString (run ++ c :: rest.take 1) (rest.drop 1)
    else if is E '"' c then scan cut (!inString) (run ++ [c]) rest
    else if !inString && (is E '-' c || isDigit E c) then
      if cut (rest.dropWhile (isNumberUnit E)) then
        (scan cut inString [] (rest.dropWhile (isNumberUnit E))).map fun tokens =>
          flush run ++ .number (c :: rest.takeWhile (isNumberUnit E)) :: tokens
      else none
    else scan cut inString (run ++ [c]) rest
termination_by text.length
decreasing_by
  all_goals simp only [List.length_cons, List.length_drop]
  · omega
  · omega
  · exact Nat.lt_succ_of_le (List.dropWhile_suffix _).length_le
  · omega

/-- A literal at its sign, its exponent's mark and its decimal point. -/
structure Parts (α : Type) where
  negative : Bool
  integer : List α
  fraction : List α
  exponent : Option (List α)

def isExponentMark (a : α) : Bool := is E 'e' a || is E 'E' a

def splitLiteral (text : List α) : Parts α :=
  let negative := text.head?.any (is E '-')
  let unsigned := if negative then text.drop 1 else text
  let mantissa := unsigned.takeWhile fun a => !isExponentMark E a
  { negative
    integer := mantissa.takeWhile fun a => !is E '.' a
    fraction := (mantissa.dropWhile fun a => !is E '.' a).drop 1
    exponent := (unsigned.dropWhile fun a => !isExponentMark E a).tail? }

def shown (text : List α) : String :=
  let show' := fun part : List α => String.ofList (part.map fun a => Char.ofNat (E.code a))
  if text.length ≤ 64 then show' text
  else show' (text.take 64) ++ "... (" ++ toString text.length ++ " bytes)"

def outOfRange (text : List α) : Error :=
  .invalidArgument ("rejection details hold a number out of the storable range: " ++ shown E text)

end Scanning

def maxScale : Int := 16383
def maxIntegerDigits : Int := 131072
def exponentCap : Int := 2 ^ 30

def unitsFrom {α : Type} (digit : Int → α) (start stop : Int) : List α :=
  (List.range (stop - start).toNat).map fun k : Nat => digit (start + k)

/-- What a Rust function does: it returns, it returns an error, or it panics, which an overflow
is taken for. -/
inductive Checked (α : Type) where
  | done (a : α)
  | refused (error : Error)
  | panicked

namespace Checked

def bind {α β : Type} : Checked α → (α → Checked β) → Checked β
  | .done a, f => f a
  | .refused error, _ => .refused error
  | .panicked, _ => .panicked

instance instMonad : Monad Checked where
  pure := .done
  bind := bind

end Checked

def i64 (n : Int) : Checked Int := if -2 ^ 63 ≤ n ∧ n < 2 ^ 63 then .done n else .panicked

abbrev bytes : AsciiEncoding UInt8 := utf8Encoding

structure Number where
  negative : Bool
  integer : List UInt8
  fraction : List UInt8
  point : Int
  scale : Int

/-- A byte as an exponent's digit; one that is not a digit counts as zero. -/
def exponentDigit (c : UInt8) : Int := if isDigit bytes c then c.toNat - '0'.toNat else 0

def addDigit (exponent : Int) (c : UInt8) : Checked Int := do
  let tenfold ← i64 (exponent * 10)
  let sum ← i64 (tenfold + exponentDigit c)
  return min sum exponentCap

def parseExponent (text : List UInt8) : Checked Int := do
  let negative := text.head?.any (is bytes '-')
  let signed := negative || text.head?.any (is bytes '+')
  let magnitude ← (if signed then text.drop 1 else text).foldlM addDigit 0
  if negative then i64 (-magnitude) else return magnitude

def exponentOf : Option (List UInt8) → Checked Int
  | none => .done 0
  | some text => parseExponent text

namespace Number

def parse (text : List UInt8) : Checked Number := do
  let parts := splitLiteral bytes text
  let exponent ← exponentOf parts.exponent
  let point ← i64 (parts.integer.length + exponent)
  let scale ← i64 (parts.fraction.length - exponent)
  return ⟨parts.negative, parts.integer, parts.fraction, point, max scale 0⟩

def digit (n : Number) (index : Int) : UInt8 :=
  if index < 0 then ascii bytes '0'
  else if index.toNat < n.integer.length then n.integer[index.toNat]?.getD (ascii bytes '0')
  else n.fraction[index.toNat - n.integer.length]?.getD (ascii bytes '0')

def digitCount (n : Number) : Int := (n.integer.length + n.fraction.length : Nat)

def firstSignificant (n : Number) : Int :=
  (n.integer ++ n.fraction).findIdx (fun c => !is bytes '0' c)

def isZero (n : Number) : Bool := n.firstSignificant = n.digitCount

def integerDigits (n : Number) : Checked Int := do
  if n.isZero then return 0
  return max (← i64 (n.point - n.firstSignificant)) 0

def check (n : Number) (text : List UInt8) : Checked Unit := do
  if maxScale < n.scale then .refused (outOfRange bytes text)
  else if maxIntegerDigits < (← n.integerDigits) then .refused (outOfRange bytes text)

def addSign (n : Number) (length : Int) : Checked Int :=
  if n.negative && !n.isZero then i64 (length + 1) else .done length

def canonicalLength (n : Number) : Checked Int := do
  let digits ← n.integerDigits
  let length ← n.addSign (max digits 1)
  if 0 < n.scale then i64 (length + (← i64 (1 + n.scale))) else return length

def writeCanonical (n : Number) : Checked (List UInt8) := do
  let sign := if n.negative && !n.isZero then [ascii bytes '-'] else []
  let integer := if (← n.integerDigits) = 0 then [ascii bytes '0']
    else unitsFrom n.digit n.firstSignificant n.point
  if 0 < n.scale then
    return sign ++ integer ++ ascii bytes '.' ::
      unitsFrom n.digit n.point (← i64 (n.point + n.scale))
  else return sign ++ integer

end Number

def charBoundary (rest : List UInt8) : Bool :=
  rest.head?.all fun c => !(0x80 ≤ c.toNat && c.toNat < 0xc0)

def tokens (json : List UInt8) : Checked (List (Token UInt8)) :=
  match scan bytes charBoundary false [] json with
  | some tokens => .done tokens
  | none => .panicked

def measure (state : Int × Bool) : Token UInt8 → Checked (Int × Bool)
  | .other text => do return (← i64 (state.1 + text.length), state.2)
  | .number text => do
    let number ← Number.parse text
    number.check text
    let size ← i64 (state.1 + (← number.canonicalLength))
    return (size, state.2 || text.any (isExponentMark bytes) ||
      (number.negative && number.isZero))

def writeToken : Token UInt8 → Checked (List UInt8)
  | .other text => .done text
  | .number text => do (← Number.parse text).writeCanonical

def canonicalNumbers (json : List UInt8) : Checked (List UInt8) := do
  let tokens ← tokens json
  let (size, changed) ← tokens.foldlM measure (0, false)
  let size := if size < 0 then 2 ^ 64 - 1 else size.toNat
  if maxOutcomeBytes < size then .refused (.outcomeTooLarge "rejection" size)
  else if changed then return (← tokens.mapM writeToken).flatten
  else return json

namespace Go

/-- A number literal with the place of its first digit other than zero. -/
structure JsonNumber where
  negative : Bool
  integer : List UInt8
  fraction : List UInt8
  first : Int
  point : Int
  scale : Int

namespace JsonNumber

def digitCount (integer fraction : List UInt8) : Int := (integer.length + fraction.length : Nat)

def digit (integer fraction : List UInt8) (index : Int) : UInt8 :=
  if index < 0 || digitCount integer fraction ≤ index then ascii bytes '0'
  else if index < integer.length then integer[index.toNat]?.getD (ascii bytes '0')
  else fraction[index.toNat - integer.length]?.getD (ascii bytes '0')

/-- The exponent's digits are read as bytes, modulo 256. -/
def parseExponent (text : List UInt8) : Int :=
  let signed := text.head?.any fun c => is bytes '+' c || is bytes '-' c
  let negative := text.head?.any (is bytes '-')
  let exponent := (if signed then text.drop 1 else text).foldl (fun (exponent : Int) c =>
    min (exponent * 10 + ((c - ascii bytes '0').toNat : Int)) exponentCap) 0
  if negative then -exponent else exponent

def parse (text : List UInt8) : JsonNumber :=
  let parts := splitLiteral bytes text
  let exponent := parseExponent (parts.exponent.getD [])
  { negative := parts.negative
    integer := parts.integer
    fraction := parts.fraction
    first := (List.range (digitCount parts.integer parts.fraction).toNat).findIdx fun index : Nat =>
      digit parts.integer parts.fraction index != ascii bytes '0'
    point := parts.integer.length + exponent
    scale := max 0 (parts.fraction.length - exponent) }

def zero (n : JsonNumber) : Bool := n.first = digitCount n.integer n.fraction

def integerDigits (n : JsonNumber) : Int := if n.zero then 0 else max 0 (n.point - n.first)

def check (n : JsonNumber) (text : List UInt8) : Except Error Unit :=
  if maxScale < n.scale ∨ maxIntegerDigits < n.integerDigits then .error (outOfRange bytes text)
  else .ok ()

def canonicalLength (n : JsonNumber) : Int :=
  max 1 n.integerDigits + (if n.negative && !n.zero then 1 else 0) +
    (if 0 < n.scale then 1 + n.scale else 0)

def appendCanonical (n : JsonNumber) : List UInt8 :=
  (if n.negative && !n.zero then [ascii bytes '-'] else []) ++
    (if n.integerDigits = 0 then [ascii bytes '0']
      else unitsFrom (digit n.integer n.fraction) n.first n.point) ++
    if 0 < n.scale then ascii bytes '.' ::
      unitsFrom (digit n.integer n.fraction) n.point (n.point + n.scale)
    else []

end JsonNumber

def scanJSONNumbers (encoded : List UInt8) : List (Token UInt8) :=
  (scan bytes (fun _ => true) false [] encoded).getD []

def visitSize (state : Int × Bool) : Token UInt8 → Except Error (Int × Bool)
  | .other text => .ok (state.1 + text.length, state.2)
  | .number text => do
    let number := JsonNumber.parse text
    number.check text
    return (state.1 + number.canonicalLength,
      state.2 || text.any (isExponentMark bytes) || (number.negative && number.zero))

def canonicalNumbersSize (encoded : List UInt8) : Except Error (Nat × Bool) := do
  let (size, changed) ← (scanJSONNumbers encoded).foldlM visitSize (0, false)
  return ((min size (2 ^ 63 - 1)).toNat, changed)

def appendToken : Token UInt8 → List UInt8
  | .other text => text
  | .number text => (JsonNumber.parse text).appendCanonical

def canonicalNumbers (encoded : List UInt8) : Except Error (List UInt8) := do
  let (size, changed) ← canonicalNumbersSize encoded
  if maxOutcomeBytes < size then .error (.outcomeTooLarge "rejection" size)
  else if changed then return (scanJSONNumbers encoded).flatMap appendToken
  else return encoded

end Go

namespace TypeScript

abbrev units : AsciiEncoding UInt16 := utf16Encoding

def utf8Length : List UInt16 → Nat
  | [] => 0
  | [unit] => if unit.toNat < 0x80 then 1 else if unit.toNat < 0x800 then 2 else 3
  | unit :: next :: rest =>
    if unit.toNat < 0x80 then 1 + utf8Length (next :: rest)
    else if unit.toNat < 0x800 then 2 + utf8Length (next :: rest)
    else if isHighSurrogate unit && isLowSurrogate next then 4 + utf8Length rest
    else 3 + utf8Length (next :: rest)

structure NumberLiteral where
  text : List UInt16
  negative : Bool
  digits : List UInt16
  point : Int
  scale : Int

def parseExponent (text : List UInt16) : Int :=
  let negative := text.head?.any (is units '-')
  let signed := negative || text.head?.any (is units '+')
  let magnitude := (if signed then text.drop 1 else text).foldl (fun (magnitude : Int) c =>
    min (magnitude * 10 + if isDigit units c then c.toNat - 48 else 0) exponentCap) 0
  if negative then -magnitude else magnitude

namespace NumberLiteral

def new (text : List UInt16) : NumberLiteral :=
  let parts := splitLiteral units text
  let exponent := (parts.exponent.map parseExponent).getD 0
  { text
    negative := parts.negative
    digits := parts.integer ++ parts.fraction
    point := parts.integer.length + exponent
    scale := max (parts.fraction.length - exponent) 0 }

def firstSignificant (n : NumberLiteral) : Int :=
  n.digits.findIdx fun c => '1'.toNat ≤ c.toNat && c.toNat ≤ '9'.toNat

def isZero (n : NumberLiteral) : Bool := n.firstSignificant = n.digits.length

def integerDigits (n : NumberLiteral) : Int :=
  if n.isZero then 0 else max (n.point - n.firstSignificant) 0

def check (n : NumberLiteral) : Except Error Unit :=
  if maxScale < n.scale ∨ maxIntegerDigits < n.integerDigits then .error (outOfRange units n.text)
  else .ok ()

def canonicalLength (n : NumberLiteral) : Int :=
  max n.integerDigits 1 + (if n.negative && !n.isZero then 1 else 0) +
    (if 0 < n.scale then 1 + n.scale else 0)

def range (n : NumberLiteral) (start stop : Int) : List UInt16 :=
  let length : Int := n.digits.length
  let before := max 0 (min stop 0 - start)
  let after := max 0 (stop - max start length)
  let written := (n.digits.take (max (min stop length) 0).toNat).drop (max start 0).toNat
  List.replicate before.toNat (ascii units '0') ++ written ++
    List.replicate after.toNat (ascii units '0')

def canonical (n : NumberLiteral) : List UInt16 :=
  (if n.negative && !n.isZero then [ascii units '-'] else []) ++
    (if n.integerDigits = 0 then [ascii units '0'] else n.range n.firstSignificant n.point) ++
    if 0 < n.scale then ascii units '.' :: n.range n.point (n.point + n.scale) else []

end NumberLiteral

def tokens (json : List UInt16) : List (Token UInt16) :=
  (scan units (fun _ => true) false [] json).getD []

def measure (state : Int × Bool) : Token UInt16 → Except Error (Int × Bool)
  | .other text => .ok (state.1 + utf8Length text, state.2)
  | .number text => do
    let number := NumberLiteral.new text
    number.check
    return (state.1 + number.canonicalLength,
      state.2 || text.any (isExponentMark units) || (number.negative && number.isZero))

def writeToken : Token UInt16 → List UInt16
  | .other text => text
  | .number text => (NumberLiteral.new text).canonical

def canonicalNumbers (json : List UInt16) : Except Error (List UInt16) := do
  let (size, changed) ← (tokens json).foldlM measure (0, false)
  if maxOutcomeBytes < size then .error (.outcomeTooLarge "rejection" size.toNat)
  else if changed then return (tokens json).flatMap writeToken
  else return json

end TypeScript

end EventStore.Numbers
