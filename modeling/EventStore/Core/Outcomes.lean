import EventStore.Lib.JsonValues
import EventStore.Core.DynamoFence
import EventStore.Core.Numbers

/-!
Outcome rows as they are stored and read back: the JSON texts as the shared encoder writes them,
base64, and the checks a row passes when it is read. Numbers are a third-party encoder's and are
a parameter.
-/
namespace EventStore

open Result JsonNumbers JsonValues

namespace Base64

def alphabet : List Char :=
  "ABCDEFGHIJKLMNOPQRSTUVWXYZabcdefghijklmnopqrstuvwxyz0123456789+/".toList

def symbol (n : Nat) : Char := alphabet.getD (n % 64) 'A'

def encodeChunk (b0 b1 b2 : UInt8) (padding : Nat) : List Char :=
  let triple := b0.toNat * 65536 + b1.toNat * 256 + b2.toNat
  [symbol (triple / 262144), symbol (triple / 4096),
    if padding < 2 then symbol (triple / 64) else '=', if padding < 1 then symbol triple else '=']

def encodeBytes : List UInt8 → List Char
  | [] => []
  | [b0] => encodeChunk b0 0 0 2
  | [b0, b1] => encodeChunk b0 b1 0 1
  | b0 :: b1 :: b2 :: bytes => encodeChunk b0 b1 b2 0 ++ encodeBytes bytes

def encode (bytes : Bytes) : String := String.ofList (encodeBytes bytes.data.toList)

def decodeSymbol (symbol : UInt8) : Option Nat :=
  let c := symbol.toNat
  if 'A'.toNat ≤ c ∧ c ≤ 'Z'.toNat then some (c - 'A'.toNat)
  else if 'a'.toNat ≤ c ∧ c ≤ 'z'.toNat then some (c - 'a'.toNat + 26)
  else if '0'.toNat ≤ c ∧ c ≤ '9'.toNat then some (c - '0'.toNat + 52)
  else if c = '+'.toNat then some 62
  else if c = '/'.toNat then some 63
  else none

def isPad (symbol : UInt8) : Bool := symbol.toNat = '='.toNat

def illegalAt (index : Nat) : String := "illegal base64 data at input byte " ++ toString index

def symbolValue (index offset padding : Nat) (symbol : UInt8) : Except String Nat :=
  if 4 - padding ≤ offset then .ok 0
  else
    match decodeSymbol symbol with
    | some value => .ok value
    | none => .error (illegalAt (index * 4 + offset))

def decodeQuad (index : Nat) (last : Bool) (s0 s1 s2 s3 : UInt8) : Except String (List UInt8) := do
  let padding := ([s3, s2, s1, s0].takeWhile isPad).length
  refuse (2 < padding ∨ (0 < padding ∧ last = false)) (illegalAt (index * 4))
  let v0 ← symbolValue index 0 padding s0
  let v1 ← symbolValue index 1 padding s1
  let v2 ← symbolValue index 2 padding s2
  let v3 ← symbolValue index 3 padding s3
  let triple := v0 * 262144 + v1 * 4096 + v2 * 64 + v3
  return .ofNat (triple / 65536) :: (if padding < 2 then [.ofNat (triple / 256)] else []) ++
    if padding < 1 then [.ofNat triple] else []

def decodeQuads (groups index : Nat) : List UInt8 → Except String (List UInt8)
  | s0 :: s1 :: s2 :: s3 :: symbols => do
    let bytes ← decodeQuad index (index + 1 = groups) s0 s1 s2 s3
    return bytes ++ (← decodeQuads groups (index + 1) symbols)
  | _ => .ok []

/-- Line breaks are ignored. -/
def symbols (text : String) : List UInt8 :=
  (Encodings.utf8Bytes text.toList).filter fun b => !(b.toNat = '\r'.toNat || b.toNat = '\n'.toNat)

def decode (text : String) : Except String Bytes := do
  refuse ((symbols text).length % 4 ≠ 0)
    ("illegal base64 data: length " ++ toString (symbols text).length)
  let bytes ← decodeQuads ((symbols text).length / 4) 0 (symbols text)
  return ⟨bytes.toArray⟩

end Base64

def goEscaped (c : Char) : Bool :=
  c = '<' || c = '>' || c = '&' || c = '\u2028' || c = '\u2029'

def jsonText (value : Value) : String := String.ofList (value.print goEscaped)

def recursionLimit : Nat := 128

/-- The third-party numbers: the literals written, and what a literal is read as. -/
structure NumberLayer where
  printed : Literal → Bool
  read : Literal → Option Literal
  short : ∀ l, printed l = true → l.text.length < 2 ^ 29
  read_plain : ∀ l, printed l = true → ∃ number, read l.plain = some number

/-- What the build and the third-party text layers provide. -/
structure JsonLayer where
  journalBuild : Bool
  metadata : Metadata → String
  errorText : Error → String
  jsonError : String → String
  numbers : NumberLayer
  readJson : String → Option Value

namespace Json

mutual
def toValue (N : NumberLayer) : Json → Option Value
  | .null => some .null
  | .bool value => some (.bool value)
  | .number text =>
    match readLiteral text.toList with
    | some (literal, []) => if N.printed literal then some (.number literal) else none
    | _ => none
  | .string text => some (.string text)
  | .array items => (itemsToValues N items).map .array
  | .object fields => (fieldsToMembers N fields).map .object

def itemsToValues (N : NumberLayer) : List Json → Option (List Value)
  | [] => some []
  | item :: items => do
    let value ← toValue N item
    let values ← itemsToValues N items
    return value :: values

def fieldsToMembers (N : NumberLayer) : List (String × Json) → Option (List (String × Value))
  | [] => some []
  | (key, field) :: fields => do
    let value ← toValue N field
    let members ← fieldsToMembers N fields
    return (key, value) :: members
end

def insertField (key : String) (value : Json) : List (String × Json) → List (String × Json)
  | [] => [(key, value)]
  | (first, field) :: fields =>
    if key < first then (key, value) :: (first, field) :: fields
    else if key = first then (key, value) :: fields
    else (first, field) :: insertField key value fields

mutual
def ofValue (N : NumberLayer) : Value → Option Json
  | .null => some .null
  | .bool value => some (.bool value)
  | .number literal => (N.read literal).map fun number => .number (String.ofList number.text)
  | .string text => some (.string text)
  | .array items => (itemsOfValues N items).map .array
  | .object members => (fieldsOfMembers N members []).map .object

def itemsOfValues (N : NumberLayer) : List Value → Option (List Json)
  | [] => some []
  | item :: items => do
    let value ← ofValue N item
    let values ← itemsOfValues N items
    return value :: values

def fieldsOfMembers (N : NumberLayer) :
    List (String × Value) → List (String × Json) → Option (List (String × Json))
  | [], fields => some fields
  | (key, member) :: members, fields => do
    let value ← ofValue N member
    fieldsOfMembers N members (insertField key value fields)
end

end Json

def stringOrNull : Value → Option String
  | .null => some ""
  | .string text => some text
  | _ => none

namespace Rejection

def toValue (N : NumberLayer) (r : Rejection) : Option Value := do
  let details ← (r.details.getD .null).toValue N
  return .object [("code", .string r.code), ("message", .string r.message), ("details", details)]

def detailsOf (N : NumberLayer) (details : Option Value) : Option (Option Json) := do
  let details ← Json.ofValue N (details.getD .null)
  return if details.isNull then none else some details

def member (name : String) (members : List (String × Value)) : Option (Option Value) :=
  match members.filter fun member => member.1 = name with
  | [] => some none
  | [(_, value)] => some (some value)
  | _ => none

def ofFields (N : NumberLayer) (code : Value) (message details : Option Value) :
    Option Rejection := do
  let code ← stringOrNull code
  let message ← stringOrNull (message.getD .null)
  let details ← detailsOf N details
  return ⟨code, message, details⟩

/-- The rejection an object is read as, or an array of its fields in order. -/
def ofValue (N : NumberLayer) : Value → Option Rejection
  | .object members => do
    let code ← member "code" members
    let message ← member "message" members
    let details ← member "details" members
    ofFields N (← code) message details
  | .array [code] => ofFields N code none none
  | .array [code, message] => ofFields N code (some message) none
  | .array [code, message, details] => ofFields N code (some message) (some details)
  | _ => none

end Rejection

def canonicalText : Numbers.Checked (List UInt8) → Except TextError String
  | .done bytes =>
    match String.fromUTF8? ⟨bytes.toArray⟩ with
    | some text => .ok text
    | none => .error (.json "invalid UTF-8")
  | .refused (.invalidArgument message) => .error (.invalidArgument message)
  | .refused (.outcomeTooLarge _ size) => .error (.outcomeTooLarge size)
  | _ => .error (.json "number text")

namespace JsonLayer

variable (L : JsonLayer)

def strings (texts : List String) : String := jsonText (.array (texts.map .string))

def rejection (r : Rejection) : Except TextError String :=
  match r.toValue L.numbers with
  | none => .error (.json "number out of range")
  | some value =>
    canonicalText (Numbers.canonicalNumbers (Encodings.utf8Bytes (value.print goEscaped)))

def readRejection (text : String) : Except String Rejection :=
  match L.readJson text >>= Rejection.ofValue L.numbers with
  | none => .error (L.jsonError text)
  | some rejection =>
    if rejection.details.any fun details => !details.isObject then
      .error "details must be a JSON object or null"
    else .ok rejection

def env : Env where
  journalBuild := L.journalBuild
  metadata := L.metadata
  strings := strings
  rejection := L.rejection
  readRejection := L.readRejection
  base64 := Base64.encode
  errorText := L.errorText

def decodeEventIds (text : String) : Except Error (List EventId) :=
  let failed := Error.invalidRecord ("decode event IDs: " ++ L.jsonError text)
  match L.readJson text with
  | some .null => .ok []
  | some (.array items) =>
    match items.mapM stringOrNull with
    | some ids => .ok ids
    | none => .error failed
  | _ => .error failed

end JsonLayer

def corruptOutcome (commandId : CommandId) (reason : String) : Error :=
  .invalidRecord ("stored outcome for command " ++ commandId ++ " is corrupt: " ++ reason)

def stringItems : List Value → Option (List (Option String))
  | [] => some []
  | .null :: items => (stringItems items).map (none :: ·)
  | .string text :: items => (stringItems items).map (some text :: ·)
  | _ => none

def decodeTargets (readJson : String → Option Value) (commandId : CommandId) (text : String) :
    Except Error (List EntityId) :=
  let failed := corruptOutcome commandId
    ("the recorded targets are not a JSON array of strings: " ++ debug text)
  match readJson text with
  | some (.array items) =>
    match stringItems items with
    | none => .error failed
    | some targets =>
      match targets.mapM id with
      | some targets => .ok targets
      | none =>
        .error (corruptOutcome commandId ("the recorded targets hold a null: " ++ debug text))
  | _ => .error failed

def RecordedIdentity.decode (readJson : String → Option Value) (commandId : CommandId)
    (commandType targets principal : Option String) : Except Error (Option RecordedIdentity) :=
  match commandType with
  | none =>
    if targets.isSome || principal.isSome then
      .error (corruptOutcome commandId
        "the recorded identity has targets or a principal but no command type")
    else .ok none
  | some commandType =>
    match targets with
    | none => .error (corruptOutcome commandId
        "the recorded identity has a command type but no targets")
    | some targets => do
      return some ⟨commandType, ← decodeTargets readJson commandId targets, principal⟩

def parseI64 (text : List Char) : Option Int :=
  let negative : Bool := text.head? = some '-'
  let digits := if negative || text.head? = some '+' then text.tail else text
  if digits.isEmpty || !digits.all Char.isDigit then none
  else
    let magnitude : Int := Nat.ofDigitChars 10 digits 0
    let value := if negative then -magnitude else magnitude
    if -maxSequence - 1 ≤ value ∧ value ≤ maxSequence then some value else none

def rsplitOnce (c : Char) (text : List Char) : Option (List Char × List Char) :=
  if c ∈ text then
    some ((text.reverse.dropWhile (· ≠ c)).tail.reverse, (text.reverse.takeWhile (· ≠ c)).reverse)
  else none

/-- An event ID names an entity and a positive sequence in its canonical text. -/
def canonicalEventId (id : EventId) : Bool :=
  match rsplitOnce ':' id.toList with
  | none => false
  | some (entity, sequence) =>
    !entity.isEmpty &&
      (parseI64 sequence).any fun parsed => 1 ≤ parsed && (toString parsed).toList = sequence

def checkEventIds (commandId : CommandId) : List EventId → Except Error Unit
  | [] => .ok ()
  | id :: ids =>
    if canonicalEventId id then checkEventIds commandId ids
    else .error (corruptOutcome commandId ("event ID EventId(" ++ debug id ++
      ") is not \x7bentityId\x7d:\x7bsequence\x7d with a positive canonical sequence"))

namespace Outcome

def checkStoredRejection (o : Outcome) : Except Error Unit :=
  match o.status with
  | .accepted =>
    refuse o.rejection.isSome (corruptOutcome o.commandId "an accepted outcome carries a rejection")
  | .rejected =>
    refuse (o.rejection.all fun rejection => rejection.code.isEmpty)
      (corruptOutcome o.commandId "a rejected outcome has no rejection code")

def validateStored (o : Outcome) : Except Error Unit := do
  refuse (o.digest.isEmpty) (corruptOutcome o.commandId "the digest is missing")
  o.checkStoredRejection
  checkEventIds o.commandId o.eventIds

end Outcome

def OutcomeStatus.parse (text : String) : Option OutcomeStatus :=
  if text = "accepted" then some .accepted
  else if text = "rejected" then some .rejected
  else none

def optionalString (item : Item) (name : String) : Except Error (Option String) :=
  match item[name]? with
  | none => .ok none
  | some (.s value) => .ok (some value)
  | some _ => .error (.invalidRecord ("attribute " ++ name ++ " is not a string"))

def filledString (item : Item) (name : String) : Except Error (Option String) := do
  return (← optionalString item name).filter fun text => text ≠ ""

def responseOf : Option String → Except Error (Option Bytes)
  | none => .ok none
  | some text =>
    match Base64.decode text with
    | .ok bytes => .ok (some bytes)
    | .error message => .error (.invalidRecord ("decode outcome response: " ++ message))

namespace JsonLayer

variable (L : JsonLayer)

def eventIdsOf : Option String → Except Error (List EventId)
  | none => .ok []
  | some text => L.decodeEventIds text

def rejectionOf : Option String → Except Error (Option Rejection)
  | none => .ok none
  | some text =>
    match L.readRejection text with
    | .ok rejection => .ok (some rejection)
    | .error message => .error (.invalidRecord ("decode rejection: " ++ message))

def checkCode (item : Item) (o : Outcome) : Except Error Unit := do
  let code ← optionalString item "code"
  match o.rejection with
  | none => refuse code.isSome (corruptOutcome o.commandId
      "an accepted outcome carries a code attribute")
  | some rejection => refuse (code.getD "" ≠ rejection.code) (corruptOutcome o.commandId
      "the code attribute disagrees with the rejection")

def commandIdOf (pk : String) : Except Error CommandId :=
  if startsWith pk commandOutcomePrefix then
    .ok (String.ofList (pk.toList.drop commandOutcomePrefix.length))
  else .error (.invalidRecord ("item " ++ pk ++ " is not a command outcome"))

def statusOf (text : String) : Except Error OutcomeStatus :=
  match OutcomeStatus.parse text with
  | some status => .ok status
  | none => .error (.invalidRecord ("unknown outcome status " ++ debug text))

def outcomeFromItem (item : Item) : Except Error Outcome := do
  let commandId ← commandIdOf (← requiredString item "pk")
  let status ← statusOf (← requiredString item "status")
  let response ← responseOf (← filledString item "response")
  let eventIds ← L.eventIdsOf (← filledString item "events")
  let rejection ← L.rejectionOf (← filledString item "rejection")
  refuse (decide (status = .rejected) ≠ rejection.isSome) (.invalidRecord ("outcome " ++
    commandId ++ " is " ++ status.text ++ " but its rejection attribute disagrees"))
  let digest := (← optionalString item "digest").getD ""
  let outcome : Outcome := ⟨commandId, status, digest, response, eventIds, rejection, none⟩
  outcome.validateStored
  checkCode item outcome
  let identity ← RecordedIdentity.decode L.readJson commandId
    (← optionalString item "commandType") (← optionalString item "targets")
    (← optionalString item "principal")
  return { outcome with identity }

end JsonLayer

end EventStore
