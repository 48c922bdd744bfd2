import Mathlib.Data.UInt

/-!
Generated commit IDs: a timestamp of 48 bits and 80 bits of entropy in 26 base-32 characters.
-/
namespace EventStore
namespace CommitId

def alphabet : List Char := "0123456789ABCDEFGHJKMNPQRSTVWXYZ".toList

def entropyMask : Nat := 2 ^ 80 - 1

def timestampMask : Nat := 2 ^ 48 - 1

structure State where
  lastMs : Nat
  entropy : Nat
deriving DecidableEq

def State.initial : State := ⟨0, 0⟩

def randomEntropy (high low : UInt64) : Nat :=
  ((high.toNat <<< 16) ||| (low.toNat &&& 0xffff)) &&& entropyMask

def encode (value : Nat) : String :=
  String.ofList ((List.range 26).map fun index =>
    alphabet.getD ((value >>> (5 * (25 - index))) &&& 0x1f) '0')

structure Call where
  nowMs : UInt64
  high : UInt64
  low : UInt64

def generateAt (state : State) (call : Call) : State × String :=
  -- a clock that steps backwards keeps the last timestamp
  let ms := max call.nowMs.toNat state.lastMs &&& timestampMask
  if ms = state.lastMs ∧ state.entropy < entropyMask then
    let entropy := state.entropy + 1
    (⟨state.lastMs, entropy⟩, encode ((ms <<< 80) ||| entropy))
  else
    let ms := if ms = state.lastMs then (ms + 1) &&& timestampMask else ms
    let entropy := randomEntropy call.high call.low
    (⟨ms, entropy⟩, encode ((ms <<< 80) ||| entropy))

def generateAll (state : State) : List Call → State × List String
  | [] => (state, [])
  | call :: calls =>
    let (state, id) := generateAt state call
    let (state, ids) := generateAll state calls
    (state, id :: ids)

end CommitId
end EventStore
