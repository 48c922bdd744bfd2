import EventStore.Core.Wire

/-!
A table of items and conditional transactions on it. A condition sees the attributes of
one item, an absent item having none; a transaction applies all its actions, or none when
a condition fails or an update cannot be evaluated.
-/
namespace EventStore

structure Bindings where
  names : List (String × String) := []
  values : List (String × AttributeValue) := []

namespace Bindings

def name (b : Bindings) (name : String) : String := (b.names.lookup name).getD name

def value (b : Bindings) (value : String) : Option AttributeValue := b.values.lookup value

end Bindings

def AttributeValue.compares (p : Int → Int → Bool) :
    Option AttributeValue → Option AttributeValue → Bool
  | some (.n a), some (.n b) => p a b
  | _, _ => false

/-- A comparison with an attribute the item does not have is false. -/
def Condition.holds (b : Bindings) (item : Item) : Condition → Bool
  | .notExists name => item[b.name name]?.isNone
  | .existing name => item[b.name name]?.isSome
  | .equal name value => item[b.name name]?.isSome && item[b.name name]? == b.value value
  | .atMost name value => AttributeValue.compares (· ≤ ·) item[b.name name]? (b.value value)
  | .lessThan name value => AttributeValue.compares (· < ·) item[b.name name]? (b.value value)
  | .greaterThan name value => AttributeValue.compares (· > ·) item[b.name name]? (b.value value)
  | .both left right => left.holds b item && right.holds b item
  | .either left right => left.holds b item || right.holds b item
  | .group inner => inner.holds b item

inductive Operand where
  | bound (name : String)
  | attribute (name : String)
  | ifNotExists (name value : String)
  | plus (left right : Operand)

namespace Operand

def text : Operand → String
  | .bound name | .attribute name => name
  | .ifNotExists name value => "if_not_exists(" ++ name ++ ", " ++ value ++ ")"
  | .plus left right => left.text ++ " + " ++ right.text

def eval (b : Bindings) (item : Item) : Operand → Option AttributeValue
  | .bound name => b.value name
  | .attribute name => item[b.name name]?
  | .ifNotExists name value => item[b.name name]?.or (b.value value)
  | .plus left right =>
    match left.eval b item, right.eval b item with
    | some (.n x), some (.n y) => some (.n (x + y))
    | _, _ => none

end Operand

/-- Assignments, which see the item as it was, and the attributes removed. -/
structure UpdateExpression where
  sets : List (String × Operand)
  removes : List String := []

namespace UpdateExpression

def text (u : UpdateExpression) : String :=
  "SET " ++ ", ".intercalate (u.sets.map fun (name, operand) => name ++ " = " ++ operand.text) ++
    (if u.removes.isEmpty then "" else " REMOVE " ++ ", ".intercalate u.removes)

def apply (b : Bindings) (u : UpdateExpression) (item : Item) : Option Item := do
  let values ← u.sets.mapM fun (name, operand) => return (b.name name, ← operand.eval b item)
  return u.removes.foldl (fun item name => item.erase (b.name name))
    (values.foldl (fun item (name, value) => item.insert name value) item)

end UpdateExpression

/-- The key of an item: in the event log, or in the views table. -/
inductive TableKey where
  | log (pk : String) (sk : Int)
  | view (pk sk : String)
deriving DecidableEq

def TableKey.item : TableKey → Item
  | .log pk sk => itemOf [("pk", .s pk), ("sk", .n sk)]
  | .view pk sk => itemOf [("pk", .s pk), ("sk", .s sk)]

/-- The stored items; the empty item is an absent one. -/
abbrev Table := TableKey → Item

inductive TransactKind where
  | put (item : Item)
  | delete
  | update (expression : UpdateExpression)
  | check

structure TransactItem where
  key : TableKey
  kind : TransactKind
  condition : Condition
  bindings : Bindings := {}

namespace TransactItem

def passes (a : TransactItem) (t : Table) : Bool := a.condition.holds a.bindings (t a.key)

/-- The item an action leaves. An update of an absent item starts from its key. -/
def result (a : TransactItem) (item : Item) : Option Item :=
  match a.kind with
  | .put item => some item
  | .delete => some ∅
  | .update expression =>
    expression.apply a.bindings (if item.isEmpty then a.key.item else item)
  | .check => some item

end TransactItem

def Table.perform (t t' : Table) (a : TransactItem) : Option Table := do
  let item ← a.result (t a.key)
  return Function.update t' a.key item

def Table.transact (t : Table) (actions : List TransactItem) : Option Table :=
  if actions.all (·.passes t) then actions.foldlM t.perform t else none

end EventStore
