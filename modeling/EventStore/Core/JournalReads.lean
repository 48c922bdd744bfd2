import EventStore.Core.JournalCompaction

/-!
A page of a scope's journal, put together from its counter and a range of its rows.
-/
namespace EventStore

open Result

structure Gap where
  first : Nat
  last : Nat
deriving DecidableEq

/-- One page: its rows stop before the first gap. -/
structure JournalPage where
  scope : Scope
  after : Nat
  rows : List JournalRow
  highWatermark : Nat
  gap : Option Gap
  cursorAhead : Bool
deriving DecidableEq

def nextPosition (position : Nat) : Nat := min (position + 1) maxPosition

/-- The contiguous rows, the gap that ends them, and the position expected next. -/
def contiguous (expected : Nat) : List JournalRow → List JournalRow × Option Gap × Nat
  | [] => ([], none, expected)
  | row :: found =>
    if row.position ≠ expected then ([], some ⟨expected, row.position - 1⟩, expected)
    else
      let (rows, gap, next) := contiguous (nextPosition expected) found
      (row :: rows, gap, next)

/-- Builds a page; rows short of the watermark leave a gap unless the page is full. -/
def assemble (scope : Scope) (after limit highWatermark : Nat) (found : List JournalRow) :
    JournalPage :=
  let watermark := max highWatermark ((found.map (·.position)).foldl max 0)
  let (rows, gap, expected) := contiguous (nextPosition after) (found.take limit)
  let gap := if gap.isNone ∧ rows.length < limit ∧ expected ≤ watermark then
      some ⟨expected, watermark⟩
    else gap
  ⟨scope, after, rows, watermark, gap, watermark < after⟩

end EventStore
