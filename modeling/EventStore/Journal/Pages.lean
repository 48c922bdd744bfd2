import EventStore.Core.JournalReads

/-!
Page assembly. A page holds the longest run of rows right after the cursor, cut at the limit, and
names the first position it misses. At the largest position the saturating step of the walk makes
it miss a position it has read.
-/
namespace EventStore

/-- The first rows found, at the positions right after a cursor, no more than the limit. -/
structure IsRun (after limit : Nat) (found rows : List JournalRow) : Prop where
  start : rows <+: found
  positions : rows.map (·.position) = List.range' (after + 1) rows.length
  cut : rows.length ≤ limit

def JournalPage.Misses (page : JournalPage) (p : Nat) : Prop :=
  page.after < p ∧ p ≤ page.highWatermark ∧ p ∉ page.rows.map (·.position)

/-- What a page must be for the rows found after a cursor and the counter read before them. -/
structure ExactPage (after limit counter : Nat) (found : List JournalRow) (page : JournalPage) :
    Prop where
  cursor : page.after = after
  run : IsRun after limit found page.rows
  longest : ∀ rows, IsRun after limit found rows → rows.length ≤ page.rows.length
  watermark : IsGreatest ({counter} ∪ {p | ∃ row ∈ found, row.position = p}) page.highWatermark
  gap_iff : page.gap.isSome = true ↔ page.rows.length < limit ∧ ∃ p, page.Misses p
  gap_first : ∀ gap, page.gap = some gap → IsLeast {p | page.Misses p} gap.first
  gap_empty : ∀ gap, page.gap = some gap →
    gap.first ≤ gap.last ∧ ∀ row ∈ found, row.position < gap.first ∨ gap.last < row.position
  ahead : page.cursorAhead = true ↔ page.highWatermark < after
  caughtUp : page.highWatermark ≤ after → page.gap = none

variable {found rows : List JournalRow} {row : JournalRow} {gap : Option Gap} {next : Nat}

section Walk

/-- Rows in ascending order, from a position on, up to the largest one. -/
structure Ascending (start : Nat) (found : List JournalRow) : Prop where
  order : found.Pairwise fun a b => a.position < b.position
  least : ∀ row ∈ found, start ≤ row.position
  greatest : ∀ row ∈ found, row.position ≤ maxPosition

variable {start : Nat}

theorem Ascending.tail (h : Ascending start (row :: found)) :
    Ascending (row.position + 1) found := by
  obtain ⟨hrow, horder⟩ := List.pairwise_cons.mp h.order
  exact ⟨horder, hrow, fun other hother => h.greatest other (List.mem_cons_of_mem row hother)⟩

/-- How a walk over the rows ends: after all of them, or before one that is further on. -/
inductive Walked (start : Nat) (found rows : List JournalRow) : Option Gap → Nat → Prop
  | all {next : Nat} (hrows : rows = found)
      (hnext : next = min (start + rows.length) maxPosition) : Walked start found rows none next
  | jump {row : JournalRow} {rest : List JournalRow} {next : Nat}
      (hrows : found = rows ++ row :: rest) (hnext : start + rows.length < row.position) :
      Walked start found rows (some ⟨start + rows.length, row.position - 1⟩) next

theorem contiguous_jump (h : row.position ≠ start) :
    contiguous start (row :: found) = ([], some ⟨start, row.position - 1⟩, start) := by
  rw [contiguous, if_pos h]

theorem contiguous_next (h : row.position = start) :
    contiguous start (row :: found) =
      let walk := contiguous (nextPosition start) found
      (row :: walk.1, walk.2.1, walk.2.2) := by
  rw [contiguous, if_neg (not_not.mpr h)]

theorem Ascending.eq_nil (h : Ascending (maxPosition + 1) found) : found = [] := by
  cases found with
  | nil => rfl
  | cons row found =>
    have hleast := h.least row List.mem_cons_self
    have hgreatest := h.greatest row List.mem_cons_self
    omega

theorem Walked.cons (h : Walked (start + 1) found rows gap next) :
    Walked start (row :: found) (row :: rows) gap next := by
  have hlength : start + (row :: rows).length = start + 1 + rows.length := by
    rw [List.length_cons]
    omega
  cases h with
  | all hrows hnext => exact .all (by rw [hrows]) (by rw [hnext, hlength])
  | jump hrows hjump =>
    rw [← hlength]
    exact .jump (by rw [hrows]; rfl) (by omega)

theorem contiguous_walked (hstart : start ≤ maxPosition) (h : Ascending start found) :
    let walk := contiguous start found
    walk.1.map (·.position) = List.range' start walk.1.length ∧
      Walked start found walk.1 walk.2.1 walk.2.2 := by
  induction found generalizing start with
  | nil =>
    exact ⟨rfl, .all rfl (Nat.min_eq_left hstart).symm⟩
  | cons row found ih =>
    have hleast := h.least row List.mem_cons_self
    by_cases hrow : row.position = start
    · have htail := h.tail
      rw [contiguous_next hrow]
      by_cases hmax : start = maxPosition
      · -- The largest position: there is no row after it, and the step stays where it is.
        rw [hrow, hmax] at htail
        obtain rfl := htail.eq_nil
        have hnext : nextPosition start = maxPosition := by
          unfold nextPosition
          omega
        have hwalk : Walked start [row] [row] none maxPosition := .all rfl (by simp; omega)
        rw [hnext]
        exact ⟨by simp [contiguous, hrow], hwalk⟩
      · have hnext : nextPosition start = start + 1 := by
          unfold nextPosition
          omega
        rw [hrow] at htail
        obtain ⟨hpositions, hwalk⟩ := ih (by omega) htail
        rw [hnext]
        refine ⟨?_, hwalk.cons⟩
        simp only [List.map_cons, List.length_cons, List.range'_succ, hrow, hpositions]
    · rw [contiguous_jump hrow]
      have hcut : Walked start (row :: found) [] (some ⟨start + 0, row.position - 1⟩) start :=
        .jump rfl (by simp; omega)
      exact ⟨rfl, hcut⟩

theorem Ascending.length_le (hstart : start ≤ maxPosition + 1) (h : Ascending start found) :
    start + found.length ≤ maxPosition + 1 := by
  induction found generalizing start with
  | nil => exact hstart
  | cons row found ih =>
    have hleast := h.least row List.mem_cons_self
    have hgreatest := h.greatest row List.mem_cons_self
    have htail := ih (by omega) h.tail
    rw [List.length_cons]
    omega

theorem Ascending.drop {before after : List JournalRow}
    (h : Ascending start (before ++ row :: after)) : Ascending row.position (row :: after) := by
  obtain ⟨-, horder, -⟩ := List.pairwise_append.mp h.order
  refine ⟨horder, ?_, fun other hother => h.greatest other (List.mem_append_right before hother)⟩
  intro other hother
  rcases List.mem_cons.mp hother with rfl | hother
  · exact Nat.le_refl _
  · exact Nat.le_of_lt ((List.pairwise_cons.mp horder).1 other hother)

end Walk

section Watermark

def watermark (counter : Nat) (found : List JournalRow) : Nat :=
  max counter ((found.map (·.position)).foldl max 0)

theorem watermark_nil (counter : Nat) : watermark counter [] = counter := Nat.max_zero counter

theorem watermark_cons (counter : Nat) (row : JournalRow) (found : List JournalRow) :
    watermark counter (row :: found) = max row.position (watermark counter found) := by
  refine eq_of_forall_ge_iff fun bound => ?_
  simp only [watermark, max_le_iff, Ranking.foldl_max_le_iff, List.map_cons, List.forall_mem_cons]
  tauto

theorem watermark_isGreatest (counter : Nat) (found : List JournalRow) :
    IsGreatest ({counter} ∪ {p | ∃ row ∈ found, row.position = p}) (watermark counter found) := by
  induction found with
  | nil =>
    rw [watermark_nil]
    exact ⟨.inl rfl, by rintro p (rfl | ⟨row, hrow, -⟩); exacts [Nat.le_refl _, nomatch hrow]⟩
  | cons row found ih =>
    rw [watermark_cons]
    refine ⟨?_, ?_⟩
    · rcases Nat.le_total row.position (watermark counter found) with hle | hle
      · rw [Nat.max_eq_right hle]
        rcases ih.1 with hcounter | ⟨other, hother, hp⟩
        · exact .inl hcounter
        · exact .inr ⟨other, List.mem_cons_of_mem row hother, hp⟩
      · rw [Nat.max_eq_left hle]
        exact .inr ⟨row, List.mem_cons_self, rfl⟩
    · rintro p (hcounter | ⟨other, hother, hp⟩)
      · exact (ih.2 (.inl hcounter)).trans (Nat.le_max_right _ _)
      · rcases List.mem_cons.mp hother with rfl | hother
        · exact hp ▸ Nat.le_max_left _ _
        · exact (ih.2 (.inr ⟨other, hother, hp⟩)).trans (Nat.le_max_right _ _)

theorem position_le_watermark (counter : Nat) (h : row ∈ found) :
    row.position ≤ watermark counter found :=
  (watermark_isGreatest counter found).2 (.inr ⟨row, h, rfl⟩)

theorem watermark_le {counter : Nat} (hcounter : counter ≤ maxPosition)
    (h : ∀ row ∈ found, row.position ≤ maxPosition) : watermark counter found ≤ maxPosition := by
  rcases (watermark_isGreatest counter found).1 with heq | ⟨row, hrow, heq⟩
  · rw [Set.mem_singleton_iff.mp heq]
    exact hcounter
  · rw [← heq]
    exact h row hrow

end Watermark

section Assembly

variable {scope : Scope} {after limit counter : Nat} {found : List JournalRow}

theorem assemble_walked (limit : Nat) (hafter : after ≤ maxPosition)
    (h : Ascending (after + 1) found) :
    let walk := contiguous (nextPosition after) (found.take limit)
    walk.1.map (·.position) = List.range' (after + 1) walk.1.length ∧
      Walked (after + 1) (found.take limit) walk.1 walk.2.1 walk.2.2 := by
  by_cases hmax : after = maxPosition
  · rw [hmax] at h
    obtain rfl := h.eq_nil
    have hnext : nextPosition after = maxPosition := by
      unfold nextPosition
      omega
    rw [hnext, List.take_nil]
    exact ⟨rfl, .all rfl (by simp [contiguous]; omega)⟩
  · have hnext : nextPosition after = after + 1 := by
      unfold nextPosition
      omega
    rw [hnext]
    refine contiguous_walked (by omega) ⟨h.order.take, ?_, ?_⟩
    · exact fun row hrow => h.least row (List.mem_of_mem_take hrow)
    · exact fun row hrow => h.greatest row (List.mem_of_mem_take hrow)

/-- The run takes every row up to the largest position, and the watermark is there too. -/
def ReachesLast (after limit counter : Nat) (found : List JournalRow) : Prop :=
  after + found.length = maxPosition ∧ found.length < limit ∧
    (counter = maxPosition ∨ found ≠ [])

theorem JournalPage.misses_iff {page : JournalPage}
    (h : page.rows.map (·.position) = List.range' (page.after + 1) page.rows.length) (p : Nat) :
    page.Misses p ↔ page.after + page.rows.length < p ∧ p ≤ page.highWatermark := by
  rw [JournalPage.Misses, h, List.mem_range'_1]
  omega

/-- The longest run ends with all rows, or before a jump. -/
theorem isRun_longest {other : List JournalRow}
    (hwalk : Walked (after + 1) (found.take limit) rows gap next)
    (hother : IsRun after limit found other) : other.length ≤ rows.length := by
  cases hwalk with
  | all hrows _ =>
    rw [hrows, List.length_take]
    exact Nat.le_min.mpr ⟨hother.cut, hother.start.length_le⟩
  | @jump row rest _ hrows hjump =>
    by_contra hlonger
    have hlength : rows.length < other.length := by omega
    have hfound : found[rows.length]? = some row := by
      have htake := congrArg (·[rows.length]?) hrows
      simp only [List.getElem?_append_right (Nat.le_refl _), Nat.sub_self,
        List.getElem?_cons_zero] at htake
      rwa [List.getElem?_take_of_lt (by have := hother.cut; omega)] at htake
    have hat : other[rows.length]? = some row := by
      obtain ⟨more, rfl⟩ := hother.start
      rwa [List.getElem?_append_left hlength] at hfound
    have hposition := congrArg (·[rows.length]?) hother.positions
    simp only [List.getElem?_map, hat, Option.map_some, List.getElem?_range' hlength,
      Nat.one_mul, Option.some.injEq] at hposition
    omega

section Exact

variable {rows : List JournalRow} {ahead : Bool}

/-- A page without a gap is full, or its run reaches the watermark. -/
theorem exactPage_none (hrun : IsRun after limit found rows)
    (hlongest : ∀ other, IsRun after limit found other → other.length ≤ rows.length)
    (hahead : ahead = true ↔ watermark counter found < after)
    (hend : rows.length < limit → watermark counter found ≤ after + rows.length) :
    ExactPage after limit counter found
      ⟨scope, after, rows, watermark counter found, none, ahead⟩ := by
  refine ⟨rfl, hrun, hlongest, watermark_isGreatest counter found, ?_, nofun, nofun, hahead,
    fun _ => rfl⟩
  constructor
  · intro hsome
    cases hsome
  · rintro ⟨hroom, p, hmisses⟩
    obtain ⟨hlow, hhigh⟩ := (JournalPage.misses_iff hrun.positions p).mp hmisses
    have hwatermark := hend hroom
    dsimp only at hlow hhigh
    omega

/-- A gap of a page that is not full starts right after its run and holds none of the rows. -/
theorem exactPage_some {last : Nat} (hrun : IsRun after limit found rows)
    (hlongest : ∀ other, IsRun after limit found other → other.length ≤ rows.length)
    (hahead : ahead = true ↔ watermark counter found < after) (hroom : rows.length < limit)
    (hfirst : after + 1 + rows.length ≤ last) (hlast : last ≤ watermark counter found)
    (hnone : ∀ row ∈ found, row.position < after + 1 + rows.length ∨ last < row.position) :
    ExactPage after limit counter found ⟨scope, after, rows, watermark counter found,
      some ⟨after + 1 + rows.length, last⟩, ahead⟩ := by
  have hmisses (p : Nat) : JournalPage.Misses ⟨scope, after, rows, watermark counter found,
      some ⟨after + 1 + rows.length, last⟩, ahead⟩ p ↔
        after + rows.length < p ∧ p ≤ watermark counter found :=
    JournalPage.misses_iff hrun.positions p
  have hfirst_misses := (hmisses (after + 1 + rows.length)).mpr ⟨by omega, by omega⟩
  refine ⟨rfl, hrun, hlongest, watermark_isGreatest counter found,
    iff_of_true rfl ⟨hroom, _, hfirst_misses⟩, ?_, ?_, hahead, ?_⟩
  · rintro gap ⟨⟩
    refine ⟨hfirst_misses, fun p hp => ?_⟩
    have hlow := ((hmisses p).mp hp).1
    dsimp only
    omega
  · rintro gap ⟨⟩
    exact ⟨hfirst, hnone⟩
  · intro hcaughtUp
    dsimp only at hcaughtUp
    omega

end Exact

section Walked

variable (hafter : after ≤ maxPosition) (hcounter : counter ≤ maxPosition)
  (h : Ascending (after + 1) found)

include hafter hcounter h

/-- Short of the largest position the step of the walk does not saturate, and at it the watermark
is lower. -/
theorem next_le_watermark_iff (hlast : ¬ReachesLast after limit counter found)
    (hroom : found.length < limit) :
    min (after + 1 + found.length) maxPosition ≤ watermark counter found ↔
      after + 1 + found.length ≤ watermark counter found := by
  have hlength := h.length_le (by omega)
  have hwatermark := watermark_le hcounter h.greatest
  by_cases hend : after + found.length = maxPosition
  · have hneither : ¬(counter = maxPosition ∨ found ≠ []) := fun heither =>
      hlast ⟨hend, hroom, heither⟩
    obtain ⟨hlow, hnil⟩ := not_or.mp hneither
    obtain rfl := not_not.mp hnil
    rw [watermark_nil]
    omega
  · omega

/-- The page that a walk leaves is exact, unless it reaches the largest position. -/
theorem exactPage_of_walked
    (hpositions : rows.map (·.position) = List.range' (after + 1) rows.length)
    (hwalk : Walked (after + 1) (found.take limit) rows gap next)
    (hlast : ¬ReachesLast after limit counter found) :
    ExactPage after limit counter found ⟨scope, after, rows, watermark counter found,
      if gap.isNone ∧ rows.length < limit ∧ next ≤ watermark counter found then
        some ⟨next, watermark counter found⟩ else gap,
      watermark counter found < after⟩ := by
  have hlongest := fun other (hother : IsRun after limit found other) =>
    isRun_longest hwalk hother
  have hahead := decide_eq_true_iff (p := watermark counter found < after)
  cases hwalk with
  | all hrows hnext =>
    subst hnext
    have hrun : IsRun after limit found rows :=
      ⟨hrows ▸ List.take_prefix _ _, hpositions, hrows ▸ List.length_take_le _ _⟩
    have hall (hroom : rows.length < limit) : rows = found := by
      rw [hrows, List.length_take] at hroom
      rw [hrows, List.take_of_length_le (by omega)]
    split_ifs with hgap
    · obtain ⟨-, hroom, hle⟩ := hgap
      obtain rfl := hall hroom
      have hle' := (next_le_watermark_iff hafter hcounter h hlast hroom).mp hle
      rw [Nat.min_eq_left (hle'.trans (watermark_le hcounter h.greatest))]
      refine exactPage_some hrun hlongest hahead hroom hle' (Nat.le_refl _) fun row hrow => ?_
      have hat := List.mem_map_of_mem (f := (·.position)) hrow
      rw [hpositions, List.mem_range'_1] at hat
      exact .inl hat.2
    · refine exactPage_none hrun hlongest hahead fun hroom => ?_
      obtain rfl := hall hroom
      have hnot : ¬min (after + 1 + rows.length) maxPosition ≤ watermark counter rows :=
        fun hle => hgap ⟨rfl, hroom, hle⟩
      rw [next_le_watermark_iff hafter hcounter h hlast hroom] at hnot
      omega
  | @jump row rest _ hrows hjump =>
    have hfound : found = rows ++ row :: (rest ++ found.drop limit) := by
      rw [← List.cons_append, ← List.append_assoc, ← hrows, List.take_append_drop]
    have hrow : row ∈ found := by
      rw [hfound]
      exact List.mem_append_right rows List.mem_cons_self
    have hroom : rows.length < limit := by
      have hlength := congrArg List.length hrows
      rw [List.length_take, List.length_append, List.length_cons] at hlength
      omega
    have hrun : IsRun after limit found rows :=
      ⟨⟨_, hfound.symm⟩, hpositions, Nat.le_of_lt hroom⟩
    have hbelow := position_le_watermark counter hrow
    rw [if_neg (by simp)]
    refine exactPage_some hrun hlongest hahead hroom (by omega) (by omega) fun other hother => ?_
    rw [hfound] at h hother
    rcases List.mem_append.mp hother with hother | hother
    · have hat := List.mem_map_of_mem (f := (·.position)) hother
      rw [hpositions, List.mem_range'_1] at hat
      exact .inl hat.2
    · have habove := h.drop.least other hother
      exact .inr (by omega)

omit hafter in
/-- A run that reaches the largest position leaves a gap at it, though it misses nothing. -/
theorem not_exactPage_of_walked {ahead : Bool}
    (hpositions : rows.map (·.position) = List.range' (after + 1) rows.length)
    (hwalk : Walked (after + 1) (found.take limit) rows gap next)
    (hlast : ReachesLast after limit counter found) :
    ¬ExactPage after limit counter found ⟨scope, after, rows, watermark counter found,
      if gap.isNone ∧ rows.length < limit ∧ next ≤ watermark counter found then
        some ⟨next, watermark counter found⟩ else gap, ahead⟩ := by
  obtain ⟨hend, hroom, hmax⟩ := hlast
  rw [List.take_of_length_le (Nat.le_of_lt hroom)] at hwalk
  cases hwalk with
  | all hrows hnext =>
    subst hrows
    have hwatermark : maxPosition ≤ watermark counter rows := by
      rcases hmax with rfl | hne
      · exact (watermark_isGreatest _ rows).2 (.inl rfl)
      · have hlength := List.length_pos_iff.mpr hne
        have hat : maxPosition ∈ rows.map (·.position) := by
          rw [hpositions, List.mem_range'_1]
          omega
        obtain ⟨row, hrow, heq⟩ := List.mem_map.mp hat
        exact heq ▸ position_le_watermark counter hrow
    rw [if_pos ⟨rfl, hroom, by omega⟩]
    intro hexact
    obtain ⟨-, p, hmisses⟩ := hexact.gap_iff.mp rfl
    obtain ⟨hlow, hhigh⟩ := (JournalPage.misses_iff hpositions p).mp hmisses
    have hle := watermark_le hcounter h.greatest
    dsimp only at hlow hhigh
    omega
  | @jump row rest _ hrows hjump =>
    rw [hrows] at h
    have hlength := h.drop.length_le (Nat.le_succ_of_le (h.greatest row (by simp)))
    rw [hrows, List.length_append, List.length_cons] at hend
    rw [List.length_cons] at hlength
    omega

/-- Page assembly is exact, unless the run of a page with room ends at the largest position and the
watermark is there too. -/
theorem assemble_exact_iff (scope : Scope) (limit : Nat) :
    ExactPage after limit counter found (assemble scope after limit counter found) ↔
      ¬ReachesLast after limit counter found := by
  obtain ⟨hpositions, hwalk⟩ := assemble_walked limit hafter h
  refine ⟨fun hexact hlast => ?_, exactPage_of_walked hafter hcounter h hpositions hwalk⟩
  exact not_exactPage_of_walked hcounter h hpositions hwalk hlast hexact

end Walked

theorem orders_valid : "orders" ≠ "" ∧ "orders".utf8ByteSize ≤ maxScopeBytes ∧
    hasNul "orders" = false := by
  decide +kernel

def orders : Scope := ⟨"orders", orders_valid⟩

def orderRow (position : Nat) : JournalRow :=
  ⟨orders, position, "order-1", ⟨"", 1, "", 1, "order-1", "order", .empty, {}⟩⟩

/-- Rows at 5, 6 and 8 above the cursor 4, below the counter 9: the page misses 7 first. -/
theorem assemble_orders_exact :
    (assemble orders 4 3 9 [orderRow 5, orderRow 6, orderRow 8]).gap = some ⟨7, 7⟩ ∧
      ExactPage 4 3 9 [orderRow 5, orderRow 6, orderRow 8]
        (assemble orders 4 3 9 [orderRow 5, orderRow 6, orderRow 8]) := by
  have hfound : Ascending (4 + 1) [orderRow 5, orderRow 6, orderRow 8] := by
    constructor <;> simp [orderRow, maxPosition]
  refine ⟨by decide, (assemble_exact_iff (by decide) (by decide) hfound orders 3).mpr ?_⟩
  simp [ReachesLast, maxPosition]

/-- A cursor at the largest position, with the watermark there too, sees a gap. -/
theorem assemble_last_gap :
    (assemble orders 18446744073709551615 10 18446744073709551615 []).gap =
        some ⟨18446744073709551615, 18446744073709551615⟩ ∧
      ¬ExactPage 18446744073709551615 10 18446744073709551615 []
        (assemble orders 18446744073709551615 10 18446744073709551615 []) := by
  have hgap : (assemble orders 18446744073709551615 10 18446744073709551615 []).gap =
      some ⟨18446744073709551615, 18446744073709551615⟩ := by
    decide
  refine ⟨hgap, fun hexact => ?_⟩
  have hnone := hexact.caughtUp (by decide)
  rw [hgap] at hnone
  cases hnone

end Assembly

end EventStore
