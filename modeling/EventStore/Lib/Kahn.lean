import Mathlib

/-!
Kahn's algorithm. A node is placed once every edge into it comes from a placed one, the first
ready one in a given order next. Every edge then points forward, and all nodes are placed unless
the edges go round in a circle.
-/
namespace Kahn

/-- How many unplaced sources each node has, the ready nodes, and the nodes placed. -/
structure State where
  waiting : Nat → Nat
  ready : List Nat
  order : List Nat

section Algorithm

variable (before : Nat → Nat → Prop) [DecidableRel before] (edges : List (Nat × Nat))

def successors (u : Nat) : List Nat := (edges.filter fun e => e.1 = u).map (·.2)

def release (s : State) (v : Nat) : State :=
  let left := s.waiting v - 1
  { s with
    waiting := Function.update s.waiting v left
    ready := if left = 0 then s.ready.orderedInsert before v else s.ready }

def place (s : State) (u : Nat) (ready : List Nat) : State :=
  (successors edges u).foldl (release before) { s with ready, order := s.order ++ [u] }

def loop : Nat → State → State
  | 0, s => s
  | fuel + 1, s =>
    match s.ready with
    | [] => s
    | u :: ready => loop fuel (place before edges s u ready)

def start (n : Nat) : State :=
  let waiting := fun v => edges.countP fun e => e.2 = v
  { waiting
    ready := ((List.range n).filter fun v => waiting v = 0).foldl
      (fun ready v => ready.orderedInsert before v) []
    order := [] }

/-- Runs until no node is ready; each round places a node, so `n` rounds are enough. -/
def run (n : Nat) : State := loop before edges n (start before edges n)

end Algorithm

/-- Nodes ready or placed wait for none, and sources stand before; `rest` are to be released. -/
structure Sound (edges : List (Nat × Nat)) (n : Nat) (rest : List Nat) (s : State) : Prop where
  nodup : (s.order ++ s.ready).Nodup
  free : ∀ v, v ∈ s.order ++ s.ready ↔ v < n ∧ s.waiting v = 0
  waiting : ∀ v, s.waiting v =
    edges.countP (fun e => e.2 = v ∧ e.1 ∉ s.order) + rest.count v
  forward : ∀ i v, s.order[i]? = some v → ∀ u, (u, v) ∈ edges → u ∈ s.order.take i

variable {u v : Nat}

section Steps

variable {before : Nat → Nat → Prop} [DecidableRel before] {edges : List (Nat × Nat)} {n : Nat}
  {s : State}

variable (before) in
theorem mem_foldl_orderedInsert (l ready : List Nat) :
    (l.foldl (fun ready v => ready.orderedInsert before v) ready).Perm (l ++ ready) := by
  induction l generalizing ready with
  | nil => exact .refl _
  | cons v l ih =>
    refine (ih (ready.orderedInsert before v)).trans ?_
    exact ((List.perm_orderedInsert before v ready).append_left l).trans List.perm_middle

theorem sound_start : Sound edges n [] (start before edges n) := by
  have hperm : (start before edges n).ready.Perm
      ((List.range n).filter fun v => (start before edges n).waiting v = 0) := by
    have h := mem_foldl_orderedInsert before
      ((List.range n).filter fun v => edges.countP (fun e => e.2 = v) = 0) []
    rwa [List.append_nil] at h
  refine ⟨?_, ?_, ?_, ?_⟩
  · exact hperm.nodup_iff.mpr (List.nodup_range.filter _)
  · intro v
    rw [show (start before edges n).order = [] from rfl, List.nil_append, hperm.mem_iff]
    simp
  · intro v
    simp [start]
  · intro i v h
    simp [start] at h

theorem Sound.release {rest : List Nat} (h : Sound edges n (v :: rest) s) (hv : v < n) :
    Sound edges n rest (release before s v) := by
  have hpos : s.waiting v =
      edges.countP (fun e => e.2 = v ∧ e.1 ∉ s.order) + rest.count v + 1 := by
    rw [h.waiting v, List.count_cons_self]
    rfl
  have hout : v ∉ s.order ++ s.ready := by
    rw [h.free v]
    omega
  have hready : (Kahn.release before s v).ready.Perm
      (if s.waiting v - 1 = 0 then v :: s.ready else s.ready) := by
    simp only [Kahn.release]
    split
    · exact List.perm_orderedInsert before v s.ready
    · exact .refl _
  have hall := hready.append_left s.order
  refine ⟨?_, ?_, ?_, h.forward⟩
  · refine hall.nodup_iff.mpr ?_
    split
    · rw [List.perm_middle.nodup_iff]
      exact List.nodup_cons.mpr ⟨hout, h.nodup⟩
    · exact h.nodup
  · intro u
    rw [show (Kahn.release before s v).order = s.order from rfl, hall.mem_iff]
    simp only [Kahn.release]
    by_cases hu : u = v
    · subst hu
      rw [Function.update_self]
      split
      · rename_i hzero
        simp [hv, hzero]
      · simp only [hout, false_iff, not_and]
        exact fun _ => by assumption
    · rw [Function.update_of_ne hu, ← h.free u]
      split <;> simp [hu]
  · intro u
    change Function.update s.waiting v (s.waiting v - 1) u =
      edges.countP (fun e => e.2 = u ∧ e.1 ∉ s.order) + rest.count u
    by_cases hu : u = v
    · subst hu
      rw [Function.update_self]
      omega
    · rw [Function.update_of_ne hu, h.waiting u, List.count_cons_of_ne (Ne.symm hu)]

theorem Sound.releaseAll {rest : List Nat} (h : Sound edges n rest s)
    (hrest : ∀ v ∈ rest, v < n) : Sound edges n [] (rest.foldl (Kahn.release before) s) := by
  induction rest generalizing s with
  | nil => exact h
  | cons v rest ih =>
    rw [List.forall_mem_cons] at hrest
    exact ih (h.release hrest.1) hrest.2

theorem countP_place {order : List Nat} (hu : u ∉ order) (v : Nat) :
    edges.countP (fun e => e.2 = v ∧ e.1 ∉ order) =
      edges.countP (fun e => e.2 = v ∧ e.1 ∉ order ++ [u]) + (successors edges u).count v := by
  induction edges with
  | nil => rfl
  | cons e edges ih =>
    simp only [successors, List.countP_cons, List.filter_cons, List.mem_append,
      List.mem_singleton, not_or] at ih ⊢
    rw [ih]
    by_cases he : e.1 = u
    · by_cases hv : e.2 = v
      · simp [he, hv, hu]
        omega
      · simp [he, hv]
    · simp only [he, not_false_eq_true, and_true, decide_false, Bool.false_eq_true, if_false]
      omega

theorem Sound.place {ready : List Nat} (hedges : ∀ e ∈ edges, e.2 < n) (h : Sound edges n [] s)
    (hready : s.ready = u :: ready) : Sound edges n [] (place before edges s u ready) := by
  have hmem : u ∈ s.order ++ s.ready := by simp [hready]
  have hfree := (h.free u).mp hmem
  have hperm : (s.order ++ [u] ++ ready).Perm (s.order ++ s.ready) := by
    rw [hready, List.append_assoc]
    rfl
  have hu : u ∉ s.order := by
    have := h.nodup
    rw [hready, List.perm_middle.nodup_iff, List.nodup_cons] at this
    exact fun hmem => this.1 (List.mem_append_left _ hmem)
  refine Sound.releaseAll ⟨?_, ?_, ?_, ?_⟩ ?_
  · exact hperm.nodup_iff.mpr h.nodup
  · intro v
    exact hperm.mem_iff.trans (h.free v)
  · intro v
    have := h.waiting v
    simp only [List.count_nil, add_zero] at this
    rw [this, countP_place hu]
  · intro i v hi w hw
    by_cases hlt : i < s.order.length
    · rw [List.getElem?_append_left hlt] at hi
      rw [List.take_append_of_le_length hlt.le]
      exact h.forward i v hi w hw
    · rw [List.getElem?_append_right (by omega), List.getElem?_singleton] at hi
      split at hi
      · cases hi
        rw [List.take_append, List.take_of_length_le (by omega)]
        refine List.mem_append_left _ ?_
        -- nothing that the placed node waits for is left
        by_contra hout
        have hzero := h.waiting u
        rw [hfree.2, List.count_nil, add_zero, eq_comm, List.countP_eq_zero] at hzero
        exact hzero (w, u) hw (by simp [hout])
      · cases hi
  · intro v hv
    obtain ⟨e, he, rfl⟩ := List.mem_map.mp hv
    exact hedges e (List.mem_of_mem_filter he)

theorem order_place {ready : List Nat} : (place before edges s u ready).order = s.order ++ [u] := by
  suffices h : ∀ (rest : List Nat) (t : State),
      (rest.foldl (Kahn.release before) t).order = t.order from h _ _
  intro rest
  induction rest with
  | nil => exact fun _ => rfl
  | cons v rest ih => exact fun t => ih (Kahn.release before t v)

theorem Sound.length_le (h : Sound edges n [] s) : (s.order ++ s.ready).length ≤ n := by
  have hsub : (s.order ++ s.ready) ⊆ List.range n := fun v hv =>
    List.mem_range.mpr ((h.free v).mp hv).1
  simpa using (h.nodup.subperm hsub).length_le

/-- The loop ends with no node ready when it has as many rounds as nodes are left. -/
theorem Sound.loop (hedges : ∀ e ∈ edges, e.2 < n) {fuel : Nat} (h : Sound edges n [] s)
    (hfuel : n ≤ s.order.length + fuel) :
    Sound edges n [] (loop before edges fuel s) ∧ (loop before edges fuel s).ready = [] := by
  induction fuel generalizing s with
  | zero =>
    have := h.length_le
    rw [List.length_append] at this
    exact ⟨h, List.length_eq_zero_iff.mp (by simp only [Kahn.loop]; omega)⟩
  | succ fuel ih =>
    cases hready : s.ready with
    | nil =>
      rw [show Kahn.loop before edges (fuel + 1) s = s by simp [Kahn.loop, hready]]
      exact ⟨h, hready⟩
    | cons u ready =>
      simp only [Kahn.loop, hready]
      refine ih (h.place hedges hready) ?_
      rw [order_place, List.length_append, List.length_singleton]
      omega

end Steps

section Results

variable (before : Nat → Nat → Prop) [DecidableRel before] {edges : List (Nat × Nat)} {n : Nat}

theorem sound_run (hedges : ∀ e ∈ edges, e.2 < n) :
    Sound edges n [] (run before edges n) ∧ (run before edges n).ready = [] :=
  sound_start.loop hedges (Nat.le_add_left n _)

theorem nodup_order (hedges : ∀ e ∈ edges, e.2 < n) : (run before edges n).order.Nodup :=
  (sound_run before hedges).1.nodup.of_append_left

theorem lt_of_mem_order (hedges : ∀ e ∈ edges, e.2 < n) (hv : v ∈ (run before edges n).order) :
    v < n :=
  (((sound_run before hedges).1.free v).mp (List.mem_append_left _ hv)).1

/-- An order that places every node is one of them all. -/
theorem order_perm (hedges : ∀ e ∈ edges, e.2 < n)
    (hall : n ≤ (run before edges n).order.length) :
    (run before edges n).order.Perm (List.range n) := by
  have hsub : (run before edges n).order.Subperm (List.range n) :=
    (nodup_order before hedges).subperm fun v hv =>
      List.mem_range.mpr (lt_of_mem_order before hedges hv)
  exact hsub.perm_of_length_le (by simpa using hall)

/-- A source stands before its targets. -/
theorem idxOf_lt (hedges : ∀ e ∈ edges, e.2 < n) (he : (u, v) ∈ edges)
    (hv : v ∈ (run before edges n).order) :
    (run before edges n).order.idxOf u < (run before edges n).order.idxOf v := by
  have hlt := List.idxOf_lt_length_of_mem hv
  have hat : (run before edges n).order[(run before edges n).order.idxOf v]? = some v := by
    rw [List.getElem?_eq_getElem hlt, List.getElem_idxOf]
  have hmem := (sound_run before hedges).1.forward _ v hat u he
  obtain ⟨i, hi, hu⟩ := List.mem_iff_getElem.mp hmem
  rw [List.getElem_take] at hu
  rw [List.length_take] at hi
  rw [← hu, (nodup_order before hedges).idxOf_getElem]
  omega

/-- Every node is placed unless the edges go round. -/
theorem length_order_of_acyclic (hedges : ∀ e ∈ edges, e.1 < n ∧ e.2 < n)
    (hacyclic : ∀ v, ¬Relation.TransGen (fun u v => (u, v) ∈ edges) v v) :
    n ≤ (run before edges n).order.length := by
  obtain ⟨hsound, hready⟩ := sound_run before fun e he => (hedges e he).2
  -- without a way round, being reachable along the edges is a well-founded order of the nodes
  let r : Fin n → Fin n → Prop := fun u v =>
    Relation.TransGen (fun u v => (u, v) ∈ edges) u.val v.val
  have htrans : IsTrans (Fin n) r := ⟨fun _ _ _ => Relation.TransGen.trans⟩
  have hirrefl : Std.Irrefl r := ⟨fun v => hacyclic v⟩
  have hwf : WellFounded r := Finite.wellFounded_of_trans_of_irrefl r
  have hall : ∀ v : Fin n, v.val ∈ (run before edges n).order := by
    intro v
    induction v using hwf.induction with
    | _ v ih =>
      have hzero : (run before edges n).waiting v = 0 := by
        rw [hsound.waiting v, List.count_nil, add_zero, List.countP_eq_zero]
        rintro ⟨u, w⟩ he
        simp only [decide_eq_true_eq, not_and, not_not]
        rintro rfl
        exact ih ⟨u, (hedges _ he).1⟩ (.single he)
      have := (hsound.free v).mpr ⟨v.isLt, hzero⟩
      rwa [hready, List.append_nil] at this
  have hsub : List.range n ⊆ (run before edges n).order := fun v hv =>
    hall ⟨v, List.mem_range.mp hv⟩
  simpa using (List.nodup_range.subperm hsub).length_le

end Results

/-- A relation that raises a rank does not go round. -/
theorem acyclic_of_rank {α : Type*} {r : α → α → Prop} (rank : α → Nat)
    (hrank : ∀ a b, r a b → rank a < rank b) (a : α) : ¬Relation.TransGen r a a := by
  have hpath : ∀ b, Relation.TransGen r a b → rank a < rank b := by
    intro b h
    induction h with
    | single h => exact hrank _ _ h
    | tail _ h ih => exact ih.trans (hrank _ _ h)
  exact fun h => lt_irrefl _ (hpath a h)

end Kahn
