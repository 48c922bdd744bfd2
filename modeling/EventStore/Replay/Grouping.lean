import EventStore.Core.Replay

/-!
What the grouping of events comes to: two events are in one group exactly when they carry the same
commit ID and it is not empty, with an edge wherever a stream goes from one group to another.
-/
namespace EventStore

def SameCommit (a b : SerializedEvent) : Prop :=
  a.metadata.commitId = b.metadata.commitId ∧ a.metadata.commitId ≠ ""

namespace Grouping

/-- The groups are those of a numbering of the events, by commit ID. -/
structure Numbers (place : SerializedEvent → Nat) (seen : List SerializedEvent)
    (g : Grouping) : Prop where
  members : g.members = seen.map place
  groups : ∀ i < g.groups.length, g.groups[i]? = some (seen.filter fun e => place e = i)
  bound : ∀ e ∈ seen, place e < g.groups.length
  used : ∀ i < g.groups.length, ∃ e ∈ seen, place e = i
  same : ∀ a ∈ seen, ∀ b ∈ seen, place a = place b ↔ a = b ∨ SameCommit a b
  byCommit : ∀ commitId i, g.byCommit[commitId]? = some i ↔
    commitId ≠ "" ∧ ∃ e ∈ seen, e.metadata.commitId = commitId ∧ place e = i

section Steps

variable {place : SerializedEvent → Nat} {seen : List SerializedEvent} {g : Grouping}
  {event : SerializedEvent}

theorem numbers_empty : Numbers (fun _ => 0) [] empty := by
  refine ⟨rfl, ?_, ?_, ?_, ?_, ?_⟩ <;> simp [empty]

theorem filter_update (hevent : event ∉ seen) (i j : Nat) :
    (seen ++ [event]).filter (fun e => Function.update place event i e = j) =
      seen.filter (fun e => place e = j) ++ if i = j then [event] else [] := by
  have hseen : seen.filter (fun e => Function.update place event i e = j) =
      seen.filter fun e => place e = j := by
    refine List.filter_congr fun e he => ?_
    rw [Function.update_of_ne (ne_of_mem_of_not_mem he hevent)]
  rw [List.filter_append, hseen, List.filter_singleton, Function.update_self]
  simp

theorem map_update (hevent : event ∉ seen) (i : Nat) :
    (seen ++ [event]).map (Function.update place event i) = seen.map place ++ [i] := by
  rw [List.map_append, List.map_singleton, Function.update_self]
  congr 1
  exact List.map_congr_left fun e he => Function.update_of_ne (ne_of_mem_of_not_mem he hevent) ..

theorem same_update (h : g.Numbers place seen) (hevent : event ∉ seen) {i : Nat}
    (hi : ∀ a ∈ seen, place a = i ↔ SameCommit a event) :
    ∀ a ∈ seen ++ [event], ∀ b ∈ seen ++ [event],
      Function.update place event i a = Function.update place event i b ↔
        a = b ∨ SameCommit a b := by
  have hold : ∀ a ∈ seen, Function.update place event i a = place a := fun a ha =>
    Function.update_of_ne (ne_of_mem_of_not_mem ha hevent) ..
  have hflip : ∀ a b : SerializedEvent, SameCommit a b ↔ SameCommit b a := by
    intro a b
    unfold SameCommit
    constructor <;> rintro ⟨hid, hne⟩ <;> exact ⟨hid.symm, hid ▸ hne⟩
  simp only [List.mem_append, List.mem_singleton]
  rintro a (ha | rfl) b (hb | rfl)
  · rw [hold a ha, hold b hb]
    exact h.same a ha b hb
  · rw [hold a ha, Function.update_self, hi a ha]
    simp [ne_of_mem_of_not_mem ha hevent]
  · rw [hold b hb, Function.update_self, eq_comm, hi b hb, hflip b]
    simp [(ne_of_mem_of_not_mem hb hevent).symm]
  · simp

theorem groups_alone (h : g.Numbers place seen) (hevent : event ∉ seen) :
    ∀ j < (g.alone event).groups.length, (g.alone event).groups[j]? =
      some ((seen ++ [event]).filter fun e =>
        Function.update place event g.groups.length e = j) := by
  intro j hj
  simp only [alone, List.length_append, List.length_singleton] at hj ⊢
  rw [filter_update hevent]
  by_cases hlt : j < g.groups.length
  · rw [List.getElem?_append_left hlt, h.groups j hlt, if_neg (by omega), List.append_nil]
  · have hnone : seen.filter (fun e => place e = j) = [] := by
      rw [List.filter_eq_nil_iff]
      intro e he
      have := h.bound e he
      simp only [decide_eq_true_eq]
      omega
    obtain rfl : j = g.groups.length := by omega
    rw [List.getElem?_append_right le_rfl, hnone]
    simp

theorem Numbers.alone (h : g.Numbers place seen) (hevent : event ∉ seen)
    (hnew : ∀ a ∈ seen, ¬SameCommit a event) {byCommit : OrdMap String Nat}
    (hby : ∀ commitId i, byCommit[commitId]? = some i ↔
      commitId ≠ "" ∧ ∃ e ∈ seen ++ [event], e.metadata.commitId = commitId ∧
        Function.update place event g.groups.length e = i) :
    Numbers (Function.update place event g.groups.length) (seen ++ [event])
      { g.alone event with byCommit } := by
  have hold : ∀ a ∈ seen, Function.update place event g.groups.length a = place a := fun a ha =>
    Function.update_of_ne (ne_of_mem_of_not_mem ha hevent) ..
  refine ⟨?_, groups_alone h hevent, ?_, ?_, same_update h hevent ?_, hby⟩
  · rw [map_update hevent, ← h.members]
    rfl
  · intro e he
    simp only [Grouping.alone, List.length_append, List.length_singleton]
    rcases List.mem_append.mp he with he | he
    · rw [hold e he]
      have := h.bound e he
      omega
    · rw [List.mem_singleton.mp he, Function.update_self]
      omega
  · intro i hi
    simp only [Grouping.alone, List.length_append, List.length_singleton] at hi
    by_cases hlt : i < g.groups.length
    · obtain ⟨e, he, hplace⟩ := h.used i hlt
      exact ⟨e, List.mem_append_left _ he, (hold e he).trans hplace⟩
    · exact ⟨event, by simp, by rw [Function.update_self]; omega⟩
  · intro a ha
    have := h.bound a ha
    simp only [hnew a ha, iff_false]
    omega

theorem Numbers.join (h : g.Numbers place seen) (hevent : event ∉ seen) {index : Nat}
    (hindex : g.byCommit[event.metadata.commitId]? = some index) :
    Numbers (Function.update place event index) (seen ++ [event])
      { g with
        groups := g.groups.modify index (· ++ [event])
        members := g.members ++ [index] } := by
  obtain ⟨hid, first, hfirst, hcommit, hplace⟩ := (h.byCommit _ _).mp hindex
  have hold : ∀ a ∈ seen, Function.update place event index a = place a := fun a ha =>
    Function.update_of_ne (ne_of_mem_of_not_mem ha hevent) ..
  have hsame : ∀ a ∈ seen, place a = index ↔ SameCommit a event := by
    intro a ha
    rw [← hplace, h.same a ha first hfirst]
    constructor
    · rintro (rfl | ⟨heq, hne⟩)
      · exact ⟨hcommit, hcommit ▸ hid⟩
      · exact ⟨heq.trans hcommit, hne⟩
    · rintro ⟨heq, hne⟩
      exact .inr ⟨heq.trans hcommit.symm, hne⟩
  have hbound := h.bound first hfirst
  refine ⟨?_, ?_, ?_, ?_, same_update h hevent hsame, ?_⟩
  · rw [map_update hevent, ← h.members]
  · intro j hj
    simp only [List.length_modify] at hj
    rw [filter_update hevent, List.getElem?_modify, h.groups j hj]
    by_cases heq : index = j
    · simp [heq]
    · simp [heq]
  · intro e he
    simp only [List.length_modify]
    rcases List.mem_append.mp he with he | he
    · rw [hold e he]
      exact h.bound e he
    · rw [List.mem_singleton.mp he, Function.update_self]
      omega
  · intro i hi
    simp only [List.length_modify] at hi
    obtain ⟨e, he, hplace⟩ := h.used i hi
    exact ⟨e, List.mem_append_left _ he, (hold e he).trans hplace⟩
  · intro commitId i
    rw [h.byCommit]
    refine and_congr_right fun hne => ⟨?_, ?_⟩
    · rintro ⟨e, he, hcommit, hi⟩
      exact ⟨e, List.mem_append_left _ he, hcommit, (hold e he).trans hi⟩
    · rintro ⟨e, he, heq, hi⟩
      rcases List.mem_append.mp he with he | he
      · exact ⟨e, he, heq, (hold e he).symm.trans hi⟩
      · obtain rfl := List.mem_singleton.mp he
        rw [Function.update_self] at hi
        exact ⟨first, hfirst, hcommit.trans heq, hplace.trans hi⟩

theorem numbers_add (h : g.Numbers place seen) (hevent : event ∉ seen) :
    ∃ i, Numbers (Function.update place event i) (seen ++ [event]) (g.add event) := by
  have hold : ∀ i, ∀ a ∈ seen, Function.update place event i a = place a := fun i a ha =>
    Function.update_of_ne (ne_of_mem_of_not_mem ha hevent) ..
  unfold add
  split
  · rename_i hempty
    refine ⟨g.groups.length, h.alone hevent ?_ ?_⟩
    · rintro a - ⟨hid, hne⟩
      exact hne (hid.trans hempty)
    · intro commitId i
      rw [h.byCommit]
      refine and_congr_right fun hne => ?_
      simp only [List.mem_append, List.mem_singleton]
      constructor
      · rintro ⟨e, he, hcommit, hi⟩
        exact ⟨e, .inl he, hcommit, (hold _ e he).trans hi⟩
      · rintro ⟨e, he | rfl, hcommit, hi⟩
        · exact ⟨e, he, hcommit, (hold _ e he).symm.trans hi⟩
        · exact absurd (hcommit.symm.trans hempty) hne
  · rename_i hne
    split
    · rename_i index hindex
      exact ⟨index, h.join hevent hindex⟩
    · rename_i hnone
      have hnew : ∀ a ∈ seen, ¬SameCommit a event := by
        rintro a ha ⟨hid, -⟩
        rw [(h.byCommit event.metadata.commitId (place a)).mpr ⟨hne, a, ha, hid, rfl⟩] at hnone
        cases hnone
      refine ⟨g.groups.length, h.alone hevent hnew ?_⟩
      intro commitId i
      rw [OrdMap.get_insert]
      by_cases heq : commitId = event.metadata.commitId
      · subst heq
        simp only [if_true, Option.some.injEq, List.mem_append, List.mem_singleton]
        constructor
        · rintro rfl
          exact ⟨hne, event, .inr rfl, rfl, Function.update_self ..⟩
        · rintro ⟨-, e, he | rfl, hcommit, hi⟩
          · exact absurd ⟨hcommit, hcommit ▸ hne⟩ (hnew e he)
          · rwa [Function.update_self] at hi
      · rw [if_neg heq, h.byCommit]
        refine and_congr_right fun _ => ?_
        simp only [List.mem_append, List.mem_singleton]
        constructor
        · rintro ⟨e, he, hcommit, hi⟩
          exact ⟨e, .inl he, hcommit, (hold _ e he).trans hi⟩
        · rintro ⟨e, he | rfl, hcommit, hi⟩
          · exact ⟨e, he, hcommit, (hold _ e he).symm.trans hi⟩
          · exact absurd hcommit.symm heq

theorem numbers_foldl {events : List SerializedEvent} (h : g.Numbers place seen)
    (hnodup : (seen ++ events).Nodup) :
    ∃ place', Numbers place' (seen ++ events) (events.foldl add g) := by
  induction events generalizing place seen g with
  | nil => exact ⟨place, by simpa using h⟩
  | cons event events ih =>
    rw [List.append_cons] at hnodup ⊢
    have hevent : event ∉ seen := by
      have := hnodup.of_append_left
      rw [List.nodup_append] at this
      exact fun hmem => this.2.2 event hmem event (by simp) rfl
    obtain ⟨i, hi⟩ := numbers_add h hevent
    exact ih hi hnodup

end Steps

end Grouping

def eventPrecedes (a b : SerializedEvent) : Prop :=
  a.entityId < b.entityId ∨ a.entityId = b.entityId ∧ a.sequence < b.sequence

theorem eventPrecedes_irrefl (a : SerializedEvent) : ¬eventPrecedes a a := by
  simp [eventPrecedes]

theorem eventPrecedes_trans {a b c : SerializedEvent} (hab : eventPrecedes a b)
    (hbc : eventPrecedes b c) : eventPrecedes a c := by
  unfold eventPrecedes at *
  rcases hab with hab | ⟨hab, hab'⟩ <;> rcases hbc with hbc | ⟨hbc, hbc'⟩
  · exact .inl (hab.trans hbc)
  · exact .inl (hbc ▸ hab)
  · exact .inl (hab ▸ hbc)
  · exact .inr ⟨hab.trans hbc, hab'.trans hbc'⟩

instance : Std.Irrefl eventPrecedes := ⟨eventPrecedes_irrefl⟩

instance : Std.Antisymm eventPrecedes :=
  ⟨fun a _ hab hba => absurd (eventPrecedes_trans hab hba) (eventPrecedes_irrefl a)⟩

theorem nodup_of_precedes {l : List SerializedEvent} (h : l.Pairwise eventPrecedes) :
    l.Nodup := by
  rw [List.nodup_iff_pairwise_ne]
  refine h.imp ?_
  rintro a b hab rfl
  exact eventPrecedes_irrefl a hab

def Adjacent (events : List SerializedEvent) (a b : SerializedEvent) : Prop :=
  a ∈ events ∧ b ∈ events ∧ a.entityId = b.entityId ∧ a.sequence < b.sequence ∧
    ∀ c ∈ events, c.entityId = a.entityId → ¬(a.sequence < c.sequence ∧ c.sequence < b.sequence)

theorem Adjacent.cons {l : List SerializedEvent} {a c d : SerializedEvent}
    (ha : ∀ e ∈ l, eventPrecedes a e) (h : Adjacent l c d) : Adjacent (a :: l) c d := by
  obtain ⟨hc, hd, hid, hlt, hnone⟩ := h
  refine ⟨List.mem_cons_of_mem a hc, List.mem_cons_of_mem a hd, hid, hlt, ?_⟩
  rw [List.forall_mem_cons]
  refine ⟨fun heq hbetween => ?_, hnone⟩
  exact eventPrecedes_irrefl c (eventPrecedes_trans (.inr ⟨heq.symm, hbetween.1⟩) (ha c hc))

section Edges

variable {place : SerializedEvent → Nat} {l : List SerializedEvent}

theorem of_mem_streamEdges (h : l.Pairwise eventPrecedes) {u v : Nat}
    (he : (u, v) ∈ streamEdges (l.map fun e => (e, place e))) :
    ∃ a b, Adjacent l a b ∧ place a ≠ place b ∧ u = place a ∧ v = place b := by
  induction l with
  | nil => simp [streamEdges] at he
  | cons a l ih =>
    cases l with
    | nil => simp [streamEdges] at he
    | cons b l =>
      obtain ⟨hprecedes, hrest⟩ := List.pairwise_cons.mp h
      have hlater : (u, v) ∈ streamEdges ((b :: l).map fun e => (e, place e)) →
          ∃ c d, Adjacent (a :: b :: l) c d ∧ place c ≠ place d ∧ u = place c ∧
            v = place d := by
        intro he
        obtain ⟨c, d, hcd, hplaces⟩ := ih hrest he
        exact ⟨c, d, hcd.cons hprecedes, hplaces⟩
      simp only [List.map_cons, streamEdges] at he
      split at he
      · exact hlater he
      · rename_i hedge
        rw [not_or, not_not] at hedge
        rcases List.mem_cons.mp he with heq | he
        · cases heq
          obtain hlt | ⟨-, hlt⟩ := hprecedes b (by simp)
          · exact absurd hedge.1 hlt.ne
          refine ⟨a, b, ⟨by simp, by simp, hedge.1, hlt, ?_⟩, hedge.2, rfl, rfl⟩
          rintro c hc hid ⟨hac, hcb⟩
          -- what comes after the second one does not precede it
          have hpre : eventPrecedes c b := .inr ⟨hid.trans hedge.1, hcb⟩
          rcases List.mem_cons.mp hc with rfl | hc
          · exact lt_irrefl _ hac
          rcases List.mem_cons.mp hc with rfl | hc
          · exact lt_irrefl _ hcb
          · exact eventPrecedes_irrefl c
              (eventPrecedes_trans hpre ((List.pairwise_cons.mp hrest).1 c hc))
        · exact hlater he

theorem chain_streamEdges (hl : l.Pairwise eventPrecedes) {P : Nat → Nat → Prop}
    (h : ∀ e ∈ streamEdges (l.map fun e => (e, place e)), P e.1 e.2) :
    l.IsChain fun a b => eventPrecedes a b ∧
      (a.entityId = b.entityId → place a = place b ∨ P (place a) (place b)) := by
  induction l with
  | nil => exact .nil
  | cons a l ih =>
    cases l with
    | nil => exact .singleton a
    | cons b l =>
      obtain ⟨hprecedes, hrest⟩ := List.pairwise_cons.mp hl
      have hnext := hprecedes b (by simp)
      simp only [List.map_cons, streamEdges] at h ih
      rw [List.isChain_cons_cons]
      split at h
      · rename_i hsame
        exact ⟨⟨hnext, fun hid => .inl (hsame.resolve_left (not_not.mpr hid))⟩, ih hrest h⟩
      · rw [List.forall_mem_cons] at h
        exact ⟨⟨hnext, fun _ => .inr h.1⟩, ih hrest h.2⟩

/-- Along a stream the numbers that edges raise only go up. -/
theorem stream_monotone (hl : l.Pairwise eventPrecedes) (number : Nat → Nat)
    (h : ∀ e ∈ streamEdges (l.map fun e => (e, place e)), number e.1 < number e.2) :
    l.Pairwise fun a b => a.entityId = b.entityId → number (place a) ≤ number (place b) := by
  have htrans : IsTrans SerializedEvent fun a b => eventPrecedes a b ∧
      (a.entityId = b.entityId → number (place a) ≤ number (place b)) := by
    refine ⟨fun a b c hab hbc => ⟨eventPrecedes_trans hab.1 hbc.1, fun hac => ?_⟩⟩
    have hid : a.entityId = b.entityId := by
      rcases hab.1 with hlt | heq
      · rcases hbc.1 with hlt' | heq'
        · exact absurd (hlt.trans hlt') (hac ▸ lt_irrefl _)
        · exact hac.trans heq'.1.symm
      · exact heq.1
    exact (hab.2 hid).trans (hbc.2 (hid.symm.trans hac))
  have hchain : l.IsChain fun a b => eventPrecedes a b ∧
      (a.entityId = b.entityId → number (place a) ≤ number (place b)) := by
    have hstep := @chain_streamEdges place l hl (fun u v => number u < number v) h
    refine hstep.imp fun a b hab => ⟨hab.1, fun hid => ?_⟩
    rcases hab.2 hid with heq | hlt
    · rw [heq]
    · exact hlt.le
  exact (List.isChain_iff_pairwise.mp hchain).imp fun hab => hab.2

end Edges

structure Regrouping (events : List SerializedEvent) (place : SerializedEvent → Nat) (n : Nat) :
    Prop where
  bound : ∀ e ∈ events, place e < n
  used : ∀ i < n, ∃ e ∈ events, place e = i
  same : ∀ a ∈ events, ∀ b ∈ events, place a = place b ↔ a = b ∨ SameCommit a b

/-- Regrouping succeeds when no way along the streams leads back to a group. -/
theorem groupCommits_regrouping {events sorted : List SerializedEvent}
    (hsort : events.insertionSort eventBefore = sorted) (hsorted : sorted.Pairwise eventPrecedes) :
    ∃ place n, Regrouping sorted place n ∧
      ((∀ i, ¬Relation.TransGen (fun u v => ∃ a b, Adjacent sorted a b ∧ place a ≠ place b ∧
          u = place a ∧ v = place b) i i) →
        ∃ views, groupCommits events = .ok views) ∧
      ∀ views, groupCommits events = .ok views → ∃ order : List Nat,
        order.Perm (List.range n) ∧
        views = order.map (fun i => commitViewOf (sorted.filter fun e => place e = i)) ∧
        sorted.Pairwise fun a b => a.entityId = b.entityId →
          order.idxOf (place a) ≤ order.idxOf (place b) := by
  subst hsort
  set sorted := events.insertionSort eventBefore with hsort
  obtain ⟨place, hnumbers⟩ := Grouping.numbers_foldl Grouping.numbers_empty
    (by simpa using nodup_of_precedes hsorted : ([] ++ sorted).Nodup)
  rw [List.nil_append] at hnumbers
  set grouping := sorted.foldl Grouping.add .empty with hgrouping
  have hzip : sorted.zip grouping.members = sorted.map fun e => (e, place e) := by
    rw [hnumbers.members, List.zip_eq_zipWith, List.zipWith_map_right, List.zipWith_self]
  have hedges : ∀ e ∈ streamEdges (sorted.map fun e => (e, place e)),
      e.1 < grouping.groups.length ∧ e.2 < grouping.groups.length := by
    rintro ⟨u, v⟩ he
    obtain ⟨a, b, hab, -, rfl, rfl⟩ := of_mem_streamEdges hsorted he
    exact ⟨hnumbers.bound a hab.1, hnumbers.bound b hab.2.1⟩
  have htargets := fun e he => (hedges e he).2
  refine ⟨place, grouping.groups.length, ⟨hnumbers.bound, hnumbers.used, hnumbers.same⟩, ?_, ?_⟩
  · intro hacyclic
    have hall := Kahn.length_order_of_acyclic (takenBefore grouping.groups) hedges fun i h =>
      hacyclic i (Relation.TransGen.mono (fun _ _ => of_mem_streamEdges hsorted) i i h)
    simp only [groupCommits, ← hsort, ← hgrouping, hzip]
    exact ⟨_, if_neg (not_lt.mpr hall)⟩
  · intro views hviews
    simp only [groupCommits, ← hsort, ← hgrouping, hzip] at hviews
    split at hviews
    · cases hviews
    · rename_i hall
      have hperm := Kahn.order_perm (takenBefore grouping.groups) htargets (not_lt.mp hall)
      refine ⟨_, hperm, ?_, stream_monotone hsorted (fun i => List.idxOf i _) fun e he => ?_⟩
      · cases hviews
        refine Eq.trans (List.filterMap_congr fun i hi => ?_)
          (congrFun List.filterMap_eq_map _)
        rw [hnumbers.groups i (List.mem_range.mp (hperm.mem_iff.mp hi))]
        rfl
      · exact Kahn.idxOf_lt _ htargets he (hperm.mem_iff.mpr (List.mem_range.mpr (htargets e he)))

end EventStore
