import EventStore.Replay.Batches

/-!
Regrouping any events with distinct places in their streams succeeds exactly when the orders in
which the streams put their commits do not go round, whatever order the events come in.
-/
namespace EventStore

/-- What a commit goes by: its ID, or its one event when it has none. -/
inductive CommitName where
  | id (commitId : String)
  | single (entityId : EntityId) (sequence : Int)
deriving DecidableEq

def SerializedEvent.commitName (e : SerializedEvent) : CommitName :=
  if e.metadata.commitId = "" then .single e.entityId e.sequence else .id e.metadata.commitId

/-- Some stream has an event of the one commit immediately before an event of the other. -/
def CommitBefore (events : List SerializedEvent) (x y : CommitName) : Prop :=
  x ≠ y ∧ ∃ a b, Adjacent events a b ∧ a.commitName = x ∧ b.commitName = y

def CommitView.events (view : CommitView) : List SerializedEvent :=
  view.streams.flatMap (·.events)

/-- No two events have one place in one stream. -/
def DistinctPlaces (events : List SerializedEvent) : Prop :=
  events.Pairwise fun a b => ¬(a.entityId = b.entityId ∧ a.sequence = b.sequence)

variable {a b : SerializedEvent}

theorem Adjacent.of_mem_iff {events events' : List SerializedEvent}
    (hmem : ∀ e, e ∈ events ↔ e ∈ events') (h : Adjacent events a b) : Adjacent events' a b := by
  obtain ⟨ha, hb, hid, hlt, hnone⟩ := h
  exact ⟨(hmem a).mp ha, (hmem b).mp hb, hid, hlt, fun c hc => hnone c ((hmem c).mpr hc)⟩

section Regrouped

variable {events sorted : List SerializedEvent} {place : SerializedEvent → Nat} {n : Nat}
  {order : List Nat}

theorem commitName_eq_iff (hsorted : sorted.Pairwise eventPrecedes) (ha : a ∈ sorted)
    (hb : b ∈ sorted) : a.commitName = b.commitName ↔ a = b ∨ SameCommit a b := by
  unfold SerializedEvent.commitName SameCommit
  by_cases hempty : a.metadata.commitId = "" <;> by_cases hempty' : b.metadata.commitId = ""
  · rw [if_pos hempty, if_pos hempty', CommitName.single.injEq]
    constructor
    · rintro ⟨hid, hsequence⟩
      exact .inl (eq_of_sequence hsorted ha hb hid hsequence)
    · rintro (rfl | h)
      · exact ⟨rfl, rfl⟩
      · exact absurd hempty h.2
  · rw [if_pos hempty, if_neg hempty']
    simp only [reduceCtorEq, false_iff, not_or]
    exact ⟨fun h => hempty' (h ▸ hempty), fun h => h.2 hempty⟩
  · rw [if_neg hempty, if_pos hempty']
    simp only [reduceCtorEq, false_iff, not_or]
    exact ⟨fun h => hempty (h ▸ hempty'), fun h => hempty (h.1.trans hempty')⟩
  · rw [if_neg hempty, if_neg hempty', CommitName.id.injEq]
    constructor
    · exact fun hid => .inr ⟨hid, hempty⟩
    · rintro (rfl | h)
      · rfl
      · exact h.1

/-- Two events are in one group exactly when they are of one commit. -/
theorem Regrouping.place_eq_iff (hr : Regrouping sorted place n)
    (hsorted : sorted.Pairwise eventPrecedes) (ha : a ∈ sorted) (hb : b ∈ sorted) :
    place a = place b ↔ a.commitName = b.commitName :=
  (hr.same a ha b hb).trans (commitName_eq_iff hsorted ha hb).symm

/-- A way round the groups is a way round the commits. -/
theorem Regrouping.acyclic (hr : Regrouping sorted place n)
    (hsorted : sorted.Pairwise eventPrecedes)
    (h : ∀ x, ¬Relation.TransGen (CommitBefore sorted) x x) (i : Nat) :
    ¬Relation.TransGen (fun u v => ∃ a b, Adjacent sorted a b ∧ place a ≠ place b ∧
      u = place a ∧ v = place b) i i := by
  let name : Nat → CommitName := fun i =>
    ((sorted.find? fun e => place e = i).map (·.commitName)).getD (.id "")
  have hname : ∀ a ∈ sorted, name (place a) = a.commitName := by
    intro a ha
    obtain ⟨e, he⟩ : ∃ e, sorted.find? (fun e => place e = place a) = some e :=
      Option.isSome_iff_exists.mp (List.find?_isSome.mpr ⟨a, ha, by simp⟩)
    have hplace := List.find?_some he
    rw [decide_eq_true_eq] at hplace
    simp only [name, he, Option.map_some, Option.getD_some]
    exact (hr.place_eq_iff hsorted (List.mem_of_find?_eq_some he) ha).mp hplace
  refine fun hround => h (name i) (Relation.TransGen.lift name ?_ i i hround)
  rintro _ _ ⟨a, b, hab, hne, rfl, rfl⟩
  change CommitBefore sorted (name (place a)) (name (place b))
  rw [hname a hab.1, hname b hab.2.1]
  refine ⟨fun heq => hne ?_, a, b, hab, rfl, rfl⟩
  exact (hr.place_eq_iff hsorted hab.1 hab.2.1).mpr heq

/-- Groups in an order every stream agrees with leave no way round the commits. -/
theorem Regrouping.acyclic_of_order (hr : Regrouping sorted place n)
    (hsorted : sorted.Pairwise eventPrecedes) (horder : order.Perm (List.range n))
    (hstreams : sorted.Pairwise fun a b => a.entityId = b.entityId →
      order.idxOf (place a) ≤ order.idxOf (place b)) (x : CommitName) :
    ¬Relation.TransGen (CommitBefore sorted) x x := by
  let rank : CommitName → Nat := fun x =>
    ((sorted.find? fun e => e.commitName = x).map fun e => order.idxOf (place e)).getD 0
  have hrank : ∀ a ∈ sorted, rank a.commitName = order.idxOf (place a) := by
    intro a ha
    obtain ⟨e, he⟩ : ∃ e, sorted.find? (fun e => e.commitName = a.commitName) = some e :=
      Option.isSome_iff_exists.mp (List.find?_isSome.mpr ⟨a, ha, by simp⟩)
    have hcommit := List.find?_some he
    rw [decide_eq_true_eq] at hcommit
    simp only [rank, he, Option.map_some, Option.getD_some]
    rw [(hr.place_eq_iff hsorted (List.mem_of_find?_eq_some he) ha).mpr hcommit]
  refine Kahn.acyclic_of_rank rank ?_ x
  rintro _ _ ⟨hne, a, b, ⟨ha, hb, hid, hlt, -⟩, rfl, rfl⟩
  rw [hrank a ha, hrank b hb]
  have hmem : place a ∈ order := horder.mem_iff.mpr (List.mem_range.mpr (hr.bound a ha))
  refine lt_of_le_of_ne (rel_of_precedes hsorted hstreams ha hb (.inr ⟨hid, hlt⟩) hid) fun heq => ?_
  exact hne ((hr.place_eq_iff hsorted ha hb).mp ((List.idxOf_inj hmem).mp heq))

theorem Regrouping.groups_flatMap (hr : Regrouping sorted place n)
    (hsorted : sorted.Pairwise eventPrecedes) (horder : order.Perm (List.range n)) :
    (order.flatMap fun i => sorted.filter fun e => place e = i).Perm sorted := by
  have hnodup := nodup_of_precedes hsorted
  refine (List.perm_ext_iff_of_nodup ?_ hnodup).mpr ?_
  · rw [List.nodup_flatMap]
    refine ⟨fun i _ => hnodup.filter _, ?_⟩
    refine (horder.nodup_iff.mpr List.nodup_range).imp fun {i j} hij e hi hj => hij ?_
    rw [List.mem_filter, decide_eq_true_eq] at hi hj
    exact hi.2.symm.trans hj.2
  · intro e
    simp only [List.mem_flatMap, List.mem_filter, decide_eq_true_eq]
    constructor
    · rintro ⟨i, -, he, -⟩
      exact he
    · intro he
      exact ⟨place e, horder.mem_iff.mpr (List.mem_range.mpr (hr.bound e he)), he, rfl⟩

theorem groups_ascending (hsorted : sorted.Pairwise eventPrecedes)
    (h : (order.map fun i => sorted.filter fun e => place e = i).Pairwise StreamsOrdered)
    (entityId : EntityId) :
    ((order.flatMap fun i => sorted.filter fun e => place e = i).filter
      fun e => e.entityId = entityId).Pairwise fun a b => a.sequence < b.sequence := by
  rw [List.pairwise_filter, List.pairwise_flatMap]
  constructor
  · intro i _
    refine (hsorted.filter _).imp fun {a b} hab ha hb => ?_
    rw [decide_eq_true_eq] at ha hb
    rcases hab with hlt | ⟨-, hlt⟩
    · exact absurd (ha.trans hb.symm) hlt.ne
    · exact hlt
  · refine (List.pairwise_map.mp h).imp fun {i j} hij a ha b hb hida hidb => ?_
    rw [decide_eq_true_eq] at hida hidb
    exact hij a ha b hb (hida.trans hidb.symm)

end Regrouped

theorem groupCommits_of_perm {events events' : List SerializedEvent} (h : DistinctPlaces events)
    (hperm : events'.Perm events) : groupCommits events' = groupCommits events := by
  have hdistinct : DistinctPlaces events' := by
    refine (List.Perm.pairwise_iff ?_ hperm).mpr h
    rintro a b hab ⟨hid, hsequence⟩
    exact hab ⟨hid.symm, hsequence.symm⟩
  have hsort : events'.insertionSort eventBefore = events.insertionSort eventBefore := by
    refine eq_of_precedes (sorted_of_distinct hdistinct) (sorted_of_distinct h) fun e => ?_
    rw [List.mem_insertionSort, List.mem_insertionSort, hperm.mem_iff]
  unfold groupCommits
  rw [hsort]

/-- Regrouping succeeds exactly when the commits along the streams do not go round; the views then
hold every event once, whatever the order given. -/
theorem groupCommits_canonical (events : List SerializedEvent) (h : DistinctPlaces events) :
    ((∃ views, groupCommits events = .ok views) ↔
      ∀ x, ¬Relation.TransGen (CommitBefore events) x x) ∧
    (∀ views, groupCommits events = .ok views →
      (views.flatMap (·.events)).Perm events ∧
      (∀ a ∈ events, ∀ b ∈ events, (∃ view ∈ views, a ∈ view.events ∧ b ∈ view.events) ↔
        a = b ∨ a.metadata.commitId = b.metadata.commitId ∧ a.metadata.commitId ≠ "") ∧
      ∀ entityId : EntityId, ((views.flatMap (·.events)).filter
        fun e => e.entityId = entityId).Pairwise fun a b => a.sequence < b.sequence) ∧
    ∀ events', events'.Perm events → groupCommits events' = groupCommits events := by
  have hsorted := sorted_of_distinct h
  have hmem : ∀ e, e ∈ events.insertionSort eventBefore ↔ e ∈ events := fun e =>
    List.mem_insertionSort _
  obtain ⟨place, n, hr, hsucceeds, hviews⟩ := groupCommits_regrouping rfl hsorted
  have hbefore : CommitBefore (events.insertionSort eventBefore) = CommitBefore events := by
    funext x y
    refine propext (and_congr_right fun _ => exists₂_congr fun a b => and_congr_left fun _ => ?_)
    exact ⟨Adjacent.of_mem_iff hmem, Adjacent.of_mem_iff fun e => (hmem e).symm⟩
  refine ⟨⟨?_, fun hacyclic => ?_⟩, ?_, fun events' => groupCommits_of_perm h⟩
  · rintro ⟨views, hok⟩
    obtain ⟨order, horder, -, hstreams⟩ := hviews views hok
    rw [← hbefore]
    exact hr.acyclic_of_order hsorted horder hstreams
  · rw [← hbefore] at hacyclic
    exact hsucceeds (hr.acyclic hsorted hacyclic)
  · intro views hok
    obtain ⟨order, horder, rfl, hstreams⟩ := hviews views hok
    have hevents : (order.map fun i => commitViewOf
        ((events.insertionSort eventBefore).filter fun e => place e = i)).flatMap (·.events) =
        order.flatMap fun i => (events.insertionSort eventBefore).filter fun e => place e = i := by
      rw [List.flatMap_map]
      exact List.flatMap_congr fun i _ => events_commitViewOf _
    rw [hevents]
    refine ⟨(hr.groups_flatMap hsorted horder).trans (List.perm_insertionSort _ _), ?_, ?_⟩
    · intro a ha b hb
      rw [← hmem] at ha hb
      refine Iff.trans ?_ (hr.same a ha b hb)
      constructor
      · rintro ⟨view, hview, hina, hinb⟩
        obtain ⟨i, -, rfl⟩ := List.mem_map.mp hview
        rw [CommitView.events, events_commitViewOf, List.mem_filter, decide_eq_true_eq] at hina hinb
        exact hina.2.trans hinb.2.symm
      · intro hplace
        refine ⟨_, List.mem_map.mpr ⟨place a,
          horder.mem_iff.mpr (List.mem_range.mpr (hr.bound a ha)), rfl⟩, ?_⟩
        rw [CommitView.events, events_commitViewOf]
        simp [ha, hb, hplace]
    · exact groups_ascending hsorted
        (groups_ordered hsorted (horder.nodup_iff.mpr List.nodup_range) hstreams)

def threeCommits : List SerializedEvent :=
  [("b", 2, "l"), ("a", 1, "k"), ("b", 1, "k"), ("a", 2, "")].map
    fun (entityId, sequence, commitId) =>
    ⟨.forEvent entityId sequence, sequence, "added", 1, entityId, "counter", .empty, { commitId }⟩

theorem groupCommits_canonical_of_three : DistinctPlaces threeCommits ∧
    (∃ views, groupCommits threeCommits = .ok views) ∧
    ∀ x, ¬Relation.TransGen (CommitBefore threeCommits) x x := by
  have hdistinct : DistinctPlaces threeCommits := by
    unfold DistinctPlaces
    decide +kernel
  have hok : ∃ views, groupCommits threeCommits = .ok views := ⟨_, rfl⟩
  exact ⟨hdistinct, hok, (groupCommits_canonical threeCommits hdistinct).1.mp hok⟩

end EventStore
