import EventStore.Replay.Grouping

/-!
Regrouping the events of a list of commits. The views are those of the commits exactly when no two
commits share an ID and none of several events has an empty one; they come in an order in which
the streams go on the same way.
-/
namespace EventStore

/-- The later events of each stream come after the earlier ones. -/
def StreamsOrdered (earlier later : List SerializedEvent) : Prop :=
  ∀ a ∈ earlier, ∀ b ∈ later, a.entityId = b.entityId → a.sequence < b.sequence

structure Batches (batches : List (List SerializedEvent)) : Prop where
  ordered : ∀ batch ∈ batches, batch.Pairwise eventPrecedes
  written : ∀ batch ∈ batches, batch ≠ []
  commitId : ∀ batch ∈ batches, ∀ a ∈ batch, ∀ b ∈ batch,
    a.metadata.commitId = b.metadata.commitId
  streams : batches.Pairwise StreamsOrdered

/-- No commit has the ID of an earlier one, and one without an ID has a single event. -/
structure Separated (batches : List (List SerializedEvent)) : Prop where
  single : ∀ batch ∈ batches, ∀ e ∈ batch, e.metadata.commitId = "" → batch = [e]
  distinct : batches.Pairwise fun earlier later => ∀ a ∈ earlier, ∀ e ∈ later,
    a.metadata.commitId = e.metadata.commitId → e.metadata.commitId = ""

theorem events_addToStream (streams : List CommitStream) (event : SerializedEvent) :
    (addToStream streams event).flatMap (·.events) = streams.flatMap (·.events) ++ [event] := by
  unfold addToStream
  cases hlast : streams.getLast? with
  | none => simp [List.getLast?_eq_none_iff.mp hlast]
  | some stream =>
    simp only
    split
    · obtain ⟨front, rfl⟩ := List.getLast?_eq_some_iff.mp hlast
      simp
    · simp

theorem events_commitViewOf (events : List SerializedEvent) :
    (commitViewOf events).streams.flatMap (·.events) = events := by
  suffices h : ∀ streams : List CommitStream,
      (events.foldl addToStream streams).flatMap (·.events) =
        streams.flatMap (·.events) ++ events from h []
  induction events with
  | nil => simp
  | cons event events ih =>
    intro streams
    rw [List.foldl_cons, ih, events_addToStream, List.append_assoc]
    rfl

variable {a b : SerializedEvent}

section Order

variable {l : List SerializedEvent}

theorem rel_of_precedes {R : SerializedEvent → SerializedEvent → Prop}
    (hl : l.Pairwise eventPrecedes) (hR : l.Pairwise R) (ha : a ∈ l) (hb : b ∈ l)
    (hab : eventPrecedes a b) : R a b := by
  obtain ⟨i, hi, rfl⟩ := List.mem_iff_getElem.mp ha
  obtain ⟨j, hj, rfl⟩ := List.mem_iff_getElem.mp hb
  rcases lt_trichotomy i j with hlt | rfl | hgt
  · exact List.pairwise_iff_getElem.mp hR i j hi hj hlt
  · exact absurd hab (eventPrecedes_irrefl _)
  · have hba := List.pairwise_iff_getElem.mp hl j i hj hi hgt
    exact absurd (eventPrecedes_trans hab hba) (eventPrecedes_irrefl _)

theorem eq_of_sequence (hl : l.Pairwise eventPrecedes) (ha : a ∈ l) (hb : b ∈ l)
    (hid : a.entityId = b.entityId) (hsequence : a.sequence = b.sequence) : a = b := by
  have hnot : ∀ c d : SerializedEvent, c.entityId = d.entityId → c.sequence = d.sequence →
      ¬eventPrecedes c d := by
    rintro c d hid hsequence (hlt | ⟨-, hlt⟩)
    · exact hlt.ne hid
    · exact hlt.ne hsequence
  obtain ⟨i, hi, rfl⟩ := List.mem_iff_getElem.mp ha
  obtain ⟨j, hj, rfl⟩ := List.mem_iff_getElem.mp hb
  rcases lt_trichotomy i j with hlt | rfl | hgt
  · exact absurd (List.pairwise_iff_getElem.mp hl i j hi hj hlt) (hnot _ _ hid hsequence)
  · rfl
  · exact absurd (List.pairwise_iff_getElem.mp hl j i hj hi hgt)
      (hnot _ _ hid.symm hsequence.symm)

theorem eq_of_precedes {l' : List SerializedEvent} (hl : l.Pairwise eventPrecedes)
    (hl' : l'.Pairwise eventPrecedes) (h : ∀ e, e ∈ l ↔ e ∈ l') : l = l' :=
  hl.eq_of_mem_iff hl' h

theorem sorted_eventBefore (events : List SerializedEvent) :
    (events.insertionSort eventBefore).Pairwise eventBefore := by
  have : Std.Total eventBefore := by
    refine ⟨fun a b => ?_⟩
    unfold eventBefore
    rcases lt_trichotomy a.entityId b.entityId with h | h | h
    · exact .inl (.inl h)
    · rcases le_total a.sequence b.sequence with hs | hs
      · exact .inl (.inr ⟨h, hs⟩)
      · exact .inr (.inr ⟨h.symm, hs⟩)
    · exact .inr (.inl h)
  have : IsTrans SerializedEvent eventBefore := by
    refine ⟨fun a b c hab hbc => ?_⟩
    unfold eventBefore at *
    rcases hab with hab | ⟨hab, hab'⟩ <;> rcases hbc with hbc | ⟨hbc, hbc'⟩
    · exact .inl (hab.trans hbc)
    · exact .inl (hbc ▸ hab)
    · exact .inl (hab ▸ hbc)
    · exact .inr ⟨hab.trans hbc, hab'.trans hbc'⟩
  exact List.pairwise_insertionSort eventBefore events

theorem sorted_of_distinct {events : List SerializedEvent}
    (h : events.Pairwise fun a b => ¬(a.entityId = b.entityId ∧ a.sequence = b.sequence)) :
    (events.insertionSort eventBefore).Pairwise eventPrecedes := by
  have hdistinct : (events.insertionSort eventBefore).Pairwise fun a b =>
      ¬(a.entityId = b.entityId ∧ a.sequence = b.sequence) := by
    refine ((List.perm_insertionSort eventBefore events).pairwise_iff ?_).mpr h
    rintro a b hab ⟨hid, hsequence⟩
    exact hab ⟨hid.symm, hsequence.symm⟩
  refine ((sorted_eventBefore events).and hdistinct).imp ?_
  rintro a b ⟨hlt | ⟨hid, hle⟩, hne⟩
  · exact .inl hlt
  · exact .inr ⟨hid, lt_of_le_of_ne hle fun heq => hne ⟨hid, heq⟩⟩

/-- Groups in an order that every stream agrees with, one after another, go on with every
stream. -/
theorem groups_ordered {sorted : List SerializedEvent} {place : SerializedEvent → Nat}
    {order : List Nat} (hsorted : sorted.Pairwise eventPrecedes) (hnodup : order.Nodup)
    (hstreams : sorted.Pairwise fun a b => a.entityId = b.entityId →
      order.idxOf (place a) ≤ order.idxOf (place b)) :
    (order.map fun i => sorted.filter fun e => place e = i).Pairwise StreamsOrdered := by
  rw [List.pairwise_map, List.pairwise_iff_getElem]
  intro i j hi hj hij a ha b hb hid
  simp only [List.mem_filter, decide_eq_true_eq] at ha hb
  by_contra hge
  -- the later group's event would stand before the earlier one's in the stream
  have hne : a ≠ b := by
    rintro rfl
    have := (List.Nodup.getElem_inj_iff hnodup).mp (ha.2.symm.trans hb.2)
    omega
  have hba : eventPrecedes b a := by
    refine .inr ⟨hid.symm, lt_of_le_of_ne (not_lt.mp hge) fun heq => ?_⟩
    exact hne (eq_of_sequence hsorted ha.1 hb.1 hid heq.symm)
  have hle := rel_of_precedes hsorted hstreams hb.1 ha.1 hba hid.symm
  rw [ha.2, hb.2, hnodup.idxOf_getElem, hnodup.idxOf_getElem] at hle
  omega

end Order

namespace Batches

variable {batches : List (List SerializedEvent)} {events : List SerializedEvent}

theorem distinct (h : Batches batches) :
    batches.flatten.Pairwise fun a b => ¬(a.entityId = b.entityId ∧ a.sequence = b.sequence) := by
  rw [List.pairwise_flatten]
  constructor
  · intro batch hbatch
    refine (h.ordered batch hbatch).imp ?_
    rintro a b (hlt | ⟨-, hlt⟩) ⟨hid, hsequence⟩
    · exact hlt.ne hid
    · exact hlt.ne hsequence
  · refine h.streams.imp ?_
    rintro earlier later hordered a ha b hb ⟨hid, hsequence⟩
    exact (hordered a ha b hb hid).ne hsequence

theorem sorted (h : Batches batches) (hevents : events.Perm batches.flatten) :
    (events.insertionSort eventBefore).Pairwise eventPrecedes := by
  refine sorted_of_distinct ((hevents.pairwise_iff ?_).mpr h.distinct)
  rintro a b hab ⟨hid, hsequence⟩
  exact hab ⟨hid.symm, hsequence.symm⟩

def home (batches : List (List SerializedEvent)) (e : SerializedEvent) : Nat :=
  batches.findIdx fun batch => e ∈ batch

variable {e : SerializedEvent}

theorem home_eq (h : Batches batches) {k : Nat} {batch : List SerializedEvent}
    (hk : batches[k]? = some batch) (he : e ∈ batch) : home batches e = k := by
  obtain ⟨hlt, rfl⟩ := List.getElem?_eq_some_iff.mp hk
  rw [home, List.findIdx_eq hlt]
  refine ⟨by simpa using he, fun j hj => ?_⟩
  simp only [decide_eq_false_iff_not]
  intro hmem
  have := List.pairwise_iff_getElem.mp h.streams j k (by omega) hlt hj e hmem e he rfl
  exact lt_irrefl _ this

theorem at_home (he : e ∈ batches.flatten) :
    ∃ batch, batches[home batches e]? = some batch ∧ e ∈ batch ∧ batch ∈ batches := by
  obtain ⟨batch, hbatch, he⟩ := List.mem_flatten.mp he
  have hlt : home batches e < batches.length :=
    List.findIdx_lt_length_of_exists ⟨batch, hbatch, by simpa using he⟩
  exact ⟨_, List.getElem?_eq_getElem hlt, of_decide_eq_true (List.findIdx_getElem (w := hlt)),
    List.getElem_mem hlt⟩

theorem home_le (h : Batches batches) (ha : a ∈ batches.flatten) (hb : b ∈ batches.flatten)
    (hid : a.entityId = b.entityId) (hlt : a.sequence < b.sequence) :
    home batches a ≤ home batches b := by
  obtain ⟨first, hfirst, ha, -⟩ := at_home ha
  obtain ⟨second, hsecond, hb, -⟩ := at_home hb
  by_contra hgt
  obtain ⟨hi, rfl⟩ := List.getElem?_eq_some_iff.mp hfirst
  obtain ⟨hj, rfl⟩ := List.getElem?_eq_some_iff.mp hsecond
  have := List.pairwise_iff_getElem.mp h.streams _ _ hj hi (by omega) b hb a ha hid.symm
  omega

/-- Events share a group exactly when they are of one commit. -/
theorem same_iff_home (h : Batches batches) (hsep : Separated batches) (ha : a ∈ batches.flatten)
    (hb : b ∈ batches.flatten) : (a = b ∨ SameCommit a b) ↔ home batches a = home batches b := by
  obtain ⟨first, hfirst, ha, hmem⟩ := at_home ha
  obtain ⟨second, hsecond, hb, -⟩ := at_home hb
  constructor
  · rintro (rfl | ⟨hid, hne⟩)
    · rfl
    · by_contra hhome
      have hdistinct := List.pairwise_iff_getElem.mp hsep.distinct
      obtain ⟨hi, rfl⟩ := List.getElem?_eq_some_iff.mp hfirst
      obtain ⟨hj, rfl⟩ := List.getElem?_eq_some_iff.mp hsecond
      rcases lt_or_gt_of_ne hhome with hlt | hgt
      · exact hne (hid.trans (hdistinct _ _ hi hj hlt a ha b hb hid))
      · exact hne (hdistinct _ _ hj hi hgt b hb a ha hid.symm)
  · intro hhome
    rw [← hhome, hfirst] at hsecond
    cases hsecond
    have hid := h.commitId first hmem a ha b hb
    by_cases hempty : a.metadata.commitId = ""
    · rw [hsep.single first hmem a ha hempty, List.mem_singleton] at hb
      exact .inl hb.symm
    · exact .inr ⟨hid, hempty⟩

theorem nodup (h : Batches batches) : batches.Nodup := by
  rw [List.nodup_iff_pairwise_ne]
  refine h.streams.imp_of_mem ?_
  rintro batch _ hbatch - hordered rfl
  obtain ⟨e, he⟩ := List.exists_mem_of_ne_nil _ (h.written batch hbatch)
  exact lt_irrefl _ (hordered e he e he rfl)

section Regrouping

variable {place : SerializedEvent → Nat} {n : Nat} {sorted : List SerializedEvent}

/-- With separate commits the group of an event is its commit. -/
theorem group_eq (h : Batches batches) (hsep : Separated batches) (hr : Regrouping sorted place n)
    (hsorted : sorted.Pairwise eventPrecedes) (hmem : ∀ e, e ∈ sorted ↔ e ∈ batches.flatten)
    {batch : List SerializedEvent} (hbatch : batch ∈ batches) (he : e ∈ batch) :
    (sorted.filter fun a => place a = place e) = batch := by
  obtain ⟨k, hk⟩ := List.mem_iff_getElem?.mp hbatch
  have hhome := h.home_eq hk he
  have hin : e ∈ batches.flatten := List.mem_flatten.mpr ⟨batch, hbatch, he⟩
  refine eq_of_precedes (hsorted.filter _) (h.ordered batch hbatch) fun a => ?_
  rw [List.mem_filter, decide_eq_true_eq]
  constructor
  · rintro ⟨ha, hplace⟩
    have ha' := (hmem a).mp ha
    have := (h.same_iff_home hsep ha' hin).mp ((hr.same a ha e ((hmem e).mpr hin)).mp hplace)
    obtain ⟨own, hown, hmem, -⟩ := at_home ha'
    rw [this, hhome, hk] at hown
    cases hown
    exact hmem
  · intro ha
    have hin' : a ∈ batches.flatten := List.mem_flatten.mpr ⟨batch, hbatch, ha⟩
    refine ⟨(hmem a).mpr hin', ?_⟩
    rw [hr.same a ((hmem a).mpr hin') e ((hmem e).mpr hin), h.same_iff_home hsep hin' hin,
      h.home_eq hk ha, hhome]

theorem groups_perm (h : Batches batches) (hsep : Separated batches)
    (hr : Regrouping sorted place n) (hsorted : sorted.Pairwise eventPrecedes)
    (hmem : ∀ e, e ∈ sorted ↔ e ∈ batches.flatten) {order : List Nat}
    (horder : order.Perm (List.range n)) :
    (order.map fun i => sorted.filter fun e => place e = i).Perm batches := by
  refine (horder.map _).trans ((List.perm_ext_iff_of_nodup ?_ h.nodup).mpr fun batch => ?_)
  · refine List.nodup_range.map_on fun i hi j _ hij => ?_
    obtain ⟨e, he, rfl⟩ := hr.used i (List.mem_range.mp hi)
    have : e ∈ sorted.filter fun a => place a = j := hij ▸ List.mem_filter.mpr ⟨he, by simp⟩
    simpa using (List.mem_filter.mp this).2
  · simp only [List.mem_map, List.mem_range]
    constructor
    · rintro ⟨i, hi, rfl⟩
      obtain ⟨e, he, rfl⟩ := hr.used i hi
      obtain ⟨batch, -, hin, hbatch⟩ := at_home ((hmem e).mp he)
      rw [h.group_eq hsep hr hsorted hmem hbatch hin]
      exact hbatch
    · intro hbatch
      obtain ⟨e, he⟩ := List.exists_mem_of_ne_nil _ (h.written batch hbatch)
      have hin := (hmem e).mpr (List.mem_flatten.mpr ⟨batch, hbatch, he⟩)
      exact ⟨place e, hr.bound e hin, h.group_eq hsep hr hsorted hmem hbatch he⟩

theorem rank_place (h : Batches batches) (hsep : Separated batches) (hr : Regrouping sorted place n)
    (hmem : ∀ e, e ∈ sorted ↔ e ∈ batches.flatten) (ha : a ∈ sorted) :
    batches.findIdx (fun batch => batch.any fun e => place e = place a) = home batches a := by
  obtain ⟨batch, hbatch, hin, -⟩ := at_home ((hmem a).mp ha)
  obtain ⟨hlt, rfl⟩ := List.getElem?_eq_some_iff.mp hbatch
  rw [List.findIdx_eq hlt]
  refine ⟨List.any_eq_true.mpr ⟨a, hin, by simp⟩, fun j hj => ?_⟩
  rw [List.any_eq_false]
  intro e he
  have hj' : j < batches.length := by omega
  have hin' : e ∈ batches.flatten := List.mem_flatten.mpr ⟨_, List.getElem_mem hj', he⟩
  simp only [decide_eq_true_eq]
  rw [hr.same e ((hmem e).mpr hin') a ha, h.same_iff_home hsep hin' ((hmem a).mp ha),
    h.home_eq (List.getElem?_eq_getElem hj') he]
  omega

end Regrouping

/-- Separate commits are regrouped as they were, in an order in which every stream goes
on the same way. -/
theorem regrouped (h : Batches batches) (hsep : Separated batches)
    (hevents : events.Perm batches.flatten) :
    ∃ batches' : List (List SerializedEvent), batches'.Perm batches ∧
      batches'.Pairwise StreamsOrdered ∧
      groupCommits events = .ok (batches'.map commitViewOf) := by
  obtain ⟨place, n, hr, hsucceeds, hviews⟩ := groupCommits_regrouping rfl (h.sorted hevents)
  have hsorted := h.sorted hevents
  have hmem : ∀ e, e ∈ events.insertionSort eventBefore ↔ e ∈ batches.flatten := fun e =>
    ((List.perm_insertionSort eventBefore events).trans hevents).mem_iff
  -- the place of a group's commit goes up along every stream
  obtain ⟨views, hok⟩ := hsucceeds <| Kahn.acyclic_of_rank
    (fun i => batches.findIdx fun batch => batch.any fun e => place e = i) <| by
      rintro _ _ ⟨a, b, ⟨ha, hb, hid, hlt, -⟩, hne, rfl, rfl⟩
      rw [h.rank_place hsep hr hmem ha, h.rank_place hsep hr hmem hb]
      refine lt_of_le_of_ne (h.home_le ((hmem a).mp ha) ((hmem b).mp hb) hid hlt) fun heq => hne ?_
      exact (hr.same a ha b hb).mpr
        ((h.same_iff_home hsep ((hmem a).mp ha) ((hmem b).mp hb)).mpr heq)
  obtain ⟨order, hperm, rfl, hstreams⟩ := hviews views hok
  refine ⟨_, h.groups_perm hsep hr hsorted hmem hperm,
    groups_ordered hsorted (hperm.nodup_iff.mpr List.nodup_range) hstreams, ?_⟩
  rw [hok, List.map_map]
  rfl

/-- Views of the commits themselves are possible only when the commits are separate. -/
theorem separated (h : Batches batches) (hevents : events.Perm batches.flatten)
    {views : List CommitView} (hok : groupCommits events = .ok views)
    (hviews : views.Perm (batches.map commitViewOf)) : Separated batches := by
  obtain ⟨place, n, hr, -, hgroups⟩ := groupCommits_regrouping rfl (h.sorted hevents)
  obtain ⟨order, -, rfl, -⟩ := hgroups views hok
  have hmem : ∀ e, e ∈ events.insertionSort eventBefore ↔ e ∈ batches.flatten := fun e =>
    ((List.perm_insertionSort eventBefore events).trans hevents).mem_iff
  -- a commit is one of the groups, and so are the events with a place of theirs in common
  have hgroup : ∀ batch ∈ batches, ∀ e ∈ batch, ∀ a ∈ batches.flatten,
      (a = e ∨ SameCommit a e) ↔ a ∈ batch := by
    intro batch hbatch e he a ha
    obtain ⟨i, -, hview⟩ := List.mem_map.mp (hviews.mem_iff.mpr (List.mem_map_of_mem hbatch))
    have hsame := events_commitViewOf batch
    rw [← hview, events_commitViewOf] at hsame
    have hin := (hmem e).mpr (List.mem_flatten.mpr ⟨batch, hbatch, he⟩)
    rw [← hsame, List.mem_filter, decide_eq_true_eq] at he ⊢
    rw [← hr.same a ((hmem a).mpr ha) e hin, he.2]
    exact ⟨fun hplace => ⟨(hmem a).mpr ha, hplace⟩, fun hplace => hplace.2⟩
  constructor
  · intro batch hbatch e he hempty
    have hall : ∀ a ∈ batch, a = e := by
      intro a ha
      rcases (hgroup batch hbatch e he a (List.mem_flatten.mpr ⟨batch, hbatch, ha⟩)).mpr ha with
        heq | ⟨hid, hne⟩
      · exact heq
      · exact absurd (hid.trans hempty) hne
    have hnodup := nodup_of_precedes (h.ordered batch hbatch)
    exact List.perm_singleton.mp ((List.perm_ext_iff_of_nodup hnodup (List.nodup_singleton e)).mpr
      fun a => ⟨fun ha => List.mem_singleton.mpr (hall a ha),
        fun ha => List.mem_singleton.mp ha ▸ he⟩)
  · refine h.streams.imp_of_mem ?_
    intro earlier later hearlier hlater hordered a ha e he hid
    by_contra hne
    have hin : a ∈ batches.flatten := List.mem_flatten.mpr ⟨earlier, hearlier, ha⟩
    have hboth := (hgroup later hlater e he a hin).mp (.inr ⟨hid, hid ▸ hne⟩)
    exact lt_irrefl _ (hordered a ha a hboth rfl)

end Batches

end EventStore
