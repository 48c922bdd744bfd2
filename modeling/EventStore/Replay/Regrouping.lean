import EventStore.Replay.Batches
import EventStore.Replay.Whole
import EventStore.Runs.PrefixLoads
import EventStore.Runs.Requests

/-!
Regrouping the events of a run. The commits come back exactly when each has a commit ID that no
event stored before it carries. A command ID is only looked for in one stream, since its latest
snapshot; a command that runs on two entities has its commits merged.
-/
namespace EventStore

open Result Program

def Write.view (w : Write) : CommitView :=
  ⟨(w.events.head?.map (·.metadata.commitId)).getD "",
    w.writing.map fun c =>
      ⟨c.entityId, (c.events.head?.map (·.entityType)).getD "", c.events, .empty⟩⟩

section Views

variable {entityId : EntityId} {entityType : EntityType} {events : List SerializedEvent}

theorem foldl_addToStream_last (front : List CommitStream) (stream : CommitStream)
    (h : ∀ e ∈ events, e.entityId = stream.entityId) :
    events.foldl addToStream (front ++ [stream]) =
      front ++ [{ stream with events := stream.events ++ events }] := by
  induction events generalizing stream with
  | nil => simp
  | cons event events ih =>
    rw [List.forall_mem_cons] at h
    have hadd : addToStream (front ++ [stream]) event =
        front ++ [{ stream with events := stream.events ++ [event] }] := by
      simp [addToStream, h.1]
    rw [List.foldl_cons, hadd]
    exact (ih { stream with events := stream.events ++ [event] } h.2).trans (by simp)

theorem foldl_addToStream (streams : List CommitStream) (hne : events ≠ [])
    (h : ∀ e ∈ events, e.entityId = entityId ∧ e.entityType = entityType)
    (hlast : ∀ stream, streams.getLast? = some stream → stream.entityId ≠ entityId) :
    events.foldl addToStream streams = streams ++ [⟨entityId, entityType, events, .empty⟩] := by
  cases events with
  | nil => exact absurd rfl hne
  | cons event events =>
    rw [List.forall_mem_cons] at h
    obtain ⟨⟨rfl, rfl⟩, hrest⟩ := h
    have hadd : addToStream streams event =
        streams ++ [⟨event.entityId, event.entityType, [event], .empty⟩] := by
      unfold addToStream
      cases hs : streams.getLast? with
      | none => simp [List.getLast?_eq_none_iff.mp hs]
      | some stream => simp [hlast stream hs]
    rw [List.foldl_cons, hadd, foldl_addToStream_last]
    · simp
    · exact fun e he => (hrest e he).1

end Views

namespace Write

variable {w : Write}

theorem events_writing (w : Write) : w.writing.flatMap (·.events) = w.events := by
  unfold writing Write.events
  induction w.streams with
  | nil => rfl
  | cons c streams ih =>
    rw [List.filter_cons]
    split
    · rw [List.flatMap_cons, List.flatMap_cons, ih]
    · rename_i hnil
      simp only [Bool.not_eq_true', Bool.not_eq_false, List.isEmpty_iff] at hnil
      rw [List.flatMap_cons, hnil, ih]
      rfl

theorem mem_writing {c : Commit Empty} : c ∈ w.writing ↔ c ∈ w.streams ∧ c.events ≠ [] := by
  simp [writing, List.mem_filter]

theorem commitViewOf_events (h : w.Sound) : commitViewOf w.events = w.view := by
  have hsorted : w.writing.Pairwise fun a b => a.entityId < b.entityId := h.sorted.filter _
  have hwriting : ∀ c ∈ w.writing, c.Valid ∧ c.events ≠ [] := fun c hc =>
    ⟨h.valid c (mem_writing.mp hc).1, (mem_writing.mp hc).2⟩
  rw [commitViewOf, view]
  congr 1
  rw [← events_writing]
  generalize w.writing = writing at hsorted hwriting ⊢
  suffices hall : ∀ streams : List CommitStream,
      (∀ stream, streams.getLast? = some stream → ∀ c ∈ writing, stream.entityId ≠ c.entityId) →
      (writing.flatMap (·.events)).foldl addToStream streams =
        streams ++ writing.map fun c => (⟨c.entityId,
          (c.events.head?.map (·.entityType)).getD "", c.events, .empty⟩ : CommitStream) by
    simpa using hall [] (by simp)
  induction writing with
  | nil => simp
  | cons c writing ih =>
    intro streams hlast
    obtain ⟨hlt, hsorted⟩ := List.pairwise_cons.mp hsorted
    rw [List.forall_mem_cons] at hwriting
    obtain ⟨⟨hvalid, hne⟩, hrest⟩ := hwriting
    obtain ⟨first, hfirst⟩ : ∃ first, c.events.head? = some first :=
      ⟨_, List.head?_eq_some_head hne⟩
    rw [List.flatMap_cons, List.foldl_append, foldl_addToStream streams hne
      (fun e he => ⟨(hvalid.identity e he).1, hvalid.entityType first hfirst e he⟩)
      (fun stream hs => hlast stream hs c (by simp)), ih hsorted hrest]
    · simp [hfirst]
    · intro stream hs d hd
      rw [List.getLast?_append_of_ne_nil _ (by simp)] at hs
      cases hs
      exact (hlt d hd).ne

theorem ordered_events (h : w.Sound) : w.events.Pairwise eventPrecedes := by
  rw [Write.events, List.flatMap, List.pairwise_flatten]
  constructor
  · intro events hevents
    obtain ⟨c, hc, rfl⟩ := List.mem_map.mp hevents
    have hvalid := h.valid c hc
    cases hfirst : c.events.head? with
    | none => rw [List.head?_eq_none_iff.mp hfirst]; exact .nil
    | some first =>
      refine (Consecutive.ordered (hvalid.consecutive first hfirst)).imp_of_mem ?_
      intro a b ha hb hlt
      exact .inr ⟨(hvalid.identity a ha).1.trans (hvalid.identity b hb).1.symm, hlt⟩
  · rw [List.pairwise_map]
    refine h.sorted.imp_of_mem ?_
    intro c d hc hd hlt a ha b hb
    rw [← ((h.valid c hc).identity a ha).1, ← ((h.valid d hd).identity b hb).1] at hlt
    exact .inl hlt

end Write

def Request.Uniform (q : Request) : Prop :=
  ∀ a ∈ q.write.events, ∀ b ∈ q.write.events, a.metadata.commitId = b.metadata.commitId

variable {ι : Type}

/-- The commit's ID is new and not empty, or it has none and a single event. -/
def Applied.OwnId (entry : Applied ι) (before : List (Applied ι)) : Prop :=
  ∀ e ∈ entry.write.events,
    (e.metadata.commitId = "" → entry.write.events = [e]) ∧
    ∀ earlier ∈ before, ∀ a ∈ earlier.write.events,
      a.metadata.commitId = e.metadata.commitId → e.metadata.commitId = ""

namespace World

variable {w : World ι}

def batches (w : World ι) : List (List SerializedEvent) :=
  (w.applied.map (·.write.events)).filter fun events => !events.isEmpty

theorem mem_batches {batch : List SerializedEvent} :
    batch ∈ w.batches ↔ (∃ entry ∈ w.applied, entry.write.events = batch) ∧ batch ≠ [] := by
  simp [batches, List.mem_filter]

theorem flatten_batches (w : World ι) :
    w.batches.flatten = w.applied.flatMap (·.write.events) := by
  unfold batches
  induction w.applied with
  | nil => rfl
  | cons entry applied ih =>
    rw [List.map_cons, List.filter_cons, List.flatMap_cons, ← ih]
    split
    · rw [List.flatten_cons]
    · rename_i hnil
      simp only [Bool.not_eq_true', Bool.not_eq_false, List.isEmpty_iff] at hnil
      rw [hnil, List.nil_append]

/-- A stream goes on from one commit to the next. -/
theorem Whole.streams_ordered (h : w.Whole) :
    w.applied.Pairwise fun a b => StreamsOrdered a.write.events b.write.events := by
  have hwritten : w.history.written.Pairwise fun a b =>
      a.entityId = b.entityId → a.sequence < b.sequence := by
    rw [List.pairwise_iff_getElem]
    intro i j hi hj hij hid
    have hlog := Consecutive.ordered (h.sound w.history.written[i].entityId).numbered
    rw [History.log, List.pairwise_filter, List.pairwise_iff_getElem] at hlog
    exact hlog i j hi hj hij (by simp) (by simp [hid])
  rw [History.written, history, List.flatMap_map, List.flatMap, List.pairwise_flatten,
    List.pairwise_map] at hwritten
  exact hwritten.2

theorem Whole.batches (h : w.Whole) (huniform : ∀ entry ∈ w.applied, entry.request.Uniform) :
    Batches w.batches := by
  refine ⟨?_, fun batch hbatch => (mem_batches.mp hbatch).2, ?_, ?_⟩
  · intro batch hbatch
    obtain ⟨⟨entry, hentry, rfl⟩, -⟩ := mem_batches.mp hbatch
    exact Write.ordered_events (h.writes entry hentry).1
  · intro batch hbatch
    obtain ⟨⟨entry, hentry, rfl⟩, -⟩ := mem_batches.mp hbatch
    have := huniform entry hentry
    rwa [Request.Uniform, ← (h.writes entry hentry).2] at this
  · exact (List.pairwise_map.mpr h.streams_ordered).filter _

/-- The views of the batches are those of the commits that wrote events. -/
theorem Whole.map_batches (h : w.Whole) :
    w.batches.map commitViewOf =
      (w.applied.filter fun entry => !entry.write.events.isEmpty).map (·.write.view) := by
  rw [World.batches, List.filter_map, List.map_map]
  refine List.map_congr_left fun entry hentry => ?_
  exact Write.commitViewOf_events (h.writes entry (List.mem_of_mem_filter hentry)).1

theorem separated_batches : Separated w.batches ↔
    ∀ (k : Nat) (entry : Applied ι), w.applied[k]? = some entry →
      entry.OwnId (w.applied.take k) := by
  constructor
  · intro hsep k entry hk e he
    have hentry := List.mem_of_getElem? hk
    refine ⟨hsep.single _ (mem_batches.mpr ⟨⟨entry, hentry, rfl⟩, List.ne_nil_of_mem he⟩) e he, ?_⟩
    intro earlier hearlier a ha hid
    obtain ⟨j, hj, heq⟩ := List.mem_take_iff_getElem.mp hearlier
    obtain ⟨hlt, hget⟩ := List.getElem?_eq_some_iff.mp hk
    have hdistinct := hsep.distinct
    rw [World.batches, List.pairwise_filter, List.pairwise_map] at hdistinct
    have := List.pairwise_iff_getElem.mp hdistinct j k (by omega) hlt (by omega)
    rw [heq, hget] at this
    exact this (by simpa using List.ne_nil_of_mem ha) (by simpa using List.ne_nil_of_mem he)
      a ha e he hid
  · intro hown
    constructor
    · intro batch hbatch e he
      obtain ⟨⟨entry, hentry, rfl⟩, -⟩ := mem_batches.mp hbatch
      obtain ⟨k, hk⟩ := List.mem_iff_getElem?.mp hentry
      exact (hown k entry hk e he).1
    · rw [World.batches, List.pairwise_filter, List.pairwise_map, List.pairwise_iff_getElem]
      intro j k hj hk hlt _ _ a ha e he hid
      refine (hown k _ (List.getElem?_eq_getElem hk) e he).2 w.applied[j] ?_ a ha hid
      exact List.mem_take_iff_getElem.mpr ⟨j, by omega, rfl⟩

end World

section Programs

variable {κ : Type} {A : κ → Aggregate} {kindOf : EntityId → κ}

/-- A call that compacts nothing, and commits events of one commit ID only. -/
def Ask.Regroups (a : Ask) : Prop := a.compacts = false ∧ ∀ q, a = .submit q → q.Uniform

theorem Ask.regroups_of_quiet {a : Ask} (h : a.quiet = true) : a.Regroups := by
  refine ⟨?_, fun q hq => absurd hq (ne_submit_of_quiet h q)⟩
  cases a <;> first | rfl | cases h

theorem Ask.regroups_of_ofLoad {a : Ask} (h : a.ofLoad = true) : a.Regroups := by
  refine ⟨?_, fun q hq => absurd hq (ne_submit_of_ofLoad h q)⟩
  cases a <;> first | rfl | cases h

theorem StoreConfig.stage_metadata {A : Aggregate} {config : StoreConfig A}
    {loaded loaded' : Loaded A} {events : List A.Event} {stamped : Metadata}
    {commit : Commit Empty} (h : config.stage loaded events stamped = .ok (loaded', commit)) :
    ∀ event ∈ commit.events, event.metadata = stamped := by
  simp only [StoreConfig.stage, bind_eq_ok] at h
  obtain ⟨serialized, hserialized, operations, -, state, -, views, -, snapshot, -, h⟩ := h
  cases h
  exact fun event hevent => ((serializeEvents_fields hserialized).2.2 event hevent).2.2

theorem Request.uniform_of_stamped {q : Request} (stamped : Metadata)
    (h : ∀ event ∈ q.write.events, event.metadata = stamped) : q.Uniform := by
  intro a ha b hb
  rw [h a ha, h b hb]

/-- A decided request carries one commit ID on all its streams. -/
theorem Request.Decided.uniform {q : Request} (h : q.Decided) : q.Uniform := by
  cases h with
  | @staged _ _ _ _ _ stamped _ hstage outcome =>
    refine uniform_of_stamped stamped ?_
    simpa [Request.write, Write.ofCommit, Write.events] using
      StoreConfig.stage_metadata hstage
  | @built _ _ _ tx stamped commit hbuild outcome =>
    refine uniform_of_stamped stamped fun event hevent => ?_
    obtain ⟨c, hc, hevent⟩ := List.mem_flatMap.mp hevent
    obtain ⟨stream, hstream, rfl⟩ := TransactionCommit.mem_normalized_streams hc
    have hin := (TransactionCommit.mem_written.mp hstream).1
    simp only [(Transaction.build_ok hbuild).1] at hin
    obtain ⟨s, -, rfl⟩ := List.mem_map.mp hin
    obtain ⟨staged, -, rfl⟩ := List.mem_map.mp hevent
    rfl
  | bare entityId outcome => exact fun a ha => absurd ha List.not_mem_nil
  | fenced fences outcome => exact fun a ha => absurd ha List.not_mem_nil

/-- The plain operations: no outcome is recorded and nothing is compacted. -/
def Operation.Plain : Operation A kindOf → Prop
  | .load _ _ | .session _ _ _ | .execute _ _ _ _ | .transact _ _ _ => True
  | _ => False

theorem Operation.Plain.regroups [DecidableEq κ] (E : Env) {x : Operation A kindOf}
    (h : x.Plain) : (x.program E).Asks Ask.Regroups := by
  refine (composed_asks (fun _ => Ask.regroups_of_quiet)
    (fun _ => Ask.regroups_of_ofLoad) ?_).operation
    E x ?_
  · refine fun q hq => ⟨rfl, ?_⟩
    rintro _ ⟨⟩
    exact hq.uniform
  · rintro entityId through rfl
    cases h

end Programs

namespace World

/-- Every event is still stored, and commits are of one commit ID each. -/
structure Regroups (w : World ι) : Prop where
  whole : w.Whole
  applied : ∀ entry ∈ w.applied, entry.request.Uniform
  inFlight : ∀ f ∈ w.inFlight, f.request.Uniform

variable {E : Env} {w w' : World ι}

theorem Regroups.acts [DecidableEq ι] {i : ι} {a : Ask} {answer : Answer a} (ha : a.Regroups)
    (h : w.Regroups) (hact : Acts E i w a answer w') : w'.Regroups := by
  refine ⟨h.whole.acts ha.1 hact, hact.effect.forall_mem ?_ h.applied, fun f hf => ?_⟩
  · rintro entry ⟨⟨-, -, hq⟩, -⟩
    exact ha.2 entry.request hq
  · rcases hact.inFlight f hf with hf | ⟨-, -, hq⟩
    · exact h.inFlight f hf
    · exact ha.2 f.request hq

theorem Regroups.undisturbed (h : w.Regroups) (hmove : Undisturbed E w w') : w'.Regroups := by
  refine ⟨h.whole.undisturbed hmove, hmove.moves.effect.forall_mem ?_ h.applied,
    fun f hf => h.inFlight f (hmove.moves.inFlight f hf)⟩
  rintro entry ⟨⟨f, hf, -, -, hq⟩ | ⟨-, hnone⟩, -⟩
  · exact hq ▸ h.inFlight f hf
  · exact hnone.elim

end World

section Runs

open World

variable {κ : Type} {A : κ → Aggregate} {kindOf : EntityId → κ} [DecidableEq ι] [DecidableEq κ]

/-- Regrouping gives one view for each commit, with exactly its events, if and only if every commit
came with an ID of its own. -/
theorem commits_regrouped (E : Env) (x : ι → Operation A kindOf) (hplain : ∀ i, (x i).Plain)
    (w : World ι)
    (threads : ι → Program (Option ((entityId : EntityId) × Loaded (A (kindOf entityId)))))
    (hreach : Pool.Reaches (Acts E) (Undisturbed E)
      (World.start .empty, fun i => (x i).program E) (w, threads))
    (events : List SerializedEvent) (hevents : events.Perm w.stores.allEvents) :
    (∃ views, groupCommits events = .ok views ∧
      views.Perm ((w.applied.filter fun entry => !entry.write.events.isEmpty).map
        (·.write.view))) ↔
    ∀ (k : Nat) (entry : Applied ι), w.applied[k]? = some entry →
      entry.OwnId (w.applied.take k) := by
  obtain ⟨hw, -⟩ := Pool.invariant_of_asks (J := World.Regroups)
    (fun i s a answer s' ha hs hact => hs.acts ha hact)
    (fun s s' hs hmove => hs.undisturbed hmove) hreach (fun i => (hplain i).regroups E)
    ⟨whole_start, fun _ h => (nomatch h), fun _ h => (nomatch h)⟩
  have hbatches := hw.whole.batches hw.applied
  have hperm : events.Perm w.batches.flatten := by
    rw [flatten_batches]
    exact hevents.trans hw.whole.allEvents_perm
  rw [← separated_batches, ← hw.whole.map_batches]
  constructor
  · rintro ⟨views, hok, hviews⟩
    exact hbatches.separated hperm hok hviews
  · intro hsep
    obtain ⟨batches', hperm', -, hok⟩ := hbatches.regrouped hsep hperm
    exact ⟨_, hok, hperm'.map _⟩

end Runs

def counter.plain : StoreConfig counter := { counter.store with outcomes := none }

def twoCommands (first second : CommandId) : Fin 2 → Operation counters onlyKind
  | 0 => .execute "a" counter.plain (0 : Nat) { commandId := some first }
  | 1 => .execute "b" counter.plain (0 : Nat) { commandId := some second }

theorem plain_twoCommands (first second : CommandId) (i : Fin 2) :
    (twoCommands first second i).Plain := by
  unfold twoCommands
  split <;> trivial

def commanded (first second : CommandId) :
    World (Fin 2) × (Fin 2 → Program (Option ((entityId : EntityId) ×
      Loaded (counters (onlyKind entityId))))) :=
  World.turns Env.plain
    (World.start .empty, fun i => (twoCommands first second i).program Env.plain)
    (List.replicate 5 0 ++ List.replicate 5 1)

/-- Two commits under different command IDs are told apart. -/
theorem commits_regrouped_of_two : let w := (commanded "k" "l").1
    w.applied.length = 2 ∧ ∀ (k : Nat) (entry : Applied (Fin 2)), w.applied[k]? = some entry →
      entry.OwnId (w.applied.take k) :=
  ⟨by decide +kernel, (commits_regrouped Env.plain (twoCommands "k" "l") (plain_twoCommands _ _) _ _
    (World.reaches_turns Env.plain _ _ _) _ (.refl _)).mp ⟨_, rfl, .refl _⟩⟩

/-- One command ID on two entities: a single view has the events of both. -/
theorem reused_command_merged : let c := commanded "k" "k"
    Pool.Reaches (World.Acts Env.plain) (World.Undisturbed Env.plain)
      (World.start .empty, fun i => (twoCommands "k" "k" i).program Env.plain) c ∧
    c.1.applied.length = 2 ∧
    ∃ view, groupCommits c.1.stores.allEvents = .ok [view] ∧
      view.streams.map (fun stream => (stream.entityId, stream.events.length)) =
        [("a", 1), ("b", 1)] :=
  ⟨World.reaches_turns Env.plain _ _ _, by decide +kernel, _, rfl, by decide +kernel⟩

end EventStore
