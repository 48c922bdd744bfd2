import EventStore.Runs.Requests
import EventStore.Replay.Reproducing
import EventStore.Journal.Submitted

/-!
The owner of a view row. Every write to a row is conditioned on its owner; an application
projector's operations are owned by streams their commit writes and stay out of the engine's
partitions. The keys of a write are distinct, so its conditions may be evaluated before it or one
by one.
-/
namespace EventStore

open Result

/-- Applies the operations one after another, each on the rows the ones before it left. -/
def applySequentially (rows : OrdMap ViewKey ViewRow) :
    List ProjectedView → Except Error (OrdMap ViewKey ViewRow)
  | [] => .ok rows
  | view :: views => do
    checkViewConditions rows [view]
    applySequentially (applyView rows view) views

theorem checkViewConditions_cons (rows : OrdMap ViewKey ViewRow) (view : ProjectedView)
    (views : List ProjectedView) :
    checkViewConditions rows (view :: views) =
      (checkViewConditions rows [view] >>= fun _ => checkViewConditions rows views) := by
  unfold checkViewConditions
  cases h : viewHolds rows[view.op.key]? view.op <;> simp [h, bind, Except.bind]

variable {views : List ProjectedView} {rows : OrdMap ViewKey ViewRow}

theorem checkViewConditions_applyView {view : ProjectedView}
    (h : view.op.key ∉ views.map (·.op.key)) :
    checkViewConditions (applyView rows view) views = checkViewConditions rows views := by
  have hsame : ∀ other ∈ views, (applyView rows view)[other.op.key]? = rows[other.op.key]? := by
    intro other hother
    rw [get_applyView, if_neg]
    intro heq
    exact h (heq ▸ List.mem_map_of_mem hother)
  unfold checkViewConditions
  rw [List.find?_congr fun other hother => by rw [hsame other hother]]

/-- On distinct keys, checking as one goes is checking first and then applying. -/
theorem applySequentially_eq (h : (views.map (·.op.key)).Nodup) (rows : OrdMap ViewKey ViewRow) :
    applySequentially rows views =
      (checkViewConditions rows views).map fun _ => applyViews rows views := by
  induction views generalizing rows with
  | nil => rfl
  | cons view views ih =>
    rw [List.map_cons, List.nodup_cons] at h
    rw [applySequentially, ih h.2, checkViewConditions_applyView h.1,
      checkViewConditions_cons rows view views]
    cases checkViewConditions rows [view] <;> rfl

/-- An operation whose condition holds finds no row, or one of its owner. -/
theorem owner_of_viewHolds {stored : Option ViewRow} {op : ViewOperation}
    (h : viewHolds stored op = true) (row : ViewRow) (hrow : stored = some row) :
    row.entityId = op.owner := by
  subst hrow
  unfold viewHolds at h
  cases hcondition : op.condition <;> simp [hcondition] at h
  · exact h.1
  · exact h.1

theorem checkViewConditions_ok (h : checkViewConditions rows views = .ok ()) :
    ∀ view ∈ views, viewHolds rows[view.op.key]? view.op = true := by
  unfold checkViewConditions at h
  split at h
  · cases h
  · rename_i hnone
    simpa using List.find?_eq_none.mp hnone

section Projected

variable {projectors : List CommitProjector} {commit : CommitView} {items : List ProjectedView}

theorem checkEmitted_unreserved {projector : CommitProjector}
    (hengine : projector.engineMetadata = false)
    (h : checkEmitted projector commit items = .ok ()) :
    ∀ item ∈ items, reservedPartition item.op.pk = false := by
  induction items with
  | nil => simp
  | cons item items ih =>
    simp only [checkEmitted, hengine, Bool.false_eq_true, if_false, seq_eq_ok] at h
    rw [List.forall_mem_cons]
    refine ⟨?_, ih h.2.2⟩
    simpa [checkUnreserved, reservedPartition] using h.2.1

theorem projectEach_unreserved {numbered : List (CommitProjector × Nat)}
    (hengine : ∀ projector ∈ numbered, projector.1.engineMetadata = false)
    (h : projectEach commit numbered = .ok items) :
    ∀ item ∈ items, reservedPartition item.op.pk = false :=
  projectEach_checked h fun projector hprojector _ =>
    checkEmitted_unreserved (hengine projector hprojector)

/-- Projectors emit what streams of the commit own, outside the engine's partitions. -/
theorem projectApplication_owned (h : projectApplication projectors commit = .ok items) :
    ∀ item ∈ items, (∃ stream ∈ commit.streams, stream.entityId = item.op.owner) ∧
      reservedPartition item.op.pk = false := by
  intro item hitem
  refine ⟨projectCommit_owner (projectCommit_of_application h) item hitem, ?_⟩
  unfold projectApplication at h
  split at h
  · cases h
  · rename_i hnone
    have hengine : ∀ projector ∈ projectors, projector.engineMetadata = false := by
      simpa using List.find?_eq_none.mp hnone
    unfold projectCommit at h
    split at h
    · cases h
      cases hitem
    · simp only [projectWith, bind_eq_ok] at h
      obtain ⟨views, hviews, -, -, h⟩ := h
      cases h
      refine projectEach_unreserved ?_ hviews item hitem
      intro projector hprojector
      obtain ⟨-, hmem⟩ := List.mem_zipIdx' hprojector
      exact hengine _ (hmem ▸ List.getElem_mem _)

end Projected

namespace Request

/-- The request carries what an application's projectors made of the streams it writes. -/
structure Projects (own : List ProjectedView) (q : Request) : Prop where
  carried : ∀ view ∈ own, view ∈ q.write.views
  projected : ∃ projectors view, projectApplication projectors view = .ok own ∧
    ∀ stream ∈ view.streams, ∃ c ∈ q.write.writing, c.entityId = stream.entityId

theorem projects_nil (q : Request) : q.Projects [] :=
  ⟨by simp, [], ⟨"", []⟩, rfl, by simp⟩

variable {own : List ProjectedView} {q : Request}

theorem Projects.owned (h : q.Projects own) :
    ∀ view ∈ own, (∃ c ∈ q.write.writing, c.entityId = view.op.owner) ∧
      reservedPartition view.op.pk = false := by
  intro view hview
  obtain ⟨projectors, commit, hproject, hstreams⟩ := h.projected
  obtain ⟨⟨stream, hstream, howner⟩, hreserved⟩ := projectApplication_owned hproject view hview
  obtain ⟨c, hc, hid⟩ := hstreams stream hstream
  exact ⟨⟨c, hc, hid.trans howner⟩, hreserved⟩

/-- Every operation of a decided request is an application projector's. -/
theorem Decided.projects (h : q.Decided) : q.Projects q.write.views := by
  cases h with
  | bare entityId outcome => exact projects_nil _
  | fenced fences outcome => exact projects_nil _
  | @staged A config loaded loaded' events stamped commit hstage outcome =>
    simp only [StoreConfig.stage, bind_eq_ok] at hstage
    obtain ⟨serialized, -, operations, -, state, -, views, hviews, snapshot, -, hstage⟩ := hstage
    cases hstage
    rw [StoreConfig.projectStage_eq] at hviews
    by_cases hempty : serialized = []
    · subst hempty
      obtain rfl : views = [] := by
        have hcommit := projectCommit_of_application hviews
        rw [projectCommit, if_pos (by simp [CommitView.eventCount, CommitStream.new])] at hcommit
        exact (Except.ok.inj hcommit).symm
      exact projects_nil _
    · refine ⟨fun view hview => hview, _, _, hviews, ?_⟩
      simp only [List.mem_singleton, forall_eq]
      refine ⟨_, Write.mem_writing.mpr ⟨List.mem_singleton_self _, hempty⟩, rfl⟩
  | @built κ A config tx stamped commit hbuild outcome =>
    obtain ⟨hstreams, -, -, hviews⟩ := Transaction.build_ok hbuild
    have hwritten : ({ commit with outcome } : TransactionCommit Empty).written =
        tx.written.map (Transaction.streamCommit stamped) := by
      rw [TransactionCommit.written, List.filter_eq_self.mpr, hstreams]
      simp only [hstreams, List.forall_mem_map]
      intro stream hstream
      simp [Transaction.streamCommit, Transaction.stampedEvents,
        (Transaction.mem_written.mp hstream).2]
    have hcarried : ({ commit with outcome } : TransactionCommit Empty).normalized.views =
        commit.views := by
      simp only [TransactionCommit.normalized]
      rw [hwritten, List.flatMap_map]
      simp [Transaction.streamCommit]
    refine ⟨fun view hview => hview, config.commitProjectors,
      ⟨stamped.commitId, tx.written.map (Transaction.streamView stamped)⟩, ?_, ?_⟩
    · simp only [write, Write.ofTransaction, hcarried]
      exact hviews
    · simp only [List.forall_mem_map]
      intro stream hstream
      have hin : Transaction.streamCommit stamped stream ∈
          ({ commit with outcome } : TransactionCommit Empty).written := by
        rw [hwritten]
        exact List.mem_map_of_mem hstream
      refine ⟨{ Transaction.streamCommit stamped stream with operations := [], views := [] },
        Write.mem_writing.mpr ⟨?_, (TransactionCommit.mem_written.mp hin).2⟩, rfl⟩
      exact (List.perm_insertionSort _ _).mem_iff.mpr (List.mem_map_of_mem hin)

/-- Other events and further operations leave an application's operations as they are. -/
theorem Projects.extended (h : q.Projects own) {streams : List (Nat × List SerializedEvent)}
    (hne : ∀ entry ∈ streams, entry.2 ≠ []) (views : List ProjectedView) :
    ((q.withEvents streams).withViews views).Projects own := by
  have hevents : ∀ (i : Nat) (events : List SerializedEvent), events ≠ [] →
      (streams.lookup i).getD events ≠ [] := by
    intro i events hevents
    cases hlookup : streams.lookup i with
    | none => exact hevents
    | some found =>
      obtain ⟨before, after, rfl, -⟩ := List.lookup_eq_some_iff.mp hlookup
      exact hne (i, found) (by simp)
  have hcarried : (∀ view ∈ q.write.views,
        view ∈ ((q.withEvents streams).withViews views).write.views) ∧
      ∀ c ∈ q.write.writing, ∃ c' ∈ ((q.withEvents streams).withViews views).write.writing,
        c'.entityId = c.entityId := by
    cases q with
    | commit c =>
      refine ⟨fun view hview => List.mem_append_left _ hview, fun c' hc' => ?_⟩
      obtain ⟨hc', hwritten⟩ := Write.mem_writing.mp hc'
      obtain rfl := List.mem_singleton.mp hc'
      exact ⟨_, Write.mem_writing.mpr ⟨List.mem_singleton_self _, hevents 0 _ hwritten⟩, rfl⟩
    | transaction t =>
      -- A written stream is still written, with its own operations.
      have hkept : ∀ t', ((Request.transaction t).withEvents streams).withViews views =
          .transaction t' → ∀ c ∈ t.written, ∃ events, { c with events } ∈ t'.written := by
        rintro _ ⟨⟩ c hc
        obtain ⟨hin, hwritten⟩ := TransactionCommit.mem_written.mp hc
        obtain ⟨i, hi, rfl⟩ := List.mem_iff_getElem.mp hin
        refine ⟨_, TransactionCommit.mem_written.mpr ⟨List.mem_map.mpr
          ⟨(t.streams[i], i), ?_, rfl⟩, hevents i _ hwritten⟩⟩
        exact List.mem_zipIdx_iff_getElem?.mpr (by simp [hi])
      refine ⟨fun view hview => ?_, fun c' hc' => ?_⟩
      · simp only [write, Write.ofTransaction, TransactionCommit.normalized, withEvents,
          withViews, List.mem_append, List.mem_flatMap] at hview ⊢
        rcases hview with ⟨c, hc, hview⟩ | hview
        · obtain ⟨events, hc⟩ := hkept _ rfl c hc
          exact .inl ⟨_, hc, hview⟩
        · exact .inr (.inl hview)
      · obtain ⟨hc', -⟩ := Write.mem_writing.mp hc'
        obtain ⟨c, hc, rfl⟩ := TransactionCommit.mem_normalized_streams hc'
        obtain ⟨events, hkept⟩ := hkept _ rfl c hc
        refine ⟨{ c with events, operations := [], views := [] },
          Write.mem_writing.mpr ⟨?_, (TransactionCommit.mem_written.mp hkept).2⟩, rfl⟩
        exact (List.perm_insertionSort _ _).mem_iff.mpr (List.mem_map.mpr ⟨_, hkept, rfl⟩)
  obtain ⟨projectors, view, hproject, hstreams⟩ := h.projected
  refine ⟨fun view hview => hcarried.1 view (h.carried view hview), projectors, view, hproject, ?_⟩
  intro stream hstream
  obtain ⟨c, hc, hid⟩ := hstreams stream hstream
  obtain ⟨c', hc', hid'⟩ := hcarried.2 c hc
  exact ⟨c', hc', hid'.trans hid⟩

theorem Projects.journaled {q' : Request} (h : q.Projects own) {E : Env} {T : JournalText}
    {journal : Journal} (hq : q.JournaledAs E T journal q') : q'.Projects own := by
  obtain ⟨streams, views, rfl, hne⟩ := hq.extended
  exact h.extended hne views

end Request

/-- A commit call, a guarded rebuild write, or a call that leaves the rows alone. -/
inductive RowTurn where
  | commit (handle : Handle) (request : Request)
  | rebuild (now : Int) (lease : RebuildLease) (views : List ProjectedView)
  | other (stores : Stores)

namespace RowTurn

def applied (E : Env) (s : Stores) : RowTurn → List ProjectedView
  | .commit handle q => (History.appliedBy E q (q.run E (handle.over s)).1).flatMap (·.views)
  | .rebuild now lease views =>
    match s.writeRebuildViews now lease views with
    | .ok _ => views
    | .error _ => []
  | .other _ => []

def next (E : Env) (s : Stores) : RowTurn → Stores
  | .commit handle q => (q.run E (handle.over s)).2.stores
  | .rebuild now lease views =>
    match s.writeRebuildViews now lease views with
    | .ok s' => s'
    | .error _ => s
  | .other stores => { stores with views := s.views }

def run (E : Env) (s : Stores) (turns : List RowTurn) : Stores :=
  turns.foldl (fun s turn => turn.next E s) s

end RowTurn

/-- Operations at once or one by one leave the same rows, each overwritten by its owner only. -/
structure KeepsOwners (rows rows' : OrdMap ViewKey ViewRow) (views : List ProjectedView) :
    Prop where
  applied : rows' = applyViews rows views
  sequential : applySequentially rows views = .ok rows'
  owned : ∀ view ∈ views, ∀ row : ViewRow, rows[view.op.key]? = some row →
    row.entityId = view.op.owner
  touched : ∀ (key : ViewKey) (row : ViewRow), rows[key]? = some row → rows'[key]? ≠ some row →
    ∃ view ∈ views, view.op.key = key ∧ view.op.owner = row.entityId

theorem KeepsOwners.nothing (rows : OrdMap ViewKey ViewRow) : KeepsOwners rows rows [] :=
  ⟨rfl, rfl, by simp, fun _ _ hrow hne => absurd hrow hne⟩

theorem keepsOwners_of_accepted (hdistinct : (views.map (·.op.key)).Nodup)
    (h : checkViewConditions rows views = .ok ()) :
    KeepsOwners rows (applyViews rows views) views := by
  have howned : ∀ view ∈ views, ∀ row : ViewRow, rows[view.op.key]? = some row →
      row.entityId = view.op.owner := fun view hview =>
    owner_of_viewHolds (checkViewConditions_ok h view hview)
  refine ⟨rfl, by rw [applySequentially_eq hdistinct, h]; rfl, howned, ?_⟩
  intro key row hrow hchanged
  rw [get_applyViews_last] at hchanged
  split at hchanged
  · exact absurd hrow hchanged
  · rename_i view hlast
    obtain ⟨hview, hkey⟩ := List.mem_filter.mp (List.mem_of_getLast? hlast)
    rw [beq_iff_eq] at hkey
    exact ⟨view, hview, hkey, (howned view hview row (hkey ▸ hrow)).symm⟩

namespace RowTurn

/-- What a commit call applies: nothing, or the operations of the write it planned. -/
theorem commit_cases (E : Env) (s : Stores) (handle : Handle) (q : Request) :
    (applied E s (.commit handle q) = [] ∧ (next E s (.commit handle q)).views = s.views) ∨
    ∃ w, q.plan E = .ok (some w) ∧ applied E s (.commit handle q) = w.views ∧
      w.Accepted s ∧ (next E s (.commit handle q)).views = applyViews s.views w.views := by
  rcases History.submit_cases E s handle q with
    ⟨data, hnone, -⟩ | ⟨-, w, plan, accepted, data, hsome⟩
  · exact .inl ⟨by simp [applied, hnone], data.views⟩
  · exact .inr ⟨w, plan, by simp [applied, hsome], accepted, data.views⟩

theorem keepsOwners (E : Env) (s : Stores) (turn : RowTurn) :
    KeepsOwners s.views (turn.next E s).views (turn.applied E s) := by
  cases turn with
  | commit handle q =>
    rcases commit_cases E s handle q with ⟨hnone, hviews⟩ | ⟨w, hplan, happlied, haccepted, hviews⟩
    · rw [hnone, hviews]
      exact .nothing _
    · rw [happlied, hviews]
      refine keepsOwners_of_accepted (Request.plan_sound hplan).views.1 ?_
      have hnone : w.views.find? (fun view => !viewHolds s.views[view.op.key]? view.op) = none := by
        simpa using haccepted.views
      rw [checkViewConditions, hnone]
  | rebuild now lease views =>
    simp only [applied, next]
    cases hwrite : s.writeRebuildViews now lease views with
    | error error => exact .nothing _
    | ok s' =>
      simp only [Stores.writeRebuildViews, checkViewBatch, seq_eq_ok] at hwrite
      obtain ⟨-, ⟨-, hviews, -⟩, -, hconditions, hwrite⟩ := hwrite
      cases hwrite
      exact keepsOwners_of_accepted (checkViews_ok hviews).1 hconditions
  | other stores => exact .nothing _

end RowTurn

/-- A row is overwritten or deleted only by an operation of its owner, and what a store's request
applies is owned by the streams it writes. -/
theorem rows_keep_their_owner (E : Env) (s : Stores) (turns : List RowTurn) (turn : RowTurn) :
    KeepsOwners (RowTurn.run E s turns).views (turn.next E (RowTurn.run E s turns)).views
      (turn.applied E (RowTurn.run E s turns)) ∧
    (∀ (q : Request) (w : Write), q.plan E = .ok (some w) → ∀ rows : OrdMap ViewKey ViewRow,
      applySequentially rows w.views =
        (checkViewConditions rows w.views).map fun _ => applyViews rows w.views) ∧
    (∀ (handle : Handle) (q : Request) (own : List ProjectedView), turn = .commit handle q →
      q.Projects own →
      turn.applied E (RowTurn.run E s turns) = [] ∨
      ∃ w, q.plan E = .ok (some w) ∧ turn.applied E (RowTurn.run E s turns) = w.views ∧
        ∀ view ∈ own, view ∈ w.views ∧ reservedPartition view.op.pk = false ∧
          ∃ c ∈ w.streams, c.events ≠ [] ∧ c.entityId = view.op.owner) ∧
    (∀ {κ : Type} [DecidableEq κ] (A : κ → Aggregate) (kindOf : EntityId → κ)
      (x : Operation A kindOf),
      (x.program E).Asks fun a => ∀ q, a = .submit q → q.Projects q.write.views) ∧
    ∀ (T : CompactionText) (R : JournalRepository) (q : Request) (own : List ProjectedView),
      q.Projects own → (R.drive E T q).Asks (JournalAsk.Submits (Request.Projects own)) := by
  refine ⟨RowTurn.keepsOwners E _ turn, ?_, ?_, ?_, ?_⟩
  · intro q w hplan rows
    exact applySequentially_eq (Request.plan_sound hplan).views.1 rows
  · rintro handle q own rfl hown
    rcases RowTurn.commit_cases E (RowTurn.run E s turns) handle q with
      ⟨hnone, -⟩ | ⟨w, hplan, happlied, -, -⟩
    · exact .inl hnone
    · obtain rfl := Request.write_of_plan hplan
      refine .inr ⟨_, hplan, happlied, fun view hview => ?_⟩
      obtain ⟨⟨c, hc, hid⟩, hreserved⟩ := hown.owned view hview
      exact ⟨hown.carried view hview, hreserved, c, (Write.mem_writing.mp hc).1,
        (Write.mem_writing.mp hc).2, hid⟩
  · intro κ _ A kindOf x
    exact (x.decided E).mono fun a hdecided q hq => (hdecided q hq).projects
  · intro T R q own hown
    exact (R.submits_drive E T q).mono fun a hsubmits q' hq' => hown.journaled (hsubmits q' hq')

end EventStore
