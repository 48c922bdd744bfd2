import EventStore.Core.DynamoStreams
import Mathlib.Logic.Relation

/-!
The head item of a stream with retention outlives the stream's items: commits raise its `ttl`, and
out-of-band snapshot writes refresh it or have read a large enough one, which is a lower bound
ever after.
-/
namespace EventStore.DynamoStream

structure World where
  items : Items := {}
  writes : Nat → Option SnapshotWrite := fun _ => none

def World.set (w : World) (n : Nat) (write : Option SnapshotWrite) : World :=
  { w with writes := fun m => if m = n then write else w.writes m }

/-- One request: a commit of a writer, or a part of a snapshot write, which may end at any time. -/
inductive Step : World → World → Prop
  | commits {w : World} {items : Items} (c : Commit) (now : Int) (retention : Nat)
      (httl : c.ttl = expiry now retention) (h : w.items.commit c = some items) :
      Step w { w with items }
  | begins {w : World} (n : Nat) (item : SnapshotItem) (now : Int) (retention : Nat)
      (httl : item.ttl = expiry now retention) (h : w.writes n = none) :
      Step w (w.set n (some ⟨item, true, 0, false⟩))
  | puts {w : World} {n : Nat} {write : SnapshotWrite} {items : Items}
      (hw : w.writes n = some write) (hsends : write.reading = false)
      (h : w.items.putSnapshot write.guard write.item = some items) :
      Step w { w.set n none with items }
  | fails {w : World} {n : Nat} {write : SnapshotWrite} (hw : w.writes n = some write)
      (hsends : write.reading = false) (h : write.guard.passes w.items.head = false) :
      Step w (w.set n write.afterFailure)
  | reads {w : World} {n : Nat} {write : SnapshotWrite} (hw : w.writes n = some write)
      (hreads : write.reading = true) : Step w (w.set n (write.afterRead w.items.head))
  | ends {w : World} (n : Nat) : Step w (w.set n none)

section Ttls

def Covered (head : Option HeadItem) (ttl : Option Int) : Prop :=
  ∀ t ∈ ttl, ∃ h ∈ head.bind (·.ttl), t ≤ h

def Risen (head head' : Option HeadItem) : Prop := Covered head' (head.bind (·.ttl))

variable {head head' : Option HeadItem} {ttl : Option Int}

theorem covered_none : Covered head none := fun _ h => by cases h

theorem Covered.risen (h : Covered head ttl) (hrisen : Risen head head') : Covered head' ttl := by
  intro t ht
  obtain ⟨u, hu, htu⟩ := h t ht
  obtain ⟨v, hv, huv⟩ := hrisen u hu
  exact ⟨v, hv, htu.trans huv⟩

theorem Covered.itemTtl (h : Covered head ttl) : Covered head (itemTtl ttl) :=
  fun t ht => h t (Option.mem_filter_iff.mp ht).1

theorem Risen.refl (head : Option HeadItem) : Risen head head := fun t ht => ⟨t, ht, le_rfl⟩

theorem HeadAction.risen {action : HeadAction} (h : action.passes head = true) :
    Risen head (action.apply head) := by
  cases head with
  | none => exact covered_none
  | some item =>
    intro t ht
    cases action with
    | update first last ttl =>
      cases ttl with
      | none => exact ⟨t, by simpa [apply] using ht, le_rfl⟩
      | some own =>
        simp_all [passes, apply, notAbove]
    | refresh new own => simp_all [passes, apply, notAbove]
    | cover new => exact ⟨t, ht, le_rfl⟩

theorem Commit.covered (c : Commit) : Covered (c.headUpdate.apply head) c.ttl := by
  intro own hown
  have hhead : c.headTtl = some (if c.first ≤ 1 then own else max own (c.loaded.getD own)) := by
    rw [headTtl, Option.mem_def.mp hown, Option.map_some]
  refine ⟨if c.first ≤ 1 then own else max own (c.loaded.getD own), ?_, ?_⟩
  · simp [headUpdate, HeadAction.apply, hhead]
  · split
    · exact le_rfl
    · exact le_max_left _ _

/-- A snapshot put under a refreshing guard has the head item's `ttl`. -/
theorem HeadAction.covered_of_snapshotGuard {new : Int} (hnew : 0 < new) {item : HeadItem} :
    Covered ((snapshotGuard new ttl).apply (some item)) ttl := by
  cases ttl with
  | none => exact covered_none
  | some t => simp [snapshotGuard, hnew, apply, Covered]

end Ttls

section Runs

/-- Items expire no later than the head item, and plain checks are of writes it covers. -/
structure Outlived (w : World) : Prop where
  events : ∀ event ∈ w.items.events, Covered w.items.head event.ttl
  snapshot : ∀ item ∈ w.items.snapshot, 0 < item.eventSeq → Covered w.items.head item.ttl
  writes : ∀ n, ∀ write ∈ w.writes n, write.refreshing = false → Covered w.items.head write.item.ttl

variable {w : World}

theorem Outlived.set (hw : Outlived w) {n : Nat} {write : Option SnapshotWrite}
    (h : ∀ x ∈ write, x.refreshing = false → Covered w.items.head x.item.ttl) :
    Outlived (w.set n write) := by
  refine ⟨hw.events, hw.snapshot, fun m x hx => ?_⟩
  simp only [World.set] at hx
  split at hx
  · exact h x hx
  · exact hw.writes m x hx

variable {items : Items}

theorem Outlived.risen (hw : Outlived w) (hrisen : Risen w.items.head items.head)
    (hevents : ∀ event ∈ items.events, event ∈ w.items.events ∨ Covered items.head event.ttl)
    (hsnapshot : ∀ item ∈ items.snapshot, item ∈ w.items.snapshot ∨
      (0 < item.eventSeq → Covered items.head item.ttl)) :
    Outlived { w with items } where
  events event hevent := (hevents event hevent).elim
    (fun hold => (hw.events event hold).risen hrisen) id
  snapshot item hitem := (hsnapshot item hitem).elim
    (fun hold hpos => (hw.snapshot item hold hpos).risen hrisen) id
  writes n write hwrite hplain := (hw.writes n write hwrite hplain).risen hrisen

theorem SnapshotWrite.retry_eq {write next : SnapshotWrite} {refreshing : Bool}
    (h : next ∈ write.retry refreshing) :
    next.item = write.item ∧ next.refreshing = refreshing := by
  unfold retry at h
  split at h
  · cases h
  · cases h
    exact ⟨rfl, rfl⟩

theorem covered_of_cover {stored : Option HeadItem} {snapshot : Int} {ttl : Option Int}
    (h : snapshotGuardRetry stored snapshot ttl = .cover) : Covered stored ttl := by
  cases stored with
  | none => cases h
  | some item =>
    intro t ht
    rw [Option.mem_def] at ht
    subst ht
    simp only [snapshotGuardRetry, Option.any_some] at h
    split at h
    · cases h
    · split at h
      · cases h
      · rename_i hnot
        cases hitem : item.ttl with
        | none => simp [hitem] at hnot
        | some stored => exact ⟨stored, by simp [hitem], by simpa [hitem] using hnot⟩

theorem Outlived.commits (hw : Outlived w) {c : Commit} (h : w.items.commit c = some items) :
    Outlived { w with items } ∧ Risen w.items.head items.head := by
  unfold Items.commit at h
  split at h
  · rename_i hpasses
    simp only [Bool.and_eq_true] at hpasses
    have hrisen := HeadAction.risen hpasses.1.1
    have hcovered : Covered (c.headUpdate.apply w.items.head) (itemTtl c.ttl) := c.covered.itemTtl
    cases h
    refine ⟨hw.risen hrisen (fun event hevent => ?_) (fun item hitem => ?_), hrisen⟩
    · rcases List.mem_append.mp hevent with hold | hnew
      · exact .inl hold
      · obtain ⟨n, -, rfl⟩ := List.mem_map.mp hnew
        exact .inr hcovered
    · cases hsnapshot : c.snapshot with
      | none => exact .inl (by simpa [hsnapshot] using hitem)
      | some sequence =>
        simp only [hsnapshot, Option.map_some, Option.some_or] at hitem
        cases hitem
        exact .inr fun _ => hcovered
  · cases h

theorem Outlived.puts (hw : Outlived w) {n : Nat} {write : SnapshotWrite}
    (hwrite : w.writes n = some write)
    (h : w.items.putSnapshot write.guard write.item = some items) :
    Outlived { w.set n none with items } ∧ Risen w.items.head items.head := by
  unfold Items.putSnapshot at h
  split at h
  · rename_i hpasses
    simp only [Bool.and_eq_true] at hpasses
    have hrisen := HeadAction.risen hpasses.1
    have hcovered : 0 < write.item.eventSeq →
        Covered (write.guard.apply w.items.head) write.item.ttl := by
      intro hpos
      cases hrefreshing : write.refreshing with
      | false => exact (hw.writes n write hwrite hrefreshing).risen hrisen
      | true =>
        have hguard : write.guard = .snapshotGuard write.item.eventSeq write.item.ttl := by
          rw [SnapshotWrite.guard, if_pos hrefreshing]
        rw [hguard] at hpasses ⊢
        cases hhead : w.items.head with
        | none =>
          -- no guard of a snapshot that covers events passes without a head item
          rw [hhead] at hpasses
          cases httl : write.item.ttl <;>
            simp [httl, HeadAction.snapshotGuard, HeadAction.passes, hpos] at hpasses
        | some item => exact HeadAction.covered_of_snapshotGuard hpos
    cases h
    refine ⟨(hw.set fun _ hx => (by cases hx)).risen hrisen (fun _ hold => .inl hold) ?_, hrisen⟩
    intro item hitem
    cases hitem
    exact .inr fun hpos => (hcovered hpos).itemTtl
  · cases h

theorem Step.outlived {w' : World} (h : Step w w') (hw : Outlived w) :
    Outlived w' ∧ Risen w.items.head w'.items.head := by
  cases h with
  | commits c _ _ _ hcommit => exact hw.commits hcommit
  | begins n item => exact ⟨hw.set fun x hx hplain => (by cases hx; cases hplain), .refl _⟩
  | puts hwrite _ hput => exact hw.puts hwrite hput
  | @fails n write hwrite =>
    refine ⟨hw.set fun x hx => ?_, .refl _⟩
    unfold SnapshotWrite.afterFailure at hx
    split at hx
    · cases hx
      exact hw.writes n write hwrite
    · cases hx
  | @reads n write hwrite =>
    refine ⟨hw.set fun x hx hplain => ?_, .refl _⟩
    unfold SnapshotWrite.afterRead at hx
    split at hx
    · rw [(SnapshotWrite.retry_eq hx).2] at hplain
      cases hplain
    · rename_i hcover
      rw [(SnapshotWrite.retry_eq hx).1]
      exact covered_of_cover hcover
    · cases hx
  | ends n => exact ⟨hw.set fun _ hx => (by cases hx), .refl _⟩

/-- The head item's `ttl` is at least that of every event and snapshot, and never falls. -/
theorem head_outlives_items {w w' : World} (hw : Relation.ReflTransGen Step {} w)
    (h : Relation.ReflTransGen Step w w') :
    (∀ event ∈ w'.items.events, Covered w'.items.head event.ttl) ∧
      (∀ item ∈ w'.items.snapshot, 0 < item.eventSeq → Covered w'.items.head item.ttl) ∧
      Risen w.items.head w'.items.head := by
  have hstart : Outlived {} := ⟨fun _ h => absurd h List.not_mem_nil, fun _ h => (by cases h),
    fun _ _ h => (by cases h)⟩
  have hkept : ∀ {a b : World}, Relation.ReflTransGen Step a b → Outlived a →
      Outlived b ∧ Risen a.items.head b.items.head := by
    intro a b hab ha
    induction hab with
    | refl => exact ⟨ha, .refl _⟩
    | tail _ hstep ih =>
      obtain ⟨hb, hrisen⟩ := hstep.outlived ih.1
      exact ⟨hb, ih.2.risen hrisen⟩
  obtain ⟨hlast, hrisen⟩ := hkept h (hkept hw hstart).1
  exact ⟨hlast.events, hlast.snapshot, hrisen⟩

/-- A second writer with a slower clock and a shorter retention, which remembers the first one's
`ttl`. -/
theorem head_outlives_items_of_two :
    ∃ w : World, (w.items.head = some ⟨2, some 1000003600⟩ ∧
        w.items.events = [⟨1, some 1000003600⟩, ⟨2, some 999999060⟩]) ∧
      ∀ event ∈ w.items.events, Covered w.items.head event.ttl := by
  have hfirst : Step {} { items :=
      { head := some ⟨1, some 1000003600⟩, events := [⟨1, some 1000003600⟩] } } :=
    .commits ⟨1, 1, by decide, none, some 1000003600, none⟩ 1000000000000000000 3600000000000
      (by decide) (by decide)
  have hsecond : Step { items :=
      { head := some ⟨1, some 1000003600⟩, events := [⟨1, some 1000003600⟩] } } { items :=
      { head := some ⟨2, some 1000003600⟩,
        events := [⟨1, some 1000003600⟩, ⟨2, some 999999060⟩] } } :=
    .commits ⟨2, 2, by decide, none, some 999999060, some 1000003600⟩ 999999000000000000 60000000000
      (by decide) (by decide)
  exact ⟨_, ⟨rfl, rfl⟩, (head_outlives_items (.single hfirst) (.single hsecond)).1⟩

end Runs

end EventStore.DynamoStream
