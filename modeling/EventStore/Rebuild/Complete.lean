import EventStore.Rebuild.Released

/-!
A settled generation means complete derived rows: along every interleaving, with calls that fail
or apply late and operators that force-release, every rebuild that attempted a write has been
followed by a complete one.
-/
namespace EventStore

open Result FenceProgram

namespace FenceWorld

variable {ι : Type} [DecidableEq ι] {α : Type} {i j : ι} {w w' : FenceWorld ι}
  {settled : Bool} {token : Int}

abbrev Works (i : ι) (post : α → FenceWorld ι → Prop) (p : FenceProgram α)
    (w : FenceWorld ι) : Prop :=
  Script.Safe (FenceActs i) (WorkerKeeps i) Released (WorkerGuarantees i) post p w

variable {a : FenceAsk}

theorem works_ask {post : FenceAnswer a → FenceWorld ι → Prop}
    (h : ∀ t, WorkerKeeps i w t → t.Released → Justified i t a ∧
      ∀ answer u, FenceActs i t a answer u → post answer u) : Works i post (Script.ask a) w := by
  refine Script.Safe.ask fun t hrely hinv answer u hact => ?_
  obtain ⟨hjustified, hpost⟩ := h t hrely hinv
  exact ⟨released_acts hact hinv hjustified, hpost answer u hact⟩

def Quiet : FenceAsk → Prop
  | .write _ _ | .finish _ => False
  | _ => True

omit [DecidableEq ι] in
theorem justified_of_quiet (ha : Quiet a) : Justified i w a := by
  cases a with
  | write | finish => cases ha
  | _ => trivial

/-- A quiet call leaves no note that a worker would have to account for. -/
theorem workerKeeps_acts {answer : FenceAnswer a} (ha : Quiet a) (hw : w.Released)
    (h : FenceActs i w a answer w') : WorkerKeeps i w w' := by
  obtain ⟨landed, heffect, -⟩ := h.effect
  refine workerKeeps_effect heffect (h.sound hw.sound).2 fun lease => ?_
  cases a with
  | write | finish => cases ha
  | _ => simp [FenceAsk.note]

theorem works_quiet (ha : Quiet a) {post : FenceAnswer a → FenceWorld ι → Prop}
    (h : ∀ t answer u, WorkerKeeps i w t → t.Released → FenceActs i t a answer u →
      WorkerKeeps i w u → post answer u) : Works i post (Script.ask a) w :=
  works_ask fun t hkeeps ht => ⟨justified_of_quiet ha, fun answer u hact =>
    h t answer u hkeeps ht hact (hkeeps.trans (workerKeeps_acts ha ht hact))⟩

/-- A worker began the lease and has not set out to end it. -/
structure Holding (i : ι) (settled : Bool) (token : Int) (w : FenceWorld ι) : Prop where
  begun : BegunBy w.log i token
  unfinished : ∀ lease, .finishing i lease ∈ w.log → lease.generation ≠ token
  fresh : settled = true → Fresh w.log token

def Untouched (i : ι) (token : Int) (w : FenceWorld ι) : Prop :=
  ∀ lease, .attempted i lease ∈ w.log → lease.generation ≠ token

omit [DecidableEq ι] in
theorem Holding.keeps (h : Holding i settled token w) (hkeeps : WorkerKeeps i w w') :
    Holding i settled token w' := by
  obtain ⟨more, hmore⟩ := hkeeps.later.log
  exact ⟨hmore ▸ h.begun.append, fun lease hmem => h.unfinished lease (hkeeps.finishing _ hmem),
    fun hsettled => hmore ▸ (h.fresh hsettled).append⟩

omit [DecidableEq ι] in
theorem Untouched.keeps (h : Untouched i token w) (hkeeps : WorkerKeeps i w w') :
    Untouched i token w' :=
  fun lease hmem => h lease (hkeeps.attempted _ hmem)

theorem works_step (ha : Quiet a) : Works i (fun _ u => WorkerKeeps i w u) (Script.ask a) w :=
  works_quiet ha fun _ _ _ _ _ _ h => h

theorem keepAlive_works (renew : Duration) (lease : RebuildLease) :
    Works i (fun r u => WorkerKeeps i w u ∧
        ∀ lease', r = .ok lease' → lease'.generation = lease.generation)
      (keepAlive renew lease) w := by
  refine (works_step (a := .elapsed) trivial).bind fun due u hu => ?_
  split
  · refine works_quiet (a := .renew lease renew) trivial fun t answer u' _ _ hact hkeeps =>
      ⟨hu.trans hkeeps, ?_⟩
    intro lease' hanswer
    cases hact with
    | renew h =>
      cases hanswer
      obtain ⟨leaseExpiresAt, rfl, -⟩ := RebuildState.renewRebuild_ok h
      rfl
    | renewLost => cases hanswer
    | fails h =>
      obtain ⟨error, rfl⟩ := h
      cases hanswer
  · refine ⟨hu, ?_⟩
    rintro _ ⟨⟩
    rfl

theorem readLog_works (renew : Duration) (steps : Nat) (lease : RebuildLease) :
    Works i (fun r u => WorkerKeeps i w u ∧ r.1.generation = lease.generation)
      (readLog renew steps lease) w := by
  induction steps generalizing lease w with
  | zero => exact ⟨.refl i w, rfl⟩
  | succ steps ih =>
    refine (works_step (a := .read) trivial).bind fun result u hu => ?_
    split
    · exact ⟨hu, rfl⟩
    · refine (keepAlive_works renew lease).bind fun result u' hu' => ?_
      split
      · exact ⟨hu.trans hu'.1, rfl⟩
      · rename_i lease'
        refine (ih lease').mono fun r v hv => ?_
        exact ⟨(hu.trans hu'.1).trans hv.1, hv.2.trans (hu'.2 lease' rfl)⟩

structure Took (i : ι) (held : Held) (w : FenceWorld ι) : Prop where
  holding : Holding i held.fromSettled held.lease.generation w
  untouched : Untouched i held.lease.generation w

/-- A begin's token is new, and acquired from the settled generation it is one above. -/
theorem begin_works (owner : String) (length : Duration) {before : RebuildGeneration}
    (hbefore : before.value ≤ w.value) :
    Works i (fun r u => WorkerKeeps i w u ∧
        ∀ lease, r = .ok lease → Took i ⟨lease, lease.acquiredFrom before⟩ u)
      (beginRebuild owner length) w := by
  refine works_quiet (a := .begin owner length) trivial fun t answer u hkeeps ht hact hkeeps' =>
    ⟨hkeeps', ?_⟩
  intro lease hanswer
  cases hact with
  | begin h =>
    rename_i fence
    cases hanswer
    obtain ⟨-, hallowed, -⟩ := RebuildState.beginRebuild_ok h
    obtain ⟨hlt, -⟩ := FenceChange.begun_generation hallowed
    have hvalue : t.value < lease.generation := hlt
    have hbegun : .changed (some i) (.begun t.value lease) ∈
        (t.changed (some i) (.begun t.value lease) fence).log :=
      List.mem_append_right _ (List.mem_singleton_self _)
    refine ⟨⟨⟨_, lease, hbegun, rfl⟩, ?_, ?_⟩, ?_⟩
    · intro lease' hmem
      have hmem : .finishing i lease' ∈ t.log := by simpa [changed] using hmem
      have := ht.sound.token_le (ht.finishing _ _ hmem).1
      simp only
      omega
    · intro hfrom
      simp only [RebuildLease.acquiredFrom, Bool.and_eq_true, beq_iff_eq] at hfrom
      have hle := hbefore.trans hkeeps.later.value
      have hobserved : t.value = lease.generation - 1 := by omega
      exact ⟨some i, lease, hobserved ▸ hbegun, rfl⟩
    · intro lease' hmem
      have hmem : .attempted i lease' ∈ t.log := by simpa [changed] using hmem
      have := ht.sound.token_le (ht.attempted _ _ hmem)
      simp only
      omega
  | beginLost => cases hanswer
  | fails h =>
    obtain ⟨error, rfl, -⟩ := h
    cases hanswer

theorem state_works : Works i (fun _ u => WorkerKeeps i w u) rebuildState w := by
  refine Script.Safe.andThen _ (works_step (a := .generation) trivial) (fun _ _ h => h) ?_
  intro generation t ht
  refine Script.Safe.andThen _ (works_step (a := .lock) trivial) (fun _ _ h => ht.trans h) ?_
  exact fun lock u hu => ht.trans hu

theorem take_works (owner : String) (length : Duration) (rounds : Nat) :
    Works i (fun r u => ∀ held, r = .ok held → Took i held u)
      (Held.take owner length rounds) w := by
  induction rounds generalizing w with
  | zero => rintro held ⟨⟩
  | succ rounds ih =>
    have hgeneration : Works i (fun r u => ∀ before, r = .ok before → before.value ≤ u.value)
        rebuildGeneration w := by
      refine works_quiet (a := .generation) trivial fun t answer u _ _ hact _ => ?_
      intro before hanswer
      cases hact with
      | generation =>
        cases hanswer
        exact le_rfl
      | fails h =>
        obtain ⟨error, rfl⟩ := h
        cases hanswer
    refine Script.Safe.andThen _ hgeneration (by rintro _ _ _ held ⟨⟩) ?_
    intro before t ht
    refine (begin_works owner length (ht before rfl)).bind fun result u hu => ?_
    split
    · rintro held ⟨⟩
      exact hu.2 _ rfl
    · refine state_works.bind fun state v _ => ?_
      split
      · exact ih
      · rintro held ⟨⟩
    · rintro held ⟨⟩

/-- A worker's token, and whether it wrote everything or nothing. -/
structure Wrote (i : ι) (settled : Bool) (token : Int)
    (r : RebuildLease × Except RebuildFailure Unit)
    (w : FenceWorld ι) : Prop where
  same : r.1.generation = token
  holding : Holding i settled token w
  complete : r.2 = .ok () → Completed w.log token
  untouched : ∀ failure, r.2 = .error failure → failure.attempted = 0 → Untouched i token w

variable {lease : RebuildLease}

/-- A write under a held token: the token stays held, and a write that returns applied. -/
theorem write_works (batch : List ProjectedView) (hlease : lease.generation = token)
    (hholding : Holding i settled token w) :
    Works i (fun r u => w.log <+: u.log ∧ Holding i settled token u ∧
        (r = .ok () → ∃ author, .wrote author lease batch ∈ u.log))
      (writeRebuildViews lease batch) w := by
  refine works_ask (a := .write lease batch) fun t hkeeps ht => ?_
  have hholding' := hholding.keeps hkeeps
  refine ⟨⟨hlease ▸ hholding'.begun, fun lease' hmem => hlease ▸ hholding'.unfinished lease' hmem⟩,
    fun answer u hact => ?_⟩
  have hlog : t.log <+: u.log := (hact.sound ht.sound).2.log
  obtain ⟨more, hmore⟩ := hlog
  refine ⟨hkeeps.later.log.trans ⟨more, hmore⟩, ⟨hmore ▸ hholding'.begun.append, ?_,
    fun hsettled => hmore ▸ (hholding'.fresh hsettled).append⟩, ?_⟩
  · intro lease' hmem
    obtain ⟨landed, heffect, -⟩ := hact.effect
    rcases heffect.mem_log.mp hmem with hmem | hmem | ⟨q, -, heq⟩
    · exact hholding'.unfinished lease' hmem
    · cases List.mem_singleton.mp hmem
    · cases q <;> cases heq
  · intro hanswer
    cases hact with
    | write h => exact ⟨some i, List.mem_append_right _ (List.mem_singleton_self _)⟩
    | writeLost => cases hanswer
    | fails h =>
      obtain ⟨error, rfl⟩ := h
      cases hanswer

/-- Writing batch by batch: `written` are done, `batches` are left. -/
theorem writeBatches_works (renew : Duration) (count : Nat)
    (written batches : List (List ProjectedView)) {attempted : Nat} {planned : RebuildLease}
    (hlease : lease.generation = token) (hplanned : planned.generation = token)
    (hholding : Holding i settled token w) (hmem : .planned i planned (written ++ batches) ∈ w.log)
    (hwritten : ∀ batch ∈ written, ∃ author lease', .wrote author lease' batch ∈ w.log ∧
      lease'.generation = token) (huntouched : attempted = 0 → Untouched i token w) :
    Works i (Wrote i settled token) (writeBatches renew count batches attempted lease) w := by
  induction batches generalizing written attempted lease w with
  | nil =>
    refine ⟨hlease, hholding, fun _ => ?_, by rintro _ ⟨⟩⟩
    rw [List.append_nil] at hmem
    exact ⟨i, planned, written, hmem, hplanned, hwritten⟩
  | cons batch rest ih =>
    refine (keepAlive_works renew lease).bind fun result t ht => ?_
    obtain ⟨hkeeps, hrenewed⟩ := ht
    have hholding' := hholding.keeps hkeeps
    split
    · refine ⟨hlease, hholding', by rintro ⟨⟩, ?_⟩
      rintro _ ⟨⟩ hzero
      exact (huntouched hzero).keeps hkeeps
    · rename_i lease'
      have hlease' := (hrenewed lease' rfl).trans hlease
      refine (write_works batch hlease' hholding').bind fun result u hu => ?_
      obtain ⟨hlog, hholding'', hwrote⟩ := hu
      have hsubset := hkeeps.later.log.trans hlog
      split
      · refine ⟨hlease', hholding'', by rintro ⟨⟩, ?_⟩
        rintro _ ⟨⟩ hzero
        cases hzero
      · refine ih (written ++ [batch]) hlease' hholding''
          (by simpa using hsubset.subset hmem) ?_ (by rintro ⟨⟩)
        intro b hb
        rcases List.mem_append.mp hb with hb | hb
        · obtain ⟨author, l, hw, hl⟩ := hwritten b hb
          exact ⟨author, l, hsubset.subset hw, hl⟩
        · obtain rfl := List.mem_singleton.mp hb
          obtain ⟨author, hw⟩ := hwrote rfl
          exact ⟨author, lease', hw, hlease'⟩

theorem writePlanned_works (renew : Duration) (views : List ProjectedView)
    (hlease : lease.generation = token) (hholding : Holding i settled token w)
    (huntouched : Untouched i token w) :
    Works i (Wrote i settled token) (writePlanned renew views lease) w := by
  have hplanned : Works i (fun _ u => WorkerKeeps i w u ∧
      .planned i lease (rebuildBatches views) ∈ u.log)
      (observePlanned lease (rebuildBatches views)) w := by
    refine works_quiet (a := .planned lease (rebuildBatches views)) trivial
      fun t answer u _ _ hact hkeeps => ⟨hkeeps, ?_⟩
    cases hact with
    | planned => exact List.mem_append_right _ (List.mem_singleton_self _)
    | fails h => cases h
  refine hplanned.bind fun _ u hu => ?_
  exact writeBatches_works renew _ [] _ hlease hlease (hholding.keeps hu.1) hu.2 (by simp)
    fun _ => huntouched.keeps hu.1

theorem fenced_works (renew : Duration) (steps : Nat) (hlease : lease.generation = token)
    (hholding : Holding i settled token w) (huntouched : Untouched i token w) :
    Works i (Wrote i settled token) (fenced renew steps lease) w := by
  -- a run that fails before its plan is complete has attempted nothing
  have hfailed : ∀ {u : FenceWorld ι} {l : RebuildLease} (error : Error), WorkerKeeps i w u →
      l.generation = token → Wrote i settled token (l, .error ⟨error, 0, 0⟩) u := by
    intro u l error hkeeps hl
    refine ⟨hl, hholding.keeps hkeeps, fun h => (nomatch h), ?_⟩
    rintro _ ⟨⟩ _
    exact huntouched.keeps hkeeps
  refine (keepAlive_works renew lease).bind fun result t ht => ?_
  split
  · exact hfailed _ ht.1 hlease
  · rename_i lease'
    have hlease' := (ht.2 lease' rfl).trans hlease
    refine (readLog_works renew steps lease').bind fun result u hu => ?_
    have hkeeps := ht.1.trans hu.1
    split
    · exact hfailed _ hkeeps (hu.2.trans hlease')
    · refine (works_step (a := .project) trivial).bind fun result v hv => ?_
      split
      · exact hfailed _ (hkeeps.trans hv) (hu.2.trans hlease')
      · exact writePlanned_works renew _ (hu.2.trans hlease') (hholding.keeps (hkeeps.trans hv))
          (huntouched.keeps (hkeeps.trans hv))

/-- An end that is justified when it is made. -/
theorem end_works (h : ∀ t, WorkerKeeps i w t →
    Justified i t (.finish lease)) : Works i (fun _ _ => True) (endRebuild lease) w :=
  works_ask (a := .finish lease) fun t hkeeps _ => ⟨h t hkeeps, fun _ _ _ => trivial⟩

theorem finish_works {held : Held} {result : Except RebuildFailure Unit}
    (h : Wrote i held.fromSettled held.lease.generation (held.lease, result) w) :
    Works i (fun _ _ => True) (held.finish result) w := by
  cases result with
  | ok value =>
    refine Script.Safe.andThen _ (end_works fun t hkeeps => ?_) (fun _ _ _ => trivial)
      fun _ _ _ => trivial
    obtain ⟨more, hmore⟩ := hkeeps.later.log
    exact ⟨(h.holding.keeps hkeeps).begun, .inl (hmore ▸ (h.complete rfl).append)⟩
  | error failure =>
    simp only [Held.finish]
    split
    · rename_i hrelease
      refine (end_works fun t hkeeps => ?_).bind fun _ _ _ => trivial
      have hholding := h.holding.keeps hkeeps
      exact ⟨hholding.begun, .inr ⟨hholding.fresh hrelease.1,
        (h.untouched failure rfl hrelease.2).keeps hkeeps⟩⟩
    · trivial

/-- A run under the lock a worker took, and its end. -/
theorem run_works {held : Held} {p : FenceProgram (RebuildLease × Except RebuildFailure Unit)}
    (h : Works i (Wrote i held.fromSettled held.lease.generation) p w) :
    Works i (fun _ _ => True) (p.bind fun (last, result) =>
      Held.finish { held with lease := last } result) w := by
  refine h.bind fun r u hr => ?_
  obtain ⟨last, result⟩ := r
  have hsame : last.generation = held.lease.generation := hr.same
  rw [← hsame] at hr
  exact finish_works hr

theorem program_works (rebuild : Rebuild) :
    Works i (fun _ _ => True) rebuild.program w := by
  cases rebuild with
  | projections owner lease steps =>
    refine Script.Safe.andThen _ (take_works owner lease _) (fun _ _ _ => trivial) ?_
    intro held t ht
    obtain ⟨hholding, huntouched⟩ := ht held rfl
    exact run_works (fenced_works lease steps rfl hholding huntouched)
  | journal operations lease =>
    refine Script.Safe.andThen _ (take_works rebuildOwner lease _) (fun _ _ _ => trivial) ?_
    intro held t ht
    obtain ⟨hholding, huntouched⟩ := ht held rfl
    exact run_works (writePlanned_works lease operations rfl hholding huntouched)

end FenceWorld

open FenceWorld

variable {ι : Type} [DecidableEq ι]

/-- In every settled state each attempted rebuild was followed by one that wrote all its batches and
ended. -/
theorem settled_means_complete (x : ι → Rebuild) (stores : Stores)
    (hstores : stores.rebuild = .empty) (w : FenceWorld ι)
    (threads : ι → FenceProgram (Except Error Unit))
    (hreach : Pool.Reaches FenceActs FenceMoves
      (FenceWorld.start stores, fun i => (x i).program) (w, threads))
    (hsettled : w.fence.generation.isSettled = true) :
    (∀ i lease, .attempted i lease ∈ w.log → ∃ m, CompletesAt w.log m lease.generation) ∧
    ∀ k author lease views, w.log[k]? = some (.wrote author lease views) →
      ∃ m, k < m ∧ CompletesAt w.log m lease.generation := by
  obtain ⟨hreleased, -⟩ : w.Released ∧ _ :=
    Pool.safe_of_reaches (fun i w => WorkerKeeps.refl i w) (fun i s t u hst htu => hst.trans htu)
      (fun _ _ _ _ _ _ => trivial) (fun i s t _ h => h)
      (fun s t hs hmove => released_moves hmove hs)
      hreach (released_start hstores) fun i => program_works (x i)
  have hclean := hreleased.settled (RebuildGeneration.isSettled_iff.mp hsettled)
  refine ⟨?_, fun k author lease views hget => hclean.wrote k author lease views hget (by simp)⟩
  intro i lease hattempted
  obtain ⟨observed, lease', hbegun, htoken⟩ := hreleased.attempted _ _ hattempted
  rw [← htoken]
  rcases hclean.begun _ _ _ hbegun (by simp) with ⟨author, ended, hended, hgeneration⟩ | hcompletes
  · obtain ⟨m, hm⟩ := List.getElem?_of_mem hended
    rcases (hreleased.ended m author ended hm).2 with hcompleted | hnot
    · exact ⟨m, author, ended, hm, hgeneration.ge, hcompleted⟩
    · exact absurd ⟨i, lease, hattempted, htoken.symm.trans hgeneration.symm⟩ hnot
  · exact hcompletes

def oneRowRebuilt : FenceWorld Unit × (Unit → FenceProgram (Except Error Unit)) :=
  Pool.turns (FenceWorld.answer 0 [⟨"names", 0, 0, .put "p" "s" "e" "name" .empty⟩])
    (FenceWorld.start .empty, fun _ => (Rebuild.projections "w" ⟨60, 0⟩ 1).program)
    (List.replicate 12 ())

def FenceEvent.isAttempt : FenceEvent ι → Bool
  | .attempted _ _ => true
  | _ => false

theorem settled_means_complete_of_worker :
    oneRowRebuilt.1.value = 2 ∧ ∃ i lease m, .attempted i lease ∈ oneRowRebuilt.1.log ∧
      CompletesAt oneRowRebuilt.1.log m lease.generation := by
  obtain ⟨hattempted, -⟩ := settled_means_complete (fun _ => .projections "w" ⟨60, 0⟩ 1) .empty rfl
    oneRowRebuilt.1 oneRowRebuilt.2 (Pool.reaches_turns (acts_answer 0 _) _ _) (by decide +kernel)
  obtain ⟨e, hmem, he⟩ : ∃ e ∈ oneRowRebuilt.1.log, e.isAttempt = true :=
    List.any_eq_true.mp (by decide +kernel)
  cases e with
  | attempted i lease =>
    obtain ⟨m, hm⟩ := hattempted i lease hmem
    exact ⟨by decide +kernel, i, lease, m, hmem, hm⟩
  | _ => cases he

end EventStore
