import EventStore.Core.Rebuild

/-!
The batches of a rebuild split the planned operations in order, each as long as the limits allow.
-/
namespace EventStore

open Result

def guardedBytes (batch : List ProjectedView) : Nat :=
  lockCheckSize + (batch.map fun view => viewOperationSize view.op).sum

structure Partition (views : List ProjectedView) (batches : List (List ProjectedView)) :
    Prop where
  flatten : batches.flatten = views
  nonempty : ∀ batch ∈ batches, batch ≠ []
  count : ∀ batch ∈ batches, batch.length ≤ maxRebuildViewBatch
  bytes : ∀ batch ∈ batches, 1 < batch.length → guardedBytes batch ≤ maxCommitBytes
  maximal : batches.IsChain fun batch next => maxRebuildViewBatch < (batch ++ next).length ∨
    maxCommitBytes < guardedBytes (batch ++ next)
  accepted : (∀ view ∈ views, checkPlanSize view = .ok ()) → ∀ batch ∈ batches,
    checkBudget (batch.map (fun view => viewOperationSize view.op) ++ [lockCheckSize]) = .ok ()

section Batch

structure Taken (taken bytes : Nat) (views batch rest : List ProjectedView) : Prop where
  whole : batch ++ rest = views
  count : taken + batch.length ≤ maxRebuildViewBatch
  fits : taken + batch.length ≤ 1 ∨
    bytes + (batch.map fun view => viewOperationSize view.op).sum ≤ maxCommitBytes
  full : ∀ view more, rest = view :: more → maxRebuildViewBatch ≤ taken + batch.length ∨
    maxCommitBytes < bytes + (batch.map fun view => viewOperationSize view.op).sum +
      viewOperationSize view.op

theorem batchEnd_taken {taken bytes : Nat} (views : List ProjectedView)
    (hcount : taken ≤ maxRebuildViewBatch) (hfits : taken ≤ 1 ∨ bytes ≤ maxCommitBytes) :
    Taken taken bytes views (views.take (batchEnd taken bytes views - taken))
      (views.drop (batchEnd taken bytes views - taken)) := by
  induction views generalizing taken bytes with
  | nil => exact ⟨by simp, by simpa using hcount, by simpa using hfits, by simp⟩
  | cons view views ih =>
    rw [batchEnd]
    split
    case isTrue hstop =>
        rw [Nat.sub_self]
        refine ⟨rfl, by simpa using hcount, by simpa using hfits, ?_⟩
        rintro other more ⟨⟩
        rcases hstop with hstop | hstop
        · exact .inl (by simpa using hstop)
        · exact .inr (by simpa using hstop.2)
    case isFalse hnext =>
        obtain ⟨hroom, hbytes⟩ := not_or.mp hnext
        have htail : Taken (taken + 1) (bytes + viewOperationSize view.op) views _ _ :=
          ih (by omega) (by omega)
        have hle := le_batchEnd (taken + 1) (bytes + viewOperationSize view.op) views
        obtain ⟨more, hmore⟩ := Nat.exists_eq_add_of_le hle
        have hnow : batchEnd (taken + 1) (bytes + viewOperationSize view.op) views - taken =
            more + 1 := by omega
        have hthen : batchEnd (taken + 1) (bytes + viewOperationSize view.op) views -
            (taken + 1) = more := by omega
        rw [hthen] at htail
        rw [hnow, List.take_succ_cons, List.drop_succ_cons]
        refine ⟨by simp [htail.whole], ?_, ?_, ?_⟩
        · have := htail.count
          simp only [List.length_cons]
          omega
        · have := htail.fits
          simp only [List.length_cons, List.map_cons, List.sum_cons]
          omega
        · intro other rest hrest
          have := htail.full other rest hrest
          simp only [List.length_cons, List.map_cons, List.sum_cons]
          omega

variable {views batch rest : List ProjectedView}

theorem rebuildBatches_step (h : views ≠ []) :
    ∃ batch rest, Taken 0 lockCheckSize views batch rest ∧ batch ≠ [] ∧
      rebuildBatches views = batch :: rebuildBatches rest := by
  obtain ⟨view, views, rfl⟩ := List.exists_cons_of_ne_nil h
  have htaken : Taken 0 lockCheckSize (view :: views) _ _ :=
    batchEnd_taken (view :: views) (Nat.zero_le _) (.inl (Nat.zero_le 1))
  rw [Nat.sub_zero] at htaken
  refine ⟨_, _, htaken, ?_, by rw [rebuildBatches]⟩
  have hpos := batchEnd_pos view views lockCheckSize
  rw [Ne, List.take_eq_nil_iff]
  simp only [reduceCtorEq, or_false]
  omega

/-- A batch that leaves operations cannot take the next batch as well. -/
theorem Taken.maximal {next : List ProjectedView} {more : List (List ProjectedView)}
    (h : Taken 0 lockCheckSize views batch rest) (hnext : next ≠ [])
    (hrest : (next :: more).flatten = rest) :
    maxRebuildViewBatch < (batch ++ next).length ∨
      maxCommitBytes < guardedBytes (batch ++ next) := by
  obtain ⟨view, others, rfl⟩ := List.exists_cons_of_ne_nil hnext
  have hfull := h.full view (others ++ more.flatten) (by rw [← hrest]; rfl)
  simp only [List.length_append, List.length_cons, guardedBytes, List.map_append, List.map_cons,
    List.sum_append, List.sum_cons]
  omega

theorem checkPlanSize_ok {view : ProjectedView} (h : checkPlanSize view = .ok ()) :
    viewOperationSize view.op ≤ maxCommitItemBytes ∧
      viewOperationSize view.op + lockCheckSize ≤ maxCommitBytes := by
  have := refuse_eq_ok.mp h
  omega

theorem checkBudget_ok {sizes : List Nat} (hcount : sizes.length ≤ 100)
    (hbytes : sizes.sum ≤ maxCommitBytes) (hitems : ∀ size ∈ sizes, size ≤ maxCommitItemBytes) :
    checkBudget sizes = .ok () := by
  have hlargest := Ranking.foldl_max_le_iff.mpr ⟨Nat.zero_le maxCommitItemBytes, hitems⟩
  refine refuse_eq_ok.mpr ?_
  omega

/-- A batch whose operations each fit one of their own passes the guarded write's budget. -/
theorem Taken.accepted (h : Taken 0 lockCheckSize views batch rest) (hne : batch ≠ [])
    (hplan : ∀ view ∈ views, checkPlanSize view = .ok ()) :
    checkBudget (batch.map (fun view => viewOperationSize view.op) ++ [lockCheckSize]) =
      .ok () := by
  have hmem : ∀ view ∈ batch, checkPlanSize view = .ok () := by
    intro view hview
    exact hplan view (h.whole ▸ List.mem_append_left rest hview)
  have hguard : lockCheckSize ≤ maxCommitItemBytes := by
    decide +kernel
  refine checkBudget_ok ?_ ?_ ?_
  · have hcount := h.count
    simp only [List.length_append, List.length_map, List.length_singleton, maxRebuildViewBatch]
      at hcount ⊢
    omega
  · rw [List.sum_append, List.sum_singleton, Nat.add_comm]
    rcases h.fits with hone | hfits
    · -- A batch of one fits because its operation does.
      obtain ⟨view, rfl⟩ : ∃ view, batch = [view] := by
        have hpos := List.length_pos_iff.mpr hne
        exact List.length_eq_one_iff.mp (by omega)
      have hsize := (checkPlanSize_ok (hmem view List.mem_cons_self)).2
      simpa [Nat.add_comm] using hsize
    · exact hfits
  · intro size hsize
    rcases List.mem_append.mp hsize with hsize | hsize
    · obtain ⟨view, hview, rfl⟩ := List.mem_map.mp hsize
      exact (checkPlanSize_ok (hmem view hview)).1
    · rw [List.mem_singleton.mp hsize]
      exact hguard

theorem Partition.cons {batches : List (List ProjectedView)}
    (htaken : Taken 0 lockCheckSize views batch rest) (hne : batch ≠ [])
    (h : Partition rest batches) : Partition views (batch :: batches) where
  flatten := by rw [List.flatten_cons, h.flatten, htaken.whole]
  nonempty := List.forall_mem_cons.mpr ⟨hne, h.nonempty⟩
  count := List.forall_mem_cons.mpr ⟨by simpa using htaken.count, h.count⟩
  bytes := by
    refine List.forall_mem_cons.mpr ⟨fun hlength => ?_, h.bytes⟩
    have hfits := htaken.fits
    unfold guardedBytes
    omega
  maximal := by
    cases batches with
    | nil => exact .singleton batch
    | cons next more =>
      have hnext := h.nonempty next List.mem_cons_self
      exact .cons_cons (htaken.maximal hnext h.flatten) h.maximal
  accepted hplan := by
    refine List.forall_mem_cons.mpr ⟨htaken.accepted hne hplan, h.accepted fun view hview => ?_⟩
    exact hplan view (htaken.whole ▸ List.mem_append_right batch hview)

/-- The batches of any list of operations are its greedy partition. -/
theorem rebuildBatches_partition (views : List ProjectedView) :
    Partition views (rebuildBatches views) := by
  induction hlength : views.length using Nat.strong_induction_on generalizing views with
  | _ length ih =>
    by_cases hne : views = []
    · subst hne
      rw [rebuildBatches]
      exact ⟨rfl, List.forall_mem_nil _, List.forall_mem_nil _, List.forall_mem_nil _, .nil,
        fun _ => List.forall_mem_nil _⟩
    · obtain ⟨batch, rest, htaken, hbatch, heq⟩ := rebuildBatches_step hne
      have hpos := List.length_pos_iff.mpr hbatch
      have hwhole := congrArg List.length htaken.whole
      rw [List.length_append] at hwhole
      rw [heq]
      exact .cons htaken hbatch (ih rest.length (by omega) rest rfl)

end Batch

end EventStore
