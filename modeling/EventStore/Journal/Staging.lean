import EventStore.Core.Journal
import EventStore.Memory.Effects

/-!
One attempt of a journaled commit, staged. Every event takes the next position of each of
its scopes, so the events of a scope hold consecutive positions above the level the scope
was read at, in the order the write stores them.
-/
namespace EventStore

open Result

theorem Scope.text_inj {a b : Scope} : a.text = b.text ↔ a = b := by
  obtain ⟨a, ha⟩ := a
  obtain ⟨b, hb⟩ := b
  simp

def reservedPartition (pk : String) : Bool :=
  reservedViewPrefixes.any fun reserved => startsWith pk reserved

variable {plan : List (List Scope)}

section Allocate

def positionsFrom (level : String → Nat) : List (List Scope) → List (List Allocation)
  | [] => []
  | scopes :: plan =>
    (scopes.map fun scope => ⟨scope.text, level scope.text + 1⟩) ::
      positionsFrom (fun text => level text + if text ∈ scopes.map (·.text) then 1 else 0) plan

def used (text : String) (plan : List (List Scope)) : Nat :=
  plan.countP fun scopes => text ∈ scopes.map (·.text)

def levelOf (counters next : OrdMap String Nat) (text : String) : Nat :=
  (next[text]?.or counters[text]?).getD 0

@[simp] theorem length_positionsFrom (level : String → Nat) (plan : List (List Scope)) :
    (positionsFrom level plan).length = plan.length := by
  induction plan generalizing level with
  | nil => rfl
  | cons scopes plan ih => simp [positionsFrom, ih]

theorem allocateEvent_ok {counters next next' : OrdMap String Nat} {scopes : List Scope}
    {list : List Allocation} (hnodup : (scopes.map (·.text)).Nodup)
    (h : allocateEvent counters next scopes = .ok (list, next')) :
    list = (scopes.map fun scope => ⟨scope.text, levelOf counters next scope.text + 1⟩) ∧
      (∀ text, next'[text]? =
        if text ∈ scopes.map (·.text) then some (levelOf counters next text + 1)
        else next[text]?) ∧
      ∀ scope ∈ scopes, levelOf counters next scope.text < maxPosition := by
  induction scopes generalizing next list with
  | nil =>
    cases h
    simp
  | cons scope scopes ih =>
    obtain ⟨hfresh, hnodup⟩ := List.nodup_cons.mp hnodup
    simp only [allocateEvent, seq_eq_ok, refuse_eq_ok, not_le] at h
    obtain ⟨hbound, h⟩ := h
    obtain ⟨⟨rest, last⟩, hrest, h⟩ := bind_eq_ok.mp h
    cases h
    obtain ⟨rfl, hnext, hlevels⟩ := ih hnodup hrest
    -- The scopes that follow differ from this one, so their level is not moved by it.
    have hsame : ∀ text, text ≠ scope.text → levelOf counters
        (next.insert scope.text (levelOf counters next scope.text + 1)) text =
          levelOf counters next text := by
      intro text hne
      simp [levelOf, OrdMap.get_insert_ne _ _ hne]
    have hother : ∀ other ∈ scopes, other.text ≠ scope.text := by
      intro other hmem heq
      exact hfresh (List.mem_map.mpr ⟨other, hmem, heq⟩)
    refine ⟨?_, fun text => ?_, ?_⟩
    · rw [List.map_cons]
      refine congrArg _ (List.map_congr_left fun other hmem => ?_)
      exact congrArg (fun level => Allocation.mk other.text (level + 1))
        (hsame other.text (hother other hmem))
    · rw [hnext]
      by_cases htext : text = scope.text
      · subst htext
        rw [if_neg hfresh, if_pos (by simp)]
        exact OrdMap.get_insert_self _ _ _
      · have hget : (next.insert scope.text (levelOf counters next scope.text + 1))[text]? =
            next[text]? := OrdMap.get_insert_ne _ _ htext
        simp only [levelOf] at hget ⊢
        simp only [List.map_cons, List.mem_cons, htext, false_or, hget]
    · intro other hmem
      rcases List.mem_cons.mp hmem with rfl | hmem
      · exact hbound
      · exact hsame other.text (hother other hmem) ▸ hlevels other hmem

theorem allocateFrom_ok {counters next next' : OrdMap String Nat} {lists : List (List Allocation)}
    (hnodup : ∀ scopes ∈ plan, (scopes.map (·.text)).Nodup)
    (h : allocateFrom counters next plan = .ok (lists, next')) :
    lists = positionsFrom (levelOf counters next) plan ∧
      (∀ text, next'[text]? =
        if used text plan = 0 then next[text]?
        else some (levelOf counters next text + used text plan)) ∧
      ∀ text, used text plan ≠ 0 → levelOf counters next text + used text plan ≤ maxPosition := by
  induction plan generalizing next lists with
  | nil =>
    cases h
    simp [positionsFrom, used]
  | cons scopes plan ih =>
    simp only [allocateFrom, bind_eq_ok] at h
    obtain ⟨⟨list, middle⟩, hlist, ⟨rest, last⟩, hrest, h⟩ := h
    cases h
    obtain ⟨rfl, hmiddle, hbound⟩ := allocateEvent_ok (hnodup scopes List.mem_cons_self) hlist
    obtain ⟨rfl, hnext, hbounds⟩ :=
      ih (fun other hmem => hnodup other (List.mem_cons_of_mem _ hmem)) hrest
    have hlevel : ∀ text, levelOf counters middle text =
        levelOf counters next text + if text ∈ scopes.map (·.text) then 1 else 0 := by
      intro text
      rw [levelOf, hmiddle]
      by_cases htext : text ∈ scopes.map (·.text)
      · simp [htext]
      · rw [if_neg htext, if_neg htext]
        rfl
    have hused : ∀ text, used text (scopes :: plan) =
        used text plan + if text ∈ scopes.map (·.text) then 1 else 0 := by
      intro text
      simp only [used, List.countP_cons, decide_eq_true_eq]
    refine ⟨?_, fun text => ?_, fun text hne => ?_⟩
    · rw [positionsFrom, funext hlevel]
    · rw [hnext, hlevel, hused, hmiddle]
      by_cases htext : text ∈ scopes.map (·.text)
      · by_cases hplan : used text plan = 0 <;> simp only [htext, hplan, if_true, if_false]
        · simp
        · rw [if_neg (by omega)]
          exact congrArg some (by omega)
      · simp only [htext, if_false, Nat.add_zero]
    · rw [hused] at hne ⊢
      by_cases hplan : used text plan = 0
      · by_cases htext : text ∈ scopes.map (·.text)
        · obtain ⟨scope, hscope, rfl⟩ := List.mem_map.mp htext
          have := hbound scope hscope
          rw [hplan, if_pos htext]
          omega
        · simp [hplan, htext] at hne
      · have := hbounds text hplan
        rw [hlevel] at this
        omega

end Allocate

section Assign

variable {T : JournalText}

theorem assign_ne_nil {streams : List (Nat × List SerializedEvent)} {lists : List (List Allocation)}
    (hne : ∀ entry ∈ streams, entry.2 ≠ [])
    (h : (streams.flatMap (·.2)).length ≤ lists.length) :
    ∀ entry ∈ assign T streams lists, entry.2 ≠ [] := by
  induction streams generalizing lists with
  | nil => simp [assign]
  | cons entry streams ih =>
    simp only [List.flatMap_cons, List.length_append] at h
    intro other hother
    rcases List.mem_cons.mp hother with rfl | hother
    · have hentry := List.length_pos_iff.mpr (hne entry List.mem_cons_self)
      refine List.length_pos_iff.mp ?_
      rw [List.length_zipWith]
      omega
    · exact ih (fun other hmem => hne other (List.mem_cons_of_mem _ hmem))
        (by rw [List.length_drop]; omega) other hother

theorem Request.eventStreams_ne_nil (q : Request) : ∀ entry ∈ q.eventStreams, entry.2 ≠ [] := by
  cases q with
  | commit c =>
    unfold eventStreams
    split
    · simp
    · simp_all
  | transaction t =>
    intro entry hentry
    obtain ⟨stream, hstream, rfl⟩ := List.mem_map.mp hentry
    have := (List.perm_insertionSort _ _).mem_iff.mp hstream
    simpa using (List.mem_filter.mp this).2

end Assign

variable {journal : Journal}

theorem Journal.scopesOf_ok {event : SerializedEvent} {scopes : List Scope}
    (h : journal.scopesOf event = .ok scopes) :
    (scopes.Pairwise fun a b => a.text < b.text) ∧
      (scopes ≠ [] → event.entityType ∈ journal.entityTypes) := by
  unfold scopesOf at h
  split at h
  · cases h
    exact ⟨.nil, by simp⟩
  · rename_i hcovers
    obtain ⟨resolved, -, h⟩ := bind_eq_ok.mp h
    cases h
    refine ⟨TransactionCommit.insertionSort_strict Scope.text _ ?_, fun _ => ?_⟩
    · exact (List.nodup_dedup resolved).map fun a b hab => Scope.text_inj.mp hab
    · simpa [covers] using hcovers

theorem Request.withViews_nil (q : Request) : q.withViews [] = q := by
  cases q <;> simp [withViews]

/-- A request stripped of allocations has its own streams' events, stripped. -/
theorem Request.withoutAllocations_eq (q : Request) :
    ∃ streams, q.withoutAllocations = q.withEvents streams ∧
      streams.map (·.1) = q.eventStreams.map (·.1) ∧
      ∀ entry ∈ streams, ∃ stream ∈ q.eventStreams,
        entry.2 = stream.2.map CommitView.withoutAllocation := by
  refine ⟨_, rfl, ?_, ?_⟩
  · rw [List.map_map]
    rfl
  · intro entry hentry
    obtain ⟨stream, hstream, rfl⟩ := List.mem_map.mp hentry
    exact ⟨stream, hstream, rfl⟩

theorem stageJournal_ok {E : Env} {T : JournalText} {q staged : Request} {counters : Counters}
    (h : stageJournal E T journal q plan counters = .ok staged) :
    ∃ lists next rows views, allocate counters.base plan = .ok (lists, next) ∧
      projectCommit [journalProjector E T journal]
        (journalCommitView ((assign T q.eventStreams lists).map (·.2))) = .ok rows ∧
      (views.map (·.op) = (rows ++ counterViews T counters next rows.length).map (·.op)) ∧
      staged = (q.withEvents (assign T q.eventStreams lists)).withViews views := by
  obtain ⟨⟨lists, next⟩, hallocate, h⟩ := bind_eq_ok.mp h
  obtain ⟨-, h⟩ := seq_eq_ok.mp h
  obtain ⟨rows, hrows, h⟩ := bind_eq_ok.mp h
  cases h
  refine ⟨lists, next, rows, _, hallocate, hrows, ?_, rfl⟩
  rw [List.map_map]
  rfl

theorem scopePlan_sorted {q : Request} (h : q.scopePlan journal = .ok plan) :
    ∀ scopes ∈ plan, scopes.Pairwise fun a b => a.text < b.text := by
  intro scopes hscopes
  obtain ⟨event, -, hevent⟩ := (mem_of_mapM h).1 scopes hscopes
  exact (Journal.scopesOf_ok hevent).1

end EventStore
