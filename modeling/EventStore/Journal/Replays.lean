import EventStore.Core.JournalReplay
import EventStore.Journal.Staging
import EventStore.Lib.Commuting

/-!
A journal rebuilt from stored events depends only on which events they are: claims of positions
commute, and a claim made twice is one.
-/
namespace EventStore

open Result Commuting

namespace JournalState

variable {T : JournalText} {event event' : SerializedEvent} {a b : Allocation}
variable {s t : JournalState}

def add (s : JournalState) (scope : Scope) (position : Nat) (row : ViewRow)
    (event : SerializedEvent) : JournalState :=
  ⟨s.rows.insert (scope.text, position) (row, event),
    s.counters.insert scope.text
      (scope, max (((s.counters[scope.text]?).map (·.2)).getD 0) position)⟩

/-- What a claim that succeeds does. -/
inductive Claims (T : JournalText) (event : SerializedEvent) (a : Allocation) (s : JournalState) :
    JournalState → Prop
  | held (scope : Scope) (row : ViewRow) (hscope : Scope.new a.scope = .ok scope)
      (h : s.rows[((scope.text, a.position) : RowKey)]? = some (row, event)) : Claims T event a s s
  | fresh (scope : Scope) (row : ViewRow) (hscope : Scope.new a.scope = .ok scope)
      (h : s.rows[((scope.text, a.position) : RowKey)]? = none)
      (hrow : rowView T scope a.position event = .ok row) :
      Claims T event a s (s.add scope a.position row event)

theorem text_of_new {text : String} {scope : Scope} (h : Scope.new text = .ok scope) :
    scope.text = text := by
  unfold Scope.new at h
  split_ifs at h
  cases h
  rfl

theorem claim_ok_iff : claim T event s a = .ok t ↔ Claims T event a s t := by
  unfold claim
  constructor
  · intro h
    obtain ⟨scope, hscope, h⟩ := bind_eq_ok.mp h
    split at h
    · rename_i row holder hrow
      obtain ⟨hsame, h⟩ := seq_eq_ok.mp h
      cases h
      obtain rfl : holder = event := by simpa [refuse_eq_ok] using hsame
      exact .held scope row hscope hrow
    · rename_i hfree
      obtain ⟨row, hrow, h⟩ := bind_eq_ok.mp h
      cases h
      exact .fresh scope row hscope hfree hrow
  · intro h
    refine bind_eq_ok.mpr ?_
    cases h with
    | held scope row hscope h => exact ⟨scope, hscope, by simp [h, refuse]⟩
    | fresh scope row hscope h hrow => exact ⟨scope, hscope, by simp [h, hrow, add]⟩

theorem get_add (scope : Scope) (position : Nat) (row : ViewRow) (key : RowKey) :
    (s.add scope position row event).rows[key]? =
      if key = (scope.text, position) then some (row, event) else s.rows[key]? :=
  OrdMap.get_insert _ _ _ _

theorem add_comm {scope scope' : Scope} {position position' : Nat} (row row' : ViewRow)
    (h : (scope.text, position) ≠ (scope'.text, position')) :
    (s.add scope position row event).add scope' position' row' event' =
      (s.add scope' position' row' event').add scope position row event := by
  have hrows := OrdMap.ext_get fun key : RowKey => show
    ((s.add scope position row event).add scope' position' row' event').rows[key]? =
      ((s.add scope' position' row' event').add scope position row event).rows[key]? by
    simp only [get_add]
    split_ifs with h₁ h₂
    · exact absurd (h₂.symm.trans h₁) h
    all_goals rfl
  have hcounters : ((s.add scope position row event).add scope' position' row' event').counters =
      ((s.add scope' position' row' event').add scope position row event).counters := by
    refine OrdMap.ext_get fun text => ?_
    simp only [add, OrdMap.get_insert]
    by_cases heq : scope.text = scope'.text
    · obtain rfl := Scope.text_inj.mp heq
      simp only [if_true, Option.map_some, Option.getD_some, max_right_comm]
      split_ifs <;> rfl
    · split_ifs <;> simp_all
  exact JournalState.mk.injEq _ _ _ _ ▸ ⟨hrows, hcounters⟩

theorem claims_comm {u : JournalState} (hs : Claims T event a s t) (ht : Claims T event' b t u) :
    ∃ t', Claims T event' b s t' ∧ Claims T event a t' u := by
  cases hs with
  | held scope row hscope h =>
    cases ht with
    | held scope' row' hscope' h' =>
      exact ⟨s, .held scope' row' hscope' h', .held scope row hscope h⟩
    | fresh scope' row' hscope' h' hrow' =>
      refine ⟨_, .fresh scope' row' hscope' h' hrow', .held scope row hscope ?_⟩
      rw [get_add, if_neg, h]
      intro hkey
      rw [hkey, h'] at h
      cases h
  | fresh scope row hscope h hrow =>
    cases ht with
    | held scope' row' hscope' h' =>
      rw [get_add] at h'
      split_ifs at h' with hkey
      · -- the same allocation of the same event
        cases h'
        obtain ⟨htext, hposition⟩ := Prod.mk.inj hkey
        rw [text_of_new hscope, text_of_new hscope'] at htext
        obtain rfl : b = a := Allocation.mk.injEq .. ▸ ⟨htext, hposition⟩
        refine ⟨_, .fresh scope row hscope h hrow, .held scope row hscope ?_⟩
        rw [get_add, if_pos rfl]
      · exact ⟨s, .held scope' row' hscope' h', .fresh scope row hscope h hrow⟩
    | fresh scope' row' hscope' h' hrow' =>
      rw [get_add] at h'
      split_ifs at h' with hkey
      rw [add_comm row row' (Ne.symm hkey)]
      refine ⟨_, .fresh scope' row' hscope' h' hrow', .fresh scope row hscope ?_ hrow⟩
      rw [get_add, if_neg (Ne.symm hkey), h]

theorem claims_commute (event event' : SerializedEvent) (a b : Allocation) :
    Commute (claim T event · a) (claim T event' · b) := by
  intro s u
  simp only [bind_eq_ok, claim_ok_iff]
  constructor
  · rintro ⟨t, hs, ht⟩
    exact claims_comm hs ht
  · rintro ⟨t, hs, ht⟩
    exact claims_comm hs ht

theorem claim_settles (event : SerializedEvent) (a : Allocation) :
    Settles (claim T event · a) := by
  intro s t h
  rw [claim_ok_iff] at h ⊢
  cases h with
  | held scope row hscope h => exact .held scope row hscope h
  | fresh scope row hscope _ _ => exact .held scope row hscope (by rw [get_add, if_pos rfl])

theorem claimAll_commute (event event' : SerializedEvent) :
    Commute (claimAll T · event) (claimAll T · event') := by
  unfold claimAll
  cases allocations T event.metadata with
  | error error => exact .of_fails (by rintro s t ⟨⟩)
  | ok list =>
    cases allocations T event'.metadata with
    | error error => exact .symm (.of_fails (by rintro s t ⟨⟩))
    | ok list' =>
      exact .foldlM fun a _ => (Commute.foldlM fun b _ => claims_commute event' event b a).symm

theorem claimAll_settles (event : SerializedEvent) : Settles (claimAll T · event) := by
  unfold claimAll
  cases allocations T event.metadata with
  | error error => rintro s t ⟨⟩
  | ok list => exact .foldlM (claims_commute event event) (claim_settles event)

end JournalState

/-- Events in any order, with any repetitions, give the same journal, or none. -/
theorem replayJournal_unordered (T : JournalText) {events events' : List SerializedEvent}
    (h : ∀ event, event ∈ events ↔ event ∈ events') :
    (∀ state, replayJournal T events = .ok state ↔ replayJournal T events' = .ok state) ∧
    ∀ state, replayJournal T events = .ok state → ∀ lease renew length,
      rebuildJournalWithLease T events lease renew = rebuildJournalWithLease T events' lease renew ∧
      rebuildJournalWithLock T events length = rebuildJournalWithLock T events' length := by
  have hsame (state : JournalState) :
      replayJournal T events = .ok state ↔ replayJournal T events' = .ok state :=
    foldlM_of_mem_iff JournalState.claimAll_commute JournalState.claimAll_settles h .empty state
  refine ⟨hsame, fun state hstate lease renew length => ?_⟩
  rw [rebuildJournalWithLease, rebuildJournalWithLock, rebuildJournalWithLease,
    rebuildJournalWithLock, hstate, (hsame state).mp hstate]
  exact ⟨rfl, rfl⟩

def plainText : JournalText where
  allocations list := (list.map (·.scope)).headD ""
  readAllocations scope := .ok [⟨scope, 1⟩]
  row _ _ _ := .ok .empty
  readRow _ := .error ""
  counter _ _ := .empty
  readCounter _ := .error ""

def firstOf (scope : String) : SerializedEvent :=
  setAllocations plainText ⟨scope, 1, "e", 1, scope, "t", .empty, {}⟩ [⟨scope, 1⟩]

theorem replayJournal_of_three :
    ∃ state, replayJournal plainText [firstOf "a", firstOf "b"] = .ok state ∧
      replayJournal plainText [firstOf "b", firstOf "a", firstOf "b"] = .ok state := by
  have hsame (event : SerializedEvent) : event ∈ [firstOf "a", firstOf "b"] ↔
      event ∈ [firstOf "b", firstOf "a", firstOf "b"] := by
    simp +contextual
  exact ⟨_, rfl, ((replayJournal_unordered plainText hsame).1 _).mp rfl⟩

end EventStore
