import EventStore.Rebuild.World

/-!
The invariant of a pool of rebuild workers, over the log of what they did. In a settled generation
every lease has ended or been followed by a complete rebuild, and so it is, that lease apart,
under a lock acquired from a settled generation.
-/
namespace EventStore

open Result FenceProgram

variable {lease : RebuildLease} {q : FenceRequest}

section Logs

variable {ι : Type}

def BegunBy (log : List (FenceEvent ι)) (i : ι) (token : Int) : Prop :=
  ∃ observed lease, .changed (some i) (.begun observed lease) ∈ log ∧ lease.generation = token

def Fresh (log : List (FenceEvent ι)) (token : Int) : Prop :=
  ∃ author lease, .changed author (.begun (token - 1) lease) ∈ log ∧ lease.generation = token

def Attempted (log : List (FenceEvent ι)) (token : Int) : Prop :=
  ∃ author lease, .attempted author lease ∈ log ∧ lease.generation = token

/-- All the batches planned under the token were written under it. -/
def Completed (log : List (FenceEvent ι)) (token : Int) : Prop :=
  ∃ author lease batches, .planned author lease batches ∈ log ∧ lease.generation = token ∧
    ∀ batch ∈ batches, ∃ author' lease', .wrote author' lease' batch ∈ log ∧
      lease'.generation = token

/-- The entry `m` is the end of a complete rebuild that began at or after the token. -/
def CompletesAt (log : List (FenceEvent ι)) (m : Nat) (token : Int) : Prop :=
  ∃ author lease, log[m]? = some (.changed author (.ended lease)) ∧ token ≤ lease.generation ∧
    Completed (log.take m) lease.generation

def EndedIn (log : List (FenceEvent ι)) (token : Int) : Prop :=
  ∃ author lease, .changed author (.ended lease) ∈ log ∧ lease.generation = token

/-- Apart from `skip`, every lease and every write was ended or completed after. -/
structure Clean (log : List (FenceEvent ι)) (skip : Option Int) : Prop where
  begun : ∀ author observed lease, .changed author (.begun observed lease) ∈ log →
    skip ≠ some lease.generation →
    EndedIn log lease.generation ∨ ∃ m, CompletesAt log m lease.generation
  wrote : ∀ k author lease views, log[k]? = some (.wrote author lease views) →
    skip ≠ some lease.generation → ∃ m, k < m ∧ CompletesAt log m lease.generation

/-- A write was attempted, and an end is being made, before its request applies. -/
def Backed (log : List (FenceEvent ι)) : FenceRequest → Prop
  | .write lease _ => Attempted log lease.generation
  | .change (.ended lease) => ∃ i, .finishing i lease ∈ log
  | .change _ => True

variable {log more : List (FenceEvent ι)} {i : ι} {token : Int} {skip : Option Int}

theorem BegunBy.append (h : BegunBy log i token) : BegunBy (log ++ more) i token := by
  obtain ⟨observed, lease, hmem, hlease⟩ := h
  exact ⟨observed, lease, List.mem_append_left _ hmem, hlease⟩

theorem Fresh.append (h : Fresh log token) : Fresh (log ++ more) token := by
  obtain ⟨author, lease, hmem, hlease⟩ := h
  exact ⟨author, lease, List.mem_append_left _ hmem, hlease⟩

theorem Attempted.append (h : Attempted log token) : Attempted (log ++ more) token := by
  obtain ⟨author, lease, hmem, hlease⟩ := h
  exact ⟨author, lease, List.mem_append_left _ hmem, hlease⟩

theorem EndedIn.append (h : EndedIn log token) : EndedIn (log ++ more) token := by
  obtain ⟨author, lease, hmem, hlease⟩ := h
  exact ⟨author, lease, List.mem_append_left _ hmem, hlease⟩

theorem Backed.append (h : Backed log q) : Backed (log ++ more) q := by
  match q, h with
  | .write lease views, h => exact Attempted.append h
  | .change (.ended lease), ⟨i, hmem⟩ => exact ⟨i, List.mem_append_left _ hmem⟩
  | .change (.begun observed lease), _ => trivial
  | .change (.renewed lease leaseExpiresAt), _ => trivial
  | .change (.forceReleased owner), _ => trivial

theorem Completed.append (h : Completed log token) : Completed (log ++ more) token := by
  obtain ⟨author, lease, batches, hmem, hlease, hbatches⟩ := h
  refine ⟨author, lease, batches, List.mem_append_left _ hmem, hlease, fun batch hbatch => ?_⟩
  obtain ⟨author', lease', hwrote, htoken⟩ := hbatches batch hbatch
  exact ⟨author', lease', List.mem_append_left _ hwrote, htoken⟩

theorem CompletesAt.append {m : Nat} (h : CompletesAt log m token) :
    CompletesAt (log ++ more) m token := by
  obtain ⟨author, lease, hget, hle, hcompleted⟩ := h
  have hlt : m < log.length := (List.getElem?_eq_some_iff.mp hget).1
  refine ⟨author, lease, by rwa [List.getElem?_append_left hlt], hle, ?_⟩
  rwa [List.take_append_of_le_length hlt.le]

theorem getElem?_of_append {k : Nat} {e : FenceEvent ι} (hmore : e ∉ more)
    (h : (log ++ more)[k]? = some e) : k < log.length ∧ log[k]? = some e := by
  by_cases hk : k < log.length
  · exact ⟨hk, by rwa [List.getElem?_append_left hk] at h⟩
  · rw [List.getElem?_append_right (by omega)] at h
    exact absurd (List.mem_of_getElem? h) hmore

theorem completesAt_length {author : Option ι} (h : Completed log lease.generation)
    (hle : token ≤ lease.generation) :
    CompletesAt (log ++ [.changed author (.ended lease)]) log.length token := by
  refine ⟨author, lease, by simp, hle, ?_⟩
  rwa [List.take_left]

/-- Entries that begin or write nothing, or only under the skipped token, leave a clean log
clean. -/
theorem Clean.append {skip' : Option Int} (h : Clean log skip)
    (hskip : ∀ t, skip = some t → skip' = some t)
    (hbegun : ∀ author observed lease, .changed author (.begun observed lease) ∈ more →
      skip' = some lease.generation)
    (hwrote : ∀ author lease views, .wrote author lease views ∈ more →
      skip' = some lease.generation) : Clean (log ++ more) skip' := by
  have hne : ∀ t, skip' ≠ some t → skip ≠ some t := fun t h h' => h (hskip t h')
  refine ⟨?_, ?_⟩
  · intro author observed lease hmem hlease
    rcases List.mem_append.mp hmem with hmem | hmem
    · rcases h.begun _ _ _ hmem (hne _ hlease) with hended | ⟨m, hm⟩
      · exact .inl hended.append
      · exact .inr ⟨m, hm.append⟩
    · exact absurd (hbegun _ _ _ hmem) hlease
  · intro k author lease views hget hlease
    by_cases hk : k < log.length
    · rw [List.getElem?_append_left hk] at hget
      obtain ⟨m, hlt, hm⟩ := h.wrote k _ _ _ hget (hne _ hlease)
      exact ⟨m, hlt, hm.append⟩
    · rw [List.getElem?_append_right (by omega)] at hget
      exact absurd (hwrote _ _ _ (List.mem_of_getElem? hget)) hlease

end Logs

namespace FenceWorld

variable {ι : Type}

structure Released (w : FenceWorld ι) : Prop where
  sound : w.Sound
  settled : w.value % 2 = 0 → Clean w.log none
  fresh : ∀ lock, w.fence.lock = some lock → Fresh w.log lock.generation →
    Clean w.log (some lock.generation)
  finishing : ∀ author lease, .finishing author lease ∈ w.log →
    BegunBy w.log author lease.generation ∧
      (Completed w.log lease.generation ∨
        Fresh w.log lease.generation ∧ ¬Attempted w.log lease.generation)
  attempted : ∀ author lease, .attempted author lease ∈ w.log →
    BegunBy w.log author lease.generation
  wrote : ∀ author lease views, .wrote author lease views ∈ w.log →
    Attempted w.log lease.generation
  ended : ∀ m author lease, w.log[m]? = some (.changed author (.ended lease)) →
    (∃ i, .finishing i lease ∈ w.log) ∧
      (Completed (w.log.take m) lease.generation ∨ ¬Attempted w.log lease.generation)
  inFlight : ∀ f ∈ w.inFlight, Backed w.log f.2

theorem released_start {stores : Stores} (h : stores.rebuild = .empty) :
    (start stores : FenceWorld ι).Released := by
  have hfence : (start stores : FenceWorld ι).fence = .empty := h
  refine ⟨sound_start h, fun _ => ⟨by simp [start], by simp [start]⟩, ?_, by simp [start],
    by simp [start], by simp [start], by simp [start], by simp [start]⟩
  intro lock hlock
  rw [hfence] at hlock
  cases hlock

/-- A program writes under a lease it holds, and ends one it completed or left untouched. -/
def Justified (i : ι) (w : FenceWorld ι) : FenceAsk → Prop
  | .write lease _ => BegunBy w.log i lease.generation ∧
      ∀ lease', .finishing i lease' ∈ w.log → lease'.generation ≠ lease.generation
  | .finish lease => BegunBy w.log i lease.generation ∧
      (Completed w.log lease.generation ∨ Fresh w.log lease.generation ∧
        ∀ lease', .attempted i lease' ∈ w.log → lease'.generation ≠ lease.generation)
  | _ => True

variable {i j : ι} {w w' : FenceWorld ι} {token : Int}

theorem Sound.begunBy_unique (h : w.Sound) (hi : BegunBy w.log i token)
    (hj : BegunBy w.log j token) : i = j := by
  obtain ⟨observed, lease, hmem, hlease⟩ := hi
  obtain ⟨observed', lease', hmem', hlease'⟩ := hj
  exact Option.some.inj (h.unique _ _ _ _ _ _ hmem hmem' (hlease.trans hlease'.symm)).1

theorem Sound.token_le (h : w.Sound) (hi : BegunBy w.log i token) : token ≤ w.value := by
  obtain ⟨observed, lease, hmem, rfl⟩ := hi
  exact h.tokens _ _ _ hmem

variable {a : FenceAsk}

/-- No program attempts a write under a lease that is being ended. -/
theorem Released.not_attempted_noted (h : w.Released) (ha : Justified i w a) {author : ι}
    (hfinishing : .finishing author lease ∈ w.log) (hnot : ¬Attempted w.log lease.generation) :
    ¬Attempted (w.log ++ a.note i) lease.generation := by
  rintro ⟨author', lease', hmem, htoken⟩
  rcases List.mem_append.mp hmem with hmem | hmem
  · exact hnot ⟨author', lease', hmem, htoken⟩
  · cases a with
    | write written views =>
      cases List.mem_singleton.mp hmem
      have hbegun := (h.finishing _ _ hfinishing).1
      rw [← htoken] at hbegun
      obtain rfl := h.sound.begunBy_unique hbegun ha.1
      exact ha.2 _ hfinishing htoken.symm
    | finish ended => cases List.mem_singleton.mp hmem
    | planned under batches => cases List.mem_singleton.mp hmem
    | _ => cases hmem

/-- A justified call's note keeps the invariant. -/
theorem Released.noted (h : w.Released) (ha : Justified i w a) : (w.noted (a.note i)).Released := by
  have hnotes : ∀ e ∈ a.note i, e.isNote = true := fun _ => FenceAsk.isNote_of_mem_note
  have heffect : FenceEffect (a.note i) (some i) none w (w.noted (a.note i)) := .quiet rfl rfl
  have hclean : ∀ skip, Clean w.log skip → Clean (w.log ++ a.note i) skip := fun skip hc =>
    hc.append (fun _ h => h) (fun _ _ _ hmem => nomatch hnotes _ hmem)
      fun _ _ _ hmem => nomatch hnotes _ hmem
  refine ⟨heffect.sound h.sound hnotes h.sound.inFlight, fun heven => hclean _ (h.settled heven),
    ?_, ?_, ?_, ?_, ?_, ?_⟩
  · rintro lock hlock ⟨author, lease, hmem, hlease⟩
    rcases List.mem_append.mp hmem with hmem | hmem
    · exact hclean _ (h.fresh lock hlock ⟨author, lease, hmem, hlease⟩)
    · cases hnotes _ hmem
  · intro author lease hmem
    rcases List.mem_append.mp hmem with hmem | hmem
    · obtain ⟨hbegun, hwhy⟩ := h.finishing _ _ hmem
      refine ⟨hbegun.append, hwhy.imp (·.append) ?_⟩
      rintro ⟨hfresh, hnot⟩
      exact ⟨hfresh.append, h.not_attempted_noted ha hmem hnot⟩
    · cases a with
      | finish ended =>
        cases List.mem_singleton.mp hmem
        refine ⟨ha.1.append, ha.2.imp (·.append) ?_⟩
        rintro ⟨hfresh, hnone⟩
        refine ⟨hfresh.append, ?_⟩
        rintro ⟨author', lease', hmem', htoken⟩
        rcases List.mem_append.mp hmem' with hold | hnew
        · have hbegun := h.attempted _ _ hold
          rw [htoken] at hbegun
          obtain rfl := h.sound.begunBy_unique hbegun ha.1
          exact hnone _ hold htoken
        · cases List.mem_singleton.mp hnew
      | write written views => cases List.mem_singleton.mp hmem
      | planned under batches => cases List.mem_singleton.mp hmem
      | _ => cases hmem
  · intro author lease hmem
    rcases List.mem_append.mp hmem with hmem | hmem
    · exact (h.attempted _ _ hmem).append
    · cases a with
      | write written views =>
        cases List.mem_singleton.mp hmem
        exact ha.1.append
      | finish ended => cases List.mem_singleton.mp hmem
      | planned under batches => cases List.mem_singleton.mp hmem
      | _ => cases hmem
  · intro author lease views hmem
    rcases List.mem_append.mp hmem with hmem | hmem
    · exact (h.wrote _ _ _ hmem).append
    · cases hnotes _ hmem
  · intro m author lease hget
    simp only [FenceWorld.noted] at hget ⊢
    by_cases hm : m < w.log.length
    · rw [List.getElem?_append_left hm] at hget
      obtain ⟨⟨k, hfinishing⟩, hwhy⟩ := h.ended m _ _ hget
      refine ⟨⟨k, List.mem_append_left _ hfinishing⟩, ?_⟩
      rw [List.take_append_of_le_length hm.le]
      exact hwhy.imp_right (h.not_attempted_noted ha hfinishing)
    · rw [List.getElem?_append_right (by omega)] at hget
      cases hnotes _ (List.mem_of_getElem? hget)
  · intro f hf
    exact (h.inFlight f hf).append

theorem not_attempted_landed {author : Option ι} {log : List (FenceEvent ι)}
    (h : ¬Attempted log token) : ¬Attempted (log ++ [.of author q]) token := by
  rintro ⟨author', lease, hmem, hlease⟩
  rcases List.mem_append.mp hmem with hmem | hmem
  · exact h ⟨author', lease, hmem, hlease⟩
  · cases q <;> cases List.mem_singleton.mp hmem

/-- The end of a lease leaves a clean log: its rebuild was complete, or it left everything
as it was. -/
theorem Released.clean_ended (h : w.Released) {author : Option ι}
    (hheld : w.fence.heldBy lease = true) (hbacked : ∃ i, .finishing i lease ∈ w.log) :
    Clean (w.log ++ [.changed author (.ended lease)]) none := by
  obtain ⟨i, hfinishing⟩ := hbacked
  obtain ⟨hvalue, -⟩ := h.sound.fenced.generation_of_heldBy hheld
  rcases (h.finishing _ _ hfinishing).2 with hcompleted | ⟨hfresh, hnot⟩
  · refine ⟨?_, ?_⟩
    · intro a observed lease' hmem _
      rcases List.mem_append.mp hmem with hmem | hmem
      · have hle := h.sound.tokens _ _ _ hmem
        exact .inr ⟨_, completesAt_length hcompleted (hle.trans hvalue.ge)⟩
      · cases List.mem_singleton.mp hmem
    · intro k a lease' views hget _
      obtain ⟨hk, hget⟩ := getElem?_of_append (by simp) hget
      obtain ⟨a', lease'', hattempted, htoken⟩ := h.wrote _ _ _ (List.mem_of_getElem? hget)
      have hle := h.sound.token_le (h.attempted _ _ hattempted)
      rw [htoken] at hle
      exact ⟨_, hk, completesAt_length hcompleted (hle.trans hvalue.ge)⟩
  · obtain ⟨lock, hlock, -, hgeneration⟩ := RebuildState.heldBy_iff.mp hheld
    have hclean := h.fresh lock hlock (hgeneration ▸ hfresh)
    rw [hgeneration] at hclean
    refine ⟨?_, ?_⟩
    · intro a observed lease' hmem _
      rcases List.mem_append.mp hmem with hmem | hmem
      · by_cases htoken : lease.generation = lease'.generation
        · exact .inl ⟨author, lease, List.mem_append_right _ (List.mem_singleton_self _), htoken⟩
        · rcases hclean.begun _ _ _ hmem (by simpa using htoken) with hended | ⟨m, hm⟩
          · exact .inl hended.append
          · exact .inr ⟨m, hm.append⟩
      · cases List.mem_singleton.mp hmem
    · intro k a lease' views hget _
      obtain ⟨-, hget⟩ := getElem?_of_append (by simp) hget
      have htoken : lease.generation ≠ lease'.generation := by
        intro htoken
        exact hnot (htoken ▸ h.wrote _ _ _ (List.mem_of_getElem? hget))
      obtain ⟨m, hlt, hm⟩ := hclean.wrote k _ _ _ hget (by simpa using htoken)
      exact ⟨m, hlt, hm.append⟩

/-- A request that applies must leave a clean log when the generation is settled. -/
theorem Released.landed {author : Option ι} (h : w.Released) (hsound : w'.Sound)
    (hlog : w'.log = w.log ++ [.of author q]) (hbacked : Backed w.log q)
    (hinFlight : ∀ f ∈ w'.inFlight, f ∈ w.inFlight ∨ Backed w.log f.2)
    (hsettled : w'.value % 2 = 0 → Clean w'.log none)
    (hfresh : ∀ lock, w'.fence.lock = some lock → Fresh w'.log lock.generation →
      Clean w'.log (some lock.generation)) : w'.Released := by
  refine ⟨hsound, hsettled, hfresh, ?_, ?_, ?_, ?_, ?_⟩ <;> rw [hlog]
  · intro a lease hmem
    rcases List.mem_append.mp hmem with hmem | hmem
    · obtain ⟨hbegun, hwhy⟩ := h.finishing _ _ hmem
      refine ⟨hbegun.append, hwhy.imp (·.append) ?_⟩
      rintro ⟨hfresh, hnot⟩
      exact ⟨hfresh.append, not_attempted_landed hnot⟩
    · cases q <;> cases List.mem_singleton.mp hmem
  · intro a lease hmem
    rcases List.mem_append.mp hmem with hmem | hmem
    · exact (h.attempted _ _ hmem).append
    · cases q <;> cases List.mem_singleton.mp hmem
  · intro a lease views hmem
    rcases List.mem_append.mp hmem with hmem | hmem
    · exact (h.wrote _ _ _ hmem).append
    · cases q with
      | change change => cases List.mem_singleton.mp hmem
      | write lease' views' =>
        cases List.mem_singleton.mp hmem
        exact Attempted.append hbacked
  · intro m a lease hget
    by_cases hm : m < w.log.length
    · rw [List.getElem?_append_left hm] at hget
      obtain ⟨⟨i, hfinishing⟩, hwhy⟩ := h.ended m _ _ hget
      refine ⟨⟨i, List.mem_append_left _ hfinishing⟩, ?_⟩
      rw [List.take_append_of_le_length hm.le]
      exact hwhy.imp_right not_attempted_landed
    · obtain rfl : m = w.log.length := by
        have hlt := (List.getElem?_eq_some_iff.mp hget).1
        simp only [List.length_append, List.length_singleton] at hlt
        omega
      rw [List.getElem?_concat_length] at hget
      obtain ⟨i, hfinishing⟩ : ∃ i, .finishing i lease ∈ w.log := by
        cases q with
        | change change =>
          cases hget
          exact hbacked
        | write lease' views' => cases hget
      refine ⟨⟨i, List.mem_append_left _ hfinishing⟩, ?_⟩
      rw [List.take_left]
      exact (h.finishing _ _ hfinishing).2.imp_right fun hwhy => not_attempted_landed hwhy.2
  · intro f hf
    rcases hinFlight f hf with hf | hf
    · exact (h.inFlight f hf).append
    · exact hf.append

/-- A begin from a settled generation leaves a fresh lock over a clean log. -/
theorem Released.clean_begun (h : w.Released) {author : Option ι} {observed : Int}
    (hallowed : (FenceChange.begun observed lease).Allowed w.fence)
    (hfresh : Fresh (w.log ++ [.changed author (.begun observed lease)]) lease.generation) :
    Clean (w.log ++ [.changed author (.begun observed lease)]) (some lease.generation) := by
  obtain ⟨hvalue, htoken⟩ := hallowed
  have hlt := (FenceChange.begun_generation ⟨hvalue, htoken⟩).1
  obtain ⟨author', lease', hmem, hlease'⟩ := hfresh
  rcases List.mem_append.mp hmem with hmem | hmem
  · have hle : lease'.generation ≤ w.fence.generation.value := h.sound.tokens _ _ _ hmem
    omega
  · obtain ⟨-, hobserved, -⟩ : author' = author ∧ lease.generation - 1 = observed ∧
        lease' = lease := by simpa using hmem
    have heven : w.value % 2 = 0 := by
      by_contra hodd
      have hunsettled : w.fence.generation.isSettled = false :=
        RebuildGeneration.not_isSettled_iff.mpr (by unfold value at hodd; omega)
      rw [hunsettled] at htoken
      simp only [Bool.false_eq_true, if_false] at htoken
      omega
    refine (h.settled heven).append (fun _ h => nomatch h) ?_ (by simp)
    intro a o l hl
    cases List.mem_singleton.mp hl
    rfl

/-- A request that applies, and is backed by what its program set out to do, keeps the
invariant. -/
theorem Released.lands {author : Option ι} (h : w.Released) (hsound : w'.Sound)
    (hlands : FenceRequest.Lands w.fence (some q) w'.fence)
    (hlog : w'.log = w.log ++ [.of author q]) (hbacked : Backed w.log q)
    (hinFlight : ∀ f ∈ w'.inFlight, f ∈ w.inFlight ∨ Backed w.log f.2) : w'.Released := by
  have hodd : ∀ lock, w.fence.lock = some lock → w.fence.generation.value % 2 = 1 :=
    fun lock hlock => RebuildGeneration.not_isSettled_iff.mp (h.sound.fenced.locked lock hlock).1
  have hfresh : ∀ t, (∀ observed lease, q ≠ .change (.begun observed lease)) →
      Fresh (w.log ++ [.of author q]) t → Fresh w.log t := by
    rintro t hq ⟨a, lease, hmem, hlease⟩
    rcases List.mem_append.mp hmem with hmem | hmem
    · exact ⟨a, lease, hmem, hlease⟩
    · cases q with
      | change change =>
        cases List.mem_singleton.mp hmem
        exact absurd rfl (hq _ _)
      | write lease' views => cases List.mem_singleton.mp hmem
  refine h.landed hsound hlog hbacked hinFlight ?_ ?_ <;> rw [hlog]
  · unfold value
    generalize w'.fence = fence at hlands
    intro heven
    cases hlands with
    | @change change hallowed =>
      cases change with
      | begun observed lease =>
        have := (FenceChange.begun_generation hallowed).2
        simp only [FenceChange.apply, RebuildState.acquired] at heven
        omega
      | renewed lease leaseExpiresAt =>
        obtain ⟨lock, hlock, -⟩ := RebuildState.heldBy_iff.mp hallowed
        have := hodd lock hlock
        simp only [FenceChange.apply] at heven
        omega
      | ended lease => exact h.clean_ended hallowed hbacked
      | forceReleased owner =>
        obtain ⟨lock, hlock, -⟩ := Option.any_eq_true _ _ |>.mp hallowed
        have := hodd lock hlock
        simp only [FenceChange.apply] at heven
        omega
    | write hheld =>
      obtain ⟨lock, hlock, -⟩ := RebuildState.heldBy_iff.mp hheld
      have := hodd lock hlock
      omega
  · generalize w'.fence = fence at hlands
    intro lock hlock hnew
    cases hlands with
    | @change change hallowed =>
      cases change with
      | begun observed lease =>
        cases Option.some.inj hlock
        exact h.clean_begun hallowed hnew
      | renewed lease leaseExpiresAt =>
        obtain ⟨old, hold, rfl⟩ := Option.map_eq_some_iff.mp hlock
        exact (h.fresh old hold (hfresh _ (by simp) hnew)).append (fun _ h => h)
          (by simp [FenceEvent.of]) (by simp [FenceEvent.of])
      | ended lease => cases hlock
      | forceReleased owner => cases hlock
    | @write lease views hheld =>
      obtain ⟨lock', hlock', -, hgeneration⟩ := RebuildState.heldBy_iff.mp hheld
      obtain rfl : lock = lock' := Option.some.inj (hlock.symm.trans hlock')
      refine (h.fresh lock hlock (hfresh _ (by simp) hnew)).append (fun _ h => h)
        (by simp [FenceEvent.of]) ?_
      intro a l v hmem
      cases List.mem_singleton.mp hmem
      rw [hgeneration]

theorem Released.of_same (h : w.Released) (hsound : w'.Sound) (hfence : w'.fence = w.fence)
    (hlog : w'.log = w.log)
    (hinFlight : ∀ f ∈ w'.inFlight, f ∈ w.inFlight ∨ Backed w.log f.2) : w'.Released := by
  have hvalue : w'.value = w.value := by unfold value; rw [hfence]
  refine ⟨hsound, ?_, ?_, ?_, ?_, ?_, ?_, ?_⟩ <;> rw [hlog]
  · rw [hvalue]
    exact h.settled
  · rw [hfence]
    exact h.fresh
  · exact h.finishing
  · exact h.attempted
  · exact h.wrote
  · exact h.ended
  · intro f hf
    rcases hinFlight f hf with hf | hf
    · exact h.inFlight f hf
    · exact hf

theorem backed_of_requests {log : List (FenceEvent ι)} (h : a.Requests q) :
    Backed (log ++ a.note i) q := by
  cases q with
  | write lease views =>
    cases a with
    | write lease' views' =>
      exact ⟨i, lease', List.mem_append_right _ (List.mem_singleton_self _), by rw [h.1]⟩
    | _ => cases h
  | change change =>
    cases change with
    | ended lease =>
      cases a with
      | finish lease' =>
        cases h
        exact ⟨i, List.mem_append_right _ (List.mem_singleton_self _)⟩
      | _ => cases h
    | _ => trivial

/-- What the others keep of a worker: the log and the generation only grow, and its notes
are its own. -/
structure WorkerKeeps (i : ι) (w w' : FenceWorld ι) : Prop where
  later : w.Later w'
  attempted : ∀ lease, .attempted i lease ∈ w'.log → .attempted i lease ∈ w.log
  finishing : ∀ lease, .finishing i lease ∈ w'.log → .finishing i lease ∈ w.log

theorem WorkerKeeps.refl (i : ι) (w : FenceWorld ι) : WorkerKeeps i w w :=
  ⟨.refl w, fun _ h => h, fun _ h => h⟩

theorem WorkerKeeps.trans {w'' : FenceWorld ι} (h : WorkerKeeps i w w')
    (h' : WorkerKeeps i w' w'') : WorkerKeeps i w w'' :=
  ⟨h.later.trans h'.later, fun _ hmem => h.attempted _ (h'.attempted _ hmem),
    fun _ hmem => h.finishing _ (h'.finishing _ hmem)⟩

theorem workerKeeps_effect {notes : List (FenceEvent ι)} {author : Option ι}
    {landed : Option FenceRequest} (h : FenceEffect notes author landed w w')
    (hlater : w.Later w')
    (hnotes : ∀ lease, .attempted j lease ∉ notes ∧ .finishing j lease ∉ notes) :
    WorkerKeeps j w w' := by
  refine ⟨hlater, fun lease hmem => ?_, fun lease hmem => ?_⟩
  · rcases h.mem_log.mp hmem with hmem | hmem | ⟨q, -, heq⟩
    · exact hmem
    · exact absurd hmem (hnotes lease).1
    · cases q <;> cases heq
  · rcases h.mem_log.mp hmem with hmem | hmem | ⟨q, -, heq⟩
    · exact hmem
    · exact absurd hmem (hnotes lease).2
    · cases q <;> cases heq

def WorkerGuarantees (i : ι) (w w' : FenceWorld ι) : Prop :=
  w'.Released ∧ ∀ j, j ≠ i → WorkerKeeps j w w'

theorem released_acts [DecidableEq ι] {answer : FenceAnswer a} (h : FenceActs i w a answer w')
    (hw : w.Released) (ha : Justified i w a) : WorkerGuarantees i w w' := by
  obtain ⟨landed, heffect, hrequests⟩ := h.effect
  obtain ⟨hsound, hlater⟩ := h.sound hw.sound
  have hnoted := hw.noted ha
  have hinFlight : ∀ f ∈ w'.inFlight, f ∈ w.inFlight ∨ Backed (w.log ++ a.note i) f.2 :=
    fun f hf => (h.inFlight f hf).imp_right fun hf => backed_of_requests hf.2
  refine ⟨?_, fun j hj => workerKeeps_effect heffect hlater fun lease => ?_⟩
  · cases landed with
    | none =>
      exact hnoted.of_same hsound heffect.fence_eq (by simp [heffect.log, noted]) hinFlight
    | some q =>
      exact hnoted.lands hsound heffect.lands heffect.log
        (backed_of_requests (hrequests q rfl)) hinFlight
  · cases a <;> simp [FenceAsk.note, hj]

theorem released_moves (h : FenceMoves w w') (hw : w.Released) :
    w'.Released ∧ ∀ j, WorkerKeeps j w w' := by
  obtain ⟨⟨author, landed, heffect, hlanded⟩, hinFlight, -⟩ := h.effect
  obtain ⟨hsound, hlater⟩ := h.sound hw.sound
  refine ⟨?_, fun j => workerKeeps_effect heffect hlater fun lease => by simp⟩
  cases landed with
  | none =>
    exact hw.of_same hsound heffect.fence_eq (by simp [heffect.log])
      fun f hf => .inl (hinFlight f hf)
  | some q =>
    refine hw.lands hsound heffect.lands (by simpa using heffect.log) ?_
      fun f hf => .inl (hinFlight f hf)
    rcases hlanded q rfl with ⟨j, -, hmem⟩ | ⟨-, owner, rfl⟩
    · exact hw.inFlight _ hmem
    · trivial

end FenceWorld

end EventStore
