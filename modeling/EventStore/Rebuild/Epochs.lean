import EventStore.Rebuild.World

/-!
Reads of derived state under a rebuild epoch: the generation is read before and after, and a read
that counts lies in an interval in which no rebuild wrote and the fence did not change.
-/
namespace EventStore

open Result FenceProgram

theorem RebuildEpoch.observe_ok {generation : RebuildGeneration} {epoch : RebuildEpoch}
    (h : RebuildEpoch.observe generation = .ok epoch) :
    epoch.generation = generation.value ∧ generation.value % 2 = 0 := by
  obtain ⟨hsettled, h⟩ := seq_eq_ok.mp h
  cases h
  refine ⟨rfl, RebuildGeneration.isSettled_iff.mp ?_⟩
  simpa [unavailable] using hsettled

theorem RebuildEpoch.verify_ok {epoch : RebuildEpoch} {generation : RebuildGeneration}
    (h : epoch.verify generation = .ok ()) : generation.value = epoch.generation := by
  obtain ⟨-, h⟩ := seq_eq_ok.mp h
  simpa using h

namespace FenceWorld

variable {ι : Type} [DecidableEq ι]

def Relies (i : ι) (w w' : FenceWorld ι) : Prop := w.Later w' ∧ w'.marks i = w.marks i

def Guarantees (i : ι) (w w' : FenceWorld ι) : Prop :=
  (w'.Sound ∧ w.Later w') ∧ ∀ j, j ≠ i → w'.marks j = w.marks j

abbrev Reads {α : Type} (i : ι) (post : α → FenceWorld ι → Prop) (p : FenceProgram α)
    (w : FenceWorld ι) : Prop :=
  Script.Safe (FenceActs i) (Relies i) Sound (Guarantees i) post p w

variable {α : Type} {i : ι} {w : FenceWorld ι}

theorem guarantees_acts {w' : FenceWorld ι} {a : FenceAsk} {answer : FenceAnswer a}
    (hw : w.Sound) (h : FenceActs i w a answer w') : Guarantees i w w' :=
  ⟨h.sound hw, fun _ hj => h.marks hj⟩

theorem marks_grow {w' : FenceWorld ι} {a : FenceAsk} {answer : FenceAnswer a}
    (h : FenceActs i w a answer w') : w.marks i <+: w'.marks i := by
  cases h with
  | generation | lock => simp [marked]
  | _ => exact List.prefix_rfl

theorem reads_any (p : FenceProgram α) :
    Reads i (fun _ u => w.Later u ∧ w.marks i <+: u.marks i) p w := by
  have hasks : p.Asks fun _ => True := by
    induction p with
    | done a => trivial
    | call a next ih => exact ⟨trivial, ih⟩
  refine Script.Safe.of_asks hasks ⟨.refl w, List.prefix_rfl⟩ ?_ ?_
  · rintro t u ⟨hlater, hmarks⟩ ⟨hrely, hsame⟩
    exact ⟨hlater.trans hrely, hsame.symm ▸ hmarks⟩
  · rintro t a answer u - hsound ⟨hlater, hmarks⟩ hact
    exact ⟨guarantees_acts hsound hact, hlater.trans (hact.sound hsound).2,
      hmarks.trans (marks_grow hact)⟩

theorem reads_of_reaches {post : ι → α → FenceWorld ι → Prop}
    (hstable : ∀ i a s t, post i a s → Relies i s t → post i a t)
    {c c' : FenceWorld ι × (ι → FenceProgram α)} (hreach : Pool.Reaches FenceActs FenceMoves c c')
    (hsound : c.1.Sound) (hreads : ∀ i, Reads i (post i) (c.2 i) c.1) :
    c'.1.Sound ∧ ∀ i, Reads i (post i) (c'.2 i) c'.1 := by
  refine Pool.safe_of_reaches (fun i w => ⟨.refl w, rfl⟩) ?_ hstable ?_ ?_ hreach hsound hreads
  · rintro i s t u ⟨hlater, hmarks⟩ ⟨hlater', hmarks'⟩
    exact ⟨hlater.trans hlater', hmarks'.trans hmarks⟩
  · rintro i s t - ⟨⟨hsound', hlater⟩, hmarks⟩
    exact ⟨hsound', fun j hj => ⟨hlater, hmarks j hj⟩⟩
  · intro s t hs hmove
    obtain ⟨hsound', hlater⟩ := hmove.sound hs
    exact ⟨hsound', fun j => ⟨hlater, congrFun hmove.effect.2.2 j⟩⟩

theorem reads_generation :
    Reads i (fun r u => ∀ generation, r = .ok generation → w.Later u ∧
      generation = u.fence.generation ∧ u.marks i = w.marks i ++ [u.log.length])
      rebuildGeneration w := by
  refine Script.Safe.ask fun t hrely hsound answer u hact => ⟨guarantees_acts hsound hact, ?_⟩
  intro generation hanswer
  have hlater := hrely.1.trans (hact.sound hsound).2
  cases hact with
  | generation =>
    cases hanswer
    exact ⟨hlater, rfl, by simp [marked, hrely.2]⟩
  | fails h =>
    obtain ⟨error, rfl⟩ := h
    cases hanswer

/-- The interval between the first and the last read of a program holds notes only. -/
def Unmixed (i : ι) (w : FenceWorld ι) : Prop :=
  ∃ first between last, w.marks i = first :: between ++ [last] ∧ last ≤ w.log.length ∧
    ∀ e ∈ (w.log.take last).drop first, e.isNote = true

omit [DecidableEq ι] in
theorem Unmixed.stable {w' : FenceWorld ι} (h : Unmixed i w) (hrely : Relies i w w') :
    Unmixed i w' := by
  obtain ⟨first, between, last, hmarks, hlast, hnotes⟩ := h
  obtain ⟨more, hmore⟩ := hrely.1.log
  refine ⟨first, between, last, hrely.2.trans hmarks, hlast.trans hrely.1.log.length_le, ?_⟩
  rwa [← hmore, List.take_append_of_le_length hlast]

theorem reads_converted {ε : Type} {from' : Error → ε} {p : FenceProgram (Except Error α)}
    {post : α → FenceWorld ι → Prop}
    (h : Reads i (fun r u => ∀ a, r = .ok a → post a u) p w) :
    Reads i (fun r u => ∀ a, r = .ok a → post a u) (converted from' p) w := by
  refine h.bind fun result u hpost => ?_
  cases result with
  | error error => exact fun a ha => nomatch ha
  | ok a =>
    rintro _ ⟨⟩
    exact hpost a rfl

theorem readAtRebuildEpoch_reads {ε T : Type} (from' : Error → ε)
    (read : RebuildEpoch → FenceProgram (Except ε T)) (hmarks : w.marks i = []) :
    Reads i (fun r u => ∀ value, r = .ok value → Unmixed i u)
      (readAtRebuildEpoch from' read) w := by
  have hobserve : Reads i (fun r u => ∀ epoch : RebuildEpoch, r = .ok epoch →
      epoch.generation = u.value ∧ u.value % 2 = 0 ∧ u.marks i = [u.log.length])
      observeRebuildEpoch w := by
    refine Script.Safe.andThen _ reads_generation (by simp) ?_
    intro generation u hu epoch hepoch
    obtain ⟨-, rfl, hmark⟩ := hu generation rfl
    obtain ⟨heq, heven⟩ := RebuildEpoch.observe_ok hepoch
    exact ⟨heq, heven, by rw [hmark, hmarks]; rfl⟩
  refine Script.Safe.andThen _ (reads_converted hobserve) (by simp) fun epoch u₁ h₁ => ?_
  obtain ⟨hepoch, heven, hfirst⟩ := h₁ epoch rfl
  refine Script.Safe.andThen _ (reads_any (read epoch)) (by simp) fun value u₂ h₂ => ?_
  obtain ⟨hlater, between, hbetween⟩ := h₂
  have hverify : Reads i (fun r u => ∀ v, r = .ok v → Unmixed i u)
      (verifyRebuildEpoch epoch) u₂ := by
    refine Script.Safe.andThen _ reads_generation (by simp) ?_
    intro generation u₃ hu v hv
    obtain ⟨hlater', rfl, hlast⟩ := hu generation rfl
    have hsame : u₃.value = u₁.value := (RebuildEpoch.verify_ok hv).trans hepoch
    refine ⟨u₁.log.length, between, u₃.log.length, ?_, le_rfl, ?_⟩
    · rw [hlast, ← hbetween, hfirst]
      simp
    · rw [List.take_length]
      exact (hlater.trans hlater').quiet hsame heven
  refine Script.Safe.andThen _ (reads_converted hverify) (by simp) fun v u₃ h₃ => ?_
  exact fun _ _ => h₃ v rfl

end FenceWorld

open FenceWorld

/-- While a read under an epoch runs, no rebuild write applied and the fence did not move. -/
theorem epoch_reads_unmixed {ι : Type} [DecidableEq ι] {ε T : Type} (from' : Error → ε)
    (read : RebuildEpoch → FenceProgram (Except ε T)) (x : ι → FenceProgram (Except ε T)) (i : ι)
    (hx : x i = readAtRebuildEpoch from' read) (stores : Stores)
    (hstores : stores.rebuild = .empty) (w : FenceWorld ι)
    (threads : ι → FenceProgram (Except ε T))
    (hreach : Pool.Reaches FenceActs FenceMoves (FenceWorld.start stores, x) (w, threads))
    (value : T) (hdone : threads i = .done (.ok value)) :
    ∃ first between last, w.marks i = first :: between ++ [last] ∧
      (∀ author change, .changed author change ∉ (w.log.take last).drop first) ∧
      ∀ author lease views, .wrote author lease views ∉ (w.log.take last).drop first := by
  have hreads : ∀ j, Reads j (fun r u => j = i → ∀ value, r = .ok value → Unmixed i u) (x j)
      (start stores : FenceWorld ι) := by
    intro j
    by_cases hj : j = i
    · subst hj
      rw [hx]
      exact (readAtRebuildEpoch_reads from' read rfl).mono fun r u h _ => h
    · exact (reads_any (x j)).mono fun r u _ h => absurd h hj
  obtain ⟨-, hsafe⟩ := reads_of_reaches (fun j r s t h hrely hj value hr => by
    subst hj
    exact (h rfl value hr).stable hrely) hreach (sound_start hstores) hreads
  have hunmixed : Reads i _ (threads i) w := hsafe i
  rw [hdone] at hunmixed
  obtain ⟨first, between, last, hmarks, -, hnotes⟩ := hunmixed rfl value rfl
  exact ⟨first, between, last, hmarks, fun author change hmem => (nomatch hnotes _ hmem),
    fun author lease views hmem => (nomatch hnotes _ hmem)⟩

def readerAndRebuild : Fin 2 → FenceProgram (Except Error Unit)
  | 0 => readAtRebuildEpoch id fun _ => (readRow ("p", "s")).andThen fun _ => .done (.ok ())
  | 1 => (beginRebuild "w" ⟨60, 0⟩).andThen fun lease =>
    (endRebuild lease).andThen fun _ => .done (.ok ())

/-- A read after a rebuild has ended. -/
theorem epoch_reads_unmixed_after_rebuild :
    let c := Pool.turns (FenceWorld.answer 0 []) (FenceWorld.start .empty, readerAndRebuild)
      [1, 1, 0, 0, 0]
    c.2 0 = .done (.ok ()) ∧ ∃ first between last, c.1.marks 0 = first :: between ++ [last] ∧
      ∀ author change, .changed author change ∉ (c.1.log.take last).drop first := by
  intro c
  have hdone : c.2 0 = .done (.ok ()) := rfl
  obtain ⟨first, between, last, hmarks, hchanged, -⟩ := epoch_reads_unmixed id _ readerAndRebuild 0
    rfl .empty rfl c.1 c.2 (Pool.reaches_turns (acts_answer 0 []) _ _) () hdone
  exact ⟨hdone, first, between, last, hmarks, hchanged⟩

end EventStore
