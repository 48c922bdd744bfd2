import Mathlib.Logic.Relation
import Mathlib.Order.Lattice

/-!
Sessions that take shared and exclusive locks one by one and give all of them back at once. When
every program takes its locks in the order of one ranking, no sessions block each other in a
circle. Only locks that a nested request conflicts with need to be ranked.
-/
namespace Locking

inductive Mode
  | shared
  | exclusive
deriving DecidableEq

structure Lock (κ : Type*) where
  key : κ
  mode : Mode
deriving DecidableEq

variable {κ : Type*}

def Lock.Conflicts (a b : Lock κ) : Prop :=
  a.key = b.key ∧ (a.mode = .exclusive ∨ b.mode = .exclusive)

/-- The locks a session holds, in the order it took them, and those its program has left. -/
structure Session (κ : Type*) where
  held : List (Lock κ)
  pending : List (Lock κ)

/-- The sessions of the database by number; an idle one has nothing. -/
def State (κ : Type*) := Nat → Session κ

def State.idle : State κ := fun _ => ⟨[], []⟩

def State.set (s : State κ) (t : Nat) (session : Session κ) : State κ :=
  fun u => if u = t then session else s u

/-- The states of the runs in which the given programs were begun. A session may end at any
time. -/
inductive Run : List (List (Lock κ)) → State κ → Prop
  | idle : Run [] .idle
  | begins {programs : List (List (Lock κ))} {s : State κ} (h : Run programs s) (t : Nat)
      (program : List (Lock κ)) (hidle : (s t).held = [] ∧ (s t).pending = []) :
      Run (program :: programs) (s.set t ⟨[], program⟩)
  | acquires {programs : List (List (Lock κ))} {s : State κ} (h : Run programs s) (t : Nat)
      (lock : Lock κ) (rest : List (Lock κ)) (hpending : (s t).pending = lock :: rest)
      (hfree : ∀ u, u ≠ t → ∀ held ∈ (s u).held, ¬lock.Conflicts held) :
      Run programs (s.set t ⟨(s t).held ++ [lock], rest⟩)
  | ends {programs : List (List (Lock κ))} {s : State κ} (h : Run programs s) (t : Nat) :
      Run programs (s.set t ⟨[], []⟩)

/-- The next lock of the first session conflicts with one that the second holds. -/
def Waits (s : State κ) (t u : Nat) : Prop :=
  t ≠ u ∧ ∃ lock ∈ (s t).pending.head?, ∃ held ∈ (s u).held, lock.Conflicts held

def Deadlocked (s : State κ) : Prop := ∃ t, Relation.TransGen (Waits s) t t

section Ranking

variable {α : Type*} [LinearOrder α] {rank : κ → α} {nested : Lock κ → Prop}
  {programs : List (List (Lock κ))} {s : State κ}

/-- A program that takes a new lock only above all it holds that a nested request conflicts with. -/
structure Ordered (rank : κ → α) (nested : Lock κ → Prop) (program : List (Lock κ)) : Prop where
  requests : ∀ before lock after, program = before ++ lock :: after → before ≠ [] → nested lock
  ascending : ∀ before lock after, program = before ++ lock :: after → lock ∉ before →
    ∀ held ∈ before, (∃ other, nested other ∧ other.Conflicts held) → rank held.key < rank lock.key

theorem ordered_nil : Ordered rank nested [] :=
  ⟨fun before _ _ h => by simp at h, fun before _ _ h => by simp at h⟩

/-- What a run keeps: every session is within an ordered program, and no two sessions hold
conflicting locks. -/
structure Valid (rank : κ → α) (nested : Lock κ → Prop) (s : State κ) : Prop where
  ordered : ∀ t, Ordered rank nested ((s t).held ++ (s t).pending)
  apart : ∀ t u, t ≠ u → ∀ a ∈ (s t).held, ∀ b ∈ (s u).held, ¬a.Conflicts b

theorem Lock.Conflicts.symm {a b : Lock κ} (h : a.Conflicts b) : b.Conflicts a :=
  ⟨h.1.symm, h.2.symm⟩

theorem Valid.set (hs : Valid rank nested s) {t : Nat} {session : Session κ}
    (hordered : Ordered rank nested (session.held ++ session.pending))
    (hfree : ∀ u, u ≠ t → ∀ a ∈ session.held, ∀ b ∈ (s u).held, ¬a.Conflicts b) :
    Valid rank nested (s.set t session) where
  ordered u := by
    unfold State.set
    split
    · exact hordered
    · exact hs.ordered u
  apart u v huv a ha b hb := by
    unfold State.set at ha hb
    split at ha
    · rename_i hu
      rw [if_neg fun hv => huv (hu.trans hv.symm)] at hb
      exact hfree v (fun hv => huv (hu.trans hv.symm)) a ha b hb
    · split at hb
      · exact fun h => hfree u ‹_› b hb a ha h.symm
      · exact hs.apart u v huv a ha b hb

theorem Run.valid (h : Run programs s) (hordered : ∀ p ∈ programs, Ordered rank nested p) :
    Valid rank nested s := by
  induction h with
  | idle => exact ⟨fun _ => ordered_nil, fun _ _ _ _ ha => absurd ha List.not_mem_nil⟩
  | begins _ t program _ ih =>
    rw [List.forall_mem_cons] at hordered
    exact (ih hordered.2).set hordered.1 fun _ _ _ ha => absurd ha List.not_mem_nil
  | @acquires _ s _ t lock rest hpending hfree ih =>
    have hs := ih hordered
    refine hs.set ?_ fun u hu a ha b hb => ?_
    · simpa [hpending] using hs.ordered t
    · rcases List.mem_append.mp ha with ha | ha
      · exact hs.apart t u hu.symm a ha b hb
      · rw [List.mem_singleton.mp ha]
        exact hfree u hu b hb
  | ends _ t ih =>
    exact (ih hordered).set ordered_nil fun _ _ _ ha => absurd ha List.not_mem_nil

/-- Between sessions that are themselves waited for and waiting, the wanted locks ascend. -/
theorem Valid.rank_lt_of_waits (hs : Valid rank nested s) {t u : Nat} (h : Waits s t u)
    (hheld : (s t).held ≠ []) {a b : Lock κ} (ha : a ∈ (s t).pending.head?)
    (hb : b ∈ (s u).pending.head?) (hnew : b ∉ (s u).held) : rank a.key < rank b.key := by
  obtain ⟨-, lock, hlock, held, hmem, hconflict⟩ := h
  obtain rfl : a = lock := Option.mem_unique ha hlock
  obtain ⟨rest, hrest⟩ := List.head?_eq_some_iff.mp ha
  obtain ⟨rest', hrest'⟩ := List.head?_eq_some_iff.mp hb
  have hnested := (hs.ordered t).requests _ a rest (by rw [hrest]) hheld
  rw [hconflict.1]
  exact (hs.ordered u).ascending _ b rest' (by rw [hrest']) hnew held hmem ⟨a, hnested, hconflict⟩

theorem Valid.not_mem_of_waits (hs : Valid rank nested s) {t u : Nat} (h : Waits s t u) {a : Lock κ}
    (ha : a ∈ (s t).pending.head?) : a ∉ (s t).held := by
  obtain ⟨hne, lock, hlock, held, hmem, hconflict⟩ := h
  obtain rfl : a = lock := Option.mem_unique ha hlock
  exact fun hheld => hs.apart t u hne a hheld held hmem hconflict

theorem Waits.held_ne_nil {t u : Nat} (h : Waits s t u) : (s u).held ≠ [] := by
  obtain ⟨-, _, -, held, hmem, -⟩ := h
  exact List.ne_nil_of_mem hmem

theorem Valid.rank_lt_of_transGen (hs : Valid rank nested s) {t u v : Nat}
    (h : Relation.TransGen (Waits s) t u) (hheld : (s t).held ≠ []) (hu : Waits s u v)
    {a b : Lock κ} (ha : a ∈ (s t).pending.head?) (hb : b ∈ (s u).pending.head?) :
    rank a.key < rank b.key := by
  induction h generalizing v b with
  | single h => exact hs.rank_lt_of_waits h hheld ha hb (hs.not_mem_of_waits hu hb)
  | @tail u w htu huw ih =>
    obtain ⟨-, lock, hlock, -⟩ := id huw
    have hbefore : (s u).held ≠ [] := by
      obtain ⟨x, -, hx⟩ := Relation.TransGen.tail'_iff.mp htu
      exact hx.held_ne_nil
    exact (ih huw hlock).trans
      (hs.rank_lt_of_waits huw hbefore hlock hb (hs.not_mem_of_waits hu hb))

/-- Sessions of ordered programs never block each other in a circle. -/
theorem Run.not_deadlocked (h : Run programs s) (hordered : ∀ p ∈ programs, Ordered rank nested p) :
    ¬Deadlocked s := by
  rintro ⟨t, hcycle⟩
  have hs := h.valid hordered
  obtain ⟨u, htu, -⟩ := Relation.TransGen.head'_iff.mp hcycle
  obtain ⟨x, -, hxt⟩ := Relation.TransGen.tail'_iff.mp hcycle
  obtain ⟨-, lock, hlock, -⟩ := id htu
  exact lt_irrefl _ (hs.rank_lt_of_transGen hcycle hxt.held_ne_nil htu hlock hlock)

end Ranking

end Locking
