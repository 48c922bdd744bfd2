import EventStore.Lib.Result

/-!
Steps that can fail and commute where they succeed. When they also settle, so that a step made
twice is the step made once, a fold depends only on which steps it makes.
-/
namespace Commuting

open Result

variable {ε σ α : Type} {f g h : σ → Except ε σ}

def Commute (f g : σ → Except ε σ) : Prop := ∀ s t, (f s >>= g) = .ok t ↔ (g s >>= f) = .ok t

def Settles (f : σ → Except ε σ) : Prop := ∀ s t, f s = .ok t → f t = .ok t

theorem Commute.symm (hfg : Commute f g) : Commute g f := fun s t => (hfg s t).symm

theorem Commute.pure : Commute (fun s => .ok s) g := by
  intro s t
  simp only [bind_eq_ok, Except.ok.injEq, exists_eq_left', exists_eq_right]

theorem Commute.of_fails (hf : ∀ s t, f s ≠ .ok t) : Commute f g := by
  intro s t
  simp [bind_eq_ok, hf]

theorem Commute.comp (hf : Commute f h) (hg : Commute g h) : Commute (fun s => f s >>= g) h := by
  intro s t
  have hlast (u : σ) : (g u >>= h) = .ok t ↔ (h u >>= g) = .ok t := hg u t
  calc ((f s >>= g) >>= h) = .ok t
      ↔ ∃ u, f s = .ok u ∧ (g u >>= h) = .ok t := by rw [bind_assoc, bind_eq_ok]
    _ ↔ ((f s >>= h) >>= g) = .ok t := by simp only [hlast, bind_assoc, bind_eq_ok]
    _ ↔ ∃ v, (f s >>= h) = .ok v ∧ g v = .ok t := bind_eq_ok
    _ ↔ ((h s >>= f) >>= g) = .ok t := by simp only [hf s, bind_eq_ok]
    _ ↔ (h s >>= fun s => f s >>= g) = .ok t := by rw [bind_assoc]

theorem Settles.comp (hfg : Commute f g) (hf : Settles f) (hg : Settles g) :
    Settles fun s => f s >>= g := by
  intro s t hst
  obtain ⟨u, hu, ht⟩ := bind_eq_ok.mp hst
  -- the first step made again before the second is the first step made after it
  have hagain : (f u >>= g) = .ok t := bind_eq_ok.mpr ⟨u, hf s u hu, ht⟩
  obtain ⟨v, hv, hft⟩ := bind_eq_ok.mp ((hfg u t).mp hagain)
  obtain rfl : t = v := Except.ok.inj (ht.symm.trans hv)
  exact bind_eq_ok.mpr ⟨t, hft, hg u t ht⟩

section Folds

variable {step : σ → α → Except ε σ} {l l' : List α}

theorem Commute.foldlM (hl : ∀ a ∈ l, Commute (step · a) g) : Commute (l.foldlM step ·) g := by
  induction l with
  | nil => exact .pure
  | cons a l ih =>
    obtain ⟨ha, hl⟩ := List.forall_mem_cons.mp hl
    exact ha.comp (ih hl)

theorem Settles.foldlM (hcomm : ∀ a b, Commute (step · a) (step · b))
    (hsettles : ∀ a, Settles (step · a)) : Settles (l.foldlM step ·) := by
  induction l with
  | nil => exact fun s t _ => rfl
  | cons a l ih => exact .comp (Commute.foldlM fun b _ => hcomm b a).symm (hsettles a) ih

theorem foldlM_perm (hcomm : ∀ a b, Commute (step · a) (step · b)) (hperm : l.Perm l') (s t : σ) :
    l.foldlM step s = .ok t ↔ l'.foldlM step s = .ok t := by
  induction hperm generalizing s with
  | nil => rfl
  | cons a _ ih => simp only [List.foldlM_cons, bind_eq_ok, ih]
  | swap a b l =>
    simp only [List.foldlM_cons, ← bind_assoc]
    rw [bind_eq_ok, bind_eq_ok]
    simp only [hcomm b a s]
  | trans _ _ ih ih' => exact (ih s).trans (ih' s)

variable [DecidableEq α]

theorem foldlM_cons_of_mem (hcomm : ∀ a b, Commute (step · a) (step · b))
    (hsettles : ∀ a, Settles (step · a)) {a : α} (ha : a ∈ l) (s t : σ) :
    (a :: l).foldlM step s = .ok t ↔ l.foldlM step s = .ok t := by
  have hperm := List.perm_cons_erase ha
  rw [foldlM_perm hcomm hperm, foldlM_perm hcomm (hperm.cons a)]
  simp only [List.foldlM_cons, bind_eq_ok]
  constructor
  · rintro ⟨u, hu, v, hv, ht⟩
    obtain rfl : u = v := Except.ok.inj ((hsettles a s u hu).symm.trans hv)
    exact ⟨u, hu, ht⟩
  · rintro ⟨u, hu, ht⟩
    exact ⟨u, hu, u, hsettles a s u hu, ht⟩

theorem foldlM_dedup (hcomm : ∀ a b, Commute (step · a) (step · b))
    (hsettles : ∀ a, Settles (step · a)) (s t : σ) :
    l.dedup.foldlM step s = .ok t ↔ l.foldlM step s = .ok t := by
  induction l generalizing s with
  | nil => rfl
  | cons a l ih =>
    by_cases ha : a ∈ l
    · rw [List.dedup_cons_of_mem ha, ih, foldlM_cons_of_mem hcomm hsettles ha]
    · rw [List.dedup_cons_of_notMem ha]
      simp only [List.foldlM_cons, bind_eq_ok, ih]

/-- The order of the steps and their repetitions do not matter. -/
theorem foldlM_of_mem_iff (hcomm : ∀ a b, Commute (step · a) (step · b))
    (hsettles : ∀ a, Settles (step · a)) (hmem : ∀ a, a ∈ l ↔ a ∈ l') (s t : σ) :
    l.foldlM step s = .ok t ↔ l'.foldlM step s = .ok t := by
  have hperm : l.dedup.Perm l'.dedup := by
    rw [List.perm_ext_iff_of_nodup (List.nodup_dedup l) (List.nodup_dedup l')]
    simpa using hmem
  rw [← foldlM_dedup hcomm hsettles, foldlM_perm hcomm hperm, foldlM_dedup hcomm hsettles]

end Folds

end Commuting
