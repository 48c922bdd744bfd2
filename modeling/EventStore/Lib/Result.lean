import Mathlib

/-!
Computations that may fail, and the failure picked when several checks fail at
once: the first of the smallest key, in list order.
-/
namespace Result

variable {ε α β : Type}

theorem bind_eq_ok {x : Except ε α} {f : α → Except ε β} {b : β} :
    (x >>= f) = .ok b ↔ ∃ a, x = .ok a ∧ f a = .ok b := by
  cases x <;> simp [bind, Except.bind]

theorem bind_eq_error {x : Except ε α} {f : α → Except ε β} {e : ε} :
    (x >>= f) = .error e ↔ x = .error e ∨ ∃ a, x = .ok a ∧ f a = .error e := by
  cases x <;> simp [bind, Except.bind]

theorem map_eq_ok {x : Except ε α} {f : α → β} {b : β} :
    x.map f = .ok b ↔ ∃ a, x = .ok a ∧ f a = b := by
  cases x <;> simp [Except.map]

theorem seq_eq_ok {x : Except ε Unit} {y : Except ε β} {b : β} :
    (x >>= fun _ => y) = .ok b ↔ x = .ok () ∧ y = .ok b := by
  cases x <;> simp [bind, Except.bind]

theorem seq_eq_error {x : Except ε Unit} {y : Except ε β} {e : ε} :
    (x >>= fun _ => y) = .error e ↔ x = .error e ∨ x = .ok () ∧ y = .error e := by
  cases x <;> simp [bind, Except.bind]

theorem mapM_eq_ok {f : α → Except ε β} {l : List α} {out : List β} :
    l.mapM f = .ok out ↔ List.Forall₂ (fun a b => f a = .ok b) l out := by
  induction l generalizing out with
  | nil =>
    rw [List.mapM_nil, List.forall₂_nil_left_iff]
    exact ⟨fun h => (Except.ok.inj h).symm, fun h => h ▸ rfl⟩
  | cons a l ih =>
    rw [List.mapM_cons, bind_eq_ok]
    constructor
    · rintro ⟨b, hb, h⟩
      obtain ⟨bs, hbs, h⟩ := bind_eq_ok.mp h
      cases h
      exact .cons hb (ih.mp hbs)
    · intro h
      cases h with
      | cons hb hbs => exact ⟨_, hb, bind_eq_ok.mpr ⟨_, ih.mpr hbs, rfl⟩⟩

theorem mem_of_mapM {f : α → Except ε β} {l : List α} {out : List β} (h : l.mapM f = .ok out) :
    (∀ b ∈ out, ∃ a ∈ l, f a = .ok b) ∧ ∀ a ∈ l, ∃ b ∈ out, f a = .ok b := by
  induction mapM_eq_ok.mp h with
  | nil => simp
  | @cons a b l out hab hrest ih =>
    obtain ⟨hout, hl⟩ := ih (mapM_eq_ok.mpr hrest)
    refine ⟨fun c hc => ?_, fun c hc => ?_⟩
    · rcases List.mem_cons.mp hc with rfl | hc
      · exact ⟨a, List.mem_cons_self, hab⟩
      · obtain ⟨d, hd, hdc⟩ := hout c hc
        exact ⟨d, List.mem_cons_of_mem _ hd, hdc⟩
    · rcases List.mem_cons.mp hc with rfl | hc
      · exact ⟨b, List.mem_cons_self, hab⟩
      · obtain ⟨d, hd, hcd⟩ := hl c hc
        exact ⟨d, List.mem_cons_of_mem _ hd, hcd⟩

def refuse (c : Prop) [Decidable c] (e : ε) : Except ε Unit := if c then .error e else .ok ()

@[simp] theorem refuse_eq_ok {c : Prop} [Decidable c] {e : ε} : refuse c e = .ok () ↔ ¬c := by
  by_cases h : c <;> simp [refuse, h]

@[simp] theorem refuse_eq_error {c : Prop} [Decidable c] {e e' : ε} :
    refuse c e = .error e' ↔ c ∧ e = e' := by
  by_cases h : c <;> simp [refuse, h]

/-- The computation never fails with an error of the given kind. -/
def Avoids (kind : ε → Bool) (x : Except ε α) : Prop := ∀ e, x = .error e → kind e = false

section Avoids

variable {kind : ε → Bool}

@[simp] theorem avoids_ok (a : α) : Avoids kind (.ok a : Except ε α) := by
  intro e h
  cases h

@[simp] theorem avoids_pure (a : α) : Avoids kind (pure a : Except ε α) := avoids_ok a

@[simp] theorem avoids_error {e : ε} :
    Avoids kind (.error e : Except ε α) ↔ kind e = false := by
  simp [Avoids]

@[simp] theorem avoids_refuse {c : Prop} [Decidable c] {e : ε} :
    Avoids kind (refuse c e) ↔ (c → kind e = false) := by
  by_cases h : c <;> simp [refuse, h]

@[simp] theorem avoids_bind {x : Except ε α} {f : α → Except ε β} :
    Avoids kind (x >>= f) ↔ Avoids kind x ∧ ∀ a, x = .ok a → Avoids kind (f a) := by
  cases x <;> simp [bind, Except.bind]

@[simp] theorem avoids_map {x : Except ε α} {f : α → β} :
    Avoids kind (f <$> x) ↔ Avoids kind x := by
  cases x <;> simp [Functor.map, Except.map]

@[simp] theorem avoids_except_map {x : Except ε α} {f : α → β} :
    Avoids kind (x.map f) ↔ Avoids kind x := avoids_map

@[simp] theorem avoids_discard {x : Except ε α} :
    Avoids kind (discard x) ↔ Avoids kind x := avoids_map

@[simp] theorem avoids_mapError {δ : Type} {x : Except δ α} {f : δ → ε} :
    Avoids kind (x.mapError f) ↔ ∀ e, x = .error e → kind (f e) = false := by
  cases x <;> simp [Except.mapError]

theorem avoids_mapM {f : α → Except ε β} (l : List α) (h : ∀ a ∈ l, Avoids kind (f a)) :
    Avoids kind (l.mapM f) := by
  induction l with
  | nil => simp
  | cons a l ih =>
    rw [List.mapM_cons]
    simp only [avoids_bind, avoids_pure, implies_true, and_true]
    exact ⟨h a (by simp), fun _ _ => ih fun b hb => h b (by simp [hb])⟩

end Avoids

end Result

namespace Ranking

variable {α : Type} (key : α → Nat)

def firstMin : List α → Option α
  | [] => none
  | a :: l =>
    match firstMin l with
    | none => some a
    | some b => if key a ≤ key b then some a else some b

def IsFirstMin (l : List α) (a : α) : Prop :=
  ∃ before after, l = before ++ a :: after ∧
    (∀ b ∈ before, key a < key b) ∧ ∀ b ∈ after, key a ≤ key b

theorem firstMin_eq_none {l : List α} : firstMin key l = none ↔ l = [] := by
  cases l with
  | nil => simp [firstMin]
  | cons a l =>
    simp only [firstMin]
    split
    · simp
    · split <;> simp

theorem isFirstMin_of_firstMin {l : List α} {a : α} (h : firstMin key l = some a) :
    IsFirstMin key l a := by
  induction l generalizing a with
  | nil => cases h
  | cons c l ih =>
    simp only [firstMin] at h
    cases hl : firstMin key l with
    | none =>
      rw [hl] at h
      obtain rfl := (firstMin_eq_none key).mp hl
      cases h
      exact ⟨[], [], rfl, by simp, by simp⟩
    | some b =>
      rw [hl] at h
      obtain ⟨before, after, rfl, hbefore, hafter⟩ := ih hl
      simp only at h
      split at h
      · rename_i hle
        cases h
        refine ⟨[], before ++ b :: after, rfl, by simp, ?_⟩
        intro d hd
        rcases List.mem_append.mp hd with hd | hd
        · exact hle.trans (hbefore d hd).le
        · rcases List.mem_cons.mp hd with rfl | hd
          · exact hle
          · exact hle.trans (hafter d hd)
      · rename_i hlt
        cases h
        refine ⟨c :: before, after, rfl, ?_, hafter⟩
        intro d hd
        rcases List.mem_cons.mp hd with rfl | hd
        · omega
        · exact hbefore d hd

theorem firstMin_of_isFirstMin {l : List α} {a : α} (h : IsFirstMin key l a) :
    firstMin key l = some a := by
  obtain ⟨before, after, rfl, hbefore, hafter⟩ := h
  induction before with
  | nil =>
    simp only [List.nil_append, firstMin]
    cases hl : firstMin key after with
    | none => rfl
    | some b =>
      obtain ⟨p, q, rfl, _, _⟩ := isFirstMin_of_firstMin key hl
      simp [hafter b (by simp)]
  | cons c before ih =>
    have hc := hbefore c (by simp)
    simp only [List.cons_append, firstMin, ih fun b hb => hbefore b (by simp [hb])]
    rw [if_neg (by omega)]

theorem firstMin_eq_some {l : List α} {a : α} :
    firstMin key l = some a ↔ IsFirstMin key l a :=
  ⟨isFirstMin_of_firstMin key, firstMin_of_isFirstMin key⟩

theorem firstMin_congr {key' : α → Nat} {l : List α}
    (h : ∀ a ∈ l, ∀ b ∈ l, key a ≤ key b ↔ key' a ≤ key' b) :
    firstMin key l = firstMin key' l := by
  cases hl : firstMin key' l with
  | none => rw [firstMin_eq_none] at hl ⊢; exact hl
  | some a =>
    obtain ⟨before, after, rfl, hbefore, hafter⟩ := isFirstMin_of_firstMin key' hl
    refine firstMin_of_isFirstMin key ⟨before, after, rfl, ?_, ?_⟩
    · intro b hb
      have := hbefore b hb
      have := h b (by simp [hb]) a (by simp)
      omega
    · intro b hb
      exact (h a (by simp) b (by simp [hb])).mpr (hafter b hb)

theorem firstMin_eq_head? {l : List α} {k : Nat} (h : ∀ a ∈ l, key a = k) :
    firstMin key l = l.head? := by
  cases l with
  | nil => rfl
  | cons a l =>
    refine firstMin_of_isFirstMin key ⟨[], l, rfl, by simp, fun b hb => ?_⟩
    rw [h a (by simp), h b (by simp [hb])]

/-- A block of smaller keys hides everything after it. -/
theorem firstMin_append {l l' : List α} (h : ∀ a ∈ l, ∀ b ∈ l', key a ≤ key b) :
    firstMin key (l ++ l') = (firstMin key l).or (firstMin key l') := by
  cases hl : firstMin key l with
  | none =>
    obtain rfl := (firstMin_eq_none key).mp hl
    rfl
  | some a =>
    obtain ⟨before, after, rfl, hbefore, hafter⟩ := isFirstMin_of_firstMin key hl
    refine firstMin_of_isFirstMin key ⟨before, after ++ l', by simp, hbefore, ?_⟩
    intro b hb
    rcases List.mem_append.mp hb with hb | hb
    · exact hafter b hb
    · exact h a (by simp) b hb

/-- Fails with the picked element of a list of failures, when there is one. -/
def report (l : List α) : Except α Unit :=
  match firstMin key l with
  | some a => .error a
  | none => .ok ()

theorem report_eq_error {l : List α} {a : α} :
    report key l = .error a ↔ IsFirstMin key l a := by
  rw [← firstMin_eq_some, report]
  split <;> simp_all

theorem report_filter {β : Type} (fails : β → Bool) (failure : β → α) {k : Nat}
    (hkey : ∀ b, key (failure b) = k) (l : List β) :
    report key ((l.filter fails).map failure) =
      match l.find? fails with
      | some b => .error (failure b)
      | none => .ok () := by
  have hsame : ∀ a ∈ (l.filter fails).map failure, key a = k := by
    intro a ha
    obtain ⟨b, -, rfl⟩ := List.mem_map.mp ha
    exact hkey b
  rw [report, firstMin_eq_head? key hsame, List.head?_map, List.head?_filter]
  cases l.find? fails <;> rfl

/-- Two groups of checks report as one list when the first outranks the second. -/
theorem report_append {l l' : List α} (h : ∀ a ∈ l, ∀ b ∈ l', key a ≤ key b) :
    report key (l ++ l') = (report key l >>= fun _ => report key l') := by
  unfold report
  rw [firstMin_append key h]
  cases firstMin key l <;> rfl

section Orders

variable {α β : Type*} [LinearOrder β]

theorem pairwise_insertionSort (key : α → β) (l : List α) :
    (l.insertionSort fun a b => key a ≤ key b).Pairwise fun a b => key a ≤ key b := by
  have : Std.Total (fun a b => key a ≤ key b) := ⟨fun a b => le_total (key a) (key b)⟩
  have : IsTrans α (fun a b => key a ≤ key b) := ⟨fun a b c hab hbc => hab.trans hbc⟩
  exact List.pairwise_insertionSort (fun a b => key a ≤ key b) l

theorem foldl_max_le_iff {l : List β} {a b : β} :
    l.foldl max a ≤ b ↔ a ≤ b ∧ ∀ x ∈ l, x ≤ b := by
  induction l generalizing a with
  | nil => simp
  | cons x l ih => rw [List.foldl_cons, ih, max_le_iff, List.forall_mem_cons, and_assoc]

end Orders

end Ranking
