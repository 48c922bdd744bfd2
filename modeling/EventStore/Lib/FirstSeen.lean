import Mathlib.Data.List.Infix
import Mathlib.Data.List.Nodup

/-!
The elements of a list in the order in which they are first seen.
-/
namespace FirstSeen

variable {α : Type} [DecidableEq α]

def see (seen : List α) (a : α) : List α := if a ∈ seen then seen else seen ++ [a]

def firsts (elements : List α) : List α := elements.foldl see []

theorem firsts_concat (elements : List α) (a : α) :
    firsts (elements ++ [a]) = see (firsts elements) a := by
  simp [firsts]

theorem see_of_mem {seen : List α} {a : α} (h : a ∈ seen) : see seen a = seen := if_pos h

theorem see_of_not_mem {seen : List α} {a : α} (h : a ∉ seen) : see seen a = seen ++ [a] :=
  if_neg h

@[simp] theorem mem_see {seen : List α} {a b : α} : b ∈ see seen a ↔ b ∈ seen ∨ b = a := by
  by_cases h : a ∈ seen
  · rw [see_of_mem h]
    exact ⟨.inl, fun hb => hb.elim id fun heq => heq ▸ h⟩
  · simp [see_of_not_mem h]

@[simp] theorem mem_firsts {elements : List α} {a : α} : a ∈ firsts elements ↔ a ∈ elements := by
  induction elements using List.reverseRecOn with
  | nil => rfl
  | append_singleton elements b ih => rw [firsts_concat, mem_see, ih, List.mem_append,
      List.mem_singleton]

theorem nodup_firsts (elements : List α) : (firsts elements).Nodup := by
  induction elements using List.reverseRecOn with
  | nil => exact List.nodup_nil
  | append_singleton elements a ih =>
    rw [firsts_concat]
    by_cases h : a ∈ firsts elements
    · rwa [see_of_mem h]
    · rw [see_of_not_mem h]
      rw [← List.concat_eq_append]
      exact ih.concat h

/-- The order is that of the first places. -/
theorem firsts_ordered (elements : List α) :
    (firsts elements).Pairwise fun a b => elements.idxOf a < elements.idxOf b := by
  induction elements using List.reverseRecOn with
  | nil => exact List.Pairwise.nil
  | append_singleton elements a ih =>
    have hold : (firsts elements).Pairwise fun b c =>
        (elements ++ [a]).idxOf b < (elements ++ [a]).idxOf c := by
      refine ih.imp_of_mem fun hb hc hbc => ?_
      rw [List.idxOf_append_of_mem (mem_firsts.mp hb), List.idxOf_append_of_mem (mem_firsts.mp hc)]
      exact hbc
    rw [firsts_concat]
    by_cases h : a ∈ firsts elements
    · rwa [see_of_mem h]
    · rw [see_of_not_mem h]
      refine List.pairwise_append.mpr ⟨hold, List.pairwise_singleton _ _, fun b hb c hc => ?_⟩
      rw [List.mem_singleton.mp hc, List.idxOf_append_of_mem (mem_firsts.mp hb),
        List.idxOf_append_of_notMem (mt mem_firsts.mpr h)]
      exact Nat.lt_add_right _ (List.idxOf_lt_length_of_mem (mem_firsts.mp hb))

/-- Lists without common elements keep their orders one after the other. -/
theorem firsts_append {left right : List α} (h : ∀ a ∈ right, a ∉ left) :
    firsts (left ++ right) = firsts left ++ firsts right := by
  induction right using List.reverseRecOn with
  | nil => simp [firsts]
  | append_singleton right a ih =>
    have hright : ∀ b ∈ right, b ∉ left := fun b hb => h b (List.mem_append_left [a] hb)
    have ha : a ∉ left := h a (by simp)
    rw [← List.append_assoc, firsts_concat, firsts_concat, ih hright]
    by_cases hseen : a ∈ right
    · rw [see_of_mem (by simp [hseen]), see_of_mem (by simp [hseen])]
    · rw [see_of_not_mem (by simp [ha, hseen]), see_of_not_mem (by simp [hseen]),
        List.append_assoc]

end FirstSeen
