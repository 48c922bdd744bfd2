import Mathlib

/-!
Ordered finite maps with extensional equality, and lists whose elements carry
consecutive numbers. Storing such a list under its numbers fills exactly one
interval of keys.
-/

/-- An ordered map with decidable, extensional equality. -/
abbrev OrdMap (κ : Type) (ν : Type) [Ord κ] := Std.ExtTreeMap κ ν compare

namespace OrdMap

variable {κ ν : Type} [Ord κ] [Std.TransOrd κ] [Std.LawfulEqOrd κ] [DecidableEq κ]

theorem get_insert (m : OrdMap κ ν) (k a : κ) (v : ν) :
    (m.insert k v)[a]? = if a = k then some v else m[a]? := by
  rw [Std.ExtTreeMap.getElem?_insert]
  simp only [Std.LawfulEqCmp.compare_eq_iff_eq, eq_comm (a := k)]

omit [Std.LawfulEqOrd κ] [DecidableEq κ] in
theorem get_insert_self (m : OrdMap κ ν) (k : κ) (v : ν) : (m.insert k v)[k]? = some v := by
  simp

theorem get_insert_ne (m : OrdMap κ ν) {k a : κ} (v : ν) (h : a ≠ k) :
    (m.insert k v)[a]? = m[a]? := by
  simp [get_insert, h]

theorem get_erase (m : OrdMap κ ν) (k a : κ) :
    (m.erase k)[a]? = if a = k then none else m[a]? := by
  rw [Std.ExtTreeMap.getElem?_erase]
  simp only [Std.LawfulEqCmp.compare_eq_iff_eq, eq_comm (a := k)]

omit [DecidableEq κ] in
theorem get_filter (m : OrdMap κ ν) (p : κ → ν → Bool) (a : κ) :
    (m.filter p)[a]? = m[a]?.filter (p a) := by
  rw [Std.ExtTreeMap.getElem?_filter]
  simp only [Std.ExtTreeMap.getKey_eq]
  cases m[a]? <;> simp [Option.pfilter_eq_filter]

omit [DecidableEq κ] in
theorem ext_get {m m' : OrdMap κ ν} (h : ∀ a : κ, m[a]? = m'[a]?) : m = m' :=
  Std.ExtTreeMap.ext_getElem? h

omit [Std.LawfulEqOrd κ] [DecidableEq κ] in
theorem contains_eq (m : OrdMap κ ν) (a : κ) : m.contains a = m[a]?.isSome :=
  Std.ExtTreeMap.contains_eq_isSome_getElem?

omit [DecidableEq κ] in
theorem mem_toList {m : OrdMap κ ν} {a : κ} {v : ν} : (a, v) ∈ m.toList ↔ m[a]? = some v :=
  Std.ExtTreeMap.mem_toList_iff_getElem?_eq_some

end OrdMap

namespace Consecutive

variable {α : Type} (number : α → Int)

/-- The elements are numbered `n`, `n + 1`, … in list order. -/
def From : Int → List α → Prop
  | _, [] => True
  | n, a :: l => number a = n ∧ From (n + 1) l

variable {number}

theorem from_append {n : Int} {l l' : List α} :
    From number n (l ++ l') ↔ From number n l ∧ From number (n + l.length) l' := by
  induction l generalizing n with
  | nil => simp [From]
  | cons a l ih =>
    simp only [List.cons_append, From, ih, List.length_cons, Nat.cast_add, Nat.cast_one]
    rw [and_assoc, show n + 1 + (l.length : Int) = n + ((l.length : Int) + 1) by omega]

theorem number_of_getElem? {n : Int} {l : List α} (h : From number n l) {i : Nat} {a : α}
    (ha : l[i]? = some a) : number a = n + i := by
  induction l generalizing n i with
  | nil => simp at ha
  | cons b l ih =>
    cases i with
    | zero =>
      simp only [List.getElem?_cons_zero, Option.some.injEq] at ha
      subst ha
      simpa using h.1
    | succ i =>
      have := ih h.2 (by simpa using ha)
      push_cast
      omega

/-- The element a rest of the list begins with is the next one after those before it. -/
theorem of_drop_cons {n : Int} {l rest : List α} (h : From number n l) {k : Nat} {a : α}
    (hdrop : l.drop k = a :: rest) :
    k < l.length ∧ number a = n + k ∧ l.take (k + 1) = l.take k ++ [a] ∧
      l.drop (k + 1) = rest := by
  have hget : l[k]? = some a := by rw [← List.head?_drop, hdrop, List.head?_cons]
  obtain ⟨hlt, -⟩ := List.getElem?_eq_some_iff.mp hget
  refine ⟨hlt, number_of_getElem? h hget, ?_, ?_⟩
  · rw [List.take_add_one, hget, Option.toList_some]
  · rw [← List.tail_drop, hdrop, List.tail_cons]

theorem number_of_mem {n : Int} {l : List α} (h : From number n l) {a : α} (ha : a ∈ l) :
    n ≤ number a ∧ number a < n + l.length := by
  obtain ⟨i, hi, rfl⟩ := List.mem_iff_getElem.mp ha
  have := number_of_getElem? h (List.getElem?_eq_getElem hi)
  omega

theorem number_of_getLast? {n : Int} {l : List α} (h : From number n l) {a : α}
    (ha : l.getLast? = some a) : number a = n + l.length - 1 := by
  rw [List.getLast?_eq_getElem?] at ha
  have hl : l ≠ [] := by
    rintro rfl
    simp at ha
  have := number_of_getElem? h ha
  have := List.length_pos_iff.mpr hl
  omega

theorem nodup_map {n : Int} {l : List α} (h : From number n l) : (l.map number).Nodup := by
  induction l generalizing n with
  | nil => simp
  | cons a l ih =>
    rw [List.map_cons, List.nodup_cons]
    refine ⟨?_, ih h.2⟩
    intro hmem
    obtain ⟨b, hb, heq⟩ := List.mem_map.mp hmem
    have := number_of_mem h.2 hb
    have := h.1
    omega

def store (number : α → Int) (m : OrdMap Int α) (l : List α) : OrdMap Int α :=
  l.foldl (fun m a => m.insert (number a) a) m

theorem get_store {n : Int} {l : List α} (h : From number n l) (m : OrdMap Int α) (k : Int) :
    (store number m l)[k]? =
      if n ≤ k ∧ k < n + l.length then l[(k - n).toNat]? else m[k]? := by
  induction l generalizing n m with
  | nil =>
    simp [store]
  | cons a l ih =>
    have hstep : store number m (a :: l) = store number (m.insert (number a) a) l := rfl
    rw [hstep, ih h.2, OrdMap.get_insert, h.1]
    by_cases hk : k = n
    · subst hk
      have h1 : ¬(k + 1 ≤ k ∧ k < k + 1 + l.length) := by omega
      have h2 : k ≤ k ∧ k < k + (a :: l).length := by
        simp only [List.length_cons, Nat.cast_add, Nat.cast_one]
        omega
      rw [if_neg h1, if_pos rfl, if_pos h2]
      simp
    · by_cases hin : n + 1 ≤ k ∧ k < n + 1 + l.length
      · have h2 : n ≤ k ∧ k < n + (a :: l).length := by
          simp only [List.length_cons, Nat.cast_add, Nat.cast_one]
          omega
        have h3 : (k - n).toNat = (k - (n + 1)).toNat + 1 := by omega
        rw [if_pos hin, if_pos h2, h3, List.getElem?_cons_succ]
      · have h2 : ¬(n ≤ k ∧ k < n + (a :: l).length) := by
          simp only [List.length_cons, Nat.cast_add, Nat.cast_one]
          omega
        rw [if_neg hin, if_neg h2, if_neg hk]

theorem ordered {n : Int} {l : List α} (h : From number n l) :
    l.Pairwise fun a b => number a < number b := by
  induction l generalizing n with
  | nil => exact .nil
  | cons a l ih =>
    refine .cons (fun b hb => ?_) (ih h.2)
    have := number_of_mem h.2 hb
    have := h.1
    omega

/-- A map that holds exactly a numbered list lists it in order. -/
theorem values_toList {n : Int} {l : List α} (h : From number n l) {m : OrdMap Int α}
    (hm : ∀ k : Int, m[k]? = if n ≤ k ∧ k < n + l.length then l[(k - n).toNat]? else none) :
    m.toList.map (·.2) = l := by
  have hkeys : m.toList.Pairwise fun a b => a.1 < b.1 :=
    Std.ExtTreeMap.ordered_keys_toList.imp fun hab => Std.compare_eq_lt.mp hab
  have hpairs : (l.map fun a => (number a, a)).Pairwise fun a b => a.1 < b.1 :=
    List.pairwise_map.mpr (ordered h)
  have : Std.Irrefl (fun a b : Int × α => a.1 < b.1) := ⟨fun a => lt_irrefl a.1⟩
  have hlist : m.toList = l.map fun a => (number a, a) := by
    refine hkeys.eq_of_mem_iff hpairs ?_
    rintro ⟨k, a⟩
    rw [OrdMap.mem_toList, hm k, List.mem_map]
    constructor
    · intro hget
      split at hget
      · have := number_of_getElem? h hget
        exact ⟨a, List.mem_of_getElem? hget, by simp only [Prod.mk.injEq, and_true]; omega⟩
      · cases hget
    · rintro ⟨b, hb, heq⟩
      obtain ⟨rfl, rfl⟩ := Prod.mk.inj heq
      obtain ⟨i, hi, rfl⟩ := List.mem_iff_getElem.mp hb
      have := number_of_getElem? h (List.getElem?_eq_getElem hi)
      rw [if_pos (by omega), show (number l[i] - n).toNat = i by omega]
      exact List.getElem?_eq_getElem hi
  rw [hlist, List.map_map]
  exact List.map_id l

end Consecutive
