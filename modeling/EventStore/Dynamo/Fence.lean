import EventStore.Dynamo.Views
import EventStore.Rebuild.Fence

/-!
The DynamoDB fence against the in-memory one. A request that was issued on reads of the fence, and
applies, is the in-memory call at that moment: its conditions pin the generation it was decided
on, and the generation grows with every change of who holds the lock.
-/
namespace EventStore

open Result

structure Represents (t : Table) (s : Stores) : Prop where
  lock : t rebuildLockKey = (rebuildLockItemOf s.rebuild).getD ∅
  generation : t rebuildGenerationKey = rebuildGenerationItem s.rebuild.generation ∨
    t rebuildGenerationKey = ∅ ∧ s.rebuild.generation = ⟨0, false⟩
  fenced : s.rebuild.Fenced
  nonneg : 0 ≤ s.rebuild.generation.value
  rows : RepresentsRows t s.views

section Items

variable (lock : RebuildLock) (g : RebuildGeneration) (name : String)

theorem get_rebuildLockKey_item : rebuildLockKey.item[name]? =
    if name = "sk" then some (.n rebuildSortKey)
    else if name = "pk" then some (.s rebuildLockId) else none := by
  simp only [rebuildLockKey, TableKey.item, itemOf, List.foldl_cons, List.foldl_nil,
    OrdMap.get_insert, Std.ExtTreeMap.getElem?_empty]

theorem get_rebuildLockItem : (rebuildLockItem lock)[name]? =
    if name = "leaseExpiresAt" then some (.n lock.leaseExpiresAt)
    else if name = "generation" then some (.n lock.generation)
    else if name = "owner" then some (.s lock.owner)
    else rebuildLockKey.item[name]? := by
  simp only [rebuildLockItem, OrdMap.get_insert]

theorem get_rebuildForceReleasedItem : rebuildForceReleasedItem[name]? =
    if name = "forceReleased" then some (.bool true) else rebuildLockKey.item[name]? := by
  simp only [rebuildForceReleasedItem, OrdMap.get_insert]

theorem get_rebuildGenerationKey_item : rebuildGenerationKey.item[name]? =
    if name = "sk" then some (.n rebuildSortKey)
    else if name = "pk" then some (.s rebuildGenerationId) else none := by
  simp only [rebuildGenerationKey, TableKey.item, itemOf, List.foldl_cons, List.foldl_nil,
    OrdMap.get_insert, Std.ExtTreeMap.getElem?_empty]

theorem get_rebuildGenerationItem : (rebuildGenerationItem g)[name]? =
    if name = "forceReleased" then (if g.forceReleased then some (.bool true) else none)
    else if name = "value" then some (.n g.value)
    else rebuildGenerationKey.item[name]? := by
  unfold rebuildGenerationItem
  by_cases hname : name = "forceReleased"
  · subst hname
    cases g.forceReleased <;>
      simp [OrdMap.get_insert, get_rebuildGenerationKey_item]
  · cases g.forceReleased <;> simp only [OrdMap.get_insert, hname, if_false, if_true,
      Bool.false_eq_true]

theorem isEmpty_eq_false_of_get {item : Item} (value : AttributeValue)
    (h : item[name]? = some value) : item.isEmpty = false := by
  by_contra hempty
  rw [Bool.not_eq_false, Std.ExtTreeMap.isEmpty_iff] at hempty
  rw [hempty, Std.ExtTreeMap.getElem?_empty] at h
  cases h

theorem rebuildLockStateFromItem_lock :
    rebuildLockStateFromItem (rebuildLockItem lock) = .ok (some lock) := by
  simp only [rebuildLockStateFromItem, requiredString, requiredNumber, get_rebuildLockItem,
    get_rebuildLockKey_item, String.reduceEq, if_false, if_true]
  rfl

theorem rebuildLockStateFromItem_forceReleased :
    rebuildLockStateFromItem rebuildForceReleasedItem = .ok none := by
  simp only [rebuildLockStateFromItem, get_rebuildForceReleasedItem, if_true]

theorem rebuildGenerationFromItem_item :
    rebuildGenerationFromItem (rebuildGenerationItem g) = .ok g := by
  obtain ⟨value, forceReleased⟩ := g
  cases forceReleased <;>
    simp only [rebuildGenerationFromItem, requiredNumber, get_rebuildGenerationItem,
      String.reduceEq, if_false, if_true, Bool.false_eq_true] <;> rfl

end Items

namespace Represents

variable {t : Table} {s : Stores}

/-- The three lock items of a fence. -/
theorem lock_cases (h : Represents t s) :
    (∃ lock, s.rebuild.lock = some lock ∧ t rebuildLockKey = rebuildLockItem lock ∧
        s.rebuild.generation.isSettled = false) ∨
      (s.rebuild.lock = none ∧ t rebuildLockKey = rebuildForceReleasedItem ∧
        s.rebuild.generation.isSettled = false ∧ s.rebuild.generation.forceReleased = true) ∨
      (s.rebuild.lock = none ∧ t rebuildLockKey = ∅ ∧ s.rebuild.generation.isSettled = true) := by
  have hitem := h.lock
  unfold rebuildLockItemOf at hitem
  cases hlock : s.rebuild.lock with
  | some lock =>
    rw [hlock] at hitem
    exact .inl ⟨lock, rfl, hitem, (h.fenced.locked lock hlock).1⟩
  | none =>
    rw [hlock] at hitem
    cases hsettled : s.rebuild.generation.isSettled with
    | true => exact .inr (.inr ⟨rfl, by simpa [hsettled] using hitem, rfl⟩)
    | false =>
      have hforced := h.fenced.free hlock hsettled
      exact .inr (.inl ⟨rfl, by simpa [hsettled, hforced] using hitem, rfl, hforced⟩)

theorem lock_attribute (h : Represents t s) {name : String} {field : RebuildLock → AttributeValue}
    (hname : name ≠ "forceReleased" ∧ name ≠ "sk" ∧ name ≠ "pk")
    (hfield : ∀ lock, (rebuildLockItem lock)[name]? = some (field lock)) :
    (t rebuildLockKey)[name]? = s.rebuild.lock.map field := by
  obtain ⟨hforced, hsk, hpk⟩ := hname
  obtain ⟨lock, hlock, hitem, -⟩ | ⟨hlock, hitem, -⟩ | ⟨hlock, hitem, -⟩ := h.lock_cases <;>
    simp only [hlock, hitem, hfield, hforced, hsk, hpk, get_rebuildForceReleasedItem,
      get_rebuildLockKey_item, Std.ExtTreeMap.getElem?_empty, if_false, Option.map_some,
      Option.map_none]

theorem lock_owner (h : Represents t s) :
    (t rebuildLockKey)["owner"]? = s.rebuild.lock.map fun lock => .s lock.owner :=
  h.lock_attribute (by decide) fun lock => by simp [get_rebuildLockItem]

theorem lock_generation (h : Represents t s) :
    (t rebuildLockKey)["generation"]? = s.rebuild.lock.map fun lock => .n lock.generation :=
  h.lock_attribute (by decide) fun lock => by simp [get_rebuildLockItem]

theorem lock_leaseExpiresAt (h : Represents t s) :
    (t rebuildLockKey)["leaseExpiresAt"]? =
      s.rebuild.lock.map fun lock => .n lock.leaseExpiresAt :=
  h.lock_attribute (by decide) fun lock => by simp [get_rebuildLockItem]

/-- A commit's lock check passes exactly in a settled generation. -/
theorem lockCheck_passes_iff (h : Represents t s) :
    rebuildLockCheckItem.passes t = true ↔ s.rebuild.generation.isSettled = true := by
  change ((t rebuildLockKey)["pk"]?.isNone = true) ↔ _
  obtain ⟨lock, -, hitem, hodd⟩ | ⟨-, hitem, hodd, -⟩ | ⟨-, hitem, heven⟩ := h.lock_cases
  · simp [hitem, hodd, get_rebuildLockItem, get_rebuildLockKey_item]
  · simp [hitem, hodd, get_rebuildForceReleasedItem, get_rebuildLockKey_item]
  · simp [hitem, heven]

/-- An acquire's lock condition holds exactly when nobody holds the lock. -/
theorem acquireLock_iff (h : Represents t s) :
    Condition.rebuildAcquireLock.holds ⟨[], [(":true", .bool true)]⟩ (t rebuildLockKey) = true ↔
      s.rebuild.lock = none := by
  change ((t rebuildLockKey)["pk"]?.isNone || ((t rebuildLockKey)["forceReleased"]?.isSome &&
    (t rebuildLockKey)["forceReleased"]? == some (.bool true))) = true ↔ _
  obtain ⟨lock, hlock, hitem, -⟩ | ⟨hlock, hitem, -⟩ | ⟨hlock, hitem, -⟩ := h.lock_cases
  · simp [hlock, hitem, get_rebuildLockItem, get_rebuildLockKey_item]
  · simp [hlock, hitem, get_rebuildForceReleasedItem, get_rebuildLockKey_item]
  · simp [hlock, hitem]

theorem generation_value (h : Represents t s) :
    (t rebuildGenerationKey)["value"]? = some (.n s.rebuild.generation.value) ∨
      (t rebuildGenerationKey)["value"]? = none ∧ t rebuildGenerationKey = ∅ ∧
        s.rebuild.generation = ⟨0, false⟩ := by
  obtain hitem | ⟨hitem, hdefault⟩ := h.generation
  · exact .inl (by simp only [hitem, get_rebuildGenerationItem, String.reduceEq, if_false, if_true])
  · exact .inr ⟨by rw [hitem, Std.ExtTreeMap.getElem?_empty], hitem, hdefault⟩

/-- A request conditioned on an odd generation applies in that generation only. -/
theorem of_seenOdd (h : Represents t s) {values : List (String × AttributeValue)} {seen : Int}
    (hvalues : values.lookup ":seenOdd" = some (.n seen))
    (hholds : Condition.rebuildSeenOdd.holds ⟨[("#value", "value")], values⟩
      (t rebuildGenerationKey) = true) :
    s.rebuild.generation.value = seen ∧
      t rebuildGenerationKey = rebuildGenerationItem s.rebuild.generation := by
  change ((t rebuildGenerationKey)["value"]?.isSome &&
    (t rebuildGenerationKey)["value"]? == values.lookup ":seenOdd") = true at hholds
  obtain hitem | ⟨hitem, -⟩ := h.generation
  · rw [hvalues, hitem] at hholds
    refine ⟨?_, hitem⟩
    simpa [get_rebuildGenerationItem] using hholds
  · simp [hitem] at hholds

/-- The fence's two items moved, and nothing else. -/
theorem moved (h : Represents t s) {rebuild : RebuildState} (hfenced : rebuild.Fenced)
    (hnonneg : 0 ≤ rebuild.generation.value) {lock generation : Item}
    (hlock : lock = (rebuildLockItemOf rebuild).getD ∅)
    (hgeneration : generation = rebuildGenerationItem rebuild.generation) :
    Represents (Function.update (Function.update t rebuildLockKey lock)
      rebuildGenerationKey generation) { s with rebuild } where
  lock := by
    rw [Function.update_of_ne (by decide), Function.update_self, hlock]
  generation := .inl (by rw [Function.update_self, hgeneration])
  fenced := hfenced
  nonneg := hnonneg
  rows := fun key => by
    rw [Function.update_of_ne (by simp [rebuildGenerationKey]),
      Function.update_of_ne (by simp [rebuildLockKey])]
    exact h.rows key

end Represents

section Updates

variable (g : RebuildGeneration) (value : Int)

theorem rebuildGenerationItem_insert : (rebuildGenerationItem g).insert "value" (.n value) =
    rebuildGenerationItem { g with value } := by
  refine OrdMap.ext_get fun name => ?_
  rw [OrdMap.get_insert, get_rebuildGenerationItem, get_rebuildGenerationItem]
  by_cases hname : name = "value"
  · simp [hname]
  · simp only [hname, if_false]

theorem rebuildGenerationItem_erase :
    (rebuildGenerationItem g).erase "forceReleased" = rebuildGenerationItem ⟨g.value, false⟩ := by
  refine OrdMap.ext_get fun name => ?_
  rw [OrdMap.get_erase, get_rebuildGenerationItem, get_rebuildGenerationItem]
  by_cases hname : name = "forceReleased"
  · simp [hname]
  · simp only [hname, if_false]

theorem rebuildGenerationItem_flag :
    (rebuildGenerationItem g).insert "forceReleased" (.bool true) =
      rebuildGenerationItem ⟨g.value, true⟩ := by
  refine OrdMap.ext_get fun name => ?_
  rw [OrdMap.get_insert, get_rebuildGenerationItem, get_rebuildGenerationItem]
  by_cases hname : name = "forceReleased"
  · simp [hname]
  · simp only [hname, if_false]

theorem rebuildGenerationItem_isEmpty : (rebuildGenerationItem g).isEmpty = false :=
  isEmpty_eq_false_of_get "value" (.n g.value)
    (by simp only [get_rebuildGenerationItem, String.reduceEq, if_false, if_true])

theorem rebuildLockItem_isEmpty (lock : RebuildLock) : (rebuildLockItem lock).isEmpty = false :=
  isEmpty_eq_false_of_get "owner" (.s lock.owner)
    (by simp only [get_rebuildLockItem, String.reduceEq, if_false, if_true])

theorem rebuildForceReleasedItem_isEmpty : rebuildForceReleasedItem.isEmpty = false :=
  isEmpty_eq_false_of_get "forceReleased" (.bool true)
    (by simp only [get_rebuildForceReleasedItem, if_true])

end Updates

variable {s : RebuildState}

namespace RebuildState

def holder (s : RebuildState) : Option (String × Int) :=
  s.lock.map fun lock => (lock.owner, lock.generation)

/-- A state the fence can come to: the generation grew, or nothing moved but the lease's
expiry. -/
def Later (s s' : RebuildState) : Prop :=
  s.generation.value < s'.generation.value ∨
    s.generation = s'.generation ∧ s.holder = s'.holder

theorem Later.refl (s : RebuildState) : s.Later s := .inr ⟨rfl, rfl⟩

theorem Later.trans {t u : RebuildState} (h : s.Later t) (h' : t.Later u) : s.Later u := by
  obtain h | ⟨hg, hl⟩ := h <;> obtain h' | ⟨hg', hl'⟩ := h'
  · exact .inl (h.trans h')
  · exact .inl (hg' ▸ h)
  · exact .inl (hg ▸ h')
  · exact .inr ⟨hg.trans hg', hl.trans hl'⟩

theorem later_apply {change : FenceChange} (h : change.Allowed s) : s.Later (change.apply s) := by
  cases change with
  | renewed lease leaseExpiresAt =>
    refine .inr ⟨rfl, ?_⟩
    simp [holder, FenceChange.apply, Function.comp_def]
  | _ => exact .inl (FenceChange.generation_lt_apply h rfl)

end RebuildState

/-- The requests that can have been sent by the time of a state, each on an earlier one. -/
inductive Issued (s : RebuildState) : DynamoCall → Int → FenceSend → Prop
  | begin (owner : String) (length : Duration) (seconds now : Int) (observed : RebuildState)
      (plan : Plan) (hlease : checkLease owner length = .ok seconds)
      (hnonneg : 0 ≤ observed.generation.value) (hplan : Plan.decide observed now = .ok plan)
      (hlater : observed.Later s) :
      Issued s (.begin owner length) now
        (.begin plan (observed.planned plan owner (saturatingAdd now seconds)) now)
  | renew (lease : RebuildLease) (extend : Duration) (seconds now : Int)
      (hlease : checkLease lease.owner extend = .ok seconds) :
      Issued s (.renew lease extend) now (.renew lease (saturatingAdd now seconds))
  | finish (lease : RebuildLease) (now : Int) (howner : checkRebuildOwner lease.owner = .ok ()) :
      Issued s (.finish lease) now (.release .finish lease.owner lease.generation)
  | forceRelease (owner : String) (now seen : Int) (howner : checkRebuildOwner owner = .ok ()) :
      Issued s (.forceRelease owner) now (.release .force owner seen)
  | write (lease : RebuildLease) (views : List ProjectedView) (now : Int)
      (howner : checkRebuildOwner lease.owner = .ok ()) (hbatch : checkViewBatch views = .ok ()) :
      Issued s (.write lease views) now (.views lease views now)
  | commit (views : List ProjectedView) (now : Int) (hviews : checkViews views = .ok ()) :
      Issued s (.commit views) now (.commit views)

variable {now : Int}

theorem Issued.later {s' : RebuildState} {call : DynamoCall} {request : FenceSend}
    (h : Issued s call now request) (hlater : s.Later s') : Issued s' call now request := by
  cases h with
  | begin owner length seconds now observed plan hlease hnonneg hplan h =>
    exact .begin owner length seconds now observed plan hlease hnonneg hplan (h.trans hlater)
  | renew lease extend seconds now hlease => exact .renew lease extend seconds now hlease
  | finish lease now howner => exact .finish lease now howner
  | forceRelease owner now seen howner => exact .forceRelease owner now seen howner
  | write lease views now howner hbatch => exact .write lease views now howner hbatch
  | commit views now hviews => exact .commit views now hviews

namespace Table

variable {t t' : Table} {a b : TransactItem}

theorem transact_one (h : t.transact [a] = some t') :
    a.passes t = true ∧ ∃ x, a.result (t a.key) = some x ∧ t' = Function.update t a.key x := by
  unfold transact at h
  split at h
  · rename_i hpasses
    refine ⟨by simpa using hpasses, ?_⟩
    simp [Table.perform, Option.bind_eq_some_iff] at h
    obtain ⟨x, hx, rfl⟩ := h
    exact ⟨x, hx, rfl⟩
  · cases h

theorem transact_pair (h : t.transact [a, b] = some t') :
    a.passes t = true ∧ b.passes t = true ∧
      ∃ x y, a.result (t a.key) = some x ∧ b.result (t b.key) = some y ∧
        t' = Function.update (Function.update t a.key x) b.key y := by
  unfold transact at h
  split at h
  · rename_i hpasses
    simp only [List.all_cons, List.all_nil, Bool.and_true, Bool.and_eq_true] at hpasses
    refine ⟨hpasses.1, hpasses.2, ?_⟩
    simp [Table.perform, Option.bind_eq_some_iff] at h
    obtain ⟨x, hx, y, hy, rfl⟩ := h
    exact ⟨x, y, hx, hy, rfl⟩
  · cases h

end Table

theorem UpdateExpression.apply_one (b : Bindings) (name : String) (operand : Operand)
    (item : Item) : UpdateExpression.apply b ⟨[(name, operand)], []⟩ item =
      (operand.eval b item).map fun value => item.insert (b.name name) value := by
  cases h : operand.eval b item <;> simp [apply, h]

theorem Operand.eval_plus {b : Bindings} {item : Item} {left right : Operand} {x y : Int}
    (hleft : left.eval b item = some (.n x)) (hright : right.eval b item = some (.n y)) :
    (Operand.plus left right).eval b item = some (.n (x + y)) := by
  simp only [eval, hleft, hright]

/-- What a plan was decided on. -/
theorem Plan.decide_cases {plan : Plan} (h : Plan.decide s now = .ok plan) :
    (s.lock = none ∧ s.generation.isSettled = true ∧
        plan = ⟨.acquire, 1, s.generation.value, noMatch, none⟩) ∨
      (s.lock = none ∧ s.generation.isSettled = false ∧
        plan = ⟨.acquireForceReleased, 2, noMatch, s.generation.value, none⟩) ∨
      ∃ lock, s.lock = some lock ∧ s.generation.isSettled = false ∧
        plan = ⟨.takeover, 2, noMatch, s.generation.value, some lock.owner⟩ := by
  unfold Plan.decide at h
  split at h
  · rename_i hlock
    split at h
    · rename_i hsettled
      cases h
      exact .inl ⟨hlock, hsettled, rfl⟩
    · rename_i hodd
      split at h
      · cases h
        exact .inr (.inl ⟨hlock, by simpa using hodd, rfl⟩)
      · cases h
  · rename_i lock hlock
    split at h
    · cases h
    · rename_i hodd
      split at h
      · cases h
      · cases h
        exact .inr (.inr ⟨lock, hlock, by simpa using hodd, rfl⟩)

namespace Represents

variable {t t' : Table} {s : Stores}

/-- An acquire applies in the generation it was decided on, or in one never written. -/
theorem of_acquire (h : Represents t s) {plan : Plan}
    (hpasses : (rebuildAcquireItem plan).passes t = true) :
    s.rebuild.generation = ⟨0, false⟩ ∨ s.rebuild.generation.value = plan.seenEven ∨
      s.rebuild.generation.value = plan.seenOdd := by
  obtain hvalue | ⟨-, -, hdefault⟩ := h.generation_value
  · change ((t rebuildGenerationKey)["value"]?.isNone ||
      ((t rebuildGenerationKey)["value"]?.isSome &&
        (t rebuildGenerationKey)["value"]? == some (.n plan.seenEven)) ||
      ((t rebuildGenerationKey)["value"]?.isSome &&
        (t rebuildGenerationKey)["value"]? == some (.n plan.seenOdd) && _)) = true at hpasses
    simp only [hvalue, Option.isNone_some, Option.isSome_some, Bool.false_or, Bool.true_and,
      Bool.or_eq_true, Bool.and_eq_true, beq_iff_eq, Option.some.injEq,
      AttributeValue.n.injEq] at hpasses
    exact .inr (hpasses.imp id And.left)
  · exact .inl hdefault

theorem acquire_result (h : Represents t s) (plan : Plan) :
    (rebuildAcquireItem plan).result (t rebuildGenerationKey) = some (rebuildGenerationItem
      { s.rebuild.generation with value := s.rebuild.generation.value + plan.increment }) := by
  change rebuildAcquireUpdate.apply (rebuildAcquireItem plan).bindings
    (if (t rebuildGenerationKey).isEmpty then rebuildGenerationKey.item
      else t rebuildGenerationKey) = _
  have hincrement : (Operand.bound ":increment").eval (rebuildAcquireItem plan).bindings
      (t rebuildGenerationKey) = some (.n plan.increment) := rfl
  rw [rebuildAcquireUpdate, UpdateExpression.apply_one]
  obtain hitem | ⟨hitem, hdefault⟩ := h.generation
  · have hvalue : (Operand.ifNotExists "#value" ":zero").eval (rebuildAcquireItem plan).bindings
        (t rebuildGenerationKey) = some (.n s.rebuild.generation.value) := by
      change (t rebuildGenerationKey)["value"]?.or _ = _
      simp only [hitem, get_rebuildGenerationItem, String.reduceEq, if_false, if_true,
        Option.some_or]
    rw [if_neg (by simp [hitem, rebuildGenerationItem_isEmpty]),
      Operand.eval_plus hvalue hincrement, hitem]
    exact congrArg some (rebuildGenerationItem_insert _ _)
  · have hvalue : (Operand.ifNotExists "#value" ":zero").eval (rebuildAcquireItem plan).bindings
        rebuildGenerationKey.item = some (.n 0) := by
      change rebuildGenerationKey.item["value"]?.or (some (.n 0)) = _
      simp only [get_rebuildGenerationKey_item, String.reduceEq, if_false, Option.none_or]
    rw [if_pos (by simp [hitem]), Operand.eval_plus hvalue rfl, hdefault]
    rfl

theorem raised {b : Bindings} {g : RebuildGeneration} {operand : String} {raise : Int}
    (hnames : b.names = [("#value", "value")]) (hraise : b.value operand = some (.n raise)) :
    (Operand.plus (.attribute "#value") (.bound operand)).eval b (rebuildGenerationItem g) =
      some (.n (g.value + raise)) := by
  refine Operand.eval_plus ?_ hraise
  simp [Operand.eval, Bindings.name, hnames, get_rebuildGenerationItem]

theorem takeover_result (plan : Plan) (g : RebuildGeneration) :
    (rebuildTakeoverItem plan).result (rebuildGenerationItem g) =
      some (rebuildGenerationItem { g with value := g.value + 2 }) := by
  change rebuildTakeoverUpdate.apply (rebuildTakeoverItem plan).bindings
    (if (rebuildGenerationItem g).isEmpty then _ else _) = _
  rw [if_neg (by simp [rebuildGenerationItem_isEmpty]), rebuildTakeoverUpdate,
    UpdateExpression.apply_one, raised rfl (show _ = some (AttributeValue.n 2) from rfl)]
  exact congrArg some (rebuildGenerationItem_insert _ _)

variable {owner : String}

section Decided

variable {observed : RebuildState} {plan : Plan} {now : Int} {lease : RebuildLease}

/-- An acquire that applies was decided on the state it finds. -/
theorem observed_of_acquire (h : Represents t s) (hnonneg : 0 ≤ observed.generation.value)
    (hlock : observed.lock = none) (hlater : observed.Later s.rebuild)
    (hseen : plan.seenEven = observed.generation.value ∧ plan.seenOdd = noMatch ∨
      plan.seenEven = noMatch ∧ plan.seenOdd = observed.generation.value)
    (hpasses : (rebuildAcquireLockItem lease).passes t = true)
    (hpasses' : (rebuildAcquireItem plan).passes t = true) : observed = s.rebuild := by
  have hfree : s.rebuild.lock = none := h.acquireLock_iff.mp hpasses
  have hnonneg' := h.nonneg
  obtain hlt | ⟨hgeneration, -⟩ := hlater
  · unfold noMatch at hseen
    obtain hdefault | heven | hodd := h.of_acquire hpasses'
    · rw [hdefault] at hlt
      simp only at hlt
      omega
    · omega
    · omega
  · cases hs : s.rebuild
    cases observed
    simp_all

/-- A takeover that applies finds the generation it was decided on, and the lock expired. -/
theorem decide_of_takeover (h : Represents t s) {lock : RebuildLock}
    (hlock : observed.lock = some lock) (hodd : observed.generation.isSettled = false)
    (hlater : observed.Later s.rebuild)
    (hplan : plan = ⟨.takeover, 2, noMatch, observed.generation.value, some lock.owner⟩)
    (hpasses : (rebuildTakeoverLockItem plan lease now).passes t = true)
    (hpasses' : (rebuildTakeoverItem plan).passes t = true) :
    Plan.decide s.rebuild now = .ok plan ∧ observed.generation = s.rebuild.generation := by
  subst hplan
  obtain ⟨hvalue, -⟩ := h.of_seenOdd rfl hpasses'
  obtain hlt | ⟨hgeneration, hholder⟩ := hlater
  · simp only at hvalue
    omega
  · refine ⟨?_, hgeneration⟩
    rw [RebuildState.holder, RebuildState.holder, hlock, Option.map_some, eq_comm,
      Option.map_eq_some_iff] at hholder
    obtain ⟨lock', hlock', howner⟩ := hholder
    have hexpired : lock'.isExpired now = true := by
      change (AttributeValue.compares (· < ·) (t rebuildLockKey)["leaseExpiresAt"]?
        (some (.n now)) && _) = true at hpasses
      rw [h.lock_leaseExpiresAt, hlock', Bool.and_eq_true] at hpasses
      exact hpasses.1
    rw [Prod.mk.injEq] at howner
    unfold Plan.decide
    rw [hlock']
    simp only [← hgeneration, hodd, hexpired, howner.1, Bool.false_eq_true, if_false, Bool.not_true]

/-- An acquire that applies writes the lease, and raises the generation it was decided on. -/
theorem acquire_applied (h : Represents t s) (hnonneg : 0 ≤ observed.generation.value)
    (hlock : observed.lock = none) (hlater : observed.Later s.rebuild)
    (hkind : plan.kind ≠ .takeover)
    (hseen : plan.seenEven = observed.generation.value ∧ plan.seenOdd = noMatch ∨
      plan.seenEven = noMatch ∧ plan.seenOdd = observed.generation.value)
    (ht : t.transact (rebuildBeginItems plan lease now) = some t') :
    observed = s.rebuild ∧
      t' = Function.update (Function.update t rebuildLockKey lease.lockItem) rebuildGenerationKey
        (rebuildGenerationItem { s.rebuild.generation with
          value := s.rebuild.generation.value + plan.increment }) := by
  rw [rebuildBeginItems, if_neg hkind] at ht
  obtain ⟨hpasses, hpasses', lockItem, generation, hresult, hresult', rfl⟩ :=
    Table.transact_pair ht
  refine ⟨h.observed_of_acquire hnonneg hlock hlater hseen hpasses hpasses', ?_⟩
  cases hresult
  cases (h.acquire_result plan).symm.trans hresult'
  rfl

/-- What a begin writes when it applies. -/
theorem begin_applied (h : Represents t s) (hnonneg : 0 ≤ observed.generation.value)
    (hplan : Plan.decide observed now = .ok plan) (hlater : observed.Later s.rebuild)
    (ht : t.transact (rebuildBeginItems plan lease now) = some t') :
    Plan.decide s.rebuild now = .ok plan ∧ observed.generation = s.rebuild.generation ∧
      t' = Function.update (Function.update t rebuildLockKey lease.lockItem) rebuildGenerationKey
        (rebuildGenerationItem { s.rebuild.generation with
          value := s.rebuild.generation.value + plan.increment }) := by
  obtain ⟨hlock, -, hkind⟩ | ⟨hlock, -, hkind⟩ | ⟨lock, hlock, hodd, hkind⟩ :=
    Plan.decide_cases hplan
  · obtain ⟨rfl, htable⟩ := h.acquire_applied hnonneg hlock hlater (by simp [hkind])
      (.inl (by simp [hkind])) ht
    exact ⟨hplan, rfl, htable⟩
  · obtain ⟨rfl, htable⟩ := h.acquire_applied hnonneg hlock hlater (by simp [hkind])
      (.inr (by simp [hkind])) ht
    exact ⟨hplan, rfl, htable⟩
  · rw [rebuildBeginItems, if_pos (by simp [hkind])] at ht
    obtain ⟨hpasses, hpasses', lockItem, generation, hresult, hresult', rfl⟩ :=
      Table.transact_pair ht
    obtain ⟨hdecide, hgeneration⟩ := h.decide_of_takeover hlock hodd hlater hkind hpasses hpasses'
    refine ⟨hdecide, hgeneration, ?_⟩
    cases hresult
    have hitem := (h.of_seenOdd rfl hpasses').2
    change (rebuildTakeoverItem plan).result (t rebuildGenerationKey) = some generation at hresult'
    rw [hitem, takeover_result, Option.some.injEq] at hresult'
    subst hresult' hkind
    rfl

theorem begin_simulated (h : Represents t s) {length : Duration} {seconds : Int}
    (hlease : checkLease owner length = .ok seconds) (hnonneg : 0 ≤ observed.generation.value)
    (hplan : Plan.decide observed now = .ok plan) (hlater : observed.Later s.rebuild)
    (hplanned : lease = observed.planned plan owner (saturatingAdd now seconds))
    (ht : t.transact (rebuildBeginItems plan lease now) = some t') :
    ∃ s', (DynamoCall.begin owner length).inMemory s now = .ok (.lease lease, s') ∧
      Represents t' s' ∧ s.rebuild.Later s'.rebuild := by
  obtain ⟨hdecide, hgeneration, rfl⟩ := h.begin_applied hnonneg hplan hlater ht
  replace hplanned : lease = s.rebuild.planned plan owner (saturatingAdd now seconds) := by
    rw [hplanned, RebuildState.planned, RebuildState.planned, hgeneration]
  have hbegin : s.rebuild.beginRebuild now owner length =
      .ok (lease, s.rebuild.acquired lease) := by
    refine bind_eq_ok.mpr ⟨seconds, hlease, bind_eq_ok.mpr ⟨plan, hdecide, ?_⟩⟩
    rw [hplanned]
    rfl
  obtain ⟨-, hallowed, happly⟩ := RebuildState.beginRebuild_ok hbegin
  have hvalue : lease.generation = s.rebuild.generation.value + plan.increment := by
    rw [hplanned, RebuildState.planned]
  refine ⟨{ s with rebuild := s.rebuild.acquired lease }, bind_eq_ok.mpr ⟨_, hbegin, rfl⟩, ?_, ?_⟩
  · refine h.moved ?_ ?_ rfl ?_
    · rw [happly]
      exact FenceChange.fenced_apply h.fenced hallowed
    · have := (FenceChange.begun_generation hallowed).1
      have := h.nonneg
      simp only [RebuildState.acquired]
      omega
    · rw [RebuildState.acquired, hvalue]
  · rw [happly]
    exact RebuildState.later_apply hallowed

end Decided

theorem renew_result (lease : RebuildLease) (leaseExpiresAt : Int) (lock : RebuildLock) :
    (rebuildRenewItem lease leaseExpiresAt).result (rebuildLockItem lock) =
      some (rebuildLockItem { lock with leaseExpiresAt }) := by
  change rebuildRenewUpdate.apply (rebuildRenewItem lease leaseExpiresAt).bindings
    (if (rebuildLockItem lock).isEmpty then _ else _) = _
  rw [if_neg (by simp [rebuildLockItem_isEmpty]), rebuildRenewUpdate, UpdateExpression.apply_one]
  refine congrArg some (OrdMap.ext_get fun name => ?_)
  change (((rebuildLockItem lock).insert "leaseExpiresAt" (.n leaseExpiresAt)))[name]? = _
  rw [OrdMap.get_insert, get_rebuildLockItem, get_rebuildLockItem]
  by_cases hname : name = "leaseExpiresAt"
  · simp [hname]
  · simp only [hname, if_false]

theorem relocked (h : Represents t s) {lock : RebuildLock} {leaseExpiresAt : Int}
    (hlock : s.rebuild.lock = some lock) :
    Represents (Function.update t rebuildLockKey (rebuildLockItem { lock with leaseExpiresAt }))
      { s with rebuild := { s.rebuild with lock := some { lock with leaseExpiresAt } } } where
  lock := Function.update_self ..
  generation := by
    rw [Function.update_of_ne (by decide)]
    exact h.generation
  fenced := ⟨fun _ hrenewed => by cases hrenewed; exact h.fenced.locked lock hlock,
    fun hnone => nomatch hnone⟩
  nonneg := h.nonneg
  rows := fun key => by
    rw [Function.update_of_ne (by simp [rebuildLockKey])]
    exact h.rows key

/-- The lock of a lease whose owner and fencing token a request's condition matched. -/
theorem held_of_conditions (h : Represents t s) {generation : Int} (rest : Bool)
    (hpasses : (((t rebuildLockKey)["owner"]?.isSome &&
        (t rebuildLockKey)["owner"]? == some (.s owner)) &&
      ((t rebuildLockKey)["generation"]?.isSome &&
        (t rebuildLockKey)["generation"]? == some (.n generation)) && rest) = true) :
    ∃ lock, s.rebuild.lock = some lock ∧ lock.owner = owner ∧ lock.generation = generation := by
  simp only [Bool.and_eq_true, beq_iff_eq, h.lock_owner, h.lock_generation] at hpasses
  obtain ⟨lock, hlock, howner⟩ := Option.map_eq_some_iff.mp hpasses.1.1.2
  refine ⟨lock, hlock, by simpa using howner, ?_⟩
  simpa [hlock] using hpasses.1.2.2

variable {lease : RebuildLease}

theorem renew_simulated (h : Represents t s) {extend : Duration} {seconds : Int}
    (hlease : checkLease lease.owner extend = .ok seconds)
    (ht : t.transact [rebuildRenewItem lease (saturatingAdd now seconds)] = some t') :
    ∃ s', (DynamoCall.renew lease extend).inMemory s now =
        .ok (.lease { lease with leaseExpiresAt := saturatingAdd now seconds }, s') ∧
      Represents t' s' ∧ s.rebuild.Later s'.rebuild := by
  obtain ⟨hpasses, item, hresult, rfl⟩ := Table.transact_one ht
  obtain ⟨lock, hlock, howner, hgeneration⟩ :=
    h.held_of_conditions true ((Bool.and_true _).trans hpasses)
  have hitem : t rebuildLockKey = rebuildLockItem lock := by
    rw [h.lock, rebuildLockItemOf, hlock]
    rfl
  change (rebuildRenewItem lease _).result (t rebuildLockKey) = some item at hresult
  rw [hitem, renew_result, Option.some.injEq] at hresult
  subst hresult
  have hrenew : s.rebuild.renewRebuild now lease extend =
      .ok ({ lease with leaseExpiresAt := saturatingAdd now seconds },
        { s.rebuild with lock := some { lock with
            leaseExpiresAt := saturatingAdd now seconds } }) := by
    have hholds : s.rebuild.lock.filter lease.holds = some lock := by
      simp [hlock, RebuildLease.holds, howner, hgeneration]
    refine bind_eq_ok.mpr ⟨seconds, hlease, ?_⟩
    simp only [hholds]
    rfl
  refine ⟨_, bind_eq_ok.mpr ⟨_, hrenew, rfl⟩, h.relocked hlock, .inr ⟨rfl, ?_⟩⟩
  simp [RebuildState.holder, hlock]

theorem release_result (seen : Int) (g : RebuildGeneration) :
    (rebuildReleaseItem seen).result (rebuildGenerationItem g) =
      some (rebuildGenerationItem ⟨g.value + 1, false⟩) := by
  have hraised : (Operand.plus (.attribute "#value") (.bound ":one")).eval
      (rebuildReleaseItem seen).bindings (rebuildGenerationItem g) = some (.n (g.value + 1)) :=
    raised rfl rfl
  change rebuildReleaseUpdate.apply (rebuildReleaseItem seen).bindings
    (if (rebuildGenerationItem g).isEmpty then _ else _) = _
  rw [if_neg (by simp [rebuildGenerationItem_isEmpty])]
  simp only [UpdateExpression.apply, rebuildReleaseUpdate, List.mapM_cons, List.mapM_nil, hraised]
  change some ((((rebuildGenerationItem g).insert "value" (.n (g.value + 1)))).erase
    "forceReleased") = _
  rw [rebuildGenerationItem_insert, rebuildGenerationItem_erase]

theorem forceRelease_result (seen : Int) (g : RebuildGeneration) :
    (rebuildForceReleaseItem seen).result (rebuildGenerationItem g) =
      some (rebuildGenerationItem ⟨g.value + 2, true⟩) := by
  have hraised : (Operand.plus (.attribute "#value") (.bound ":two")).eval
      (rebuildForceReleaseItem seen).bindings (rebuildGenerationItem g) =
        some (.n (g.value + 2)) :=
    raised rfl rfl
  change rebuildForceReleaseUpdate.apply (rebuildForceReleaseItem seen).bindings
    (if (rebuildGenerationItem g).isEmpty then _ else _) = _
  rw [if_neg (by simp [rebuildGenerationItem_isEmpty])]
  simp only [UpdateExpression.apply, rebuildForceReleaseUpdate, List.mapM_cons, List.mapM_nil,
    hraised]
  change some ((((rebuildGenerationItem g).insert "value" (.n (g.value + 2)))).insert
    "forceReleased" (.bool true)) = _
  rw [rebuildGenerationItem_insert, rebuildGenerationItem_flag]

theorem finish_simulated (h : Represents t s) (howner : checkRebuildOwner lease.owner = .ok ())
    (ht : t.transact (rebuildReleaseItems lease.owner lease.generation .finish) = some t') :
    ∃ s', (DynamoCall.finish lease).inMemory s now =
        .ok (.generation ⟨lease.generation + 1, false⟩, s') ∧
      Represents t' s' ∧ s.rebuild.Later s'.rebuild := by
  obtain ⟨hpasses, hpasses', lock, generation, hresult, hresult', rfl⟩ := Table.transact_pair ht
  obtain ⟨hvalue, hitem⟩ := h.of_seenOdd rfl hpasses'
  obtain ⟨held, hheld, hown, htoken⟩ :=
    h.held_of_conditions true ((Bool.and_true _).trans hpasses)
  cases hresult
  change (rebuildReleaseItem lease.generation).result (t rebuildGenerationKey) =
    some generation at hresult'
  rw [hitem, release_result, Option.some.injEq] at hresult'
  subst hresult'
  have hend : s.rebuild.endRebuild lease = .ok (⟨lease.generation + 1, false⟩,
      ⟨⟨lease.generation + 1, false⟩, none⟩) := by
    refine seq_eq_ok.mpr ⟨howner, ?_⟩
    rw [RebuildState.release, if_pos (by simp [hheld, RebuildLease.holds, hown, htoken]), hvalue]
  obtain ⟨hallowed, happly⟩ := RebuildState.endRebuild_ok hend
  refine ⟨_, bind_eq_ok.mpr ⟨_, hend, rfl⟩, ?_, ?_⟩
  · have hnonneg := h.nonneg
    refine h.moved (happly ▸ FenceChange.fenced_apply h.fenced hallowed) ?_ rfl ?_
    · simp only
      omega
    · rw [hvalue]
  · exact happly ▸ RebuildState.later_apply hallowed

theorem forceRelease_simulated (h : Represents t s) {seen : Int}
    (howner : checkRebuildOwner owner = .ok ())
    (ht : t.transact (rebuildReleaseItems owner seen .force) = some t') :
    ∃ s', (DynamoCall.forceRelease owner).inMemory s now =
        .ok (.generation ⟨seen + 2, true⟩, s') ∧
      Represents t' s' ∧ s.rebuild.Later s'.rebuild := by
  obtain ⟨hpasses, hpasses', lock, generation, hresult, hresult', rfl⟩ := Table.transact_pair ht
  obtain ⟨hvalue, hitem⟩ := h.of_seenOdd rfl hpasses'
  change ((t rebuildLockKey)["owner"]?.isSome &&
    (t rebuildLockKey)["owner"]? == some (.s owner)) = true at hpasses
  simp only [Bool.and_eq_true, beq_iff_eq, h.lock_owner] at hpasses
  obtain ⟨held, hheld, hown⟩ := Option.map_eq_some_iff.mp hpasses.2
  cases hresult
  change (rebuildForceReleaseItem seen).result (t rebuildGenerationKey) =
    some generation at hresult'
  rw [hitem, forceRelease_result, Option.some.injEq] at hresult'
  subst hresult'
  have hforce : s.rebuild.forceReleaseRebuild owner = .ok (⟨seen + 2, true⟩,
      ⟨⟨seen + 2, true⟩, none⟩) := by
    refine seq_eq_ok.mpr ⟨howner, ?_⟩
    rw [RebuildState.release, if_pos (by simpa [hheld] using hown), hvalue]
  obtain ⟨hallowed, happly⟩ := RebuildState.forceReleaseRebuild_ok hforce
  refine ⟨_, bind_eq_ok.mpr ⟨_, hforce, rfl⟩, ?_, ?_⟩
  · have hnonneg := h.nonneg
    have hodd := RebuildGeneration.not_isSettled_iff.mp (h.fenced.locked held hheld).1
    refine h.moved (happly ▸ FenceChange.fenced_apply h.fenced hallowed) ?_ ?_ ?_
    · simp only
      omega
    · have hstill : (⟨seen + 2, true⟩ : RebuildGeneration).isSettled = false := by
        rw [RebuildGeneration.not_isSettled_iff]
        simp only
        omega
      simp [rebuildLockItemOf, hstill]
    · rw [hvalue]
  · exact happly ▸ RebuildState.later_apply hallowed

theorem wrote (h : Represents t s) {views : OrdMap ViewKey ViewRow}
    (hrows : RepresentsRows t' views) (hlog : ∀ pk sk, t' (.log pk sk) = t (.log pk sk)) :
    Represents t' { s with views } where
  lock := (hlog _ _).trans h.lock
  generation := by
    rw [show t' rebuildGenerationKey = t rebuildGenerationKey from hlog _ _]
    exact h.generation
  fenced := h.fenced
  nonneg := h.nonneg
  rows := hrows

variable {items : List TransactItem}

theorem write_simulated (h : Represents t s) {views : List ProjectedView}
    (howner : checkRebuildOwner lease.owner = .ok ()) (hbatch : checkViewBatch views = .ok ())
    (hitems : viewItems views = .ok items)
    (ht : t.transact (items ++ [rebuildGuardItem lease now]) = some t') :
    ∃ s', (DynamoCall.write lease views).inMemory s now = .ok (.written, s') ∧
      Represents t' s' ∧ s.rebuild.Later s'.rebuild := by
  have hvalid : ∀ view ∈ views, invalidReason view.op = none := by
    obtain ⟨-, hbatch⟩ := seq_eq_ok.mp hbatch
    obtain ⟨hviews, -⟩ := seq_eq_ok.mp hbatch
    exact (checkViews_ok hviews).2
  obtain ⟨t'', hfold, hrows, hlog⟩ := viewItems_perform t hvalid hitems h.rows
  unfold Table.transact at ht
  split at ht
  · rename_i hpasses
    rw [List.all_append, Bool.and_eq_true, List.all_eq_true] at hpasses
    obtain ⟨hviews, hguard⟩ := hpasses
    rw [List.foldlM_append, hfold] at ht
    have hkeep : t' = t'' := by
      have hupdate : t' = Function.update t'' rebuildLockKey (t rebuildLockKey) := by
        simpa [Table.perform, TransactItem.result, rebuildGuardItem, eq_comm] using ht
      rw [hupdate, show t rebuildLockKey = t'' rebuildLockKey from (hlog _ _).symm,
        Function.update_eq_self]
    subst hkeep
    refine ⟨{ s with views := applyViews s.views views }, ?_, h.wrote hrows hlog, .refl _⟩
    refine bind_eq_ok.mpr ⟨_, seq_eq_ok.mpr ⟨howner, seq_eq_ok.mpr ⟨hbatch,
      seq_eq_ok.mpr ⟨?_, seq_eq_ok.mpr ⟨viewItems_pass hvalid hitems h.rows hviews, rfl⟩⟩⟩⟩, rfl⟩
    have hguard' : (rebuildGuardItem lease now).passes t = true := by simpa using hguard
    obtain ⟨lock, hlock, hown, htoken⟩ := h.held_of_conditions _ hguard'
    rw [TransactItem.passes] at hguard'
    have hexpires : now < lock.leaseExpiresAt := by
      change (_ && AttributeValue.compares (· > ·) (t rebuildLockKey)["leaseExpiresAt"]?
        (some (.n now))) = true at hguard'
      rw [h.lock_leaseExpiresAt, hlock, Bool.and_eq_true] at hguard'
      simpa [AttributeValue.compares] using hguard'.2
    simp [hlock, RebuildLease.holds, hown, htoken, hexpires]
  · cases ht

theorem commit_simulated (h : Represents t s) {views : List ProjectedView}
    (hviews : checkViews views = .ok ()) (hitems : viewItems views = .ok items)
    (ht : t.transact (rebuildLockCheckItem :: items) = some t') :
    ∃ s', (DynamoCall.commit views).inMemory s now = .ok (.written, s') ∧
      Represents t' s' ∧ s.rebuild.Later s'.rebuild := by
  have hvalid := (checkViews_ok hviews).2
  obtain ⟨t'', hfold, hrows, hlog⟩ := viewItems_perform t hvalid hitems h.rows
  unfold Table.transact at ht
  split at ht
  · rename_i hpasses
    rw [List.all_cons, Bool.and_eq_true, List.all_eq_true] at hpasses
    have hcheck : t.perform t rebuildLockCheckItem = some t := by
      simp [Table.perform, TransactItem.result, rebuildLockCheckItem]
    rw [List.foldlM_cons, hcheck] at ht
    obtain rfl : t' = t'' := Option.some.inj (ht.symm.trans hfold)
    refine ⟨{ s with views := applyViews s.views views }, ?_, h.wrote hrows hlog, .refl _⟩
    refine seq_eq_ok.mpr ⟨hviews, seq_eq_ok.mpr ⟨?_,
      seq_eq_ok.mpr ⟨viewItems_pass hvalid hitems h.rows hpasses.2, rfl⟩⟩⟩
    have hsettled := h.lockCheck_passes_iff.mp hpasses.1
    have hfree : s.rebuild.lock = none := by
      by_contra hheld
      obtain ⟨lock, hlock⟩ := Option.ne_none_iff_exists'.mp hheld
      rw [(h.fenced.locked lock hlock).1] at hsettled
      cases hsettled
    simp [checkRebuild, hfree, hsettled]
  · cases ht

/-- A request that applies is the in-memory call at that moment, with the same result. -/
theorem simulated (h : Represents t s) {call : DynamoCall} {request : FenceSend}
    (hissued : Issued s.rebuild call now request) (hitems : request.items = .ok items)
    (ht : t.transact items = some t') :
    ∃ s', call.inMemory s now = .ok (request.result, s') ∧ Represents t' s' ∧
      s.rebuild.Later s'.rebuild := by
  cases hissued with
  | begin owner length seconds now observed plan hlease hnonneg hplan hlater =>
    cases hitems
    exact h.begin_simulated hlease hnonneg hplan hlater rfl ht
  | renew lease extend seconds now hlease =>
    cases hitems
    exact h.renew_simulated hlease ht
  | finish lease now howner =>
    cases hitems
    exact h.finish_simulated howner ht
  | forceRelease owner now seen howner =>
    cases hitems
    exact h.forceRelease_simulated howner ht
  | write lease views now howner hbatch =>
    obtain ⟨items, hviews, heq⟩ := bind_eq_ok.mp hitems
    cases heq
    exact h.write_simulated howner hbatch hviews ht
  | commit views now hviews =>
    obtain ⟨items, hactions, heq⟩ := bind_eq_ok.mp hitems
    cases heq
    exact h.commit_simulated hviews hactions ht

end Represents

end EventStore
