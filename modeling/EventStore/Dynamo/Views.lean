import EventStore.Core.DynamoFence
import EventStore.Memory.Validity

/-!
View operations on DynamoDB against the in-memory ones. The action of a valid operation
passes exactly when the stored row meets its condition, and leaves the row's item.
-/
namespace EventStore

open Result

def ViewRow.item (row : ViewRow) (payload : String) : Item :=
  insertTtl (itemOf
    [("pk", .s row.pk), ("sk", .s row.sk), ("entityID", .s row.entityId),
      ("entityType", .s row.entityType), ("payload", .s payload)]) (some row.ttl)

inductive RowItem : Option ViewRow → Item → Prop
  | absent : RowItem none ∅
  | stored (row : ViewRow) (payload : String) (h : payload.toUTF8 = row.payload) :
      RowItem (some row) (row.item payload)

def RepresentsRows (t : Table) (rows : OrdMap ViewKey ViewRow) : Prop :=
  ∀ key : ViewKey, RowItem rows[key]? (t (.view key.1 key.2))

theorem toUTF8_of_fromUTF8 {bytes : Bytes} {text : String}
    (h : String.fromUTF8? bytes = some text) : text.toUTF8 = bytes := by
  unfold String.fromUTF8? at h
  split at h
  · cases h
    rfl
  · cases h

theorem insertTtl_get (item : Item) (ttl : Option Int) {name : String} (h : name ≠ "ttl") :
    (insertTtl item ttl)[name]? = item[name]? := by
  unfold insertTtl
  split
  · exact OrdMap.get_insert_ne _ _ h
  · rfl

namespace RowItem

variable {row : Option ViewRow} {item : Item}

theorem pk_isNone (h : RowItem row item) : item["pk"]?.isNone = row.isNone := by
  cases h with
  | absent => simp
  | stored row payload =>
    rw [ViewRow.item, insertTtl_get _ _ (by decide)]
    simp [itemOf]

theorem entityId (h : RowItem row item) :
    item["entityID"]? = row.map fun row => .s row.entityId := by
  cases h with
  | absent => simp
  | stored row payload =>
    rw [ViewRow.item, insertTtl_get _ _ (by decide)]
    simp only [itemOf, List.foldl_cons, List.foldl_nil, OrdMap.get_insert, String.reduceEq,
      if_false, if_true, Option.map_some]

theorem payload_eq (h : RowItem row item) {expected : Bytes} {text : String}
    (htext : String.fromUTF8? expected = some text) :
    item["payload"]? = some (.s text) ↔
      ∃ stored, row = some stored ∧ stored.payload = expected := by
  cases h with
  | absent => simp
  | stored row payload hpayload =>
    rw [ViewRow.item, insertTtl_get _ _ (by decide)]
    simp only [itemOf, List.foldl_cons, List.foldl_nil, OrdMap.get_insert, String.reduceEq,
      if_false, if_true, Option.some.injEq, AttributeValue.s.injEq, exists_eq_left']
    rw [← hpayload, ← toUTF8_of_fromUTF8 htext]
    exact (String.toByteArray_inj).symm

end RowItem

theorem isSome_and_beq {stored : Option AttributeValue} {value : AttributeValue} :
    (stored.isSome && stored == some value) = true ↔ stored = some value := by
  cases stored <;> simp

theorem invalidReason_eq_none {op : ViewOperation} (h : invalidReason op = none) :
    (op.kind = .put → op.condition ≠ .present) ∧ (op.kind = .delete → op.condition ≠ .absent) ∧
      (op.expectedPayload.isSome → op.kind = .put ∧ op.condition = .none) := by
  unfold invalidReason at h
  split at h
  · cases h
  · rename_i hput
    split at h
    · cases h
    · rename_i hdelete
      split at h
      · cases h
      · rename_i hexpected
        refine ⟨fun hk hc => hput ⟨hk, hc⟩, fun hk hc => hdelete ⟨hk, hc⟩, fun hsome => ?_⟩
        by_contra hnot
        exact hexpected ⟨hsome, by tauto⟩

def ViewOperation.left (op : ViewOperation) : Option ViewRow :=
  match op.kind with
  | .put => some (.of op)
  | .delete => none

structure ViewOperation.Performs (op : ViewOperation) (action : TransactItem) : Prop where
  key : action.key = op.tableKey
  passes : ∀ (t : Table) (row : Option ViewRow), RowItem row (t op.tableKey) →
    (action.passes t = true ↔ viewHolds row op = true)
  result : ∃ item, RowItem op.left item ∧ ∀ stored, action.result stored = some item

theorem viewOperationItem_ok {op : ViewOperation} {item : Item}
    (h : viewOperationItem op = .ok item) : RowItem (some (.of op)) item := by
  obtain ⟨payload, hpayload, hitem⟩ := bind_eq_ok.mp h
  cases hitem
  unfold utf8 at hpayload
  split at hpayload
  · rename_i htext
    cases hpayload
    exact .stored (.of op) _ (toUTF8_of_fromUTF8 htext)
  · cases hpayload

theorem viewItem_performs {op : ViewOperation} {action : TransactItem}
    (hvalid : invalidReason op = none) (h : viewItem op = .ok action) : op.Performs action := by
  obtain ⟨hput, hdelete, hexpected⟩ := invalidReason_eq_none hvalid
  unfold viewItem at h
  cases hkind : op.kind with
  | put =>
    simp only [hkind] at h
    cases hpayload : op.expectedPayload with
    | some expected =>
      simp only [hpayload] at h
      cases htext : String.fromUTF8? expected with
      | none => simp [htext] at h
      | some text =>
        simp only [htext] at h
        obtain ⟨item, hitem, h⟩ := bind_eq_ok.mp h
        cases h
        refine ⟨rfl, fun t row hrow => ?_, item, ?_, fun _ => rfl⟩
        · change ((t op.tableKey)["entityID"]?.isSome &&
              (t op.tableKey)["entityID"]? == some (.s op.owner) &&
            ((t op.tableKey)["payload"]?.isSome &&
              (t op.tableKey)["payload"]? == some (.s text))) = true ↔ _
          have hcondition := (hexpected (by simp [hpayload])).2
          rw [Bool.and_eq_true, isSome_and_beq, isSome_and_beq, hrow.payload_eq htext,
            hrow.entityId]
          cases row <;> simp [viewHolds, hcondition, hpayload]
        · simpa [ViewOperation.left, hkind] using viewOperationItem_ok hitem
    | none =>
      simp only [hpayload] at h
      obtain ⟨item, hitem, h⟩ := bind_eq_ok.mp h
      cases h
      refine ⟨rfl, fun t row hrow => ?_, item, ?_, fun _ => rfl⟩
      · have hcondition := hput hkind
        have hpk := hrow.pk_isNone
        have howner := hrow.entityId
        cases hc : op.condition with
        | present => exact absurd hc hcondition
        | absent =>
          change (t op.tableKey)["pk"]?.isNone = true ↔ _
          simp [hpk, viewHolds, hc, hpayload]
        | none =>
          change ((t op.tableKey)["pk"]?.isNone || ((t op.tableKey)["entityID"]?.isSome &&
            (t op.tableKey)["entityID"]? == some (.s op.owner))) = true ↔ _
          rw [Bool.or_eq_true, isSome_and_beq, hpk, howner]
          cases row <;> simp [viewHolds, hc, hpayload]
      · simpa [ViewOperation.left, hkind] using viewOperationItem_ok hitem
  | delete =>
    simp only [hkind] at h
    cases h
    refine ⟨rfl, fun t row hrow => ?_, ∅, ?_, fun _ => rfl⟩
    · have hpk := hrow.pk_isNone
      have howner := hrow.entityId
      have hpayload : op.expectedPayload = none := by
        by_contra hsome
        have := (hexpected (Option.isSome_iff_ne_none.mpr hsome)).1
        simp [hkind] at this
      cases hc : op.condition with
      | absent => exact absurd hc (hdelete hkind)
      | present =>
        change ((t op.tableKey)["pk"]?.isSome && ((t op.tableKey)["entityID"]?.isSome &&
          (t op.tableKey)["entityID"]? == some (.s op.owner))) = true ↔ _
        rw [Bool.and_eq_true, isSome_and_beq, ← Option.not_isNone, hpk, howner]
        cases row <;> simp [viewHolds, hc, hpayload]
      | none =>
        change ((t op.tableKey)["pk"]?.isNone || ((t op.tableKey)["entityID"]?.isSome &&
          (t op.tableKey)["entityID"]? == some (.s op.owner))) = true ↔ _
        rw [Bool.or_eq_true, isSome_and_beq, hpk, howner]
        cases row <;> simp [viewHolds, hc, hpayload]
    · simpa [ViewOperation.left, hkind] using RowItem.absent

section Batches

variable {t t' : Table} {rows : OrdMap ViewKey ViewRow} {views : List ProjectedView}
  {items : List TransactItem}

theorem applyView_get (rows : OrdMap ViewKey ViewRow) (view : ProjectedView) (key : ViewKey) :
    (applyView rows view)[key]? = if key = view.op.key then view.op.left else rows[key]? := by
  unfold applyView ViewOperation.left
  cases view.op.kind with
  | put => exact OrdMap.get_insert ..
  | delete => exact OrdMap.get_erase ..

/-- The actions of a batch pass exactly when the rows meet every condition. -/
theorem viewItems_pass (hvalid : ∀ view ∈ views, invalidReason view.op = none)
    (h : viewItems views = .ok items) (hrows : RepresentsRows t rows)
    (hpass : ∀ a ∈ items, a.passes t = true) : checkViewConditions rows views = .ok () := by
  have hnone : views.find? (fun view => !viewHolds rows[view.op.key]? view.op) = none := by
    refine List.find?_eq_none.mpr fun view hview => ?_
    obtain ⟨action, haction, hitem⟩ := (mem_of_mapM h).2 view hview
    have hperforms := viewItem_performs (hvalid view hview) hitem
    simpa using (hperforms.passes t _ (hrows view.op.key)).mp (hpass action haction)
  unfold checkViewConditions
  rw [hnone]

theorem viewItems_perform (t : Table) (hvalid : ∀ view ∈ views, invalidReason view.op = none)
    (h : viewItems views = .ok items) (hrows : RepresentsRows t' rows) :
    ∃ t'', items.foldlM t.perform t' = some t'' ∧ RepresentsRows t'' (applyViews rows views) ∧
      ∀ pk sk, t'' (.log pk sk) = t' (.log pk sk) := by
  induction mapM_eq_ok.mp h generalizing t' rows with
  | nil => exact ⟨t', rfl, hrows, fun _ _ => rfl⟩
  | @cons view action views items hitem hrest ih =>
    have hperforms := viewItem_performs (hvalid view List.mem_cons_self) hitem
    obtain ⟨item, hleft, hresult⟩ := hperforms.result
    have hstep : t.perform t' action = some (Function.update t' view.op.tableKey item) := by
      simp [Table.perform, hresult, hperforms.key]
    have hrows' : RepresentsRows (Function.update t' view.op.tableKey item)
        (applyView rows view) := by
      intro key
      rw [applyView_get]
      by_cases hkey : key = view.op.key
      · subst hkey
        rw [if_pos rfl]
        change RowItem _ (Function.update t' view.op.tableKey item view.op.tableKey)
        rwa [Function.update_self]
      · rw [if_neg hkey, Function.update_of_ne]
        · exact hrows key
        · intro heq
          obtain ⟨hpk, hsk⟩ := TableKey.view.inj heq
          exact hkey (Prod.ext hpk hsk)
    obtain ⟨t'', hfold, hrows'', hlog⟩ := ih
      (fun other hother => hvalid other (List.mem_cons_of_mem _ hother))
      (mapM_eq_ok.mpr hrest) hrows'
    refine ⟨t'', ?_, hrows'', fun pk sk => ?_⟩
    · rw [List.foldlM_cons, hstep]
      exact hfold
    · rw [hlog, Function.update_of_ne (by simp [ViewOperation.tableKey])]

end Batches

end EventStore
