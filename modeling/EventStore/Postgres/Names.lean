import EventStore.Core.PostgresNames
import EventStore.Lib.Encodings
import EventStore.Lib.Result

/-!
When two PostgreSQL event logs share a relation. A table name does not contain the reserved infix,
so two relations of one name stand for one table, or one table is named as the other's primary
key.
-/
namespace EventStore.Postgres

open Encodings

section Suffixes

def tableSuffixes : List String := ["", "_pkey"]

def eventSuffixes : List String :=
  tableSuffixes ++ ["__evt_entity_type_idx",
    "__evt_command_outcomes", "__evt_command_outcomes_pkey",
    "__evt_features", "__evt_features_pkey",
    "__evt_rebuild_lock", "__evt_rebuild_lock_pkey",
    "__evt_rebuild_generation", "__evt_rebuild_generation_pkey",
    "__evt_stream_heads", "__evt_stream_heads_pkey",
    "__evt_views", "__evt_views_pkey", "__evt_views_type_idx", "__evt_views_ttl_idx"]

theorem checkedRelations_eq (events snapshots : String) :
    checkedRelations events snapshots =
      eventSuffixes.map (events ++ ·) ++ tableSuffixes.map (snapshots ++ ·) := by
  simp [checkedRelations, eventSuffixes, tableSuffixes, outcomesTable, featuresTable,
    rebuildLockTable, rebuildGenerationTable, streamHeadsTable, viewsTable, reservedInfix,
    String.append_assoc]

/-- A suffix that ends in another one has the infix, unless it is the primary key's. -/
theorem suffix_cases : ∀ u ∈ eventSuffixes, ∀ v ∈ eventSuffixes, v.toList <:+ u.toList →
    v = u ∨ (u = "_pkey" ∧ v = "") ∨
      reservedInfix.toList <:+: u.toList.take (u.toList.length - v.toList.length) := by
  decide +kernel

theorem toAsciiLowercase_append (a b : String) :
    toAsciiLowercase (a ++ b) = toAsciiLowercase a ++ toAsciiLowercase b := by
  simp [toAsciiLowercase, String.toList_append]

theorem length_utf8Bytes_map_toLower (text : List Char) :
    (utf8Bytes (text.map Char.toLower)).length = (utf8Bytes text).length := by
  induction text with
  | nil => rfl
  | cons c text ih =>
    have hc : (String.utf8EncodeChar c.toLower).length = (String.utf8EncodeChar c).length := by
      rw [String.length_utf8EncodeChar, String.length_utf8EncodeChar]
      unfold Char.toLower
      split
      · rename_i h
        have hle : c.val.toNat ≤ 90 := UInt32.le_iff_toNat_le.mp h.2
        have hlower : (c.val + ('a'.val - 'A'.val)).toNat ≤ 127 := by
          rw [UInt32.toNat_add, show ('a'.val - 'A'.val).toNat = 32 from rfl]
          omega
        rw [Char.utf8Size, Char.utf8Size, if_pos (UInt32.le_iff_toNat_le.mpr hlower),
          if_pos (UInt32.le_iff_toNat_le.mpr (hle.trans (by decide)))]
      · rfl
    simpa [utf8Bytes, hc] using ih

theorem utf8ByteSize_toAsciiLowercase (name : String) :
    (toAsciiLowercase name).utf8ByteSize = name.utf8ByteSize := by
  rw [← length_utf8Bytes, ← length_utf8Bytes, toAsciiLowercase, String.toList_ofList,
    length_utf8Bytes_map_toLower]

end Suffixes

section Accepting

variable {tables : Tables}

theorem firstRepeated_none {earlier relations : List String} (hearlier : earlier.Nodup)
    (h : firstRepeated earlier relations = none) : (earlier ++ relations).Nodup := by
  induction relations generalizing earlier with
  | nil => simpa using hearlier
  | cons relation relations ih =>
    rw [firstRepeated] at h
    split at h
    · cases h
    · rename_i hnew
      have hnext : (earlier ++ [relation]).Nodup := by
        rw [List.nodup_append]
        refine ⟨hearlier, List.nodup_singleton relation, fun a ha b hb => ?_⟩
        rw [List.mem_singleton.mp hb]
        exact fun heq => hnew (heq ▸ ha)
      simpa using ih hnext h

theorem checkTableName_ok {name : String} {maxLen : Nat} (h : checkTableName name maxLen = .ok ()) :
    name.utf8ByteSize ≤ maxLen ∧ ¬reservedInfix.toList <:+: (toAsciiLowercase name).toList := by
  unfold checkTableName at h
  split at h
  · cases h
  · rename_i hvalid
    split at h
    · cases h
    · rename_i hinfix
      refine ⟨?_, hinfix⟩
      simp only [isValidIdentifier, Bool.not_eq_true', Bool.not_eq_false, Bool.and_eq_true,
        decide_eq_true_eq] at hvalid
      exact hvalid.1.1.1

structure Tables.Checked (tables : Tables) : Prop where
  events : tables.events.utf8ByteSize ≤ maxEventsTableNameLen
  snapshots : tables.snapshots.utf8ByteSize ≤ maxSnapshotsTableNameLen
  infixFree : ∀ name ∈ tables.names, ¬reservedInfix.toList <:+: name.toList
  distinct : (checkedRelations (toAsciiLowercase tables.events)
    (toAsciiLowercase tables.snapshots)).Nodup

theorem Tables.Accepted.checked (h : tables.Accepted) : tables.Checked := by
  obtain ⟨hevents, h⟩ := Result.seq_eq_ok.mp h
  obtain ⟨hsnapshots, h⟩ := Result.seq_eq_ok.mp h
  obtain ⟨hevents, hfree⟩ := checkTableName_ok hevents
  obtain ⟨hsnapshots, hfree'⟩ := checkTableName_ok hsnapshots
  refine ⟨hevents, hsnapshots, by simpa [names] using ⟨hfree, hfree'⟩, ?_⟩
  split at h
  · cases h
  · rename_i hnone
    simpa using firstRepeated_none List.nodup_nil hnone

theorem Tables.relations_perm (tables : Tables) :
    tables.relations.Perm (checkedRelations (toAsciiLowercase tables.events)
      (toAsciiLowercase tables.snapshots)) := by
  have hfold : ∀ suffix ∈ eventSuffixes, toAsciiLowercase suffix = suffix := by decide +kernel
  simp only [eventSuffixes, tableSuffixes, List.cons_append, List.forall_mem_cons] at hfold
  have hrelations : tables.relations =
      (eventSuffixes.take 3).map (toAsciiLowercase tables.events ++ ·) ++
        (tableSuffixes.map (toAsciiLowercase tables.snapshots ++ ·) ++
          (eventSuffixes.drop 3).map (toAsciiLowercase tables.events ++ ·)) := by
    simp [relations, schemaDdl, viewsDdl, Ddl.relations, outcomesTable, featuresTable,
      rebuildLockTable, rebuildGenerationTable, streamHeadsTable, viewsTable, reservedInfix,
      toAsciiLowercase_append, hfold, eventSuffixes, tableSuffixes, String.append_assoc]
  rw [hrelations, checkedRelations_eq]
  conv_rhs => rw [← List.take_append_drop 3 eventSuffixes, List.map_append, List.append_assoc]
  exact List.perm_append_comm.append_left _

theorem Tables.mem_relations {relation : String} :
    relation ∈ tables.relations ↔
      (∃ suffix ∈ eventSuffixes, toAsciiLowercase tables.events ++ suffix = relation) ∨
        ∃ suffix ∈ tableSuffixes, toAsciiLowercase tables.snapshots ++ suffix = relation := by
  rw [tables.relations_perm.mem_iff, checkedRelations_eq, List.mem_append, List.mem_map,
    List.mem_map]

theorem Tables.mem_relations_of_names {name suffix : String} (hname : name ∈ tables.names)
    (hsuffix : suffix ∈ tableSuffixes) : name ++ suffix ∈ tables.relations := by
  have hevent : suffix ∈ eventSuffixes := List.mem_append_left _ hsuffix
  rw [mem_relations]
  simp only [names, List.mem_cons, List.not_mem_nil, or_false] at hname
  rcases hname with rfl | rfl
  · exact .inl ⟨suffix, hevent, rfl⟩
  · exact .inr ⟨suffix, hsuffix, rfl⟩

theorem Tables.exists_of_mem_relations {relation : String} (h : relation ∈ tables.relations) :
    ∃ name ∈ tables.names, ∃ suffix ∈ eventSuffixes, name ++ suffix = relation := by
  rcases mem_relations.mp h with ⟨suffix, hsuffix, heq⟩ | ⟨suffix, hsuffix, heq⟩
  · exact ⟨_, List.mem_cons_self, suffix, hsuffix, heq⟩
  · exact ⟨_, List.mem_cons_of_mem _ List.mem_cons_self, suffix,
      List.mem_append_left _ hsuffix, heq⟩

theorem Tables.Checked.fits (h : tables.Checked) :
    ∀ relation ∈ tables.relations, relation.utf8ByteSize ≤ 63 := by
  have hlong : ∀ suffix ∈ eventSuffixes, suffix.utf8ByteSize ≤ 29 := by decide +kernel
  have hshort : ∀ suffix ∈ tableSuffixes, suffix.utf8ByteSize ≤ 5 := by decide +kernel
  have hevents : tables.events.utf8ByteSize ≤ 34 := h.events
  have hsnapshots : tables.snapshots.utf8ByteSize ≤ 58 := h.snapshots
  intro relation hmem
  rcases Tables.mem_relations.mp hmem with ⟨suffix, hsuffix, rfl⟩ | ⟨suffix, hsuffix, rfl⟩
  · have hle := hlong suffix hsuffix
    rw [String.utf8ByteSize_append, utf8ByteSize_toAsciiLowercase]
    omega
  · have hle := hshort suffix hsuffix
    rw [String.utf8ByteSize_append, utf8ByteSize_toAsciiLowercase]
    omega

end Accepting

section Sharing

/-- One name with two suffixes: the bases are the same, or one is the other with the suffix of a
primary key. -/
theorem bases_of_append_eq {base base' u v : String} (hu : u ∈ eventSuffixes)
    (hv : v ∈ eventSuffixes) (hfree : ¬reservedInfix.toList <:+: base'.toList)
    (h : base ++ u = base' ++ v) (hle : base.toList.length ≤ base'.toList.length) :
    base' = base ∨ base' = base ++ "_pkey" := by
  have hlists : base.toList ++ u.toList = base'.toList ++ v.toList := by
    rw [← String.toList_append, ← String.toList_append, h]
  obtain ⟨w, hbase, htail⟩ | ⟨w, hbase, htail⟩ := List.append_eq_append_iff.mp hlists
  · have hw : u.toList.take (u.toList.length - v.toList.length) = w := by simp [htail]
    rcases suffix_cases u hu v hv ⟨w, htail.symm⟩ with rfl | ⟨rfl, rfl⟩ | hinfix
    · left
      have hnil : w = [] := by simpa using htail
      exact String.toList_injective (by simpa [hnil] using hbase)
    · right
      have hpkey : w = "_pkey".toList := by simpa using htail.symm
      exact String.toList_injective (by rw [hbase, hpkey, String.toList_append])
    · rw [hw] at hinfix
      exact absurd (hbase ▸ hinfix.trans (List.suffix_append base.toList w).isInfix) hfree
  · left
    have hnil : w = [] := by
      rw [hbase, List.length_append] at hle
      exact List.length_eq_zero_iff.mp (by omega)
    exact String.toList_injective (by simpa [hnil] using hbase.symm)

/-- Neither configuration names a table as a primary key of the other. -/
def Tables.PkeyFree (a b : Tables) : Prop :=
  ∀ x ∈ a.names, ∀ y ∈ b.names, x ≠ y ++ "_pkey" ∧ y ≠ x ++ "_pkey"

theorem Tables.Checked.disjoint {a b : Tables} (ha : a.Checked) (hb : b.Checked)
    (hnames : ∀ name ∈ a.names, name ∉ b.names) (hfree : a.PkeyFree b) :
    ∀ relation ∈ a.relations, relation ∉ b.relations := by
  intro relation hrelation hrelation'
  obtain ⟨x, hx, u, hu, hrelation⟩ := exists_of_mem_relations hrelation
  obtain ⟨y, hy, v, hv, hrelation'⟩ := exists_of_mem_relations hrelation'
  have heq : x ++ u = y ++ v := hrelation.trans hrelation'.symm
  rcases Nat.le_total x.toList.length y.toList.length with hle | hle
  · rcases bases_of_append_eq hu hv (hb.infixFree y hy) heq hle with rfl | hpkey
    · exact hnames _ hx hy
    · exact (hfree x hx y hy).2 hpkey
  · rcases bases_of_append_eq hv hu (ha.infixFree x hx) heq.symm hle with rfl | hpkey
    · exact hnames _ hx hy
    · exact (hfree x hx y hy).1 hpkey

theorem Tables.pkeyFree_of_disjoint {a b : Tables}
    (h : ∀ relation ∈ a.relations, relation ∉ b.relations) : a.PkeyFree b := by
  have hbare : "" ∈ tableSuffixes := List.mem_cons_self
  have hpkey : "_pkey" ∈ tableSuffixes := List.mem_cons_of_mem _ List.mem_cons_self
  refine fun x hx y hy => ⟨fun heq => ?_, fun heq => ?_⟩
  · refine h x ?_ (heq ▸ mem_relations_of_names hy hpkey)
    simpa using mem_relations_of_names hx hbare
  · refine h y (heq ▸ mem_relations_of_names hx hpkey) ?_
    simpa using mem_relations_of_names hy hbare

/-- Configurations without a common table share a relation exactly when one names a table as the
other's primary key. -/
theorem event_logs_disjoint_iff {a b : Tables} (ha : a.Accepted) (hb : b.Accepted)
    (hnames : ∀ name ∈ a.names, name ∉ b.names) :
    ((∀ relation ∈ a.relations, relation ∉ b.relations) ↔ a.PkeyFree b) ∧
      (∀ tables ∈ [a, b], tables.relations.Nodup ∧
        ∀ relation ∈ tables.relations, relation.utf8ByteSize ≤ 63) := by
  have hown : ∀ tables : Tables, tables.Accepted → tables.relations.Nodup ∧
      ∀ relation ∈ tables.relations, relation.utf8ByteSize ≤ 63 := fun tables h =>
    ⟨tables.relations_perm.nodup_iff.mpr h.checked.distinct, h.checked.fits⟩
  refine ⟨⟨Tables.pkeyFree_of_disjoint, ha.checked.disjoint hb.checked hnames⟩, fun tables h => ?_⟩
  simp only [List.mem_cons, List.not_mem_nil, or_false] at h
  rcases h with rfl | rfl
  · exact hown _ ha
  · exact hown _ hb

theorem three_accepted : ∀ tables ∈ [Tables.mk "evt_events" "evt_snapshots",
    ⟨"orders", "orders_snapshots"⟩, ⟨"orders_pkey", "other_snapshots"⟩], tables.Accepted := by
  decide +kernel

theorem event_logs_disjoint_default :
    (Tables.mk "evt_events" "evt_snapshots").PkeyFree (Tables.mk "orders" "orders_snapshots") ∧
      ∀ relation ∈ (Tables.mk "evt_events" "evt_snapshots").relations,
        relation ∉ (Tables.mk "orders" "orders_snapshots").relations := by
  have hfree : (Tables.mk "evt_events" "evt_snapshots").PkeyFree
      (Tables.mk "orders" "orders_snapshots") := by
    unfold Tables.PkeyFree
    decide +kernel
  exact ⟨hfree, (event_logs_disjoint_iff (three_accepted _ (by simp)) (three_accepted _ (by simp))
    (by decide +kernel)).1.mpr hfree⟩

/-- The events table of the second log is the first one's primary key. -/
theorem primary_key_shared :
    (Tables.mk "orders" "orders_snapshots").Accepted ∧
      (Tables.mk "orders_pkey" "other_snapshots").Accepted ∧
      (∀ name ∈ (Tables.mk "orders" "orders_snapshots").names,
        name ∉ (Tables.mk "orders_pkey" "other_snapshots").names) ∧
      "orders_pkey" ∈ (Tables.mk "orders" "orders_snapshots").relations ∧
      "orders_pkey" ∈ (Tables.mk "orders_pkey" "other_snapshots").relations :=
  ⟨three_accepted _ (by simp), three_accepted _ (by simp), by decide +kernel⟩

end Sharing

end EventStore.Postgres
