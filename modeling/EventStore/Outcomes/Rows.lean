import EventStore.Outcomes.Texts
import EventStore.Memory.Conserving

/-!
Every outcome a repository accepts is read back from its row, under two conditions the write side
does not check: its events' entity IDs are not empty, and the rejection's details do not nest too
deep.
-/
namespace EventStore

open Result JsonValues

section EventIds

theorem toString_natCast (n : Nat) : (toString (n : Int)).toList = Nat.toDigits 10 n := by
  rw [show toString (n : Int) = Nat.repr n from rfl, Nat.repr, String.toList_ofList]

theorem isDigit_toDigits {n : Nat} {c : Char} (h : c ∈ Nat.toDigits 10 n) : c.isDigit = true :=
  Nat.isDigit_of_mem_toDigits (by decide) (by decide) h

theorem parseI64_toDigits {n : Nat} (h : (n : Int) ≤ maxSequence) :
    parseI64 (Nat.toDigits 10 n) = some (n : Int) := by
  have hall : (Nat.toDigits 10 n).all Char.isDigit = true :=
    List.all_eq_true.mpr fun c hc => isDigit_toDigits hc
  have hne : Nat.toDigits 10 n ≠ [] := Nat.toDigits_ne_nil
  have hhead : ∀ c : Char, c.isDigit = false → (Nat.toDigits 10 n).head? ≠ some c := by
    intro c hc heq
    have hdigit := isDigit_toDigits (List.mem_of_head? heq)
    rw [hc] at hdigit
    cases hdigit
  have hminus := hhead '-' (by decide)
  have hplus := hhead '+' (by decide)
  have hvalue : Nat.ofDigitChars 10 (Nat.toDigits 10 n) 0 = n :=
    Nat.ofDigitChars_toDigits (by decide) (by decide)
  have hmin : -maxSequence - 1 ≤ (n : Int) := by
    unfold maxSequence
    omega
  simp only [parseI64, hminus, hplus, hall, hvalue, decide_false, Bool.or_self, Bool.false_eq_true,
    if_false, Bool.not_true]
  simp [hne, hmin, h]

theorem rsplitOnce_append {c : Char} (before : List Char) {after : List Char} (h : c ∉ after) :
    rsplitOnce c (before ++ c :: after) = some (before, after) := by
  have hall : ∀ a ∈ after.reverse, decide (a ≠ c) = true := by
    intro a ha
    refine decide_eq_true ?_
    rintro rfl
    exact h (List.mem_reverse.mp ha)
  rw [rsplitOnce, if_pos (by simp), List.reverse_append, List.reverse_cons, List.append_assoc,
    List.takeWhile_append_of_pos hall, List.dropWhile_append_of_pos hall]
  simp

theorem canonicalEventId_forEvent (entityId : EntityId) {sequence : Int} (hmin : 1 ≤ sequence)
    (hmax : sequence ≤ maxSequence) :
    canonicalEventId (EventId.forEvent entityId sequence) = decide (entityId ≠ "") := by
  obtain ⟨n, rfl⟩ := Int.eq_ofNat_of_zero_le (by omega : 0 ≤ sequence)
  have hchars : (EventId.forEvent entityId (n : Int)).toList =
      entityId.toList ++ ':' :: Nat.toDigits 10 n := by
    rw [EventId.forEvent, String.toList_append, String.toList_append, toString_natCast,
      List.append_assoc]
    rfl
  have hcolon : ':' ∉ Nat.toDigits 10 n := by
    intro hmem
    exact absurd (isDigit_toDigits hmem) (by decide)
  have hempty : entityId.toList.isEmpty = decide (entityId = "") := by
    rw [Bool.eq_iff_iff, List.isEmpty_iff, decide_eq_true_eq, String.toList_eq_nil_iff]
  simp only [canonicalEventId, hchars, rsplitOnce_append _ hcolon, parseI64_toDigits hmax,
    Option.any_some, toString_natCast, hmin, decide_true, Bool.and_true, hempty]
  simp

end EventIds

section Items

variable {name : String}

theorem lookup_cons_if (key : String) (value : AttributeValue)
    (rest : List (String × AttributeValue)) :
    List.lookup name ((key, value) :: rest) =
      if name = key then some value else rest.lookup name := by
  rw [List.lookup_cons]
  by_cases hname : name = key
  · simp [hname]
  · rw [beq_eq_false_iff_ne.mpr hname, if_neg hname]

theorem getElem?_itemOf (values : List (String × AttributeValue)) :
    (itemOf values)[name]? = values.reverse.lookup name := by
  induction values using List.reverseRecOn with
  | nil => rfl
  | append_singleton values value ih =>
    have hinsert : itemOf (values ++ [value]) = (itemOf values).insert value.1 value.2 := by
      rw [itemOf, List.foldl_append]
      rfl
    rw [hinsert, OrdMap.get_insert, ih, List.reverse_append]
    exact (lookup_cons_if _ _ _).symm

theorem lookup_optional {α : Type} (value : Option α) (key : String) (f : α → AttributeValue) :
    (value.map fun a => (key, f a)).toList.reverse.lookup name =
      if name = key then value.map f else none := by
  cases value with
  | none => simp
  | some a => simp [lookup_cons_if]

theorem lookup_unless {α : Type} (l : List α) (key : String) (value : AttributeValue) :
    (if l.isEmpty then [] else [(key, value)] : List (String × AttributeValue)).reverse.lookup
      name = if name = key then (if l.isEmpty then none else some value) else none := by
  cases l <;> simp [lookup_cons_if]

end Items

structure RowHolds (E : Env) (o : Outcome) (rejection : Option String) (item : Item) : Prop where
  pk : item["pk"]? = some (.s (outcomeKey o.commandId))
  status : item["status"]? = some (.s o.status.text)
  digest : item["digest"]? = some (.s o.digest)
  response : item["response"]? =
    (o.response.filter fun r => !r.isEmpty).map fun r => .s (E.base64 r)
  events : item["events"]? = if o.eventIds.isEmpty then none else some (.s (E.strings o.eventIds))
  rejection : item["rejection"]? = rejection.map .s
  code : item["code"]? = o.rejection.map fun rejection => .s rejection.code
  commandType : item["commandType"]? = o.identity.map fun identity => .s identity.commandType
  targets : item["targets"]? = o.identity.map fun identity => .s (E.strings identity.targets)
  principal : item["principal"]? = (o.identity.bind (·.principal)).map .s

def rejectionAttributes (rejection : Option (String × String)) : List (String × AttributeValue) :=
  match rejection with
  | none => []
  | some (text, code) => [("rejection", .s text), ("code", .s code)]

theorem lookup_rejectionAttributes (name : String) (rejection : Option (String × String)) :
    (rejectionAttributes rejection).reverse.lookup name =
      if name = "code" then rejection.map fun r => .s r.2
      else if name = "rejection" then rejection.map fun r => .s r.1 else none := by
  cases rejection with
  | none => simp [rejectionAttributes]
  | some r => simp [rejectionAttributes, lookup_cons_if]

theorem lookup_identityAttributes (E : Env) (name : String) (identity : Option RecordedIdentity) :
    ((identity.map (·.attributes E)).getD []).reverse.lookup name =
      if name = "principal" then (identity.bind (·.principal)).map .s
      else if name = "targets" then identity.map fun i => .s (E.strings i.targets)
      else if name = "commandType" then identity.map fun i => .s i.commandType else none := by
  cases identity with
  | none => simp
  | some identity =>
    simp only [Option.map_some, Option.getD_some, RecordedIdentity.attributes,
      List.reverse_append, List.lookup_append, lookup_optional, Option.bind_some]
    by_cases hprincipal : name = "principal"
    · cases identity.principal <;> simp [hprincipal, lookup_cons_if]
    · simp [hprincipal, lookup_cons_if]

theorem rowHolds_itemOf (E : Env) (o : Outcome) (rejection : Option (String × String))
    (hcode : rejection.map Prod.snd = o.rejection.map (·.code)) :
    RowHolds E o (rejection.map Prod.fst) (itemOf
      ([("pk", .s (outcomeKey o.commandId)), ("sk", .n outcomeSortKey),
        ("status", .s o.status.text), ("digest", .s o.digest)] ++
      ((o.response.filter fun r => !r.isEmpty).map
        fun r => ("response", AttributeValue.s (E.base64 r))).toList ++
      (if o.eventIds.isEmpty then [] else [("events", .s (E.strings o.eventIds))]) ++
      rejectionAttributes rejection ++ ((o.identity.map (·.attributes E)).getD []))) := by
  have hcode' : (rejection.map fun r => AttributeValue.s r.2) =
      o.rejection.map fun rejection => .s rejection.code := by
    have := congrArg (Option.map AttributeValue.s) hcode
    simpa [Option.map_map, Function.comp_def] using this
  constructor <;>
    simp only [getElem?_itemOf, List.reverse_append, List.lookup_append, lookup_optional,
      lookup_unless, lookup_rejectionAttributes, lookup_identityAttributes, List.reverse_cons,
      List.reverse_nil, List.nil_append, lookup_cons_if, List.lookup_nil, hcode'] <;>
    simp [Function.comp_def]

variable {text : Option String} {o : Outcome}

theorem outcomeItem_of_encode {E : Env} (h : o.rejection.mapM (Rejection.encode E) = .ok text) :
    ∃ item, outcomeItem E o = .ok item ∧ RowHolds E o text item := by
  rw [outcomeItem]
  cases hrejection : o.rejection with
  | none =>
    rw [hrejection] at h
    cases h
    exact ⟨_, rfl, rowHolds_itemOf E o none (by simp [hrejection])⟩
  | some r =>
    rw [hrejection, Option.mapM_some] at h
    obtain ⟨encoded, hencoded, htext⟩ := bind_eq_ok.mp h
    cases htext
    exact ⟨_, bind_eq_ok.mpr ⟨encoded, hencoded, rfl⟩,
      rowHolds_itemOf E o (some (encoded, r.code)) (by simp [hrejection])⟩

def Outcome.canonical (E : Env) (o : Outcome) : Except Error Outcome := do
  return { o with rejection := ← o.rejection.mapM (Rejection.canonical E) }

/-- The outcome has a row, and the row is read as the outcome in its canonical form. -/
def ReadsBack (L : JsonLayer) (o : Outcome) : Prop :=
  ∃ item read, outcomeItem L.env o = .ok item ∧ o.canonical L.env = .ok read ∧
    L.outcomeFromItem item = .ok read

section Reading

variable {L : JsonLayer} {o : Outcome} {item : Item} {name : String}

theorem requiredString_of {value : String} (h : item[name]? = some (.s value)) :
    requiredString item name = .ok value := by
  rw [requiredString, h]

theorem optionalString_of {value : Option String} (h : item[name]? = value.map .s) :
    optionalString item name = .ok value := by
  rw [optionalString, h]
  cases value <;> rfl

theorem filledString_of {value : Option String} (h : item[name]? = value.map .s)
    (hfilled : ∀ text, value = some text → text ≠ "") : filledString item name = .ok value := by
  rw [filledString, optionalString_of h]
  cases value with
  | none => rfl
  | some text =>
    change Except.ok ((some text).filter _) = _
    rw [Option.filter_some, if_pos (by simpa using hfilled text rfl)]

theorem commandIdOf_outcomeKey (commandId : CommandId) :
    JsonLayer.commandIdOf (outcomeKey commandId) = .ok commandId := by
  have hchars : (outcomeKey commandId).toList = commandOutcomePrefix.toList ++ commandId.toList :=
    String.toList_append
  rw [JsonLayer.commandIdOf, startsWith, hchars, if_pos (by simp), ← String.length_toList,
    List.drop_left, String.ofList_toList]

theorem statusOf_text (status : OutcomeStatus) : JsonLayer.statusOf status.text = .ok status := by
  cases status <;> rfl

theorem base64_ne_empty {bytes : Bytes} (h : bytes.isEmpty = false) : Base64.encode bytes ≠ "" := by
  intro hempty
  have hread := Base64.decode_encode bytes
  rw [hempty] at hread
  cases hread
  cases h

theorem responseOf_encode (response : Option Bytes) :
    responseOf (response.map Base64.encode) = .ok response := by
  cases response with
  | none => rfl
  | some bytes => rw [Option.map_some, responseOf, Base64.decode_encode]

/-- The text of a rejection is read as its canonical form. -/
theorem rejectionOf_encode (h : o.rejection.mapM (Rejection.encode L.env) = .ok text) :
    L.rejectionOf text = o.rejection.mapM (Rejection.canonical L.env) := by
  cases hrejection : o.rejection with
  | none =>
    rw [hrejection] at h
    cases h
    rfl
  | some r =>
    rw [hrejection, Option.mapM_some] at h
    obtain ⟨encoded, hencoded, htext⟩ := bind_eq_ok.mp h
    cases htext
    rw [Option.mapM_some, Rejection.canonical, hencoded]
    change L.rejectionOf (some encoded) = some <$> (L.readRejection encoded).mapError _
    rw [JsonLayer.rejectionOf]
    cases L.readRejection encoded <;> rfl

variable {r : Rejection}

theorem encode_eq_ok {text : String} (h : r.encode L.env = .ok text) :
    L.rejection r = .ok text ∧ ∀ details, r.details = some details → details.isObject = true := by
  rw [Rejection.encode] at h
  split at h
  · cases h
  · rename_i hobject
    split at h
    · cases h
    · refine ⟨?_, fun details hdetails => by simpa [hdetails] using hobject⟩
      change (L.rejection r).mapError TextError.toError = _ at h
      cases hr : L.rejection r with
      | error e =>
        rw [hr] at h
        cases h
      | ok encoded =>
        rw [hr] at h
        cases h
        rfl

theorem encode_ne_empty {text : String} (h : r.encode L.env = .ok text) : text ≠ "" := by
  have htext := (encode_eq_ok h).1
  rw [JsonLayer.rejection, Rejection.toValue_eq] at htext
  cases hvalue : r.toJson.toValue L.numbers with
  | none =>
    rw [hvalue] at htext
    cases htext
  | some value =>
    rw [hvalue] at htext
    rw [canonicalText_eq_ok hvalue htext]
    exact jsonText_ne_empty _

def Rejection.Readable (r : Rejection) : Prop :=
  (r.details.getD .null).depth + 1 < recursionLimit

instance instDecidableReadable (r : Rejection) : Decidable r.Readable :=
  inferInstanceAs (Decidable (_ < _))

/-- A written rejection that can be read has a canonical form, with its code and message. -/
theorem canonical_of_encode {text : String} (hreads : r.TextRead L)
    (h : r.encode L.env = .ok text) :
    if r.Readable then ∃ details, r.canonical L.env = .ok ⟨r.code, r.message, details⟩
    else ∃ e, r.canonical L.env = .error e := by
  obtain ⟨htext, hobject⟩ := encode_eq_ok h
  have hread := Rejection.readRejection_of_ok hreads htext hobject
  have hcanonical : r.canonical L.env = (L.readRejection text).mapError
      fun message => .invalidRecord ("decode rejection: " ++ message) := by
    rw [Rejection.canonical, h]
    rfl
  by_cases hdepth : r.Readable
  · have hlt : (r.details.getD .null).depth + 1 < recursionLimit := hdepth
    rw [if_pos hlt] at hread
    rw [if_pos hdepth]
    obtain ⟨details, hread⟩ := hread
    exact ⟨details, by rw [hcanonical, hread]; rfl⟩
  · have hle : ¬(r.details.getD .null).depth + 1 < recursionLimit := hdepth
    rw [if_neg hle] at hread
    rw [if_neg hdepth]
    obtain ⟨message, hread⟩ := hread
    exact ⟨_, by rw [hcanonical, hread]; rfl⟩

theorem checkEventIds_eq_ok (commandId : CommandId) (ids : List EventId) :
    checkEventIds commandId ids = .ok () ↔ ∀ id ∈ ids, canonicalEventId id = true := by
  induction ids with
  | nil => simp [checkEventIds]
  | cons id ids ih =>
    by_cases hid : canonicalEventId id = true <;> simp [checkEventIds, hid, ih]

/-- The reader reads the texts of the outcome's row. -/
structure Outcome.TextsRead (L : JsonLayer) (o : Outcome) : Prop where
  eventIds : L.ReadsStrings o.eventIds
  targets : ∀ identity, o.identity = some identity → L.ReadsStrings identity.targets
  rejection : ∀ r, o.rejection = some r → r.TextRead L

theorem decode_identity (commandId : CommandId) {identity : Option RecordedIdentity}
    (hreads : ∀ i, identity = some i → L.ReadsStrings i.targets) :
    RecordedIdentity.decode L.readJson commandId (identity.map (·.commandType))
      (identity.map fun i => L.env.strings i.targets) (identity.bind (·.principal)) =
        .ok identity := by
  cases identity with
  | none => rfl
  | some identity =>
    simp only [Option.map_some, Option.bind_some, RecordedIdentity.decode]
    rw [show L.env.strings identity.targets = JsonLayer.strings identity.targets from rfl,
      decodeTargets_strings commandId (hreads identity rfl)]
    rfl

theorem canonical_code {read : Option Rejection} (hreads : o.TextsRead L)
    (htext : o.rejection.mapM (Rejection.encode L.env) = .ok text)
    (h : o.rejection.mapM (Rejection.canonical L.env) = .ok read) :
    read.map (·.code) = o.rejection.map (·.code) := by
  cases hrejection : o.rejection with
  | none =>
    rw [hrejection] at h
    cases h
    rfl
  | some r =>
    rw [hrejection, Option.mapM_some] at h htext
    obtain ⟨encoded, hencoded, -⟩ := bind_eq_ok.mp htext
    obtain ⟨canonical, hcanonical, hread⟩ := bind_eq_ok.mp h
    cases hread
    have hcases := canonical_of_encode (hreads.rejection r hrejection) hencoded
    split at hcases
    · obtain ⟨details, hdetails⟩ := hcases
      rw [hcanonical] at hdetails
      cases hdetails
      rfl
    · obtain ⟨e, herror⟩ := hcases
      rw [hcanonical] at herror
      cases herror

namespace RowHolds

variable {text : Option String}

theorem readResponse (hrow : RowHolds L.env o text item)
    (hstored : o.response.filter (fun r => !r.isEmpty) = o.response) :
    ∃ encoded, filledString item "response" = .ok encoded ∧
      responseOf encoded = .ok o.response := by
  refine ⟨o.response.map Base64.encode, filledString_of ?_ ?_, responseOf_encode _⟩
  · rw [hrow.response, hstored, Option.map_map]
    rfl
  · intro encoded hencoded
    obtain ⟨bytes, hbytes, rfl⟩ := Option.map_eq_some_iff.mp hencoded
    rw [hbytes, Option.filter_eq_some_iff] at hstored
    exact base64_ne_empty (by simpa using hstored.2)

theorem readEventIds (hreads : o.TextsRead L) (hrow : RowHolds L.env o text item) :
    ∃ encoded, filledString item "events" = .ok encoded ∧
      L.eventIdsOf encoded = .ok o.eventIds := by
  cases hids : o.eventIds with
  | nil => exact ⟨none, filledString_of (by rw [hrow.events, hids]; rfl) (by simp), rfl⟩
  | cons id ids =>
    refine ⟨some (JsonLayer.strings (id :: ids)), filledString_of ?_ ?_,
      decodeEventIds_strings (hids ▸ hreads.eventIds)⟩
    · rw [hrow.events, hids]
      rfl
    · rintro encoded ⟨⟩
      exact jsonText_ne_empty _

theorem readRejection (hrow : RowHolds L.env o text item)
    (htext : o.rejection.mapM (Rejection.encode L.env) = .ok text) :
    filledString item "rejection" = .ok text := by
  refine filledString_of hrow.rejection ?_
  rintro encoded rfl
  cases hrejection : o.rejection with
  | none =>
    rw [hrejection] at htext
    cases htext
  | some r =>
    rw [hrejection, Option.mapM_some] at htext
    obtain ⟨_, hencoded, hsome⟩ := bind_eq_ok.mp htext
    cases hsome
    exact encode_ne_empty hencoded

theorem readIdentity (hrow : RowHolds L.env o text item) :
    optionalString item "commandType" = .ok (o.identity.map (·.commandType)) ∧
      optionalString item "targets" = .ok (o.identity.map fun i => L.env.strings i.targets) ∧
      optionalString item "principal" = .ok (o.identity.bind (·.principal)) := by
  refine ⟨optionalString_of ?_, optionalString_of ?_, optionalString_of hrow.principal⟩
  · rw [hrow.commandType, Option.map_map]
    rfl
  · rw [hrow.targets, Option.map_map]
    rfl

theorem checkCode_eq_ok (hrow : RowHolds L.env o text item) {read : Outcome}
    (h : read.rejection.map (·.code) = o.rejection.map (·.code)) :
    JsonLayer.checkCode item read = .ok () := by
  have hcode : optionalString item "code" = .ok (read.rejection.map (·.code)) := by
    refine optionalString_of ?_
    rw [hrow.code, h, Option.map_map]
    rfl
  rw [JsonLayer.checkCode, hcode]
  cases hrejection : read.rejection with
  | none => rfl
  | some r => exact refuse_eq_ok.mpr (fun hne => hne rfl)

end RowHolds

theorem isSome_of_checkStatus (h : checkStatus o = .ok ()) :
    decide (o.status = .rejected) = o.rejection.isSome := by
  rw [checkStatus] at h
  cases hkind : o.status with
  | accepted =>
    rw [hkind] at h
    simpa using refuse_eq_ok.mp h
  | rejected =>
    rw [hkind] at h
    cases hrejection : o.rejection with
    | none => simp [hrejection] at h
    | some r => rfl

theorem validateStored_eq_ok (read : Outcome) (hdigest : read.digest ≠ "")
    (hstatus : checkStatus o = .ok ()) (hsame : read.status = o.status)
    (hcode : read.rejection.map (·.code) = o.rejection.map (·.code)) :
    read.validateStored = .ok () ↔ ∀ id ∈ read.eventIds, canonicalEventId id = true := by
  have hrejection : read.checkStoredRejection = .ok () := by
    rw [checkStatus] at hstatus
    rw [Outcome.checkStoredRejection, hsame]
    cases hkind : o.status with
    | accepted =>
      rw [hkind] at hstatus
      have hnone := refuse_eq_ok.mp hstatus
      refine refuse_eq_ok.mpr ?_
      have := congrArg Option.isSome hcode
      simp only [Option.isSome_map] at this
      rwa [this]
    | rejected =>
      rw [hkind] at hstatus
      have hall := refuse_eq_ok.mp hstatus
      refine refuse_eq_ok.mpr ?_
      have := congrArg (Option.all String.isEmpty) hcode
      simp only [Option.all_map] at this
      rwa [this]
  have hfilled : ¬read.digest.isEmpty = true := by simpa using hdigest
  rw [Outcome.validateStored, seq_eq_ok, seq_eq_ok, refuse_eq_ok, checkEventIds_eq_ok]
  exact ⟨fun h => h.2.2, fun h => ⟨hfilled, hrejection, h⟩⟩

/-- A row is read exactly when its event IDs and its rejection are canonical. -/
theorem outcomeFromItem_eq_ok {read : Outcome} (hreads : o.TextsRead L)
    (hresponse : o.response.filter (fun r => !r.isEmpty) = o.response) (hdigest : o.digest ≠ "")
    (hstatus : checkStatus o = .ok ())
    (htext : o.rejection.mapM (Rejection.encode L.env) = .ok text)
    (hrow : RowHolds L.env o text item) :
    L.outcomeFromItem item = .ok read ↔
      (∀ id ∈ o.eventIds, canonicalEventId id = true) ∧ o.canonical L.env = .ok read := by
  obtain ⟨response, hresponseText, hresponseRead⟩ := hrow.readResponse hresponse
  obtain ⟨events, heventsText, heventsRead⟩ := hrow.readEventIds hreads
  obtain ⟨htype, htargets, hprincipal⟩ := hrow.readIdentity
  have hdigestText : optionalString item "digest" = .ok (some o.digest) :=
    optionalString_of hrow.digest
  simp only [JsonLayer.outcomeFromItem, bind_eq_ok, requiredString_of hrow.pk,
    requiredString_of hrow.status, commandIdOf_outcomeKey, statusOf_text, hresponseText,
    hresponseRead, heventsText, heventsRead, hrow.readRejection htext, rejectionOf_encode htext,
    htype, htargets, hprincipal, hdigestText, decode_identity _ hreads.targets, Except.ok.injEq,
    exists_eq_left',
    Outcome.canonical]
  constructor
  · rintro ⟨rejection, hcanonical, _, _, _, hvalid, _, _, hread⟩
    have hcode := canonical_code hreads htext hcanonical
    have hvalidIff := validateStored_eq_ok { o with rejection, identity := none } hdigest hstatus
      rfl hcode
    exact ⟨hvalidIff.mp hvalid, rejection, hcanonical, hread⟩
  · rintro ⟨hids, rejection, hcanonical, hread⟩
    have hcode := canonical_code hreads htext hcanonical
    have hvalidIff := validateStored_eq_ok { o with rejection, identity := none } hdigest hstatus
      rfl hcode
    have hsome : decide (o.status = .rejected) = rejection.isSome := by
      rw [isSome_of_checkStatus hstatus, ← Option.isSome_map (f := (·.code)), ← hcode,
        Option.isSome_map]
    exact ⟨rejection, hcanonical, (), refuse_eq_ok.mpr (not_not.mpr hsome), (),
      hvalidIff.mpr hids, (), hrow.checkCode_eq_ok hcode, hread⟩

end Reading

/-- The events name their entities, and the rejection's details do not nest too deep. -/
def Outcome.Readable (o : Outcome) (events : List SerializedEvent) : Prop :=
  (∀ event ∈ events, event.entityId ≠ "") ∧ ∀ r, o.rejection = some r → r.Readable

section Accepted

variable {Op : Type} {L : JsonLayer}

theorem canonical_isOk_iff (hreads : ∀ r, o.rejection = some r → r.TextRead L)
    (htext : o.rejection.mapM (Rejection.encode L.env) = .ok text) :
    (∃ read, o.canonical L.env = .ok read) ↔ ∀ r, o.rejection = some r → r.Readable := by
  rw [Outcome.canonical]
  cases hrejection : o.rejection with
  | none => exact ⟨fun _ r hr => (nomatch hr), fun _ => ⟨_, rfl⟩⟩
  | some r =>
    rw [hrejection, Option.mapM_some] at htext
    obtain ⟨encoded, hencoded, -⟩ := bind_eq_ok.mp htext
    have hcases := canonical_of_encode (hreads r hrejection) hencoded
    by_cases hreadable : r.Readable
    · rw [if_pos hreadable] at hcases
      obtain ⟨details, hdetails⟩ := hcases
      refine ⟨fun _ _ hr => Option.some.inj hr ▸ hreadable, fun _ => ?_⟩
      rw [Option.mapM_some, hdetails]
      exact ⟨_, rfl⟩
    · rw [if_neg hreadable] at hcases
      obtain ⟨e, herror⟩ := hcases
      refine ⟨?_, fun h => absurd (h r rfl) hreadable⟩
      rintro ⟨read, hread⟩
      rw [Option.mapM_some, herror] at hread
      cases hread

theorem encode_of_checkRejection {rejection : Option Rejection}
    (h : checkRejection L.env rejection = .ok ()) :
    ∃ text, rejection.mapM (Rejection.encode L.env) = .ok text := by
  cases rejection with
  | none => exact ⟨none, rfl⟩
  | some r =>
    obtain ⟨text, htext, -⟩ := map_eq_ok.mp h
    exact ⟨some text, by rw [Option.mapM_some, htext]; rfl⟩

/-- The row of a checked outcome, with the given event IDs. -/
theorem readsBack_stored {ids : List EventId} (hreads : (o.stored ids).TextsRead L)
    (h : checkOutcome L.env o = .ok ()) :
    ReadsBack L (o.stored ids) ↔
      (∀ id ∈ ids, canonicalEventId id = true) ∧ ∀ r, o.rejection = some r → r.Readable := by
  simp only [checkOutcome, seq_eq_ok, refuse_eq_ok] at h
  obtain ⟨-, hdigest, -, hstatus, -, hrejection, -⟩ := h
  obtain ⟨text, htext⟩ := encode_of_checkRejection hrejection
  have hresponse : (o.stored ids).response.filter (fun r => !r.isEmpty) =
      (o.stored ids).response := by
    rw [Outcome.stored, Option.filter_filter]
    simp
  have hcanonical := canonical_isOk_iff (o := o.stored ids) hreads.rejection htext
  obtain ⟨item, hitem, hrow⟩ := outcomeItem_of_encode (o := o.stored ids) htext
  constructor
  · rintro ⟨_, read, hitem', hread, hfrom⟩
    cases hitem.symm.trans hitem'
    exact ⟨((outcomeFromItem_eq_ok hreads hresponse hdigest hstatus htext hrow).mp hfrom).1,
      hcanonical.mp ⟨read, hread⟩⟩
  · rintro ⟨hids, hreadable⟩
    obtain ⟨read, hread⟩ := hcanonical.mpr hreadable
    exact ⟨item, read, hitem, hread,
      (outcomeFromItem_eq_ok hreads hresponse hdigest hstatus htext hrow).mpr ⟨hids, hread⟩⟩

theorem canonicalEventId_of_valid {c : Commit Op} (hvalid : c.Valid)
    (hmax : ∀ event ∈ c.events, event.sequence ≤ maxSequence) {event : SerializedEvent}
    (h : event ∈ c.events) : canonicalEventId event.id = decide (event.entityId ≠ "") := by
  obtain ⟨hentity, hid⟩ := hvalid.identity event h
  obtain ⟨first, hfirst⟩ : ∃ first, c.events.head? = some first := by
    cases hevents : c.events with
    | nil => rw [hevents] at h; cases h
    | cons first rest => exact ⟨first, rfl⟩
  have hmin := (Consecutive.number_of_mem (hvalid.consecutive first hfirst) h).1
  have hpositive := hvalid.positive first hfirst
  rw [hid, hentity, canonicalEventId_forEvent _ (by omega) (hmax event h)]

theorem readsBack_of_events {events : List SerializedEvent}
    (hreads : (o.stored (events.map (·.id))).TextsRead L) (h : checkOutcome L.env o = .ok ())
    (hids : ∀ event ∈ events, canonicalEventId event.id = decide (event.entityId ≠ "")) :
    ReadsBack L (o.stored (events.map (·.id))) ↔
      (o.stored (events.map (·.id))).Readable events := by
  rw [readsBack_stored hreads h, Outcome.Readable, List.forall_mem_map]
  refine and_congr (forall₂_congr fun event hevent => ?_) Iff.rfl
  rw [hids event hevent, decide_eq_true_eq]

theorem checkOutcome_of_text {c : Commit Op} (h : c.checkOutcomeText L.env = .ok ())
    (houtcome : c.outcome = some o) : checkOutcome L.env o = .ok () := by
  rw [Commit.checkOutcomeText, houtcome] at h
  exact (seq_eq_ok.mp h).1

theorem checkOutcome_of_transactionText {t : TransactionCommit Op}
    (h : t.checkOutcomeText L.env = .ok ()) (houtcome : t.outcome = some o) :
    checkOutcome L.env o = .ok () := by
  rw [TransactionCommit.checkOutcomeText, houtcome] at h
  exact (seq_eq_ok.mp h).1

/-- An accepted outcome's row is read back exactly when every event names an entity and the details
do not nest too deep. -/
theorem storedOutcome_readsBack_iff (L : JsonLayer) :
    (∀ (c : Commit Op) (o : Outcome), c.validate L.env = .ok () →
      (∀ event ∈ c.events, event.sequence ≤ maxSequence) → c.storedOutcome = some o →
      o.TextsRead L → (ReadsBack L o ↔ o.Readable c.events)) ∧
    ∀ (t n : TransactionCommit Op) (o : Outcome), t.normalize L.env = .ok n →
      (∀ event ∈ t.allEvents, event.sequence ≤ maxSequence) → n.storedOutcome = some o →
      o.TextsRead L → (ReadsBack L o ↔ o.Readable n.allEvents) := by
  constructor
  · intro c o hvalidate hmax hstored hreads
    obtain ⟨outcome, houtcome, rfl⟩ := Option.map_eq_some_iff.mp hstored
    have hchecked := checkOutcome_of_text (seq_eq_ok.mp hvalidate).1 houtcome
    have hvalid := Commit.validate_ok hvalidate
    exact readsBack_of_events hreads hchecked fun event hevent =>
      canonicalEventId_of_valid hvalid hmax hevent
  · intro t n o hnormalize hmax hstored hreads
    obtain ⟨outcome, houtcome, rfl⟩ := Option.map_eq_some_iff.mp hstored
    obtain ⟨rfl, hnormal⟩ := TransactionCommit.normalize_ok hnormalize
    have hchecked := checkOutcome_of_transactionText (seq_eq_ok.mp hnormalize).1 houtcome
    have hids : (t.normalized.streams.flatMap fun stream => stream.events.map (·.id)) =
        t.normalized.allEvents.map (·.id) := by
      rw [TransactionCommit.allEvents, List.map_flatMap]
    rw [hids] at hreads ⊢
    refine readsBack_of_events hreads hchecked fun event hevent => ?_
    obtain ⟨c, hc, hevent⟩ := List.mem_flatMap.mp hevent
    refine canonicalEventId_of_valid (hnormal.valid c hc) (fun other hother => ?_) hevent
    exact hmax other (TransactionCommit.kept_events.mem_iff.mp
      (List.mem_flatMap.mpr ⟨c, hc, hother⟩))

end Accepted

/-- An integer of up to 18 digits, but for a negative zero. -/
def isShortInteger (l : JsonNumbers.Literal) : Bool :=
  l.fraction.isEmpty && l.exponent.isNone && l.integer.length ≤ 18 && !(l.negative && l.isZero)

theorem isShortInteger_length {l : JsonNumbers.Literal} (h : isShortInteger l = true) :
    l.text.length < 2 ^ 29 := by
  simp only [isShortInteger, Bool.and_eq_true, List.isEmpty_iff, Option.isNone_iff_eq_none,
    decide_eq_true_eq] at h
  obtain ⟨⟨⟨hfraction, hexponent⟩, hlength⟩, -⟩ := h
  simp only [JsonNumbers.Literal.text, hfraction, hexponent]
  split <;> simp <;> omega

/-- Short integers are written as they were read. -/
def integerNumbers : NumberLayer where
  printed := isShortInteger
  read := some
  short _ := isShortInteger_length
  read_plain l _ := ⟨l.plain, rfl⟩

def stringArray (texts : List String) : Value := .array (texts.map .string)

def overdrawnValue : Value :=
  .object [("code", .string "overdrawn"), ("message", .string "not enough"),
    ("details", .object ((readLiteral "10".toList).toList.map fun read =>
      ("left", .number read.1)))]

def sampleValues : List Value :=
  [stringArray [], stringArray ["a"], stringArray ["a:1"], stringArray [""], stringArray [":1"],
    overdrawnValue]

def sampleLayer : JsonLayer where
  journalBuild := false
  metadata := fun _ => ""
  errorText := fun _ => ""
  jsonError := id
  numbers := integerNumbers
  readJson := fun text => sampleValues.find? fun value => value.print goEscaped = text.toList

theorem sampleLayer_reads {value : Value} (h : sampleValues.find? (fun sample =>
    sample.print goEscaped = value.print goEscaped) = some value)
    (hdepth : value.depth < recursionLimit) : sampleLayer.Reads value := by
  simp only [JsonLayer.Reads, hdepth, if_true, jsonText, sampleLayer, String.toList_ofList]
  exact h

def eventOn (entityId : EntityId) : SerializedEvent :=
  { id := EventId.forEvent entityId 1, entityId, entityType := "account", sequence := 1,
    eventType := "opened", version := 1, payload := .empty, metadata := {} }

def commitOn (entityId : EntityId) : Commit Unit :=
  { entityId, events := [eventOn entityId],
    outcome := some ((Outcome.accepted "open-1" "digest").withIdentity
      ⟨"open", [entityId], none⟩) }

def overdrawn : Rejection :=
  ⟨"overdrawn", "not enough", some (.object [("left", .number "10")])⟩

def refusal : TransactionCommit Unit :=
  { streams := [], outcome := some (Outcome.rejected "open-2" "digest" overdrawn) }

theorem overdrawn_encode : (overdrawn.encode sampleLayer.env).toOption = some
    "\x7b\"code\":\"overdrawn\",\"message\":\"not enough\",\"details\":\x7b\"left\":10\x7d\x7d" :=
  by decide +kernel

theorem refusal_normalize : refusal.normalize sampleLayer.env = .ok refusal := by
  have hchecked : checkRejection sampleLayer.env (some overdrawn) = .ok () := by
    cases hencode : overdrawn.encode sampleLayer.env with
    | error e =>
      have htext := overdrawn_encode
      rw [hencode] at htext
      cases htext
    | ok text => rw [checkRejection, hencode]; rfl
  have houtcome : checkOutcome sampleLayer.env (Outcome.rejected "open-2" "digest" overdrawn) =
      .ok () := by
    simp only [checkOutcome, seq_eq_ok]
    exact ⟨rfl, rfl, rfl, rfl, rfl, hchecked, rfl⟩
  exact seq_eq_ok.mpr ⟨seq_eq_ok.mpr ⟨houtcome, rfl⟩, rfl⟩

theorem commitOn_textsRead :
    (((Outcome.accepted "open-1" "digest").withIdentity ⟨"open", ["a"], none⟩).stored
      ["a:1"]).TextsRead sampleLayer where
  eventIds := sampleLayer_reads rfl (by decide)
  targets := by
    rintro _ ⟨⟩
    exact sampleLayer_reads rfl (by decide)
  rejection := by rintro _ ⟨⟩

theorem refusal_textsRead :
    ((Outcome.rejected "open-2" "digest" overdrawn).stored []).TextsRead sampleLayer where
  eventIds := sampleLayer_reads rfl (by decide)
  targets := by rintro _ ⟨⟩
  rejection := by
    rintro _ ⟨⟩ value hvalue
    obtain rfl : overdrawnValue = value := Option.some.inj hvalue
    exact sampleLayer_reads rfl (by decide)

theorem sample_readsBack :
    (∃ o, (commitOn "a").validate sampleLayer.env = .ok () ∧
      (commitOn "a").storedOutcome = some o ∧ ReadsBack sampleLayer o) ∧
    ∃ o, refusal.normalize sampleLayer.env = .ok refusal ∧ refusal.storedOutcome = some o ∧
      ReadsBack sampleLayer o := by
  constructor
  · refine ⟨_, rfl, rfl, ((storedOutcome_readsBack_iff sampleLayer).1 (commitOn "a") _ rfl ?_
      rfl commitOn_textsRead).mpr ⟨?_, ?_⟩⟩
    · decide
    · decide
    · intro r hr
      cases hr
  · refine ⟨_, refusal_normalize, rfl, ((storedOutcome_readsBack_iff sampleLayer).2 refusal refusal
      _ refusal_normalize ?_ rfl refusal_textsRead).mpr ⟨?_, ?_⟩⟩
    · decide
    · decide
    · rintro r ⟨⟩
      decide

def unnamedOutcome : Outcome :=
  ((Outcome.accepted "open-1" "digest").withIdentity ⟨"open", [""], none⟩).stored [":1"]

theorem unnamedOutcome_textsRead : unnamedOutcome.TextsRead sampleLayer where
  eventIds := sampleLayer_reads rfl (by decide)
  targets := by
    rintro _ ⟨⟩
    exact sampleLayer_reads rfl (by decide)
  rejection := by rintro _ ⟨⟩

/-- The commit is accepted, and its row cannot be read: `:1` is no event ID. -/
theorem unnamedOutcome_corrupt : ∃ sizes item,
    (commitOn "").validate sampleLayer.env = .ok () ∧
    (commitOn "").sizes sampleLayer.env (fun _ => none) = .ok sizes ∧
    checkBudget sizes = .ok () ∧ (commitOn "").storedOutcome = some unnamedOutcome ∧
    outcomeItem sampleLayer.env unnamedOutcome = .ok item ∧
    (∀ read, sampleLayer.outcomeFromItem item ≠ .ok read) ∧
      ¬ReadsBack sampleLayer unnamedOutcome := by
  have hid : ¬∀ id ∈ unnamedOutcome.eventIds, canonicalEventId id = true := by decide +kernel
  have htext : unnamedOutcome.rejection.mapM (Rejection.encode sampleLayer.env) = .ok none := rfl
  obtain ⟨item, hitem, hrow⟩ := outcomeItem_of_encode htext
  have hread : ∀ read, sampleLayer.outcomeFromItem item ≠ .ok read := by
    intro read hread
    exact hid ((outcomeFromItem_eq_ok unnamedOutcome_textsRead rfl (by decide) rfl htext
      hrow).mp hread).1
  refine ⟨_, item, rfl, rfl, refuse_eq_ok.mpr (by decide +kernel), rfl, hitem, hread,
    ?_⟩
  rintro ⟨_, read, hitem', -, hread'⟩
  cases hitem.symm.trans hitem'
  exact hread read hread'

end EventStore
