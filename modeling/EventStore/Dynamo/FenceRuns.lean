import EventStore.Dynamo.Fence

/-!
The DynamoDB fence among any number of callers. A request whose result is unknown may still apply
whenever its conditions hold. Beside the table runs an in-memory store, on which every request
that applies makes its call; the log keeps the answers.
-/
namespace EventStore

structure FenceEntry (ι : Type) where
  author : ι
  call : DynamoCall
  result : FenceResult
  inMemory : Except Error FenceResult

structure DynamoWorld (ι : Type) where
  table : Table
  memory : Stores
  inFlight : List (ι × DynamoCall × Int × FenceSend)
  log : List (FenceEntry ι)

namespace DynamoWorld

variable {ι : Type}

def start (table : Table) (memory : Stores) : DynamoWorld ι := ⟨table, memory, [], []⟩

def applied (w : DynamoWorld ι) (author : ι) (call : DynamoCall) (now : Int)
    (request : FenceSend) (table : Table) : DynamoWorld ι :=
  let answer := call.inMemory w.memory now
  { w with
    table
    memory := match answer with
      | .ok (_, memory) => memory
      | .error _ => w.memory
    log := w.log ++ [⟨author, call, request.result, answer.map Prod.fst⟩] }

def transacts (w : DynamoWorld ι) (request : FenceSend) : Option Table :=
  match request.items with
  | .ok items => w.table.transact items
  | .error _ => none

inductive Act (i : ι) (w : DynamoWorld ι) :
    (a : TableAsk) → TableAnswer a → DynamoWorld ι → Prop
  | get (key : TableKey) : Act i w (.get key) (Except.ok (w.table key)) w
  | getFails (key : TableKey) (error : Error) : Act i w (.get key) (Except.error error) w
  | now (now : Int) : Act i w .now now w
  | applies (call : DynamoCall) (now : Int) (request : FenceSend) (table : Table)
      (h : w.transacts request = some table) :
      Act i w (.send call now request) (Except.ok ()) (w.applied i call now request table)
  | fails (call : DynamoCall) (now : Int) (request : FenceSend) (failure : SendFailure) :
      Act i w (.send call now request) (Except.error failure) w
  | unknown (call : DynamoCall) (now : Int) (request : FenceSend) (failure : SendFailure) :
      Act i w (.send call now request) (Except.error failure)
        { w with inFlight := (i, call, now, request) :: w.inFlight }

inductive Lands : DynamoWorld ι → DynamoWorld ι → Prop
  | lands (w : DynamoWorld ι) (author : ι) (call : DynamoCall) (now : Int) (request : FenceSend)
      (hmem : (author, call, now, request) ∈ w.inFlight) (table : Table)
      (h : w.transacts request = some table) :
      Lands w (w.applied author call now request table)

/-- The table represents the store, answers agree, and what is in flight was issued earlier. -/
structure Refines (w : DynamoWorld ι) : Prop where
  represents : Represents w.table w.memory
  answered : ∀ entry ∈ w.log, entry.inMemory = .ok entry.result
  issued : ∀ author call now request, (author, call, now, request) ∈ w.inFlight →
    Issued w.memory.rebuild call now request

def Keeps (w w' : DynamoWorld ι) : Prop :=
  w.memory.rebuild.Later w'.memory.rebuild ∧ w.log <+: w'.log

theorem Keeps.refl (w : DynamoWorld ι) : w.Keeps w := ⟨.refl _, List.prefix_refl _⟩

theorem Keeps.trans {w w' w'' : DynamoWorld ι} (h : w.Keeps w') (h' : w'.Keeps w'') :
    w.Keeps w'' := ⟨h.1.trans h'.1, h.2.trans h'.2⟩

variable {request : FenceSend} {call : DynamoCall} {now : Int}

/-- A request that was issued and applies keeps the refinement. -/
theorem Refines.applied {w : DynamoWorld ι} (h : w.Refines) {author : ι} {table : Table}
    (hissued : Issued w.memory.rebuild call now request) (ht : w.transacts request = some table) :
    (w.applied author call now request table).Refines ∧
      w.Keeps (w.applied author call now request table) ∧
      ∃ entry ∈ (w.applied author call now request table).log,
        entry.author = author ∧ entry.result = request.result := by
  unfold transacts at ht
  split at ht
  · rename_i items hitems
    obtain ⟨s', hmemory, hrep, hlater⟩ := h.represents.simulated hissued hitems ht
    have happlied : w.applied author call now request table =
        { w with table, memory := s'
                 log := w.log ++ [⟨author, call, request.result, .ok request.result⟩] } := by
      simp only [DynamoWorld.applied, hmemory]
      rfl
    rw [happlied]
    refine ⟨⟨hrep, fun entry hentry => ?_, fun i call now request hmem =>
      (h.issued i call now request hmem).later hlater⟩, ⟨hlater, List.prefix_append _ _⟩,
      _, List.mem_append_right _ List.mem_cons_self, rfl, rfl⟩
    obtain hentry | hentry := List.mem_append.mp hentry
    · exact h.answered entry hentry
    · obtain rfl := List.mem_singleton.mp hentry
      rfl
  · cases ht

section Programs

variable {i : ι}

def Logged (i : ι) (result : Except Error FenceResult) (w : DynamoWorld ι) : Prop :=
  ∀ value, result = .ok value → ∃ entry ∈ w.log, entry.author = i ∧ entry.result = value

theorem Logged.error (error : Error) (w : DynamoWorld ι) : Logged i (.error error) w :=
  fun _ h => nomatch h

theorem Logged.keeps {result : Except Error FenceResult} {w w' : DynamoWorld ι}
    (h : Logged i result w) (hkeeps : w.Keeps w') : Logged i result w' := by
  intro value hvalue
  obtain ⟨entry, hentry, hauthor⟩ := h value hvalue
  exact ⟨entry, hkeeps.2.subset hentry, hauthor⟩

abbrev SafeFor (i : ι) {α : Type} (post : α → DynamoWorld ι → Prop) (p : DynamoProgram α)
    (w : DynamoWorld ι) : Prop :=
  p.Safe (Act i) Keeps Refines (fun w w' => w'.Refines ∧ w.Keeps w') post w

variable {w : DynamoWorld ι}

theorem safe_now : SafeFor i (fun _ w' => w.Keeps w') DynamoProgram.now w := by
  refine Script.Safe.ask fun t hkeeps hinv answer u hact => ?_
  cases hact
  exact ⟨⟨hinv, .refl _⟩, hkeeps⟩

theorem safe_send (hissued : Issued w.memory.rebuild call now request) :
    SafeFor i (fun answer w' => answer = .ok () →
      ∃ entry ∈ w'.log, entry.author = i ∧ entry.result = request.result)
      (DynamoProgram.send call now request) w := by
  refine Script.Safe.ask fun t hkeeps hinv answer u hact => ?_
  replace hissued := hissued.later hkeeps.1
  cases hact with
  | applies _ _ _ table ht =>
    obtain ⟨hrefines, hkeeps', hentry⟩ := hinv.applied hissued ht
    exact ⟨⟨hrefines, hkeeps'⟩, fun _ => hentry⟩
  | fails _ _ _ failure => exact ⟨⟨hinv, .refl _⟩, fun h => nomatch h⟩
  | unknown _ _ _ failure =>
    refine ⟨⟨⟨hinv.represents, hinv.answered, fun j call' now' request' hmem => ?_⟩, .refl _⟩,
      fun h => nomatch h⟩
    obtain heq | hmem := List.mem_cons.mp hmem
    · cases heq
      exact hissued
    · exact hinv.issued j call' now' request' hmem

theorem safe_item {key : TableKey} {post : Except Error (Option Item) → DynamoWorld ι → Prop}
    (herror : ∀ error w', post (.error error) w')
    (h : ∀ w', w.Keeps w' → w'.Refines →
      post (.ok (if (w'.table key).isEmpty then none else some (w'.table key))) w') :
    SafeFor i post (DynamoProgram.rebuildItem key) w := by
  refine Script.Safe.andThen (fun result w' => (∃ error, result = .error error) ∨
    w.Keeps w' ∧ w'.Refines ∧ result = .ok (w'.table key)) ?_ ?_ ?_
  · refine Script.Safe.ask fun t hkeeps hinv answer u hact => ?_
    cases hact with
    | get => exact ⟨⟨hinv, .refl _⟩, .inr ⟨hkeeps, hinv, rfl⟩⟩
    | getFails _ error => exact ⟨⟨hinv, .refl _⟩, .inl ⟨error, rfl⟩⟩
  · exact fun error w' _ => herror error w'
  · rintro item w' (⟨error, ⟨⟩⟩ | ⟨hkeeps, hinv, heq⟩)
    cases heq
    exact h w' hkeeps hinv

def Saw (g : RebuildGeneration) (s : RebuildState) : Prop :=
  0 ≤ g.value ∧ (g.value < s.generation.value ∨ g = s.generation)

theorem Saw.later {g : RebuildGeneration} {s s' : RebuildState} (h : Saw g s)
    (hlater : s.Later s') : Saw g s' := by
  refine ⟨h.1, ?_⟩
  obtain hlt | rfl := h.2 <;> obtain hlt' | ⟨heq, -⟩ := hlater
  · exact .inl (hlt.trans hlt')
  · exact .inl (heq ▸ hlt)
  · exact .inl hlt'
  · exact .inr heq

theorem safe_rebuildGeneration : SafeFor i
    (fun result w' => ∀ g, result = .ok g → Saw g w'.memory.rebuild)
    DynamoProgram.rebuildGeneration w := by
  refine Script.Safe.andThen (fun result w' => ∀ item, result = .ok item →
    w'.Refines ∧ item = if (w'.table rebuildGenerationKey).isEmpty then none
      else some (w'.table rebuildGenerationKey)) ?_ ?_ ?_
  · refine safe_item (fun error w' item h => nomatch h) fun w' _ hinv item hitem => ?_
    exact ⟨hinv, (Except.ok.inj hitem).symm⟩
  · exact fun error w' _ g h => nomatch h
  · intro item w' h
    obtain ⟨hinv, hitem⟩ := h item rfl
    obtain hstored | ⟨hstored, hdefault⟩ := hinv.represents.generation
    · rw [hstored, rebuildGenerationItem_isEmpty, if_neg Bool.false_ne_true] at hitem
      subst hitem
      intro g hg
      rw [rebuildGenerationFromItem_item] at hg
      cases hg
      exact ⟨hinv.represents.nonneg, .inr rfl⟩
    · rw [hstored, if_pos Std.ExtTreeMap.isEmpty_empty] at hitem
      subst hitem
      intro g hg
      cases hg
      exact ⟨le_rfl, .inr hdefault.symm⟩

/-- Two reads of the fence give a state it has come on from. -/
theorem safe_rebuildState : SafeFor i (fun result w' => ∀ state, result = .ok state →
    0 ≤ state.generation.value ∧ state.Later w'.memory.rebuild) DynamoProgram.rebuildState w := by
  refine Script.Safe.andThen _ safe_rebuildGeneration (fun error w' _ state h => nomatch h) ?_
  intro g w' hsaw
  replace hsaw := hsaw g rfl
  refine Script.Safe.andThen (fun result w'' => ∀ item, result = .ok item →
    w''.Refines ∧ Saw g w''.memory.rebuild ∧
      item = if (w''.table rebuildLockKey).isEmpty then none
        else some (w''.table rebuildLockKey)) ?_ ?_ ?_
  · refine safe_item (fun error w' item h => nomatch h) fun w'' hkeeps hinv item hitem => ?_
    exact ⟨hinv, hsaw.later hkeeps.1, (Except.ok.inj hitem).symm⟩
  · exact fun error w'' _ state h => nomatch h
  · intro item w'' h
    obtain ⟨hinv, hsaw, hitem⟩ := h item rfl
    have hlater : 0 ≤ g.value ∧
        (⟨g, w''.memory.rebuild.lock⟩ : RebuildState).Later w''.memory.rebuild :=
      ⟨hsaw.1, hsaw.2.imp id fun heq => ⟨heq, rfl⟩⟩
    obtain ⟨lock, hlock, hstored, -⟩ | ⟨hlock, hstored, -⟩ | ⟨hlock, hstored, -⟩ :=
      hinv.represents.lock_cases
    · rw [hstored, rebuildLockItem_isEmpty, if_neg Bool.false_ne_true] at hitem
      subst hitem
      rw [hlock] at hlater
      refine Script.Safe.check (fun error _ state h => nomatch h) fun decoded hdecoded state h => ?_
      rw [rebuildLockStateFromItem_lock] at hdecoded
      cases hdecoded
      cases h
      exact hlater
    · rw [hstored, rebuildForceReleasedItem_isEmpty, if_neg Bool.false_ne_true] at hitem
      subst hitem
      rw [hlock] at hlater
      refine Script.Safe.check (fun error _ state h => nomatch h) fun decoded hdecoded state h => ?_
      rw [rebuildLockStateFromItem_forceReleased] at hdecoded
      cases hdecoded
      cases h
      exact hlater
    · rw [hstored, if_pos Std.ExtTreeMap.isEmpty_empty] at hitem
      subst hitem
      rw [hlock] at hlater
      intro state h
      cases h
      exact hlater

/-- Every attempt of a begin sends a request issued on what it read. -/
theorem safe_beginFrom {owner : String} {length : Duration} {seconds : Int}
    (hlease : checkLease owner length = .ok seconds) (left : Nat) (invalid : Option Error)
    (w : DynamoWorld ι) :
    SafeFor i (Logged i) (DynamoProgram.beginFrom owner length seconds left invalid) w := by
  induction left generalizing invalid w with
  | zero => exact Logged.error _ w
  | succ left ih =>
    refine Script.Safe.andThen _ safe_rebuildState (fun error w' _ => Logged.error error w') ?_
    intro state w' hstate
    obtain ⟨hnonneg, hlater⟩ := hstate state rfl
    refine Script.Safe.bind safe_now ?_
    intro now w'' hkeeps
    split
    · exact ih _ w''
    · exact Logged.error _ w''
    · rename_i plan hplan
      refine Script.Safe.bind (safe_send (.begin owner length seconds now state plan hlease hnonneg
        hplan (hlater.trans hkeeps.1))) ?_
      intro answer w₃ hanswer
      cases answer with
      | ok done =>
        intro value hvalue
        cases hvalue
        exact hanswer rfl
      | error failure =>
        simp only
        split
        · exact Logged.error _ w₃
        · exact ih _ w₃

theorem safe_last {error : SendFailure → Error} (hissued : Issued w.memory.rebuild call now request)
    {result : FenceResult} (hresult : result = request.result) :
    SafeFor i (Logged i) ((DynamoProgram.send call now request).bind fun
      | .ok () => .done (.ok result)
      | .error failure => .done (.error (error failure))) w := by
  refine Script.Safe.bind (safe_send hissued) fun answer w' hanswer => ?_
  cases answer with
  | ok done =>
    intro value hvalue
    cases hvalue
    rw [hresult]
    exact hanswer rfl
  | error failure => exact Logged.error _ w'

theorem safe_program (call : DynamoCall) (w : DynamoWorld ι) :
    SafeFor i (Logged i) call.program w := by
  cases call with
  | begin owner length =>
    exact Script.Safe.check (fun error _ => Logged.error error w) fun seconds hlease =>
      safe_beginFrom hlease _ _ w
  | renew lease extend =>
    refine Script.Safe.check (fun error _ => Logged.error error w) fun seconds hlease => ?_
    exact Script.Safe.bind safe_now fun now w' _ =>
      safe_last (.renew lease extend seconds now hlease) rfl
  | finish lease =>
    exact Script.Safe.check (fun error _ => Logged.error error w) fun _ howner =>
      safe_last (.finish lease 0 howner) rfl
  | forceRelease owner =>
    refine Script.Safe.check (fun error _ => Logged.error error w) fun _ howner => ?_
    refine Script.Safe.andThen _ safe_rebuildGeneration (fun error w' _ => Logged.error error w')
      fun seen w' _ => ?_
    split
    · exact Logged.error _ w'
    · exact safe_last (.forceRelease owner 0 seen.value howner) rfl
  | write lease views =>
    refine Script.Safe.check (fun error _ => Logged.error error w) fun _ howner => ?_
    refine Script.Safe.check (fun error _ => Logged.error error w) fun _ hbatch => ?_
    refine Script.Safe.bind safe_now fun now w' _ => ?_
    exact Script.Safe.check (fun error _ => Logged.error error w') fun _ _ =>
      safe_last (.write lease views now howner hbatch) rfl
  | commit views =>
    refine Script.Safe.check (fun error _ => Logged.error error w) fun _ hviews => ?_
    exact Script.Safe.check (fun error _ => Logged.error error w) fun _ _ =>
      safe_last (.commit views 0 hviews) rfl

end Programs

theorem Lands.keeps {w w' : DynamoWorld ι} (h : w.Refines) (hlands : Lands w w') :
    w'.Refines ∧ w.Keeps w' := by
  cases hlands with
  | lands author call now request hmem table ht =>
    obtain ⟨hrefines, hkeeps, -⟩ := h.applied (h.issued author call now request hmem) ht
    exact ⟨hrefines, hkeeps⟩

theorem refines_of_reaches [DecidableEq ι] (calls : ι → DynamoCall) {table : Table}
    {memory : Stores} (hstart : Represents table memory) {w : DynamoWorld ι}
    {threads : ι → DynamoProgram (Except Error FenceResult)}
    (hreach : Pool.Reaches Act Lands (start table memory, fun i => (calls i).program)
      (w, threads)) :
    w.Refines ∧ ∀ i result, threads i = .done result → Logged i result w := by
  have hinit : (start table memory : DynamoWorld ι).Refines :=
    ⟨hstart, fun entry hentry => (by cases hentry), fun _ _ _ _ hmem => (by cases hmem)⟩
  have hpost (i : ι) (result : Except Error FenceResult) (s t : DynamoWorld ι)
      (h : Logged i result s) (hkeeps : s.Keeps t) : Logged i result t := h.keeps hkeeps
  obtain ⟨hinv, hsafe⟩ := Pool.safe_of_reaches (fun i w => Keeps.refl w)
    (fun i s t u hst htu => hst.trans htu) hpost (fun i s t _ h => ⟨h.1, fun _ _ => h.2⟩)
    (fun s t hs hlands => ⟨(hlands.keeps hs).1, fun _ => (hlands.keeps hs).2⟩)
    hreach hinit fun i => safe_program (calls i) _
  refine ⟨hinv, fun i result hdone => ?_⟩
  have hlogged := hsafe i
  simp only [hdone] at hlogged
  exact hlogged

/-- In every run the table represents the in-memory store that made the same calls, with the same
results, and a commit's lock check passes exactly in a settled generation. -/
theorem refines_inMemory [DecidableEq ι] (calls : ι → DynamoCall) {table : Table}
    {memory : Stores} (hstart : Represents table memory) {w : DynamoWorld ι}
    {threads : ι → DynamoProgram (Except Error FenceResult)}
    (hreach : Pool.Reaches Act Lands (start table memory, fun i => (calls i).program)
      (w, threads)) :
    Represents w.table w.memory ∧
      (∀ entry ∈ w.log, entry.inMemory = .ok entry.result) ∧
      (rebuildLockCheckItem.passes w.table = true ↔
        w.memory.rebuild.generation.isSettled = true) ∧
      ∀ i value, threads i = .done (.ok value) →
        ∃ entry ∈ w.log, entry.author = i ∧ entry.result = value := by
  obtain ⟨hrefines, hlogged⟩ := refines_of_reaches calls hstart hreach
  exact ⟨hrefines.represents, hrefines.answered, hrefines.represents.lockCheck_passes_iff,
    fun i value hdone => hlogged i (.ok value) hdone value rfl⟩

def serve (i : ι) (w : DynamoWorld ι) : (a : TableAsk) → TableAnswer a × DynamoWorld ι
  | .get key => (Except.ok (w.table key), w)
  | .now => ((100 : Int), w)
  | .send call now request =>
    match w.transacts request with
    | some table => (Except.ok (), w.applied i call now request table)
    | none => (Except.error ⟨[some "ConditionalCheckFailed"], false, false, false, ""⟩, w)

theorem act_serve (i : ι) (w : DynamoWorld ι) (a : TableAsk) :
    Act i w a (serve i w a).1 (serve i w a).2 := by
  cases a with
  | get key => exact .get key
  | now => exact .now _
  | send call now request =>
    cases h : w.transacts request with
    | some table =>
      have hserve : serve i w (.send call now request) =
          (Except.ok (), w.applied i call now request table) := by
        simp only [serve, h]
        rfl
      rw [hserve]
      exact .applies call now request table h
    | none =>
      have hserve : ∃ failure, serve i w (.send call now request) =
          (Except.error failure, w) := by
        simp only [serve, h]
        exact ⟨_, rfl⟩
      obtain ⟨failure, hserve⟩ := hserve
      rw [hserve]
      exact .fails call now request failure

theorem represents_empty : Represents (fun _ => ∅) Stores.empty where
  lock := rfl
  generation := .inr ⟨rfl, rfl⟩
  fenced := RebuildState.fenced_empty
  nonneg := le_rfl
  rows := fun key => by
    rw [show Stores.empty.views[key]? = none from Std.ExtTreeMap.getElem?_empty]
    exact .absent

/-- A worker begins; a commit is refused; the worker ends, and a commit goes through. -/
def workerCalls : Fin 4 → DynamoCall
  | 0 => .begin "worker" ⟨60, 0⟩
  | 1 => .commit []
  | 2 => .finish ⟨"worker", 1, 160⟩
  | 3 => .commit []

def workerRun : DynamoWorld (Fin 4) × (Fin 4 → DynamoProgram (Except Error FenceResult)) :=
  Pool.turns serve (start (fun _ => ∅) Stores.empty, fun i => (workerCalls i).program)
    [0, 0, 0, 0, 1, 2, 3]

theorem worker_refines :
    workerRun.1.log.map (·.result) =
        [.lease ⟨"worker", 1, 160⟩, .generation ⟨2, false⟩, .written] ∧
      Represents workerRun.1.table workerRun.1.memory ∧
      ∀ entry ∈ workerRun.1.log, entry.inMemory = .ok entry.result := by
  obtain ⟨hrep, hlog, -, -⟩ := refines_inMemory workerCalls represents_empty
    (Pool.reaches_turns act_serve _ [0, 0, 0, 0, 1, 2, 3])
  exact ⟨by decide +kernel, hrep, hlog⟩

end DynamoWorld

end EventStore
