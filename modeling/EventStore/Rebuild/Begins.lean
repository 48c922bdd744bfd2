import EventStore.Rebuild.World

/-!
A begin whose result is unknown, settled from two reads of the fence. The begin may
land before, between or after the reads, as long as the generation is the one it was
conditioned on; what each verdict says is proved of every later state.
-/
namespace EventStore

open Result FenceProgram

namespace FenceWorld

variable {ι : Type}

/-- What the others keep of a program: its reads, what it has in flight, and its changes. -/
structure Keeps (i : ι) (w w' : FenceWorld ι) : Prop where
  later : w.Later w'
  marks : w'.marks i = w.marks i
  sent : ∀ q, (i, q) ∈ w'.inFlight → (i, q) ∈ w.inFlight
  mine : ∀ change, .changed (some i) change ∈ w'.log →
    .changed (some i) change ∈ w.log ∨ (i, .change change) ∈ w.inFlight
  kept : ∀ change, (i, .change change) ∈ w.inFlight →
    (i, .change change) ∈ w'.inFlight ∨ .changed (some i) change ∈ w'.log

theorem Keeps.refl (i : ι) (w : FenceWorld ι) : Keeps i w w :=
  ⟨.refl w, rfl, fun _ h => h, fun _ h => .inl h, fun _ h => .inl h⟩

theorem Keeps.trans {i : ι} {w w' w'' : FenceWorld ι} (h : Keeps i w w') (h' : Keeps i w' w'') :
    Keeps i w w'' := by
  refine ⟨h.later.trans h'.later, h'.marks.trans h.marks, fun q hq => h.sent q (h'.sent q hq),
    ?_, ?_⟩
  · intro change hmem
    rcases h'.mine change hmem with hmem | hmem
    · exact h.mine change hmem
    · exact .inr (h.sent _ hmem)
  · intro change hmem
    rcases h.kept change hmem with hmem | hmem
    · exact h'.kept change hmem
    · exact .inr (h'.later.log.subset hmem)

/-- Every begin under the owner token is the given program's. -/
structure Owned (i : ι) (owner : String) (w : FenceWorld ι) : Prop where
  log : ∀ author observed lease, .changed author (.begun observed lease) ∈ w.log →
    lease.owner = owner → author = some i
  inFlight : ∀ j observed lease, (j, .change (.begun observed lease)) ∈ w.inFlight →
    lease.owner = owner → j = i

def Abstains (owner : String) (a : FenceAsk) : Prop := ∀ length, a ≠ .begin owner length

variable {i j : ι} {owner : String} {unique : Prop} {w w' : FenceWorld ι}

variable {a : FenceAsk}

theorem keeps_acts [DecidableEq ι] {answer : FenceAnswer a} (hw : w.Sound)
    (h : FenceActs i w a answer w') (hj : j ≠ i) : Keeps j w w' := by
  obtain ⟨landed, heffect, -⟩ := h.effect
  refine ⟨(h.sound hw).2, h.marks hj, ?_, ?_, fun _ hf => .inl (h.inFlight_kept hf)⟩
  · intro q hq
    rcases h.inFlight _ hq with hq | ⟨hi, -⟩
    · exact hq
    · exact absurd hi hj
  · intro change hmem
    rcases heffect.mem_log.mp hmem with hmem | hmem | ⟨q, -, heq⟩
    · exact .inl hmem
    · cases FenceAsk.isNote_of_mem_note hmem
    · cases q with
      | change change' =>
        cases heq
        exact absurd rfl hj
      | write lease views => cases heq

theorem keeps_moves (hw : w.Sound) (h : FenceMoves w w') : Keeps j w w' := by
  obtain ⟨⟨author, landed, heffect, hlanded⟩, hinFlight, hmarks⟩ := h.effect
  refine ⟨(h.sound hw).2, congrFun hmarks j, fun q hq => hinFlight _ hq, ?_,
    fun change hf => h.inFlight_kept hf⟩
  intro change hmem
  rcases heffect.mem_log.mp hmem with hmem | hmem | ⟨q, hq, heq⟩
  · exact .inl hmem
  · cases hmem
  · cases q with
    | change change' =>
      cases heq
      rcases hlanded _ hq with ⟨j', hj', hmem⟩ | ⟨hnone, -⟩
      · cases hj'
        exact .inr hmem
      · cases hnone
    | write lease views => cases heq

theorem owned_acts [DecidableEq ι] {answer : FenceAnswer a} (hw : Owned i owner w)
    (h : FenceActs j w a answer w') (ha : j ≠ i → Abstains owner a) : Owned i owner w' := by
  obtain ⟨landed, heffect, hrequests⟩ := h.effect
  have hown : ∀ observed lease, a.Requests (.change (.begun observed lease)) →
      lease.owner = owner → j = i := by
    intro observed lease hreq howner
    by_contra hj
    cases a with
    | begin owner' length => exact ha hj length (by rw [← howner, hreq.1])
    | _ => cases hreq
  refine ⟨?_, ?_⟩
  · intro author observed lease hmem howner
    rcases heffect.begun (fun _ => FenceAsk.isNote_of_mem_note) hmem with hmem | ⟨rfl, hlanded⟩
    · exact hw.log _ _ _ hmem howner
    · rw [hown _ _ (hrequests _ hlanded) howner]
  · intro j' observed lease hf howner
    rcases h.inFlight _ hf with hf | ⟨rfl, hreq⟩
    · exact hw.inFlight _ _ _ hf howner
    · exact hown _ _ hreq howner

theorem owned_moves (hw : Owned i owner w) (h : FenceMoves w w') : Owned i owner w' := by
  obtain ⟨⟨author, landed, heffect, hlanded⟩, hinFlight, -⟩ := h.effect
  refine ⟨?_, fun j observed lease hf => hw.inFlight _ _ _ (hinFlight _ hf)⟩
  intro author' observed lease hmem howner
  rcases heffect.begun (fun _ h => nomatch h) hmem with hmem | ⟨rfl, hl⟩
  · exact hw.log _ _ _ hmem howner
  · rcases hlanded _ hl with ⟨j, rfl, hf⟩ | ⟨-, owner', heq⟩
    · rw [hw.inFlight _ _ _ hf howner]
    · cases heq

/-- A begin with an unknown result is in flight or applied, and all the program ever sent. -/
structure Pending (i : ι) (owner : String) (observed : Int) (lease : RebuildLease)
    (w : FenceWorld ι) : Prop where
  owner : lease.owner = owner
  token : lease.generation = observed + if observed % 2 = 0 then 1 else 2
  value : observed ≤ w.value
  sent : ∀ q, (i, q) ∈ w.inFlight → q = .change (.begun observed lease)
  mine : ∀ change, .changed (some i) change ∈ w.log → change = .begun observed lease
  somewhere : (i, .change (.begun observed lease)) ∈ w.inFlight ∨
    .changed (some i) (.begun observed lease) ∈ w.log

variable {lease : RebuildLease} {observed : Int}

theorem Pending.keeps (h : Pending i owner observed lease w) (hkeeps : Keeps i w w') :
    Pending i owner observed lease w' := by
  refine ⟨h.owner, h.token, h.value.trans hkeeps.later.value,
    fun q hq => h.sent q (hkeeps.sent q hq),
    ?_, ?_⟩
  · intro change hmem
    rcases hkeeps.mine change hmem with hmem | hmem
    · exact h.mine change hmem
    · exact FenceRequest.change.inj (h.sent _ hmem)
  · rcases h.somewhere with hmem | hmem
    · exact hkeeps.kept _ hmem
    · exact .inr (hkeeps.later.log.subset hmem)

/-- What a verdict says in every later state; the lock was read where the log had `m`
entries. -/
structure Settles (i : ι) (unique : Prop) (observed : Int) (lease : RebuildLease)
    (verdict : Option Bool) (m : Nat) (w : FenceWorld ι) : Prop where
  within : m ≤ w.log.length
  moved : verdict = some false → observed < w.value
  after : verdict = some false → ∀ author observed' lease',
    .changed author (.begun observed' lease') ∈ w.log.drop m → observed < observed'
  refused : verdict = some false → w.fence.heldBy lease = true → ∃ author observed' lease',
    .changed author (.begun observed' lease') ∈ w.log.drop m ∧ lease'.owner = lease.owner ∧
      lease'.generation = lease.generation
  held : verdict = some true → unique → ∃ before after,
    w.log.take m = before ++ .changed (some i) (.begun observed lease) :: after ∧
      ∀ author change, .changed author change ∈ after → change.moves = false

theorem Later.mem_drop_of_le (h : w.Later w') {m : Nat} (hm : m ≤ w.log.length)
    {e : FenceEvent ι} :
    e ∈ w'.log.drop m ↔ e ∈ w.log.drop m ∨ e ∈ w'.log.drop w.log.length := by
  obtain ⟨more, hmore⟩ := h.log
  rw [← hmore, List.drop_append_of_le_length hm, List.drop_left, List.mem_append]

theorem Settles.later {verdict : Option Bool} {m : Nat}
    (h : Settles i unique observed lease verdict m w) (hlater : w.Later w') :
    Settles i unique observed lease verdict m w' := by
  refine ⟨h.within.trans hlater.log.length_le, fun hv => (h.moved hv).trans_le hlater.value,
    ?_, ?_, ?_⟩
  · intro hv author observed' lease' hmem
    rcases (hlater.mem_drop_of_le h.within).mp hmem with hmem | hmem
    · exact h.after hv _ _ _ hmem
    · exact (h.moved hv).trans_le (hlater.begins _ _ _ hmem)
  · intro hv hheld
    rcases hlater.holds lease hheld with hheld | ⟨author, observed', lease', hmem, hlease⟩
    · obtain ⟨author, observed', lease', hmem, hlease⟩ := h.refused hv hheld
      exact ⟨author, observed', lease', (hlater.mem_drop_of_le h.within).mpr (.inl hmem), hlease⟩
    · exact ⟨author, observed', lease', (hlater.mem_drop_of_le h.within).mpr (.inr hmem), hlease⟩
  · intro hv hunique
    obtain ⟨before, after, hlog, hafter⟩ := h.held hv hunique
    obtain ⟨more, hmore⟩ := hlater.log
    refine ⟨before, after, ?_, hafter⟩
    rw [← hmore, List.take_append_of_le_length h.within, hlog]

/-- The moment the lock is read: what was seen settles the begin. -/
theorem Pending.settles {generation : RebuildGeneration} (h : Pending i owner observed lease w)
    (hw : w.Sound) (howned : unique → Owned i owner w)
    (hmoved : generation.value ≠ observed → observed < w.value) :
    Settles i unique observed lease
      (RebuildState.holdsBegun ⟨generation, w.fence.lock⟩ lease observed) w.log.length w := by
  have hheldBy : RebuildState.heldBy ⟨generation, w.fence.lock⟩ lease = w.fence.heldBy lease := rfl
  refine ⟨le_rfl, ?_, by simp, ?_, ?_⟩
  · intro hv
    simp only [RebuildState.holdsBegun] at hv
    split at hv
    · cases hv
    · split at hv
      · rename_i hne
        exact hmoved hne
      · cases hv
  · intro hv hheld
    simp [RebuildState.holdsBegun, hheldBy, hheld] at hv
  · intro hv hunique
    have hheld : w.fence.heldBy lease = true := by
      by_contra hnot
      simp only [RebuildState.holdsBegun, hheldBy, if_neg hnot] at hv
      split at hv <;> cases hv
    obtain ⟨lock, hlock, howner, hgeneration⟩ := RebuildState.heldBy_iff.mp hheld
    obtain ⟨before, after, author, observed', lease', hlog, hafter, ho, hg⟩ := hw.locked lock hlock
    have hmem : .changed author (.begun observed' lease') ∈ w.log := by simp [hlog]
    obtain rfl := (howned hunique).log _ _ _ hmem (ho.trans (howner.trans h.owner))
    cases h.mine _ hmem
    exact ⟨before, after, by rw [List.take_length, hlog], hafter⟩

/-- The lease of a begin in flight holds the lock once it lands, which the unmoved
generation lets it do. -/
theorem Pending.lands (h : Pending i owner observed lease w) (hw : w.Sound)
    (hvalue : w.value = observed) : ∃ w', FenceMoves w w' ∧ w'.fence.heldBy lease = true := by
  have hlt : observed < lease.generation := by
    rw [h.token]
    split <;> omega
  rcases h.somewhere with hmem | hmem
  · obtain ⟨before, after, hinFlight⟩ := List.append_of_mem hmem
    refine ⟨_, .changeLands hinFlight ⟨hvalue, ?_⟩, RebuildState.heldBy_iff.mpr ⟨_, rfl, rfl, rfl⟩⟩
    rw [h.token, ← hvalue]
    exact congrArg _ (if_congr RebuildGeneration.isSettled_iff.symm rfl rfl)
  · have := hw.tokens _ _ _ hmem
    omega

/-- The invariant of a pool in which, if `unique` holds, only one program begins under the
owner token. -/
def Begins (i : ι) (owner : String) (unique : Prop) (w : FenceWorld ι) : Prop :=
  w.Sound ∧ (unique → Owned i owner w)

def BeginsKept (i : ι) (owner : String) (unique : Prop) (j : ι) (w w' : FenceWorld ι) : Prop :=
  Begins i owner unique w' ∧ ∀ k, k ≠ j → Keeps k w w'

variable [DecidableEq ι]

-- Noting where a read was made leaves the fence, the log and what is in flight.
theorem Pending.marked (h : Pending i owner observed lease w) (j : ι) :
    Pending i owner observed lease (w.marked j) :=
  ⟨h.owner, h.token, h.value, h.sent, h.mine, h.somewhere⟩

theorem Settles.marked {verdict : Option Bool} {m : Nat}
    (h : Settles i unique observed lease verdict m w) (j : ι) :
    Settles i unique observed lease verdict m (w.marked j) :=
  ⟨h.within, h.moved, h.after, h.refused, h.held⟩

theorem begins_acts {answer : FenceAnswer a} (hw : Begins i owner unique w)
    (h : FenceActs j w a answer w') (ha : j ≠ i → unique → Abstains owner a) :
    BeginsKept i owner unique j w w' :=
  ⟨⟨(h.sound hw.1).1, fun hu => owned_acts (hw.2 hu) h fun hj => ha hj hu⟩,
    fun _ hk => keeps_acts hw.1 h hk⟩

abbrev Settling {α : Type} (i : ι) (owner : String) (unique : Prop) (post : α → FenceWorld ι → Prop)
    (p : FenceProgram α) (w : FenceWorld ι) : Prop :=
  Script.Safe (FenceActs i) (Keeps i) (Begins i owner unique) (BeginsKept i owner unique i) post p w

theorem settling_ask {post : FenceAnswer a → FenceWorld ι → Prop}
    (h : ∀ t, Keeps i w t → Begins i owner unique t → ∀ answer u, FenceActs i t a answer u →
      post answer u) : Settling i owner unique post (Script.ask a) w :=
  Script.Safe.ask fun t hrely hinv answer u hact =>
    ⟨begins_acts hinv hact fun hne => absurd rfl hne, h t hrely hinv answer u hact⟩

theorem settling_begin (length : Duration) (hsent : ∀ q, (i, q) ∉ w.inFlight)
    (hmine : ∀ change, .changed (some i) change ∉ w.log) (hmarks : w.marks i = []) :
    Settling i owner unique (fun r u => ∀ lease observed source,
        r = .error (.rebuildBeginIndeterminate lease observed source) →
        Pending i owner observed lease u ∧ u.marks i = [])
      (beginRebuild owner length) w := by
  refine settling_ask fun t hkeeps hinv answer u hact => ?_
  rintro lease observed source hanswer
  have hsent' : ∀ q, (i, q) ∉ t.inFlight := fun q hq => hsent q (hkeeps.sent q hq)
  have hmine' : ∀ change, .changed (some i) change ∉ t.log := by
    intro change hmem
    rcases hkeeps.mine change hmem with hmem | hmem
    · exact hmine _ hmem
    · exact hsent _ hmem
  cases hact with
  | begin h => cases hanswer
  | beginLost source' h =>
    cases hanswer
    obtain ⟨howner, htoken⟩ := RebuildState.beginRebuild_requests h
    refine ⟨⟨howner, htoken, le_rfl, ?_, ?_, ?_⟩, hkeeps.marks.trans hmarks⟩
    · intro q hq
      rcases List.mem_append.mp hq with hq | hq
      · exact absurd hq (hsent' q)
      · exact congrArg Prod.snd (List.mem_singleton.mp hq)
    · exact fun change hmem => absurd hmem (hmine' change)
    · exact .inl (List.mem_append_right _ (List.mem_singleton_self _))
  | fails h =>
    obtain ⟨error, rfl, hnot⟩ := h
    cases hanswer
    exact absurd rfl (hnot _ _ _)

theorem settling_state (hpending : Pending i owner observed lease w) (hmarks : w.marks i = []) :
    Settling i owner unique (fun r u => ∀ state, r = .ok state →
        Pending i owner observed lease u ∧ ∃ n m, u.marks i = [n, m] ∧
          Settles i unique observed lease (state.holdsBegun lease observed) m u)
      rebuildState w := by
  have hgeneration : Settling i owner unique (fun r u => ∀ generation, r = .ok generation →
      Pending i owner observed lease u ∧ (∃ n, u.marks i = [n]) ∧
        (generation.value ≠ observed → observed < u.value)) rebuildGeneration w := by
    refine settling_ask fun t hkeeps hinv answer u hact generation hanswer => ?_
    have hpending' := hpending.keeps hkeeps
    cases hact with
    | generation =>
      cases hanswer
      have hmark : (t.marked i).marks i = [t.log.length] := by
        simp [marked, hkeeps.marks, hmarks]
      exact ⟨hpending'.marked i, ⟨_, hmark⟩, fun hne =>
        lt_of_le_of_ne hpending'.value hne.symm⟩
    | fails h =>
      obtain ⟨error, rfl⟩ := h
      cases hanswer
  refine Script.Safe.andThen _ hgeneration (by simp) fun generation t ht => ?_
  obtain ⟨hpending, ⟨n, hmarks⟩, hmoved⟩ := ht generation rfl
  have hlock : Settling i owner unique (fun r u => ∀ lock, r = .ok lock →
      Pending i owner observed lease u ∧ ∃ m, u.marks i = [n, m] ∧
        Settles i unique observed lease
          (RebuildState.holdsBegun ⟨generation, lock⟩ lease observed) m u) rebuildLock t := by
    refine settling_ask fun s hkeeps hinv answer u hact lock hanswer => ?_
    have hpending' := hpending.keeps hkeeps
    have hsettles := hpending'.settles hinv.1 hinv.2 fun hne =>
      (hmoved hne).trans_le hkeeps.later.value
    cases hact with
    | lock =>
      cases hanswer
      have hmark : (s.marked i).marks i = [n, s.log.length] := by
        simp [marked, hkeeps.marks, hmarks]
      exact ⟨hpending'.marked i, _, hmark, hsettles.marked i⟩
    | fails h =>
      obtain ⟨error, rfl⟩ := h
      cases hanswer
  refine Script.Safe.andThen _ hlock (by simp) fun lock u hu => ?_
  rintro _ ⟨⟩
  obtain ⟨hpending, m, hmark, hsettles⟩ := hu lock rfl
  exact ⟨hpending, n, m, hmark, hsettles⟩

def Known (i : ι) (owner : String) (unique : Prop) (r : Begun) (w : FenceWorld ι) : Prop :=
  ∀ lease observed verdict, r = .settled lease observed verdict →
    Pending i owner observed lease w ∧ ∃ n m, w.marks i = [n, m] ∧
      Settles i unique observed lease verdict m w

theorem settling_beginAndSettle (length : Duration) (hsent : ∀ q, (i, q) ∉ w.inFlight)
    (hmine : ∀ change, .changed (some i) change ∉ w.log) (hmarks : w.marks i = []) :
    Settling i owner unique (Known i owner unique) (beginAndSettle owner length) w := by
  refine (settling_begin length hsent hmine hmarks).bind fun result u hu => ?_
  split
  · rename_i lease observed source
    obtain ⟨hpending, hmarks⟩ := hu lease observed source rfl
    refine (settling_state hpending hmarks).bind fun result u hu => ?_
    cases result with
    | ok state =>
      rintro _ _ _ ⟨⟩
      exact hu state rfl
    | error error => rintro _ _ _ ⟨⟩
  · rintro _ _ _ ⟨⟩

end FenceWorld

open FenceWorld

variable {ι : Type} [DecidableEq ι]

theorem known_of_reaches {owner : String} {unique : Prop} {length : Duration} {i : ι}
    {x : ι → FenceProgram Begun} (hx : x i = beginAndSettle owner length)
    (hunique : ∀ j, j ≠ i → unique → (x j).Asks (Abstains owner)) {stores : Stores}
    (hstores : stores.rebuild = .empty) {w : FenceWorld ι} {threads : ι → FenceProgram Begun}
    (hreach : Pool.Reaches FenceActs FenceMoves (FenceWorld.start stores, x) (w, threads))
    {r : Begun} (hdone : threads i = .done r) : w.Sound ∧ Known i owner unique r w := by
  have hpost : ∀ j r s t, (j = i → Known i owner unique r s) → Keeps j s t →
      j = i → Known i owner unique r t := by
    rintro j r s t h hkeeps rfl lease observed verdict hr
    obtain ⟨hpending, n, m, hmarks, hsettles⟩ := h rfl lease observed verdict hr
    exact ⟨hpending.keeps hkeeps, n, m, hkeeps.marks.trans hmarks, hsettles.later hkeeps.later⟩
  have hstart : Begins i owner unique (FenceWorld.start stores) :=
    ⟨sound_start hstores, fun _ => ⟨fun _ _ _ h => (nomatch h), fun _ _ _ h => (nomatch h)⟩⟩
  have hsafe : ∀ j, Script.Safe (FenceActs j) (Keeps j) (Begins i owner unique)
      (BeginsKept i owner unique j) (fun r u => j = i → Known i owner unique r u) (x j)
      (FenceWorld.start stores) := by
    intro j
    by_cases hj : j = i
    · subst hj
      rw [hx]
      exact (settling_beginAndSettle length (by simp [FenceWorld.start])
        (by simp [FenceWorld.start]) rfl).mono fun r u h _ => h
    · have hasks : (x j).Asks fun a => unique → Abstains owner a := by
        by_cases hu : unique
        · exact (hunique j hj hu).mono fun a ha _ => ha
        · induction x j with
          | done r => trivial
          | call a next ih => exact ⟨fun h => absurd h hu, ih⟩
      refine (Script.Safe.of_asks (J := fun _ => True) hasks trivial (fun _ _ _ _ => trivial)
        ?_).mono fun r u _ h => absurd h hj
      exact fun t a answer u ha hinv _ hact => ⟨begins_acts hinv hact fun _ => ha, trivial⟩
  obtain ⟨hinv, hsafe⟩ := Pool.safe_of_reaches (fun j w => Keeps.refl j w)
    (fun j s t u hst htu => hst.trans htu) hpost (fun j s t _ h => h)
    (fun s t hs hmove => ⟨⟨(hmove.sound hs.1).1, fun hu => owned_moves (hs.2 hu) hmove⟩,
      fun j => keeps_moves hs.1 hmove⟩) hreach hstart hsafe
  have hknown : Script.Safe _ _ _ _ _ (threads i) w := hsafe i
  rw [hdone] at hknown
  exact ⟨hinv.1, hknown rfl⟩

/-- A begin whose result is unknown: refused, it never applies, unless a later begin under its token
did; undecided, it may still land; confirmed, it applied and nothing moved since. -/
theorem begun_settled (owner : String) (length : Duration) (x : ι → FenceProgram Begun) (i : ι)
    (hx : x i = beginAndSettle owner length) (stores : Stores)
    (hstores : stores.rebuild = .empty) (w : FenceWorld ι) (threads : ι → FenceProgram Begun)
    (hreach : Pool.Reaches FenceActs FenceMoves (FenceWorld.start stores, x) (w, threads))
    (lease : RebuildLease) (observed : Int) (verdict : Option Bool)
    (hdone : threads i = .done (.settled lease observed verdict)) :
    ∃ n m, w.marks i = [n, m] ∧
      (verdict = some false →
        .changed (some i) (.begun observed lease) ∉ w.log.drop m ∧
        (w.fence.heldBy lease = true → observed % 2 = 1 ∧ ∃ author lease',
          .changed author (.begun (observed + 1) lease') ∈ w.log.drop m ∧
            lease'.owner = lease.owner ∧ lease'.generation = lease.generation)) ∧
      (verdict = none → w.value = observed →
        ∃ c, Pool.Reaches FenceActs FenceMoves (w, threads) c ∧
          c.1.fence.heldBy lease = true) ∧
      (verdict = some true → (∀ j, j ≠ i → (x j).Asks (Abstains owner)) →
        ∃ before after,
          w.log.take m = before ++ .changed (some i) (.begun observed lease) :: after ∧
          ∀ author change, .changed author change ∈ after → change.moves = false) := by
  have hknown : ∀ unique : Prop, (unique → ∀ j, j ≠ i → (x j).Asks (Abstains owner)) →
      w.Sound ∧ Known i owner unique (.settled lease observed verdict) w := fun unique hunique =>
    known_of_reaches hx (fun j hj hu => hunique hu j hj) hstores hreach hdone
  obtain ⟨hsound, hall⟩ := hknown False False.elim
  obtain ⟨hpending, n, m, hmarks, hsettles⟩ := hall lease observed verdict rfl
  refine ⟨n, m, hmarks, fun hv => ⟨?_, ?_⟩, ?_, ?_⟩
  · exact fun hmem => lt_irrefl _ (hsettles.after hv _ _ _ hmem)
  · intro hheld
    obtain ⟨author, observed', lease', hmem, howner, hgeneration⟩ := hsettles.refused hv hheld
    have hlt := hsettles.after hv _ _ _ hmem
    have hlt' := hsound.observed _ _ _ (List.mem_of_mem_drop hmem)
    have htoken := hpending.token
    obtain ⟨hodd, rfl⟩ : observed % 2 = 1 ∧ observed' = observed + 1 := by
      split at htoken <;> omega
    exact ⟨hodd, author, lease', hmem, howner, hgeneration⟩
  · intro _ hvalue
    obtain ⟨w', hmove, hheld⟩ := hpending.lands hsound hvalue
    exact ⟨(w', threads), .single (.other hmove), hheld⟩
  · intro hv hunique
    obtain ⟨-, hall'⟩ := hknown True fun _ => hunique
    obtain ⟨-, n', m', hmarks', hsettles'⟩ := hall' lease observed verdict rfl
    rw [hmarks] at hmarks'
    cases hmarks'
    exact hsettles'.held hv trivial

/-- The first program's begin is lost, and the clock moves on once the second has begun. -/
def lostBegin (i : Fin 3) (w : FenceWorld (Fin 3)) : (a : FenceAsk) →
    FenceAnswer a × FenceWorld (Fin 3)
  | .begin owner length =>
    match i, w.fence.beginRebuild 100 owner length with
    | 0, .ok (lease, _) =>
      (.error (.rebuildBeginIndeterminate lease w.value (.text "timed out")),
        w.sent 0 (.change (.begun w.value lease)))
    | 1, _ => w.answer 0 [] 1 (.begin owner length)
    | i, _ => w.answer 100 [] i (.begin owner length)
  | a => w.answer 100 [] i a

theorem acts_lostBegin (i : Fin 3) (w : FenceWorld (Fin 3)) (a : FenceAsk) :
    FenceActs i w a (lostBegin i w a).1 (lostBegin i w a).2 := by
  cases a with
  | begin owner length =>
    simp only [lostBegin]
    split
    · rename_i h
      exact .beginLost _ h
    · exact acts_answer 0 [] 1 w _
    · exact acts_answer 100 [] _ w _
  | _ => exact acts_answer 100 [] i w _

/-- A begin to settle, a rebuild that lapses and ends, and a begin under the same token. -/
def sharedToken : Fin 3 → FenceProgram Begun
  | 0 => beginAndSettle "x" ⟨60, 0⟩
  | 1 => (beginRebuild "y" ⟨1, 0⟩).bind fun
      | .ok lease => (endRebuild lease).bind fun _ => .done (.answered (.ok lease))
      | .error error => .done (.answered (.error error))
  | 2 => (beginRebuild "x" ⟨60, 0⟩).bind fun result => .done (.answered result)

def takenAgain : FenceWorld (Fin 3) × (Fin 3 → FenceProgram Begun) :=
  Pool.turns lostBegin (FenceWorld.start .empty, sharedToken) [1, 0, 1, 0, 0, 2]

/-- The takeover is lost and settled as refused; a later begin under its token takes that lease. -/
theorem refused_lease_held_later :
    ∃ lease observed, Pool.Reaches FenceActs FenceMoves (FenceWorld.start .empty, sharedToken)
        takenAgain ∧
      takenAgain.2 0 = .done (.settled lease observed (some false)) ∧
      takenAgain.1.fence.heldBy lease = true :=
  ⟨_, _, Pool.reaches_turns acts_lostBegin _ _, rfl, rfl⟩

theorem begun_settled_of_takenAgain :
    ∃ lease n m, takenAgain.1.marks 0 = [n, m] ∧
      .changed (some 0) (.begun 1 lease) ∉ takenAgain.1.log.drop m ∧
      takenAgain.1.fence.heldBy lease = true := by
  obtain ⟨n, m, hmarks, hrefused, -, -⟩ := begun_settled "x" ⟨60, 0⟩ sharedToken 0 rfl .empty rfl
    takenAgain.1 takenAgain.2 (Pool.reaches_turns acts_lostBegin _ _) _ 1 (some false) rfl
  exact ⟨_, n, m, hmarks, (hrefused rfl).1, rfl⟩

end EventStore
