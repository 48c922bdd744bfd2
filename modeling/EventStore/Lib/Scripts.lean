import Mathlib

/-!
Programs that call a shared service, pools of them, and a rely-guarantee rule. A
script is finished, or waits for the answer of one call. In a pool any number of
scripts take turns, one call at a time, and an environment moves in between.
-/

inductive Script (Ask : Type) (Answer : Ask → Type) (α : Type) where
  | done (value : α)
  | call (ask : Ask) (next : Answer ask → Script Ask Answer α)

namespace Script

variable {Ask : Type} {Answer : Ask → Type} {α β γ : Type}

def bind : Script Ask Answer α → (α → Script Ask Answer β) → Script Ask Answer β
  | .done value, f => f value
  | .call ask next, f => .call ask fun answer => (next answer).bind f

instance : Monad (Script Ask Answer) where
  pure := .done
  bind := bind

def ask (a : Ask) : Script Ask Answer (Answer a) := .call a .done

@[simp] theorem pure_eq (a : α) : (pure a : Script Ask Answer α) = .done a := rfl

@[simp] theorem bind_eq (p : Script Ask Answer α) (f : α → Script Ask Answer β) :
    p >>= f = p.bind f := rfl

@[simp] theorem done_bind (a : α) (f : α → Script Ask Answer β) :
    (Script.done a).bind f = f a := rfl

@[simp] theorem call_bind (a : Ask) (next : Answer a → Script Ask Answer α)
    (f : α → Script Ask Answer β) :
    (Script.call a next).bind f = .call a fun answer => (next answer).bind f := rfl

@[simp] theorem ask_bind (a : Ask) (f : Answer a → Script Ask Answer β) :
    (Script.ask a).bind f = .call a f := rfl

theorem bind_assoc (p : Script Ask Answer α) (f : α → Script Ask Answer β)
    (g : β → Script Ask Answer γ) :
    (p.bind f).bind g = p.bind fun a => (f a).bind g := by
  induction p with
  | done a => rfl
  | call a next ih =>
    simp only [call_bind]
    congr 1
    funext answer
    exact ih answer

/-- Whatever the answers, every call the script makes is one of the given ones. -/
def Asks (P : Ask → Prop) : Script Ask Answer α → Prop
  | .done _ => True
  | .call a next => P a ∧ ∀ answer, Asks P (next answer)

theorem Asks.bind {P : Ask → Prop} {p : Script Ask Answer α} {f : α → Script Ask Answer β}
    (h : p.Asks P) (hf : ∀ a, (f a).Asks P) : (p.bind f).Asks P := by
  induction p with
  | done a => exact hf a
  | call a next ih => exact ⟨h.1, fun answer => ih answer (h.2 answer)⟩

theorem Asks.mono {P Q : Ask → Prop} {p : Script Ask Answer α} (h : p.Asks P)
    (hPQ : ∀ a, P a → Q a) : p.Asks Q := by
  induction p with
  | done a => trivial
  | call a next ih => exact ⟨hPQ a h.1, fun answer => ih answer (h.2 answer)⟩

/-- Whatever the answers, the script returns a value with the given property. -/
def Yields (R : α → Prop) : Script Ask Answer α → Prop
  | .done a => R a
  | .call _ next => ∀ answer, Yields R (next answer)

theorem Yields.bind {R : α → Prop} {S : β → Prop} {p : Script Ask Answer α}
    {f : α → Script Ask Answer β} (h : p.Yields R) (hf : ∀ a, R a → (f a).Yields S) :
    (p.bind f).Yields S := by
  induction p with
  | done a => exact hf a h
  | call a next ih => exact fun answer => ih answer (h answer)

theorem Asks.bind_yields {P : Ask → Prop} {R : α → Prop} {p : Script Ask Answer α}
    {f : α → Script Ask Answer β} (h : p.Asks P) (hp : p.Yields R)
    (hf : ∀ a, R a → (f a).Asks P) : (p.bind f).Asks P := by
  induction p with
  | done a => exact hf a hp
  | call a next ih => exact ⟨h.1, fun answer => ih answer (h.2 answer) (hp answer)⟩

section Safe

variable {σ : Type}
/- The service: which states and answers a call may lead to. -/
variable (act : σ → (a : Ask) → Answer a → σ → Prop)
/- What the others keep, what every state satisfies, and what each call must keep. -/
variable (rely : σ → σ → Prop) (inv : σ → Prop) (guar : σ → σ → Prop)

/-- Whatever the others do, every call keeps the guarantee and the end the postcondition. -/
def Safe (post : α → σ → Prop) : Script Ask Answer α → σ → Prop
  | .done a, s => post a s
  | .call a next, s => ∀ t, rely s t → inv t → ∀ answer u, act t a answer u →
      guar t u ∧ Safe post (next answer) u

variable {act rely inv guar} {post post' : α → σ → Prop}

@[simp] theorem safe_done {a : α} {s : σ} :
    Safe act rely inv guar post (.done a) s ↔ post a s := Iff.rfl

theorem Safe.mono {p : Script Ask Answer α} {s : σ} (h : Safe act rely inv guar post p s)
    (himp : ∀ a t, post a t → post' a t) : Safe act rely inv guar post' p s := by
  induction p generalizing s with
  | done a => exact himp a s h
  | call a next ih =>
    intro t hrely hinv answer u hact
    obtain ⟨hguar, hnext⟩ := h t hrely hinv answer u hact
    exact ⟨hguar, ih answer hnext⟩

/-- A safe script's next call keeps the guarantee, and the script stays safe. -/
theorem Safe.next {p : Script Ask Answer α} {a : Ask} {next : Answer a → Script Ask Answer α}
    {s s' : σ} {answer : Answer a} (h : Safe act rely inv guar post p s) (hp : p = .call a next)
    (hrefl : rely s s) (hinv : inv s) (hact : act s a answer s') :
    guar s s' ∧ Safe act rely inv guar post (next answer) s' := by
  subst hp
  exact h s hrefl hinv answer s' hact

theorem Safe.stable (htrans : ∀ s t u, rely s t → rely t u → rely s u)
    (hpost : ∀ a s t, post a s → rely s t → post a t) {p : Script Ask Answer α} {s t : σ}
    (h : Safe act rely inv guar post p s) (hrely : rely s t) :
    Safe act rely inv guar post p t := by
  cases p with
  | done a => exact hpost a s t h hrely
  | call a next => exact fun u hu => h u (htrans s t u hrely hu)

theorem Safe.bind {post'' : β → σ → Prop} {p : Script Ask Answer α}
    {f : α → Script Ask Answer β} {s : σ} (h : Safe act rely inv guar post p s)
    (hf : ∀ a t, post a t → Safe act rely inv guar post'' (f a) t) :
    Safe act rely inv guar post'' (p.bind f) s := by
  induction p generalizing s with
  | done a => exact hf a s h
  | call a next ih =>
    intro t hrely hinv answer u hact
    obtain ⟨hguar, hnext⟩ := h t hrely hinv answer u hact
    exact ⟨hguar, ih answer hnext⟩

/-- A script whose calls each keep a property that the others keep too. -/
theorem Safe.of_asks {P : Ask → Prop} {J : σ → Prop} {p : Script Ask Answer α} {s : σ}
    (h : p.Asks P) (hs : J s) (hrely : ∀ t u, J t → rely t u → J u)
    (hact : ∀ t a answer u, P a → inv t → J t → act t a answer u → guar t u ∧ J u) :
    Safe act rely inv guar (fun _ => J) p s := by
  induction p generalizing s with
  | done a => exact hs
  | call a next ih =>
    intro t ht hinv answer u hu
    obtain ⟨hguar, hJ⟩ := hact t a answer u h.1 hinv (hrely s t hs ht) hu
    exact ⟨hguar, ih answer (h.2 answer) hJ⟩

theorem Safe.yields {R : α → Prop} {p : Script Ask Answer α} {s : σ}
    (h : Safe act rely inv guar post p s) (hp : p.Yields R) :
    Safe act rely inv guar (fun a t => post a t ∧ R a) p s := by
  induction p generalizing s with
  | done a => exact ⟨h, hp⟩
  | call a next ih =>
    intro t hrely hinv answer u hact
    obtain ⟨hguar, hnext⟩ := h t hrely hinv answer u hact
    exact ⟨hguar, ih answer hnext (hp answer)⟩

theorem Safe.ask {a : Ask} {post : Answer a → σ → Prop} {s : σ}
    (h : ∀ t, rely s t → inv t → ∀ answer u, act t a answer u → guar t u ∧ post answer u) :
    Safe act rely inv guar post (Script.ask a) s := h

end Safe

section Results

variable {ε : Type}

def andThen (p : Script Ask Answer (Except ε α)) (f : α → Script Ask Answer (Except ε β)) :
    Script Ask Answer (Except ε β) :=
  p.bind fun
    | .error e => .done (.error e)
    | .ok a => f a

def check (x : Except ε α) (f : α → Script Ask Answer (Except ε β)) :
    Script Ask Answer (Except ε β) :=
  match x with
  | .error e => .done (.error e)
  | .ok a => f a

variable {P : Ask → Prop} {p : Script Ask Answer (Except ε α)} {x : Except ε α}
  {f : α → Script Ask Answer (Except ε β)}

theorem Asks.andThen (h : p.Asks P) (hf : ∀ a, (f a).Asks P) : (p.andThen f).Asks P := by
  refine h.bind fun result => ?_
  cases result with
  | error e => trivial
  | ok a => exact hf a

theorem Asks.check (hf : ∀ a, x = .ok a → (f a).Asks P) : (check x f).Asks P := by
  cases x with
  | error e => trivial
  | ok a => exact hf a rfl

variable {σ : Type} {act : σ → (a : Ask) → Answer a → σ → Prop} {rely : σ → σ → Prop}
  {inv : σ → Prop} {guar : σ → σ → Prop} {post' : Except ε β → σ → Prop} {s : σ}

theorem Safe.andThen (post : Except ε α → σ → Prop) (h : Safe act rely inv guar post p s)
    (herror : ∀ e t, post (.error e) t → post' (.error e) t)
    (hf : ∀ a t, post (.ok a) t → Safe act rely inv guar post' (f a) t) :
    Safe act rely inv guar post' (p.andThen f) s := by
  refine h.bind fun result t hpost => ?_
  cases result with
  | error e => exact herror e t hpost
  | ok a => exact hf a t hpost

theorem Safe.check (herror : ∀ e, x = .error e → post' (.error e) s)
    (hf : ∀ a, x = .ok a → Safe act rely inv guar post' (f a) s) :
    Safe act rely inv guar post' (check x f) s := by
  cases x with
  | error e => exact herror e rfl
  | ok a => exact hf a rfl

end Results

end Script

namespace Pool

variable {Ask : Type} {Answer : Ask → Type} {α : Type} {σ ι : Type} [DecidableEq ι]
/- The service may tell its callers apart; the environment moves on its own. -/
variable (act : ι → σ → (a : Ask) → Answer a → σ → Prop) (env : σ → σ → Prop)

inductive Step : σ × (ι → Script Ask Answer α) → σ × (ι → Script Ask Answer α) → Prop
  | other {s s' : σ} {threads : ι → Script Ask Answer α} (h : env s s') :
      Step (s, threads) (s', threads)
  | call {s s' : σ} {threads : ι → Script Ask Answer α} {i : ι} {a : Ask}
      {next : Answer a → Script Ask Answer α} {answer : Answer a}
      (hi : threads i = .call a next) (h : act i s a answer s') :
      Step (s, threads) (s', Function.update threads i (next answer))

abbrev Reaches (c c' : σ × (ι → Script Ask Answer α)) : Prop :=
  Relation.ReflTransGen (Step act env) c c'

variable {act env}

theorem Reaches.mono {act' : ι → σ → (a : Ask) → Answer a → σ → Prop}
    {c c' : σ × (ι → Script Ask Answer α)} (h : Reaches act env c c')
    (hact : ∀ i s a answer s', act i s a answer s' → act' i s a answer s') :
    Reaches act' env c c' := by
  refine Relation.ReflTransGen.mono (fun c c' hstep => ?_) _ _ h
  cases hstep with
  | other h => exact .other h
  | call hi h => exact .call hi (hact _ _ _ _ _ h)

/-- Rely-guarantee: scripts that are safe on their own stay safe together. -/
theorem safe_of_reaches {rely : ι → σ → σ → Prop} {inv : σ → Prop} {guar : ι → σ → σ → Prop}
    {post : ι → α → σ → Prop} (hrefl : ∀ i s, rely i s s)
    (htrans : ∀ i s t u, rely i s t → rely i t u → rely i s u)
    (hpost : ∀ i a s t, post i a s → rely i s t → post i a t)
    (hguar : ∀ i s t, inv s → guar i s t → inv t ∧ ∀ j, j ≠ i → rely j s t)
    (henv : ∀ s t, inv s → env s t → inv t ∧ ∀ j, rely j s t)
    {c c' : σ × (ι → Script Ask Answer α)} (hreach : Reaches act env c c') (hinv : inv c.1)
    (hsafe : ∀ i, (c.2 i).Safe (act i) (rely i) inv (guar i) (post i) c.1) :
    inv c'.1 ∧ ∀ i, (c'.2 i).Safe (act i) (rely i) inv (guar i) (post i) c'.1 := by
  induction hreach with
  | refl => exact ⟨hinv, hsafe⟩
  | tail _ hstep ih =>
    obtain ⟨hinv, hsafe⟩ := ih
    cases hstep with
    | other h =>
      obtain ⟨hinv', hrely⟩ := henv _ _ hinv h
      exact ⟨hinv', fun i => (hsafe i).stable (htrans i) (hpost i) (hrely i)⟩
    | @call s s' threads i a next answer hi h =>
      obtain ⟨hg, hnext⟩ := (hsafe i).next hi (hrefl i s) hinv h
      obtain ⟨hinv', hrely⟩ := hguar i s s' hinv hg
      refine ⟨hinv', fun j => ?_⟩
      by_cases hj : j = i
      · subst hj
        simpa using hnext
      · simpa [hj] using (hsafe j).stable (htrans j) (hpost j) (hrely j hj)

/-- One move of a pool of safe scripts is the environment's, or keeps a guarantee. -/
theorem guar_of_step {rely : ι → σ → σ → Prop} {inv : σ → Prop} {guar : ι → σ → σ → Prop}
    {post : ι → α → σ → Prop} (hrefl : ∀ i s, rely i s s)
    {c c' : σ × (ι → Script Ask Answer α)} (hstep : Step act env c c') (hinv : inv c.1)
    (hsafe : ∀ i, (c.2 i).Safe (act i) (rely i) inv (guar i) (post i) c.1) :
    env c.1 c'.1 ∨ ∃ i, guar i c.1 c'.1 := by
  cases hstep with
  | other h => exact .inl h
  | @call s s' threads i a next answer hi h =>
    exact .inr ⟨i, ((hsafe i).next hi (hrefl i s) hinv h).1⟩

/-- What every call and the environment keep, every run keeps. -/
theorem invariant {J : σ → Prop} (hact : ∀ i s a answer s', J s → act i s a answer s' → J s')
    (henv : ∀ s s', J s → env s s' → J s') {c c' : σ × (ι → Script Ask Answer α)}
    (hreach : Reaches act env c c') (hJ : J c.1) : J c'.1 := by
  induction hreach with
  | refl => exact hJ
  | tail _ hstep ih =>
    cases hstep with
    | other h => exact henv _ _ ih h
    | call _ h => exact hact _ _ _ _ _ ih h

/-- What every call of a kind keeps, scripts that only make such calls keep. -/
theorem invariant_of_asks {P : Ask → Prop} {J : σ → Prop}
    (hact : ∀ i s a answer s', P a → J s → act i s a answer s' → J s')
    (henv : ∀ s s', J s → env s s' → J s') {c c' : σ × (ι → Script Ask Answer α)}
    (hreach : Reaches act env c c') (hasks : ∀ i, (c.2 i).Asks P) (hJ : J c.1) :
    J c'.1 ∧ ∀ i, (c'.2 i).Asks P := by
  induction hreach with
  | refl => exact ⟨hJ, hasks⟩
  | tail _ hstep ih =>
    obtain ⟨hJ, hasks⟩ := ih
    cases hstep with
    | other h => exact ⟨henv _ _ hJ h, hasks⟩
    | @call s s' threads i a next answer hi h =>
      have hcall := hasks i
      simp only at hcall
      rw [hi] at hcall
      refine ⟨hact i s a answer s' hcall.1 hJ h, fun j => ?_⟩
      by_cases hj : j = i
      · subst hj
        simpa using hcall.2 answer
      · simpa [hj] using hasks j

section Turns

/- A service that computes its answers. -/
variable (answer : ι → σ → (a : Ask) → Answer a × σ)

def turn (c : σ × (ι → Script Ask Answer α)) (i : ι) : σ × (ι → Script Ask Answer α) :=
  match c.2 i with
  | .done _ => c
  | .call a next => ((answer i c.1 a).2, Function.update c.2 i (next (answer i c.1 a).1))

def turns (c : σ × (ι → Script Ask Answer α)) (schedule : List ι) :
    σ × (ι → Script Ask Answer α) :=
  schedule.foldl (turn answer) c

variable {answer}

variable (answer) in
/-- Every call the schedule makes is made in a state that allows it. -/
def Allows (allowed : ι → σ → Ask → Prop) (c : σ × (ι → Script Ask Answer α)) : List ι → Prop
  | [] => True
  | i :: schedule =>
    (match c.2 i with
      | .done _ => True
      | .call a _ => allowed i c.1 a) ∧ Allows allowed (turn answer c i) schedule

instance decidableAllows {allowed : ι → σ → Ask → Prop} [∀ i s a, Decidable (allowed i s a)] :
    ∀ (schedule : List ι) (c : σ × (ι → Script Ask Answer α)),
      Decidable (Allows answer allowed c schedule)
  | [], _ => isTrue trivial
  | i :: schedule, c =>
    have : Decidable (Allows answer allowed (turn answer c i) schedule) :=
      decidableAllows schedule _
    have : Decidable (match c.2 i with
      | .done _ => True
      | .call a _ => allowed i c.1 a) := by split <;> infer_instance
    inferInstanceAs (Decidable (_ ∧ _))

/-- A run that a list of turns determines is one of the interleavings. -/
theorem reaches_turns_when {allowed : ι → σ → Ask → Prop}
    (h : ∀ i s a, allowed i s a → act i s a (answer i s a).1 (answer i s a).2)
    {c : σ × (ι → Script Ask Answer α)} {schedule : List ι}
    (hallows : Allows answer allowed c schedule) :
    Reaches act env c (turns answer c schedule) := by
  induction schedule generalizing c with
  | nil => exact .refl
  | cons i schedule ih =>
    refine .trans ?_ (ih hallows.2)
    obtain ⟨s, threads⟩ := c
    have hcall := hallows.1
    unfold turn
    cases hi : threads i with
    | done _ =>
      simp only [hi]
      exact .refl
    | call a next =>
      simp only [hi] at hcall ⊢
      exact .single (.call hi (h i s a hcall))

theorem reaches_turns (h : ∀ i s a, act i s a (answer i s a).1 (answer i s a).2)
    (c : σ × (ι → Script Ask Answer α)) (schedule : List ι) :
    Reaches act env c (turns answer c schedule) := by
  have hall : Allows answer (fun _ _ _ => True) c schedule := by
    induction schedule generalizing c with
    | nil => trivial
    | cons i schedule ih =>
      refine ⟨?_, ih _⟩
      split <;> trivial
  exact reaches_turns_when (fun i s a _ => h i s a) hall

end Turns

end Pool
