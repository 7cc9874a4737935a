import Mathlib.Data.Nat.Notation

/-!
# Refinement of fallible components

A component answers each input from its state or fails. A specification is
total: it answers every permitted input. One step of agreement lifts to all
input sequences. The modules that model code supply the states and inputs.
-/

namespace KyrosWebServer.Refinement

variable {σ τ ι ο ε : Type}

/-- Feed inputs in order; a failing input ends the run with its failure. -/
def runs (exec : σ → ι → Except ε (ο × σ)) : σ → List ι → Except ε (List ο × σ)
  | s, [] => .ok ([], s)
  | s, i :: is => do
    let (o, s) ← exec s i
    let (os, s) ← runs exec s is
    return (o :: os, s)

/-- The same for a total specification. -/
def specRuns (spec : τ → ι → ο × τ) : τ → List ι → List ο × τ
  | t, [] => ([], t)
  | t, i :: is =>
    let answer := spec t i
    let rest := specRuns spec answer.2 is
    (answer.1 :: rest.1, rest.2)

/-- Every input meets its precondition in the specification state it finds. -/
def Permitted (spec : τ → ι → ο × τ) (pre : τ → ι → Prop) : τ → List ι → Prop
  | _, [] => True
  | t, i :: is => pre t i ∧ Permitted spec pre (spec t i).2 is

/-- Agreement on one permitted input, with the abstraction relation kept. -/
def Refines (exec : σ → ι → Except ε (ο × σ)) (spec : τ → ι → ο × τ) (pre : τ → ι → Prop)
    (R : σ → τ → Prop) : Prop :=
  ∀ s t i, R s t → pre t i → ∃ s', exec s i = .ok ((spec t i).1, s') ∧ R s' (spec t i).2

theorem runs_cons {exec : σ → ι → Except ε (ο × σ)} {s s' : σ} {i : ι} {o : ο}
    (h : exec s i = .ok (o, s')) (is : List ι) :
    runs exec s (i :: is) = (runs exec s' is).map fun r => (o :: r.1, r.2) := by
  simp only [runs, h, bind, Except.bind, pure, Except.pure]
  cases runs exec s' is <;> rfl

/-- A refined run never fails, gives the specified answers and ends related. -/
theorem Refines.runs {exec : σ → ι → Except ε (ο × σ)} {spec : τ → ι → ο × τ}
    {pre : τ → ι → Prop} {R : σ → τ → Prop} (h : Refines exec spec pre R)
    {s : σ} {t : τ} (hR : R s t) {is : List ι} (hp : Permitted spec pre t is) :
    ∃ s', runs exec s is = .ok ((specRuns spec t is).1, s') ∧ R s' (specRuns spec t is).2 := by
  induction is generalizing s t with
  | nil => exact ⟨s, rfl, hR⟩
  | cons i is ih =>
    obtain ⟨hi, hrest⟩ := hp
    obtain ⟨s₁, hexec, hR₁⟩ := h s t i hR hi
    obtain ⟨s₂, hruns, hR₂⟩ := ih hR₁ hrest
    refine ⟨s₂, ?_, hR₂⟩
    rw [runs_cons hexec, hruns]
    rfl

/-- Every input meets `P` in the state it finds. -/
def Meets (exec : σ → ι → Except ε (ο × σ)) (P : σ → ι → Prop) : σ → List ι → Prop
  | _, [] => True
  | s, i :: is => P s i ∧ ∀ o s', exec s i = .ok (o, s') → Meets exec P s' is

/-- Where the first input succeeds, the rest has to meet `P` from there on. -/
theorem meets_cons {exec : σ → ι → Except ε (ο × σ)} {P : σ → ι → Prop} {s s' : σ} {i : ι} {o : ο}
    (h : exec s i = .ok (o, s')) (is : List ι) :
    Meets exec P s (i :: is) ↔ P s i ∧ Meets exec P s' is := by
  constructor
  · intro ⟨hP, hrest⟩
    exact ⟨hP, hrest o s' h⟩
  · intro ⟨hP, hrest⟩
    refine ⟨hP, fun o₁ s₁ hexec => ?_⟩
    rw [h] at hexec
    cases hexec
    exact hrest

/-- What follows from `P` in the states that satisfy an invariant, which the
inputs that meet `P` have to keep. -/
theorem Meets.imp {exec : σ → ι → Except ε (ο × σ)} {P Q : σ → ι → Prop} {I : σ → Prop}
    (hinv : ∀ s i o s', I s → P s i → exec s i = .ok (o, s') → I s')
    (himp : ∀ s i, I s → P s i → Q s i) {s : σ} (hs : I s) {is : List ι}
    (h : Meets exec P s is) : Meets exec Q s is := by
  induction is generalizing s with
  | nil => trivial
  | cons i is ih =>
    obtain ⟨hP, hrest⟩ := h
    exact ⟨himp s i hs hP, fun o s' hexec => ih (hinv s i o s' hs hP hexec) (hrest o s' hexec)⟩

theorem Meets.and {exec : σ → ι → Except ε (ο × σ)} {P Q : σ → ι → Prop} {s : σ} {is : List ι}
    (hP : Meets exec P s is) (hQ : Meets exec Q s is) :
    Meets exec (fun s i => P s i ∧ Q s i) s is := by
  induction is generalizing s with
  | nil => trivial
  | cons i is ih =>
    exact ⟨⟨hP.1, hQ.1⟩, fun o s' hexec => ih (hP.2 o s' hexec) (hQ.2 o s' hexec)⟩

/-- Every state of the run satisfies `I`, no input fails, and every answer is
as `Q` demands. -/
def Stays (exec : σ → ι → Except ε (ο × σ)) (I : σ → Prop) (Q : σ → ι → ο → σ → Prop) :
    σ → List ι → Prop
  | s, [] => I s
  | s, i :: is => I s ∧ ∃ o s', exec s i = .ok (o, s') ∧ Q s i o s' ∧ Stays exec I Q s' is

/-- A condition that decides one step decides the whole run. -/
theorem stays_iff_meets {exec : σ → ι → Except ε (ο × σ)} {P : σ → ι → Prop} {I : σ → Prop}
    {Q : σ → ι → ο → σ → Prop}
    (hstep : ∀ s i, I s → (P s i ↔ ∃ o s', exec s i = .ok (o, s') ∧ Q s i o s' ∧ I s'))
    {s : σ} (hs : I s) (is : List ι) : Stays exec I Q s is ↔ Meets exec P s is := by
  induction is generalizing s with
  | nil => exact ⟨fun _ => trivial, fun _ => hs⟩
  | cons i is ih =>
    constructor
    · rintro ⟨-, o, s', hexec, hQ, hrest⟩
      have hs' : I s' := by
        cases is with
        | nil => exact hrest
        | cons _ _ => exact hrest.1
      refine ⟨(hstep s i hs).mpr ⟨o, s', hexec, hQ, hs'⟩, fun o₁ s₁ hexec₁ => ?_⟩
      rw [hexec] at hexec₁
      cases hexec₁
      exact (ih hs').mp hrest
    · rintro ⟨hP, hrest⟩
      obtain ⟨o, s', hexec, hQ, hs'⟩ := (hstep s i hs).mp hP
      exact ⟨hs, o, s', hexec, hQ, (ih hs').mpr (hrest o s' hexec)⟩

/-- Two computations fail alike or succeed with related results. -/
inductive Agree {β γ : Type} (R : β → γ → Prop) : Except ε β → Except ε γ → Prop
  | error (e : ε) : Agree R (.error e) (.error e)
  | ok {b : β} {c : γ} : R b c → Agree R (.ok b) (.ok c)

/-- Agreement is kept by continuations that agree on related results. -/
theorem Agree.bind {β γ β' γ' : Type} {R : β → γ → Prop} {S : β' → γ' → Prop}
    {x : Except ε β} {y : Except ε γ} {f : β → Except ε β'} {g : γ → Except ε γ'}
    (h : Agree R x y) (hfg : ∀ b c, R b c → Agree S (f b) (g c)) :
    Agree S (x >>= f) (y >>= g) := by
  cases h with
  | error e => exact .error e
  | ok hR => exact hfg _ _ hR

/-- Continuations of one computation need to agree on its results only. -/
theorem Agree.bind_same {β β' γ' : Type} {S : β' → γ' → Prop} (x : Except ε β)
    {f : β → Except ε β'} {g : β → Except ε γ'} (hfg : ∀ b, Agree S (f b) (g b)) :
    Agree S (x >>= f) (x >>= g) := by
  cases x with
  | error e => exact .error e
  | ok b => exact hfg b

end KyrosWebServer.Refinement
