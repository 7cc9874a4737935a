import Mathlib.Logic.Relation
import Mathlib.Order.Basic
import Mathlib.Data.Nat.Init

/-!
# Labelled transition systems

Start states and labelled moves of a system whose parties act one at a time.
Invariants are proved for one move and inherited by every run; a rank that
falls along chosen moves leads to a state without moves. Simulations carry
visible labels from a detailed system to an abstract one. Nothing here
mentions a particular system.
-/

namespace KyrosWebServer.TransitionSystem

/-- A system given by its start states and its labelled moves. -/
structure System (σ κ : Type*) where
  /-- States in which a run may begin. -/
  start : σ → Prop
  /-- `step s a t`: the move labelled `a` leads from `s` to `t`. -/
  step : σ → κ → σ → Prop

namespace System

variable {σ κ : Type*} (M : System σ κ)

/-- A finite run, with its labels in order. -/
inductive Run (s : σ) : List κ → σ → Prop
  | nil : Run s [] s
  | snoc {t u : σ} {as : List κ} {a : κ} : Run s as t → M.step t a u → Run s (as ++ [a]) u

/-- A finite run with what `obs` shows of its moves, in order. -/
inductive Observed {ο : Type*} (obs : σ → κ → List ο) (s : σ) : List ο → σ → Prop
  | nil : Observed obs s [] s
  | snoc {t u : σ} {os : List ο} {a : κ} :
      Observed obs s os t → M.step t a u → Observed obs s (os ++ obs t a) u

/-- One move, whatever its label. -/
def Move (s t : σ) : Prop := ∃ a, M.step s a t

/-- Any number of moves. -/
def Leads : σ → σ → Prop := Relation.ReflTransGen M.Move

/-- States met by some run from a start state. -/
def Reachable (s : σ) : Prop := ∃ s₀, M.start s₀ ∧ M.Leads s₀ s

/-- No party can move. -/
def Stuck (s : σ) : Prop := ∀ a t, ¬ M.step s a t

/-- The same states with only the moves whose label is allowed. -/
def restrict (allowed : κ → Prop) : System σ κ where
  start := M.start
  step s a t := allowed a ∧ M.step s a t

variable {M}

theorem Leads.refl (s : σ) : M.Leads s s := Relation.ReflTransGen.refl

theorem Leads.trans {s t u : σ} (h : M.Leads s t) (h' : M.Leads t u) : M.Leads s u :=
  Relation.ReflTransGen.trans h h'

theorem Leads.tail {s t u : σ} {a : κ} (h : M.Leads s t) (ha : M.step t a u) : M.Leads s u :=
  Relation.ReflTransGen.tail h ⟨a, ha⟩

theorem Leads.single {s t : σ} {a : κ} (ha : M.step s a t) : M.Leads s t :=
  (Leads.refl s).tail ha

theorem Reachable.leads {s t : σ} (h : M.Reachable s) (h' : M.Leads s t) : M.Reachable t := by
  obtain ⟨s₀, h₀, hs⟩ := h
  exact ⟨s₀, h₀, hs.trans h'⟩

/-- A predicate preserved by every move holds at the end of every run. -/
theorem Leads.invariant {I : σ → Prop} (hstep : ∀ s a t, I s → M.step s a t → I t)
    {s t : σ} (h : M.Leads s t) (hs : I s) : I t := by
  induction h with
  | refl => exact hs
  | tail _ hm ih =>
    obtain ⟨a, ha⟩ := hm
    exact hstep _ a _ ih ha

/-- An inductive invariant holds in every reachable state. -/
theorem Reachable.invariant {I : σ → Prop} (hstart : ∀ s, M.start s → I s)
    (hstep : ∀ s a t, I s → M.step s a t → I t) {s : σ} (h : M.Reachable s) : I s := by
  obtain ⟨s₀, h₀, hs⟩ := h
  exact hs.invariant hstep (hstart s₀ h₀)

/-- A property of the observations and the state that every move preserves
holds at the end of every observed run. -/
theorem Observed.invariant {ο : Type*} {obs : σ → κ → List ο} {I : List ο → σ → Prop} {s t : σ}
    {os : List ο} (hstep : ∀ os t a u, I os t → M.step t a u → I (os ++ obs t a) u)
    (h : M.Observed obs s os t) (hs : I [] s) : I os t := by
  induction h with
  | nil => exact hs
  | snoc _ ha ih => exact hstep _ _ _ _ ih ha

/-- A run is cut where its labels are. -/
theorem Run.split {s t : σ} {as bs : List κ} (h : M.Run s (as ++ bs) t) :
    ∃ u, M.Run s as u ∧ M.Run u bs t := by
  generalize hcs : as ++ bs = cs at h
  induction h generalizing bs with
  | nil =>
    obtain ⟨rfl, rfl⟩ := List.append_eq_nil_iff.mp hcs
    exact ⟨s, .nil, .nil⟩
  | @snoc t u cs c hrun hstep ih =>
    rcases List.eq_nil_or_concat bs with rfl | ⟨bs, b, rfl⟩
    · rw [List.append_nil] at hcs
      exact ⟨u, hcs ▸ hrun.snoc hstep, .nil⟩
    · rw [List.concat_eq_append, ← List.append_assoc] at hcs
      obtain ⟨hinit, hlast⟩ := List.append_inj' hcs rfl
      cases hlast
      obtain ⟨v, hfront, hback⟩ := ih hinit
      exact ⟨v, hfront, List.concat_eq_append ▸ hback.snoc hstep⟩

/-- The first move of a run. -/
theorem Run.head {s t : σ} {a : κ} {as : List κ} (h : M.Run s (a :: as) t) :
    ∃ u, M.step s a u ∧ M.Run u as t := by
  obtain ⟨u, hfirst, hrest⟩ : ∃ u, M.Run s [a] u ∧ M.Run u as t := Run.split h
  generalize hlabels : [a] = labels at hfirst
  cases hfirst with
  | nil => cases hlabels
  | @snoc v _ front b hfront hstep =>
    have hlast : [] ++ [a] = front ++ [b] := hlabels
    obtain ⟨hempty, hb⟩ := List.append_inj' hlast rfl
    cases hb
    cases hfront with
    | nil => exact ⟨u, hstep, hrest⟩
    | snoc => simp at hempty

theorem Run.leads {s t : σ} {as : List κ} (h : M.Run s as t) : M.Leads s t := by
  induction h with
  | nil => exact Leads.refl _
  | snoc _ ha ih => exact ih.tail ha

/-- Every run of the restricted system is a run of the whole system. -/
theorem Leads.of_restrict {allowed : κ → Prop} {s t : σ}
    (h : (M.restrict allowed).Leads s t) : M.Leads s t := by
  induction h with
  | refl => exact Leads.refl _
  | tail _ hm ih =>
    obtain ⟨a, -, ha⟩ := hm
    exact ih.tail ha

theorem Run.of_restrict {allowed : κ → Prop} {s t : σ} {as : List κ}
    (h : (M.restrict allowed).Run s as t) : M.Run s as t := by
  induction h with
  | nil => exact .nil
  | snoc _ ha ih => exact ih.snoc ha.2

/-- A restricted run goes on with an allowed move. -/
theorem Run.snoc_allowed {allowed : κ → Prop} {s t u : σ} {as : List κ} {a : κ}
    (h : (M.restrict allowed).Run s as t) (ha : M.step t a u) (hallowed : allowed a) :
    (M.restrict allowed).Run s (as ++ [a]) u :=
  h.snoc ⟨hallowed, ha⟩

theorem Reachable.of_restrict {allowed : κ → Prop} {s : σ}
    (h : (M.restrict allowed).Reachable s) : M.Reachable s := by
  obtain ⟨s₀, h₀, hs⟩ := h
  exact ⟨s₀, h₀, hs.of_restrict⟩

/-- What a system with fewer moves reaches is reached with more. -/
theorem Reachable.mono {N : System σ κ} (hstart : ∀ s, M.start s → N.start s)
    (hstep : ∀ s a t, M.step s a t → N.step s a t) {s : σ} (h : M.Reachable s) : N.Reachable s := by
  obtain ⟨s₀, h₀, hs⟩ := h
  refine ⟨s₀, hstart s₀ h₀, ?_⟩
  induction hs with
  | refl => exact Leads.refl _
  | tail _ hm ih =>
    obtain ⟨a, ha⟩ := hm
    exact ih.tail (hstep _ a _ ha)

/-- A rank that every move lowers bounds the length of a run. -/
theorem Run.length_le (rank : σ → ℕ) {J : σ → Prop}
    (hJ : ∀ s a t, J s → M.step s a t → J t ∧ rank t < rank s) {s t : σ} {as : List κ}
    (h : M.Run s as t) (hs : J s) : J t ∧ as.length + rank t ≤ rank s := by
  induction h with
  | nil => exact ⟨hs, Nat.le_of_eq (Nat.zero_add _)⟩
  | @snoc t u as a _ ha ih =>
    obtain ⟨ht, hle⟩ := ih
    obtain ⟨hu, hlt⟩ := hJ t a u ht ha
    refine ⟨hu, ?_⟩
    rw [List.length_append, List.length_singleton]
    omega

/-- When each state of `J` that can move has a move that stays in `J` and
lowers the rank, every state of `J` leads to a stuck state of `J`. -/
theorem exists_stuck (rank : σ → ℕ) {J : σ → Prop}
    (hJ : ∀ s, J s → ¬ M.Stuck s → ∃ a t, M.step s a t ∧ J t ∧ rank t < rank s)
    {s : σ} (hs : J s) : ∃ t, M.Leads s t ∧ J t ∧ M.Stuck t := by
  induction hn : rank s using Nat.strong_induction_on generalizing s with
  | _ n ih =>
    by_cases hstuck : M.Stuck s
    · exact ⟨s, Leads.refl s, hs, hstuck⟩
    · obtain ⟨a, t, ha, ht, hlt⟩ := hJ s hs hstuck
      obtain ⟨u, hu, hJu, hsu⟩ := ih (rank t) (hn ▸ hlt) ht rfl
      exact ⟨u, (Leads.single ha).trans hu, hJu, hsu⟩

/-- A simulation of `M` by `N`: `vis` names the moves that the abstract
system must answer, every other move leaves the abstract state related. -/
structure Simulation {σ' κ' : Type*} (M : System σ κ) (N : System σ' κ')
    (vis : κ → Option κ') (R : σ → σ' → Prop) : Prop where
  /-- Related start states. -/
  start : ∀ s, M.start s → ∃ s', N.start s' ∧ R s s'
  /-- Moves without a visible label. -/
  silent : ∀ s a t s', R s s' → M.step s a t → vis a = none → R t s'
  /-- Moves with a visible label. -/
  visible : ∀ s a t s' b, R s s' → M.step s a t → vis a = some b → ∃ t', N.step s' b t' ∧ R t t'

/-- A simulated run shows the same visible labels, in the same order. -/
theorem Simulation.run {σ' κ' : Type*} {N : System σ' κ'} {vis : κ → Option κ'}
    {R : σ → σ' → Prop} (h : Simulation M N vis R) {s t : σ} {as : List κ}
    (hr : M.Run s as t) {s' : σ'} (hs : R s s') :
    ∃ t', N.Run s' (as.filterMap vis) t' ∧ R t t' := by
  induction hr with
  | nil => exact ⟨s', Run.nil, hs⟩
  | @snoc t u as a _ ha ih =>
    obtain ⟨t', hrun, ht⟩ := ih
    rw [List.filterMap_append]
    cases hv : vis a with
    | none =>
      refine ⟨t', ?_, h.silent _ a _ t' ht ha hv⟩
      simpa [hv] using hrun
    | some b =>
      obtain ⟨u', hu, hR⟩ := h.visible _ a _ t' b ht ha hv
      refine ⟨u', ?_, hR⟩
      simpa [hv] using hrun.snoc hu

end System

end KyrosWebServer.TransitionSystem
