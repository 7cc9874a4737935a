import KyrosWebServer.Condition
import KyrosWebServer.TransitionSystem
import Mathlib.Algebra.Order.BigOperators.Group.Finset
import Mathlib.Algebra.Ring.Int.Defs

/-!
# Producers and consumers

The program of example/thread_test.cpp, with any number of producers and
consumers and any positive `BUFFER_SIZE`. What a thread does between locking and
unlocking `mutex` is one move; `Condition::wait` ends such a move and starts
another. Each signal is sent only when the buffer leaves one of its ends. This
is enough for the system to go on for ever: it never leaves its bounds, the
exceptions are never thrown, and waiting soon gives way to work.
-/

namespace KyrosWebServer.Example

open TransitionSystem Condition

/-- Where a thread stands. -/
inductive ThreadAt
  /-- Before the lock. -/
  | locking
  /-- In `wait()`, not woken. -/
  | waiting
  /-- In `wait()`, woken, without the mutex. -/
  | woken
  deriving DecidableEq

/-- A thread that needs the mutex to go on. -/
def ThreadAt.Wants (t : ThreadAt) : Prop := t = locking ∨ t = woken

/-- What a thread does with the mutex when it does not wait. -/
structure Turn where
  /-- The new value of `buffer`. -/
  buffer : ℤ
  /-- Whether it calls `post()`. -/
  post : Bool
  /-- Whether it throws. -/
  throws : Bool

/-- The loop body of `ProducerThread`; `none` waits on `isFull`. -/
def ProducerThread (BUFFER_SIZE buffer : ℤ) : Option Turn :=
  if buffer ≥ BUFFER_SIZE then none
  else some ⟨buffer + 1, buffer + 1 = 1, buffer + 1 > BUFFER_SIZE⟩

/-- The loop body of `ConsumerThread`; `none` waits on `isEmpty`. -/
def ConsumerThread (BUFFER_SIZE buffer : ℤ) : Option Turn :=
  if buffer ≤ 0 then none
  else some ⟨buffer - 1, buffer - 1 = BUFFER_SIZE - 1, buffer - 1 < 0⟩

/-- The program. -/
structure Program (P C : ℕ) where
  /-- The number of items. -/
  buffer : ℤ
  /-- The producers. -/
  producers : Fin P → ThreadAt
  /-- The consumers. -/
  consumers : Fin C → ThreadAt
  /-- An exception has ended the process. -/
  terminated : Bool

/-- Moves, with the thread that makes them and the thread that a signal wakes. -/
inductive Label (P C : ℕ)
  | produceWait (p : Fin P)
  | produce (p : Fin P) (who : Option (Fin C))
  | consumeWait (c : Fin C)
  | consume (c : Fin C) (who : Option (Fin P))
  | spuriousProducer (p : Fin P)
  | spuriousConsumer (c : Fin C)

namespace Label

variable {P C : ℕ}

/-- Every move but a spurious wakeup. -/
def quiet : Label P C → Prop
  | spuriousProducer _ | spuriousConsumer _ => False
  | _ => True

/-- What a move adds to the buffer. -/
def effect : Label P C → ℤ
  | produce _ _ => 1
  | consume _ _ => -1
  | _ => 0

/-- A move that handles an item. -/
def Works : Label P C → Prop
  | produce _ _ | consume _ _ => True
  | _ => False

end Label

variable {P C : ℕ} {BUFFER_SIZE : ℤ}

/-- One move of one thread. -/
inductive Step (BUFFER_SIZE : ℤ) : Program P C → Label P C → Program P C → Prop
  | produceWait {s : Program P C} {p : Fin P} (h : (s.producers p).Wants)
      (halive : s.terminated = false) (hturn : ProducerThread BUFFER_SIZE s.buffer = none) :
      Step BUFFER_SIZE s (.produceWait p)
        { s with producers := Function.update s.producers p .waiting }
  | produce {s : Program P C} {p : Fin P} {turn : Turn} {who : Option (Fin C)}
      {consumers : Fin C → ThreadAt} (h : (s.producers p).Wants) (halive : s.terminated = false)
      (hturn : ProducerThread BUFFER_SIZE s.buffer = some turn)
      (hpost : PostIf turn.post .waiting .woken s.consumers who consumers) :
      Step BUFFER_SIZE s (.produce p who)
        ⟨turn.buffer, Function.update s.producers p .locking, consumers, turn.throws⟩
  | consumeWait {s : Program P C} {c : Fin C} (h : (s.consumers c).Wants)
      (halive : s.terminated = false) (hturn : ConsumerThread BUFFER_SIZE s.buffer = none) :
      Step BUFFER_SIZE s (.consumeWait c)
        { s with consumers := Function.update s.consumers c .waiting }
  | consume {s : Program P C} {c : Fin C} {turn : Turn} {who : Option (Fin P)}
      {producers : Fin P → ThreadAt} (h : (s.consumers c).Wants) (halive : s.terminated = false)
      (hturn : ConsumerThread BUFFER_SIZE s.buffer = some turn)
      (hpost : PostIf turn.post .waiting .woken s.producers who producers) :
      Step BUFFER_SIZE s (.consume c who)
        ⟨turn.buffer, producers, Function.update s.consumers c .locking, turn.throws⟩
  /-- `pthread_cond_wait` may return without a signal. -/
  | spuriousProducer {s : Program P C} {p : Fin P} (h : s.producers p = .waiting)
      (halive : s.terminated = false) :
      Step BUFFER_SIZE s (.spuriousProducer p)
        { s with producers := Function.update s.producers p .woken }
  | spuriousConsumer {s : Program P C} {c : Fin C} (h : s.consumers c = .waiting)
      (halive : s.terminated = false) :
      Step BUFFER_SIZE s (.spuriousConsumer c)
        { s with consumers := Function.update s.consumers c .woken }

/-- All threads are at the start of their loops. -/
def Program.start : Program P C := ⟨0, fun _ => .locking, fun _ => .locking, false⟩

/-- All runs of the program. -/
def program (P C : ℕ) (BUFFER_SIZE : ℤ) : System (Program P C) (Label P C) where
  start s := s = .start
  step := Step BUFFER_SIZE

/-- What holds in every run. -/
structure Flows (BUFFER_SIZE : ℤ) (s : Program P C) : Prop where
  /-- The buffer is never less than empty. -/
  nonneg : 0 ≤ s.buffer
  /-- It is never more than full. -/
  le_size : s.buffer ≤ BUFFER_SIZE
  /-- Nothing has been thrown. -/
  alive : s.terminated = false
  /-- While there is room, some producer does not wait. -/
  producing : s.buffer < BUFFER_SIZE → 0 < P → ∃ p, s.producers p ≠ .waiting
  /-- While there are items, some consumer does not wait. -/
  consuming : 0 < s.buffer → 0 < C → ∃ c, s.consumers c ≠ .waiting

theorem ProducerThread_some {buffer : ℤ} {turn : Turn}
    (h : ProducerThread BUFFER_SIZE buffer = some turn) :
    buffer < BUFFER_SIZE ∧ turn = ⟨buffer + 1, buffer + 1 = 1, buffer + 1 > BUFFER_SIZE⟩ := by
  unfold ProducerThread at h
  split at h
  · cases h
  · cases h
    exact ⟨by omega, rfl⟩

theorem ConsumerThread_some {buffer : ℤ} {turn : Turn}
    (h : ConsumerThread BUFFER_SIZE buffer = some turn) :
    0 < buffer ∧ turn = ⟨buffer - 1, buffer - 1 = BUFFER_SIZE - 1, buffer - 1 < 0⟩ := by
  unfold ConsumerThread at h
  split at h
  · cases h
  · cases h
    exact ⟨by omega, rfl⟩

/-- A thread that has moved elsewhere than into `wait` does not wait. -/
theorem exists_update {ι : Type} [DecidableEq ι] {stands : ι → ThreadAt} {i : ι} {t : ThreadAt}
    (ht : t ≠ .waiting) : ∃ j, Function.update stands i t j ≠ .waiting :=
  ⟨i, by rw [Function.update_self]; exact ht⟩

/-- If the signal is sent, or somebody does not wait anyway, somebody does not
wait behind it. -/
theorem exists_posted {n : ℕ} {stands stands' : Fin n → ThreadAt} {signalled : Bool}
    {who : Option (Fin n)} (h : PostIf signalled .waiting .woken stands who stands') (hn : 0 < n)
    (hawake : signalled = false → ∃ j, stands j ≠ .waiting) : ∃ j, stands' j ≠ .waiting := by
  by_cases hall : ∃ j, stands j ≠ .waiting
  · obtain ⟨j, hj⟩ := hall
    exact ⟨j, by rw [h.stays hj]; exact hj⟩
  · have hwaits : stands ⟨0, hn⟩ = .waiting := by
      by_contra hne
      exact hall ⟨_, hne⟩
    cases signalled with
    | false => exact absurd (hawake rfl) hall
    | true =>
      obtain ⟨k, -, rfl⟩ := h.wakes hwaits
      exact exists_update ThreadAt.noConfusion

/-- One move. -/
theorem Step.flows {s t : Program P C} {a : Label P C} (h : Step BUFFER_SIZE s a t)
    (hs : Flows BUFFER_SIZE s) : Flows BUFFER_SIZE t ∧ t.buffer = s.buffer + a.effect := by
  obtain ⟨hnonneg, hle, halive, hproducing, hconsuming⟩ := hs
  cases h with
  | produceWait hwants _ hturn =>
    have hfull : ¬ s.buffer < BUFFER_SIZE := by
      intro hlt
      rw [ProducerThread, if_neg (by omega)] at hturn
      cases hturn
    exact ⟨⟨hnonneg, hle, halive, fun hlt => absurd hlt hfull, hconsuming⟩, (add_zero _).symm⟩
  | @produce p turn who consumers hwants _ hturn hpost =>
    obtain ⟨hlt, rfl⟩ := ProducerThread_some hturn
    refine ⟨⟨?_, ?_, ?_, fun _ _ => exists_update ThreadAt.noConfusion, fun _ hC => ?_⟩, rfl⟩
    · dsimp only
      omega
    · dsimp only
      omega
    · exact decide_eq_false (by omega)
    · -- without the signal there was an item before
      refine exists_posted hpost hC fun hsilent => hconsuming ?_ hC
      have hne := of_decide_eq_false hsilent
      omega
  | consumeWait hwants _ hturn =>
    have hempty : ¬ 0 < s.buffer := by
      intro hlt
      rw [ConsumerThread, if_neg (by omega)] at hturn
      cases hturn
    exact ⟨⟨hnonneg, hle, halive, hproducing, fun hlt => absurd hlt hempty⟩, (add_zero _).symm⟩
  | @consume c turn who producers hwants _ hturn hpost =>
    obtain ⟨hlt, rfl⟩ := ConsumerThread_some hturn
    refine ⟨⟨?_, ?_, ?_, fun _ hP => ?_, fun _ _ => exists_update ThreadAt.noConfusion⟩, rfl⟩
    · dsimp only
      omega
    · dsimp only
      omega
    · exact decide_eq_false (by omega)
    · -- without the signal there was room before
      refine exists_posted hpost hP fun hsilent => hproducing ?_ hP
      have hne := of_decide_eq_false hsilent
      omega
  | spuriousProducer hwaiting _ =>
    exact ⟨⟨hnonneg, hle, halive, fun _ _ => exists_update ThreadAt.noConfusion, hconsuming⟩,
      (add_zero _).symm⟩
  | spuriousConsumer hwaiting _ =>
    exact ⟨⟨hnonneg, hle, halive, hproducing, fun _ _ => exists_update ThreadAt.noConfusion⟩,
      (add_zero _).symm⟩

theorem start_flows (hsize : 0 < BUFFER_SIZE) :
    Flows BUFFER_SIZE (Program.start : Program P C) where
  nonneg := Int.le_refl 0
  le_size := Int.le_of_lt hsize
  alive := rfl
  producing _ hP := ⟨⟨0, hP⟩, ThreadAt.noConfusion⟩
  consuming _ hC := ⟨⟨0, hC⟩, ThreadAt.noConfusion⟩

/-- The effect of a run on the buffer. -/
def effect (as : List (Label P C)) : ℤ := (as.map Label.effect).sum

theorem effect_snoc (as : List (Label P C)) (a : Label P C) :
    effect (as ++ [a]) = effect as + a.effect := by
  simp [effect]

/-- In every run of the program, spurious wakeups included, the buffer has what
was produced and not consumed, it is never less than empty nor more than full,
and neither exception is thrown. -/
theorem buffer_bounded {s : Program P C} {as : List (Label P C)} (hsize : 0 < BUFFER_SIZE)
    (h : (program P C BUFFER_SIZE).Run .start as s) :
    s.buffer = effect as ∧ 0 ≤ s.buffer ∧ s.buffer ≤ BUFFER_SIZE ∧ s.terminated = false := by
  have hall : Flows BUFFER_SIZE s ∧ s.buffer = effect as := by
    induction h with
    | nil => exact ⟨start_flows hsize, rfl⟩
    | snoc _ hstep ih =>
      obtain ⟨hs, hbuffer⟩ := ih
      obtain ⟨ht, heffect⟩ := hstep.flows hs
      exact ⟨ht, by rw [heffect, hbuffer, effect_snoc]⟩
  exact ⟨hall.2, hall.1.nonneg, hall.1.le_size, hall.1.alive⟩

theorem reachable_flows {s : Program P C} (hsize : 0 < BUFFER_SIZE)
    (h : (program P C BUFFER_SIZE).Reachable s) : Flows BUFFER_SIZE s := by
  refine h.invariant ?_ fun s a t hs hstep => (hstep.flows hs).1
  rintro s rfl
  exact start_flows hsize

/-- A thread that is not in `wait` or has been woken counts. -/
def ThreadAt.awake : ThreadAt → ℕ
  | waiting => 0
  | _ => 1

/-- How many threads are awake. -/
def Program.awake (s : Program P C) : ℕ :=
  ∑ p, (s.producers p).awake + ∑ c, (s.consumers c).awake

theorem ThreadAt.Wants.awake_eq {t : ThreadAt} (h : t.Wants) : t.awake = 1 := by
  rcases h with rfl | rfl <;> rfl

/-- Waiting puts one thread to sleep. -/
theorem sum_waiting {n : ℕ} {stands : Fin n → ThreadAt} {i : Fin n} (h : (stands i).Wants) :
    ∑ j, (Function.update stands i .waiting j).awake + 1 = ∑ j, (stands j).awake := by
  have hsum := sum_update (fun _ t => ThreadAt.awake t) stands i .waiting
  rw [h.awake_eq] at hsum
  exact hsum

theorem Step.awake {s t : Program P C} {a : Label P C} (h : Step BUFFER_SIZE s a t)
    (hquiet : a.quiet) (hidle : ¬ a.Works) : t.awake + 1 = s.awake := by
  unfold Program.awake
  cases h with
  | produceWait hwants _ _ =>
    have hsum := sum_waiting hwants
    dsimp only
    omega
  | consumeWait hwants _ _ =>
    have hsum := sum_waiting hwants
    dsimp only
    omega
  | produce _ _ _ _ => exact absurd trivial hidle
  | consume _ _ _ _ => exact absurd trivial hidle
  | spuriousProducer _ _ => exact hquiet.elim
  | spuriousConsumer _ _ => exact hquiet.elim

theorem awake_le (s : Program P C) : s.awake ≤ P + C := by
  have hone : ∀ t : ThreadAt, t.awake ≤ 1 := by
    intro t
    cases t <;> decide
  have hproducers : ∑ p, (s.producers p).awake ≤ P := by
    have hsum := Finset.sum_le_sum fun (p : Fin P) (_ : p ∈ Finset.univ) => hone (s.producers p)
    simpa using hsum
  have hconsumers : ∑ c, (s.consumers c).awake ≤ C := by
    have hsum := Finset.sum_le_sum fun (c : Fin C) (_ : c ∈ Finset.univ) => hone (s.consumers c)
    simpa using hsum
  exact Nat.add_le_add hproducers hconsumers

/-- A thread that does not wait can go on. -/
theorem ThreadAt.wants_of_ne {t : ThreadAt} (h : t ≠ waiting) : t.Wants := by
  cases t with
  | locking => exact .inl rfl
  | waiting => exact absurd rfl h
  | woken => exact .inr rfl

/-- Somebody can always handle an item at once. -/
theorem Flows.works {s : Program P C} (hs : Flows BUFFER_SIZE s) (hsize : 0 < BUFFER_SIZE)
    (hP : 0 < P) (hC : 0 < C) : ∃ a t, a.Works ∧ Step BUFFER_SIZE s a t := by
  by_cases hroom : s.buffer < BUFFER_SIZE
  · obtain ⟨p, hp⟩ := hs.producing hroom hP
    have hturn : ProducerThread BUFFER_SIZE s.buffer = some _ := if_neg (by omega)
    obtain ⟨who, consumers, hpost⟩ := PostIf.exists (decide (s.buffer + 1 = 1)) .waiting .woken
      s.consumers
    exact ⟨.produce p who, _, trivial, .produce (ThreadAt.wants_of_ne hp) hs.alive hturn hpost⟩
  · have hfull := hs.le_size
    obtain ⟨c, hc⟩ := hs.consuming (by omega) hC
    have hturn : ConsumerThread BUFFER_SIZE s.buffer = some _ := if_neg (by omega)
    obtain ⟨who, producers, hpost⟩ := PostIf.exists (decide (s.buffer - 1 = BUFFER_SIZE - 1))
      .waiting .woken s.producers
    exact ⟨.consume c who, _, trivial, .consume (ThreadAt.wants_of_ne hc) hs.alive hturn hpost⟩

/-- Somebody who works is awake. -/
theorem Step.awake_pos {s t : Program P C} {a : Label P C} (h : Step BUFFER_SIZE s a t)
    (hworks : a.Works) : 0 < s.awake := by
  unfold Program.awake
  cases h with
  | produce hwants _ _ _ =>
    have hsum := sum_waiting hwants
    omega
  | consume hwants _ _ _ =>
    have hsum := sum_waiting hwants
    omega
  | produceWait _ _ _ => exact hworks.elim
  | consumeWait _ _ _ => exact hworks.elim
  | spuriousProducer _ _ => exact hworks.elim
  | spuriousConsumer _ _ => exact hworks.elim

/-- Moves that handle nothing put one thread to sleep each. -/
theorem run_awake {s t : Program P C} {as : List (Label P C)}
    (h : ((program P C BUFFER_SIZE).restrict Label.quiet).Run s as t)
    (hidle : ∀ a ∈ as, ¬ a.Works) : t.awake + as.length = s.awake := by
  induction h with
  | nil => rfl
  | @snoc t u as a _ hstep ih =>
    have hrest := ih fun b hb => hidle b (List.mem_append_left _ hb)
    have hlast := Step.awake hstep.2 hstep.1 (hidle a (List.mem_append_right _ List.mem_cons_self))
    rw [List.length_append, List.length_singleton]
    omega

/-- The program never comes to a stop: in every reachable state some thread can
handle an item at once, and among as many moves as there are threads one does,
unless threads return from `wait` unasked. -/
theorem program_works {s : Program P C} (hsize : 0 < BUFFER_SIZE) (hP : 0 < P) (hC : 0 < C)
    (h : (program P C BUFFER_SIZE).Reachable s) :
    (∃ a t, a.Works ∧ Step BUFFER_SIZE s a t) ∧
      ∀ as t, ((program P C BUFFER_SIZE).restrict Label.quiet).Run s as t →
        P + C ≤ as.length → ∃ a ∈ as, a.Works := by
  refine ⟨(reachable_flows hsize h).works hsize hP hC, fun as t hrun hlong => ?_⟩
  by_contra hidle
  have hall : ∀ a ∈ as, ¬ a.Works := fun a ha hworks => hidle ⟨a, ha, hworks⟩
  have hsleep := run_awake hrun hall
  have hle := awake_le s
  obtain ⟨a, u, hworks, hstep⟩ :=
    (reachable_flows hsize (h.leads hrun.leads.of_restrict)).works hsize hP hC
  have hpos := hstep.awake_pos hworks
  omega

/-- The program as it is, with one producer and five consumers, two of which wait. -/
def Program.twoWaiting : Program 1 5 :=
  { (Program.start : Program 1 5) with
    consumers := Function.update (Function.update (fun _ => .locking) 0 .waiting) 1 .waiting }

/-- The other consumers wait too, and then an item wakes the first of them. -/
theorem program_works_waiting : (∃ a t, a.Works ∧ Step 100 Program.twoWaiting a t) ∧
    ∃ as t, ((program 1 5 100).restrict Label.quiet).Run Program.twoWaiting as t ∧
      as.length = 6 ∧ ∃ a ∈ as, a.Works := by
  have hstart : (program 1 5 100).Run .start [] _ := .nil
  have hwait := (hstart.snoc (.consumeWait (c := 0) (.inl rfl) rfl rfl)).snoc
    (.consumeWait (c := 1) (.inl rfl) rfl rfl)
  have h₀ : ((program 1 5 100).restrict Label.quiet).Run .twoWaiting [] _ := .nil
  have h₁ := h₀.snoc_allowed (.consumeWait (c := 2) (.inl rfl) rfl rfl) trivial
  have h₂ := h₁.snoc_allowed (.consumeWait (c := 3) (.inl rfl) rfl rfl) trivial
  have h₃ := h₂.snoc_allowed (.consumeWait (c := 4) (.inl rfl) rfl rfl) trivial
  have h₄ := h₃.snoc_allowed (.produce (p := 0) (.inl rfl) rfl rfl (.wake 0 rfl)) trivial
  have h₅ := h₄.snoc_allowed (.consume (c := 0) (.inr rfl) rfl rfl (PostIf.idle (by decide))) trivial
  have h₆ := h₅.snoc_allowed (.produce (p := 0) (.inl rfl) rfl rfl (.wake 1 rfl)) trivial
  obtain ⟨hnext, hworks⟩ := program_works (P := 1) (C := 5) (by decide) (by decide) (by decide)
    ⟨_, rfl, hwait.leads⟩
  exact ⟨hnext, _, _, h₆, rfl, hworks _ _ h₆ (by decide)⟩

/-- The first item of that program. -/
theorem buffer_bounded_first :
    ∃ (s : Program 1 5) (as : List (Label 1 5)), as.length = 1 ∧ s.buffer = effect as ∧
      0 ≤ s.buffer ∧ s.buffer ≤ 100 ∧ s.terminated = false := by
  have hturn : ProducerThread 100 0 = some ⟨1, true, false⟩ := rfl
  have hpost : PostIf true .waiting .woken (fun _ : Fin 5 => ThreadAt.locking) none
      fun _ => .locking := PostIf.idle fun _ => ThreadAt.noConfusion
  have hstep : Step 100 (Program.start : Program 1 5) (.produce 0 none) _ :=
    .produce (.inl rfl) rfl hturn hpost
  have hrun : (program 1 5 100).Run .start ([] ++ [.produce 0 none]) _ := .snoc .nil hstep
  exact ⟨_, _, rfl, buffer_bounded (by decide) hrun⟩

end KyrosWebServer.Example
