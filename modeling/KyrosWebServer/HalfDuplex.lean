import KyrosWebServer.TransitionSystem

/-!
# Half-duplex endpoints

An endpoint that takes input only while it owes no output. Each answer goes out
in pieces before the next one is made, so the output is the answers in order,
and what is missing of it is what the endpoint still owes or has lost by being
closed. Nothing here mentions a particular endpoint.
-/

namespace KyrosWebServer.HalfDuplex

open TransitionSystem

variable {α : Type*}

/-- Where an endpoint stands between its moves. -/
inductive Phase (α : Type*)
  /-- It waits for input and owes nothing. -/
  | reading
  /-- It has these items still to put out. -/
  | writing (rest : List α)
  /-- It is closed and has not put out these items. -/
  | closed (lost : List α)

/-- Items of the answers that are not out. -/
def Phase.rest : Phase α → List α
  | reading => []
  | writing rest => rest
  | closed lost => lost

/-- Moves of an endpoint. -/
inductive Move (α : Type*)
  /-- Input is answered. -/
  | reply (answer : List α)
  /-- Items go out. -/
  | emit (out : List α)
  /-- The endpoint is closed from outside. -/
  | close

/-- What a move adds to the answers. -/
def Move.replied : Move α → List α
  | reply answer => answer
  | _ => []

/-- What a move adds to the output. -/
def Move.emitted : Move α → List α
  | emit out => out
  | _ => []

/-- One move. An answer is what the endpoint owes afterwards; a piece of output
is taken off the front of what it owed before. -/
inductive Step : Phase α → Move α → Phase α → Prop
  | reply (p : Phase α) : Step .reading (.reply p.rest) p
  | emit (out : List α) (p : Phase α) : Step (.writing (out ++ p.rest)) (.emit out) p
  | close (p : Phase α) : Step p .close (.closed p.rest)

/-- All runs of an endpoint that begins by waiting for input. -/
def endpoint (α : Type*) : System (Phase α) (Move α) where
  start p := p = .reading
  step := Step

/-- All answers of a sequence of moves. -/
def replied (ms : List (Move α)) : List α := ms.flatMap Move.replied

/-- All output of a sequence of moves. -/
def emitted (ms : List (Move α)) : List α := ms.flatMap Move.emitted

theorem replied_append (ms ns : List (Move α)) : replied (ms ++ ns) = replied ms ++ replied ns :=
  List.flatMap_append

theorem emitted_append (ms ns : List (Move α)) : emitted (ms ++ ns) = emitted ms ++ emitted ns :=
  List.flatMap_append

/-- One move loses nothing and invents nothing. -/
theorem Step.conserves {p q : Phase α} {m : Move α} (h : Step p m q) :
    m.emitted ++ q.rest = p.rest ++ m.replied := by
  cases h with
  | reply => rfl
  | emit out => exact (List.append_nil _).symm
  | close => exact (List.append_nil _).symm

/-- What is out and what is owed or lost make up the answers. -/
theorem run_conserves {p q : Phase α} {ms : List (Move α)} (h : (endpoint α).Run p ms q) :
    emitted ms ++ q.rest = p.rest ++ replied ms := by
  induction h with
  | nil => exact (List.append_nil _).symm
  | @snoc q r ms m _ hstep ih =>
    have hm : m.emitted ++ r.rest = q.rest ++ m.replied := Step.conserves hstep
    calc emitted (ms ++ [m]) ++ r.rest = emitted ms ++ (m.emitted ++ r.rest) := by
          rw [emitted_append]
          simp [emitted]
      _ = (emitted ms ++ q.rest) ++ m.replied := by rw [hm, List.append_assoc]
      _ = p.rest ++ replied (ms ++ [m]) := by
          rw [ih, replied_append]
          simp [replied]

end KyrosWebServer.HalfDuplex
