import KyrosWebServer.RequestHeadEnd
import KyrosWebServer.RequestLength
import KyrosWebServer.RequestProgress

/-!
# What makes a request stop its server

A call of `processRead` throws only where a negative length is taken for a
body. The stream decides whether that happens: its head declares a negative
length, a byte follows the head, and the scanner does not reject what follows.
-/

namespace KyrosWebServer.Http

open CMemory Base FixedBuffer

/-- A negative length, and bytes behind the head that the scanner takes. -/
def Throws (req : HttpRequest) (w : List UInt8) : Prop :=
  req.contentLength < 0 ∧ w ≠ [] ∧ ¬ LoneBreak w

/-- The stream declares a negative length, and the parser gets to its body. -/
def NegativeBody (stream : List UInt8) : Prop :=
  ∃ req w, runHead HttpRequest.fresh stream = .ok (.past req w) ∧ Throws req w

/-- The parser is behind the head and throws on nothing. -/
structure HttpRequest.Harmless (req : HttpRequest) : Prop where
  /-- It never gets back into a head. -/
  past : req.pastHead = true
  /-- The length of its body, if it has one. -/
  length_nonneg : req.mCheckState = CHECK_STATE_BODY → 0 ≤ req.contentLength

/-- A complete line of the head never fails. -/
theorem headLine_ok (req : HttpRequest) (line : List UInt8) :
    ∃ code req' text, req.headLine line = .ok (code, req', text) := by
  have hzero : (0 : UInt8) ∈ line ++ [0] := by simp
  unfold HttpRequest.headLine
  split
  · obtain ⟨ret, req', w', hparse, -, -⟩ := req.parseRequest_window hzero
    exact ⟨ret, req', w', hparse⟩
  · obtain ⟨ret, req', hparse, -⟩ := req.parseHeader_window hzero
    rw [hparse]
    exact ⟨ret, req', line ++ [0], rfl⟩

/-- So no head does. -/
theorem runHead_ok (req : HttpRequest) (w : List UInt8) : ∃ head, runHead req w = .ok head := by
  fun_induction runHead req w with
  | case5 req w hpast hw line rest hnext e herr =>
    obtain ⟨code, req', text, hline⟩ := headLine_ok (req.scanned LINE_OK (line.length + 2)) line
    rw [hline] at herr
    cases herr
  | case8 req w hpast hw line rest hnext code req' text hline hbad hget ih => exact ih
  | _ => exact ⟨_, rfl⟩

/-- Behind the head comes the body. -/
theorem runHead_body {req req' : HttpRequest} {w w' : List UInt8} (hpast : ¬ req.pastHead = true)
    (h : runHead req w = .ok (.past req' w')) : req'.mCheckState = CHECK_STATE_BODY := by
  fun_induction runHead req w with
  | case1 req w hp => exact absurd hp hpast
  | case2 | case3 | case4 | case5 | case6 | case7 => cases h
  | case8 req w _ hw line rest hnext code req₁ text hline hbad hget ih =>
    rcases HttpRequest.headLine_cases (req.scanned LINE_OK (line.length + 2)) hpast hline
      with ⟨hcode, -⟩ | ⟨hcode, -⟩ | ⟨-, hin | ⟨hst, -⟩⟩
    · exact absurd hcode hbad
    · exact absurd hcode hget
    · exact ih hin h
    · have hp : ({ req₁ with mCheckIndex := 0 } : HttpRequest).pastHead = true := by
        simp [HttpRequest.pastHead, hst]
      rw [runHead_past hp] at h
      cases h
      exact hst

/-- What follows a break that the scanner rejects does not save it. -/
theorem LoneBreak.append {w : List UInt8} (h : LoneBreak w) (more : List UInt8) :
    LoneBreak (w ++ more) := by
  obtain ⟨pos, hpos⟩ := loneBreak_iff.mp h
  exact loneBreak_iff.mpr ⟨pos, (nextLine_append more).1 pos hpos⟩

/-- In the body state, a call throws exactly on a negative length. -/
theorem body_throws {req : HttpRequest} {b : FixedBuffer} {consumed w free : List UInt8}
    (hb : b.Holds consumed w free) (hi : req.InLine w) (hst : req.mCheckState = CHECK_STATE_BODY)
    (hthrows : Throws req w) : processRead req b = .error .lengthError := by
  obtain ⟨hneg, hw, hbreak⟩ := hthrows
  have hline := parseLine_nextLine free hi
  obtain ⟨ls, pos, text, hscan, hls⟩ : ∃ ls pos text,
      parseLine (w ++ free) w.length req.mCheckIndex = .ok (ls, pos, text) ∧ ls ≠ LINE_BAD := by
    rw [hline]
    cases hnext : nextLine w with
    | unfinished pos => exact ⟨_, _, _, rfl, LINE_STATE.noConfusion⟩
    | broken pos => exact absurd (loneBreak_iff.mpr ⟨pos, hnext⟩) hbreak
    | complete line rest => exact ⟨_, _, _, rfl, LINE_STATE.noConfusion⟩
  obtain ⟨w', rfl, hlen, -⟩ := parseLine_zero hscan
  obtain ⟨b', hstore, -⟩ := hb.store_window w' hlen
  rw [← hb.used_eq] at hscan
  have hturn := processReadTurn_assign hst hb.readPtr_eq hscan hstore hls
  rw [if_pos (by omega), HttpRequest.assign, if_pos hneg] at hturn
  exact processRead_turn (hb.used_pos hw) hturn

/-- A break that the scanner rejects is rejected before the length is looked at. -/
theorem body_rejects {req : HttpRequest} {b : FixedBuffer} {consumed w free : List UInt8}
    (hb : b.Holds consumed w free) (hi : req.InLine w) (hbreak : LoneBreak w) :
    ∃ req' b', processRead req b = .ok (BAD_REQUEST, req', b') := by
  obtain ⟨pos, hpos⟩ := loneBreak_iff.mp hbreak
  have hw : w ≠ [] := by
    rintro rfl
    cases hpos
  obtain ⟨b', hturn, -⟩ := processReadTurn_broken hb hi hpos
  exact ⟨_, b', processRead_turn (hb.used_pos hw) hturn⟩

/-- A turn keeps the parser harmless. -/
theorem processReadTurn_harmless {req : HttpRequest} {b : FixedBuffer} {turn : Turn}
    (hreq : req.Harmless) (h : processReadTurn req b = .ok turn) : turn.req.Harmless := by
  refine ⟨processReadTurn_past hreq.past h, fun hst => ?_⟩
  have hpast := hreq.past
  cases processReadTurn_cases h with
  | scan _ => exact hreq.length_nonneg hst
  | headEnds _ | bodyEnds _ => cases hst
  | behind _ _ _ _ => exact hreq.length_nonneg hst
  | rejected hst' | accepted hst' _ _ _ | header hst' _ _ _ | toBody hst' _ _ _ =>
    simp [HttpRequest.pastHead, hst'] at hpast

theorem Turns.harmless {s t : HttpRequest × FixedBuffer} (h : Turns s t) (hs : s.1.Harmless) :
    t.1.Harmless := by
  induction h with
  | refl => exact hs
  | tail _ hturn ih => exact processReadTurn_harmless ih hturn.2

/-- A harmless parser stays harmless, and its calls return. -/
theorem processRead_harmless {req : HttpRequest} {b : FixedBuffer} {consumed w free : List UInt8}
    (hb : b.Holds consumed w free) (hi : req.mCheckIndex ≤ w.length) (hreq : req.Harmless) :
    ∃ code req' b', processRead req b = .ok (code, req', b') ∧ req'.Harmless := by
  obtain ⟨code, req', b', hread⟩ := processRead_returns hb hi fun s hs => (hs.harmless hreq).length_nonneg
  refine ⟨code, req', b', hread, ?_⟩
  refine processRead_rule (P := fun req _ => req.Harmless) (Q := fun _ req _ => req.Harmless)
    ?_ ?_ ?_ hreq hread
  · intro req b req' b' hreq _ hturn
    exact processReadTurn_harmless hreq hturn
  · intro req b code req' b' hreq _ hturn
    exact processReadTurn_harmless hreq hturn
  · intro req b hreq _
    exact hreq

/-- In the body state, a call fails exactly where it throws on a negative length. -/
theorem body_throws_iff {req : HttpRequest} {b : FixedBuffer} {consumed w free : List UInt8} {e : Fault}
    (hb : b.Holds consumed w free) (hi : req.InLine w) (hst : req.mCheckState = CHECK_STATE_BODY) :
    processRead req b = .error e ↔ e = .lengthError ∧ Throws req w := by
  constructor
  · intro h
    have hthrows : Throws req w := by
      refine ⟨?_, ?_, fun hbreak => ?_⟩
      · by_contra hlen
        have hharmless : req.Harmless :=
          ⟨by simp [HttpRequest.pastHead, hst], fun _ => Int.not_lt.mp hlen⟩
        obtain ⟨code, req', b', hread, -⟩ := processRead_harmless hb (inLine_le hi) hharmless
        rw [hread] at h
        cases h
      · rintro rfl
        rw [processRead_unused req hb.used_eq] at h
        cases h
      · obtain ⟨req', b', hread⟩ := body_rejects hb hi hbreak
        rw [hread] at h
        cases h
    rw [body_throws hb hi hst hthrows] at h
    cases h
    exact ⟨rfl, hthrows⟩
  · rintro ⟨rfl, hthrows⟩
    exact body_throws hb hi hst hthrows

end KyrosWebServer.Http
