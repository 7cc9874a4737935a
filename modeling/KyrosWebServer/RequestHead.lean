import KyrosWebServer.RequestLine
import Mathlib.Logic.Relation

/-!
# The head of a request

The head stated on the unread bytes alone, line by line and without pointers.
`processRead` computes it on every buffer that holds these bytes, and bytes
that arrive later continue it where it waits.
-/

namespace KyrosWebServer.Http

open CMemory CString Base

/-- Whether the machine has left the head of the request. -/
def HttpRequest.pastHead (req : HttpRequest) : Bool :=
  req.mCheckState == CHECK_STATE_BODY || req.mCheckState == CHECK_STATE_SUCCESS

theorem HttpRequest.pastHead_body {req : HttpRequest} (h : ¬ req.pastHead = true) :
    req.mCheckState ≠ CHECK_STATE_BODY := by
  intro hst
  simp [pastHead, hst] at h

/-- A complete line in the state of the machine: the request line, or a header. -/
def HttpRequest.headLine (req : HttpRequest) (line : List UInt8) :
    Except Fault (HTTP_CODE × HttpRequest × List UInt8) :=
  if req.mCheckState = CHECK_STATE_REQUEST then req.parseRequest (line ++ [0])
  else (req.parseHeader (line ++ [0])).map fun p => (p.1, p.2, line ++ [0])

/-- Where the head of a request ends among the bytes received. -/
inductive Head
  /-- More bytes are needed; these are still unread. -/
  | wait (req : HttpRequest) (w : List UInt8)
  /-- A result other than `NO_REQUEST`. -/
  | stop (code : HTTP_CODE) (req : HttpRequest) (w : List UInt8)
  /-- The head is complete; these bytes follow it. -/
  | past (req : HttpRequest) (w : List UInt8)
  deriving DecidableEq

theorem nextLine_rest_lt {w line rest : List UInt8} (h : nextLine w = .complete line rest) :
    rest.length < w.length := by
  rw [nextLine_complete h]
  simp
  omega

/-- The head of a request, line by line. -/
def runHead (req : HttpRequest) (w : List UInt8) : Except Fault Head :=
  if req.pastHead then .ok (.past req w)
  else if w = [] then .ok (.wait req w)
  else
    match _h : nextLine w with
    | .unfinished pos => .ok (.wait (req.scanned LINE_OPEN pos) w)
    | .broken pos => .ok (.stop BAD_REQUEST (req.scanned LINE_BAD pos) w)
    | .complete line rest =>
      match (req.scanned LINE_OK (line.length + 2)).headLine line with
      | .error e => .error e
      | .ok (code, req', text) =>
        if code = BAD_REQUEST then .ok (.stop BAD_REQUEST req' (text ++ 0 :: rest))
        else if code = GET_REQUEST then .ok (.stop GET_REQUEST { req' with mCheckIndex := 0 } rest)
        else runHead { req' with mCheckIndex := 0 } rest
termination_by w.length
decreasing_by exact nextLine_rest_lt _h

/-- One turn of the loop leads to another evaluation of its condition. -/
def NextTurn (s t : HttpRequest × FixedBuffer) : Prop :=
  s.2.used > 0 ∧ processReadTurn s.1 s.2 = .ok (.again t.1 t.2)

/-- States in which one call of `processRead` evaluates the loop condition. -/
def Turns : HttpRequest × FixedBuffer → HttpRequest × FixedBuffer → Prop :=
  Relation.ReflTransGen NextTurn

/-- The rest of a call is a call from any state it passes through. -/
theorem Turns.processRead_eq {s t : HttpRequest × FixedBuffer} (h : Turns s t) :
    processRead s.1 s.2 = processRead t.1 t.2 := by
  induction h with
  | refl => rfl
  | tail _ hturn ih =>
    obtain ⟨hused, hagain⟩ := hturn
    rw [ih, processRead_turn hused hagain]

/-- The scan position is not behind the first line of the unread bytes. -/
def HttpRequest.InLine (req : HttpRequest) (w : List UInt8) : Prop :=
  req.mCheckIndex ≤ (w.takeWhile plain).length

/-- `processRead` on a buffer ends as the head of the request prescribes: the
same request object, the same unread bytes, the same free bytes. -/
inductive HeadOutcome (req : HttpRequest) (b : FixedBuffer) (free : List UInt8) :
    Except Fault Head → Prop
  | error {e : Fault} : processRead req b = .error e → HeadOutcome req b free (.error e)
  | wait {req' : HttpRequest} {b' : FixedBuffer} {consumed w : List UInt8} :
      processRead req b = .ok (NO_REQUEST, req', b') → b'.Holds consumed w free →
      req'.InLine w → HeadOutcome req b free (.ok (.wait req' w))
  | stop {code : HTTP_CODE} {req' : HttpRequest} {b' : FixedBuffer} {consumed w : List UInt8} :
      processRead req b = .ok (code, req', b') → b'.Holds consumed w free →
      HeadOutcome req b free (.ok (.stop code req' w))
  | past {req' : HttpRequest} {b' : FixedBuffer} {consumed w : List UInt8} :
      Turns (req, b) (req', b') → b'.Holds consumed w free → req'.InLine w →
      HeadOutcome req b free (.ok (.past req' w))

/-- A turn in front does not change the outcome. -/
theorem HeadOutcome.of_turn {req req₁ : HttpRequest} {b b₁ : FixedBuffer} {free : List UInt8}
    {out : Except Fault Head} (hturn : NextTurn (req, b) (req₁, b₁))
    (h : HeadOutcome req₁ b₁ free out) : HeadOutcome req b free out := by
  have hread : processRead req b = processRead req₁ b₁ := processRead_turn hturn.1 hturn.2
  cases h with
  | error h => exact .error (hread.trans h)
  | wait h hb hi => exact .wait (hread.trans h) hb hi
  | stop h hb => exact .stop (hread.trans h) hb
  | past h hb hi => exact .past (.head hturn h) hb hi

/-- A line in the state of the machine leaves the scan position alone. -/
theorem HttpRequest.headLine_index {req req' : HttpRequest} {line text : List UInt8}
    {code : HTTP_CODE} (h : req.headLine line = .ok (code, req', text)) :
    req'.mCheckIndex = req.mCheckIndex ∧ text.length = line.length + 1 := by
  unfold headLine at h
  split at h
  · constructor
    · rcases parseRequest_cases h with ⟨-, m, u, rfl⟩ | ⟨-, m, u, v, rfl⟩ <;> rfl
    · rw [parseRequest_length h, List.length_append]
      rfl
  · cases hparse : req.parseHeader (line ++ [0]) with
    | error e => rw [hparse] at h; cases h
    | ok p =>
      rw [hparse] at h
      cases h
      constructor
      · rcases parseHeader_cases hparse with
          ⟨-, -, h⟩ | ⟨-, -, h⟩ | ⟨-, alive, len, host, h⟩ <;> rw [h]
      · simp

/-- A turn after its scan and the store of what the scan wrote. -/
theorem processReadTurn_scan {req : HttpRequest} {b b' : FixedBuffer} {text text' : List UInt8}
    {ls : LINE_STATE} {pos : ℕ} (hptr : b.readPtr = .ok text)
    (hline : parseLine text b.used req.mCheckIndex = .ok (ls, pos, text'))
    (hstore : b.store b.mReadPtr text' = .ok b') :
    processReadTurn req b =
      if ls = LINE_OPEN ∧ req.mCheckState ≠ CHECK_STATE_BODY then
        .ok (.ret NO_REQUEST (req.scanned ls pos) b')
      else if ls = LINE_BAD then .ok (.ret BAD_REQUEST (req.scanned ls pos) b')
      else switchCheckState (req.scanned ls pos) b' text' := by
  simp only [processReadTurn, hptr, hline, hstore, bind, Except.bind, pure, Except.pure]
  rfl

/-- What the switch makes of a complete line in the head of a request: one
call of `headLine`, one store of the text it leaves, and on acceptance the
read pointer moves behind the line. -/
def SwitchesAs (rest free consumed : List UInt8) (turn : Except Fault Turn) :
    Except Fault (HTTP_CODE × HttpRequest × List UInt8) → Prop
  | .error e => turn = .error e
  | .ok (code, req', text) =>
    if code = BAD_REQUEST then
      ∃ b', turn = .ok (.ret BAD_REQUEST req' b') ∧ b'.Holds consumed (text ++ 0 :: rest) free
    else
      ∃ b', b'.Holds (consumed ++ (text ++ [0])) rest free ∧
        turn = .ok (if code = GET_REQUEST then .ret GET_REQUEST { req' with mCheckIndex := 0 } b'
          else .again { req' with mCheckIndex := 0 } b')

theorem switchCheckState_head {req : HttpRequest} {b : FixedBuffer}
    {consumed line rest free : List UInt8} (hb : b.Holds consumed (line ++ 0 :: 0 :: rest) free)
    (hidx : req.mCheckIndex = line.length + 2) (hpast : req.pastHead = false) :
    SwitchesAs rest free consumed
      (switchCheckState req b (line ++ 0 :: 0 :: (rest ++ free))) (req.headLine line) := by
  have hmove : ∀ {b' : FixedBuffer} {text : List UInt8}, text.length = line.length + 1 →
      b'.Holds consumed (text ++ 0 :: rest) free →
      (b'.readPtrMove ((line.length + 2 : ℕ) : ℤ)).2.Holds (consumed ++ (text ++ [0])) rest free := by
    intro b' text hlen hb'
    have hlen' : (text ++ [0]).length = line.length + 2 := by simp [hlen]
    rw [← hlen']
    exact (FixedBuffer.Holds.readPtrMove_eq (x := text ++ [0]) (by simpa using hb')).2
  cases hst : req.mCheckState with
  | CHECK_STATE_REQUEST =>
    have hparse := req.parseRequest_append line (0 :: (rest ++ free))
    simp only [switchCheckState, hst, HttpRequest.headLine, if_true, hparse]
    cases hr : req.parseRequest (line ++ [0]) with
    | error e => rfl
    | ok p =>
      obtain ⟨code, req', text⟩ := p
      have hline : req.headLine line = .ok (code, req', text) := by
        rw [HttpRequest.headLine, if_pos hst, hr]
      obtain ⟨hidx', hlen⟩ := HttpRequest.headLine_index hline
      obtain ⟨b', hstore, hb'⟩ := hb.store_window (text ++ 0 :: rest)
        (by simp [hlen]; omega)
      have hshape : text ++ 0 :: rest ++ free = text ++ 0 :: (rest ++ free) := by simp
      rw [hshape] at hstore
      simp only [Except.map, hstore, bind, Except.bind, pure, Except.pure, SwitchesAs]
      by_cases hbad : code = BAD_REQUEST
      · rw [if_pos hbad, if_pos hbad]
        exact ⟨b', rfl, hb'⟩
      · have hget : code ≠ GET_REQUEST := by
          rcases HttpRequest.parseRequest_cases hr with ⟨rfl, -⟩ | ⟨rfl, -⟩ <;>
            exact HTTP_CODE.noConfusion
        rw [if_neg hbad, if_neg hbad, hidx', hidx]
        refine ⟨_, hmove hlen hb', ?_⟩
        rw [if_neg hget]
  | CHECK_STATE_HEADER =>
    have hparse := req.parseHeader_append line (0 :: (rest ++ free))
    have hne : req.mCheckState ≠ CHECK_STATE_REQUEST := by rw [hst]; exact CHECK_STATE.noConfusion
    simp only [switchCheckState, hst, HttpRequest.headLine, reduceCtorEq, if_false, hparse]
    cases hr : req.parseHeader (line ++ [0]) with
    | error e => rfl
    | ok p =>
      obtain ⟨code, req'⟩ := p
      have hline : req.headLine line = .ok (code, req', line ++ [0]) := by
        rw [HttpRequest.headLine, if_neg hne, hr]
        rfl
      obtain ⟨hidx', hlen⟩ := HttpRequest.headLine_index hline
      have hb' : b.Holds consumed ((line ++ [0]) ++ 0 :: rest) free := by simpa using hb
      simp only [Except.map, bind, Except.bind, pure, Except.pure, SwitchesAs]
      by_cases hbad : code = BAD_REQUEST
      · rw [if_pos hbad, if_pos hbad, hbad]
        exact ⟨b, rfl, hb'⟩
      · rw [if_neg hbad, if_neg hbad, hidx', hidx]
        refine ⟨_, hmove hlen hb', ?_⟩
        split <;> rfl
  | CHECK_STATE_BODY => simp [HttpRequest.pastHead, hst] at hpast
  | CHECK_STATE_SUCCESS => simp [HttpRequest.pastHead, hst] at hpast

/-- A turn on a complete line in the head of a request. -/
theorem processReadTurn_head {req : HttpRequest} {b : FixedBuffer}
    {consumed w free line rest : List UInt8} (h : b.Holds consumed w free) (hi : req.InLine w)
    (hpast : req.pastHead = false) (hnext : nextLine w = .complete line rest) :
    SwitchesAs rest free consumed (processReadTurn req b)
      ((req.scanned LINE_OK (line.length + 2)).headLine line) := by
  have hline := parseLine_nextLine free hi
  rw [hnext, ← h.used_eq] at hline
  obtain ⟨b', hstore, hb'⟩ := h.store_window (line ++ 0 :: 0 :: rest)
    (by simp [nextLine_complete hnext])
  have hshape : line ++ 0 :: 0 :: rest ++ free = line ++ 0 :: 0 :: (rest ++ free) := by simp
  rw [hshape] at hstore
  have hturn := processReadTurn_scan h.readPtr_eq hline hstore
  rw [if_neg (fun h => LINE_STATE.noConfusion h.1), if_neg LINE_STATE.noConfusion] at hturn
  rw [hturn]
  exact switchCheckState_head hb' rfl hpast

/-- A turn on a line that has not ended waits for the rest of it. -/
theorem processReadTurn_unfinished {req : HttpRequest} {b : FixedBuffer}
    {consumed w free : List UInt8} {pos : ℕ} (h : b.Holds consumed w free) (hi : req.InLine w)
    (hpast : ¬ req.pastHead = true) (hnext : nextLine w = .unfinished pos) :
    ∃ b', processReadTurn req b = .ok (.ret NO_REQUEST (req.scanned LINE_OPEN pos) b') ∧
      b'.Holds consumed w free := by
  obtain ⟨b', hstore, hb'⟩ := h.store_window w rfl
  have hline := parseLine_nextLine free hi
  rw [hnext, ← h.used_eq] at hline
  have hturn := processReadTurn_scan h.readPtr_eq hline hstore
  rw [if_pos ⟨rfl, HttpRequest.pastHead_body hpast⟩] at hturn
  exact ⟨b', hturn, hb'⟩

/-- A turn on a line with a stray CR or LF ends the call. -/
theorem processReadTurn_broken {req : HttpRequest} {b : FixedBuffer}
    {consumed w free : List UInt8} {pos : ℕ} (h : b.Holds consumed w free) (hi : req.InLine w)
    (hnext : nextLine w = .broken pos) :
    ∃ b', processReadTurn req b = .ok (.ret BAD_REQUEST (req.scanned LINE_BAD pos) b') ∧
      b'.Holds consumed w free := by
  obtain ⟨b', hstore, hb'⟩ := h.store_window w rfl
  have hline := parseLine_nextLine free hi
  rw [hnext, ← h.used_eq] at hline
  have hturn := processReadTurn_scan h.readPtr_eq hline hstore
  rw [if_neg (fun h => LINE_STATE.noConfusion h.1), if_pos rfl] at hturn
  exact ⟨b', hturn, hb'⟩

/-- `processRead` computes the head of a request. -/
theorem processRead_runHead {req : HttpRequest} {b : FixedBuffer} {consumed w free : List UInt8}
    (h : b.Holds consumed w free) (hi : req.InLine w) :
    HeadOutcome req b free (runHead req w) := by
  fun_induction runHead req w generalizing b consumed with
  | case1 req w hpast => exact .past .refl h hi
  | case2 req hpast => exact .wait (processRead_unused req (by simpa using h.used_eq)) h hi
  | case3 req w hpast hw pos hnext =>
    obtain ⟨b', hturn, hb'⟩ := processReadTurn_unfinished h hi hpast hnext
    have hread := processRead_turn (h.used_pos hw) hturn
    exact .wait hread hb' (Nat.le_of_eq (nextLine_unfinished hnext))
  | case4 req w hpast hw pos hnext =>
    obtain ⟨b', hturn, hb'⟩ := processReadTurn_broken h hi hnext
    exact .stop (processRead_turn (h.used_pos hw) hturn) hb'
  | case5 req w hpast hw line rest hnext e herr =>
    have hturn := processReadTurn_head h hi (by simpa using hpast) hnext
    rw [herr] at hturn
    exact .error (processRead_turn (h.used_pos hw) hturn)
  | case6 req w hpast hw line rest hnext req' text hline =>
    have hturn := processReadTurn_head h hi (by simpa using hpast) hnext
    rw [hline] at hturn
    obtain ⟨b', hturn, hb'⟩ := hturn
    exact .stop (processRead_turn (h.used_pos hw) hturn) hb'
  | case7 req w hpast hw line rest hnext req' text hline hbad =>
    have hturn := processReadTurn_head h hi (by simpa using hpast) hnext
    rw [hline] at hturn
    obtain ⟨b', hb', hturn⟩ := hturn
    exact .stop (processRead_turn (h.used_pos hw) hturn) hb'
  | case8 req w hpast hw line rest hnext code req' text hline hbad hget ih =>
    have hturn := processReadTurn_head h hi (by simpa using hpast) hnext
    rw [hline] at hturn
    simp only [SwitchesAs, if_neg hbad, if_neg hget] at hturn
    obtain ⟨b', hb', hturn⟩ := hturn
    exact .of_turn ⟨h.used_pos hw, hturn⟩ (ih hb' (Nat.zero_le _))

theorem runHead_past {req : HttpRequest} (hpast : req.pastHead = true) (w : List UInt8) :
    runHead req w = .ok (.past req w) := by
  rw [runHead, if_pos hpast]

/-- Only in the head are more bytes waited for. -/
theorem runHead_waits {req req' : HttpRequest} {w w' : List UInt8}
    (h : runHead req w = .ok (.wait req' w')) : ¬ req.pastHead = true := by
  intro hpast
  rw [runHead_past hpast] at h
  cases h

theorem runHead_unfinished {req : HttpRequest} {w : List UInt8} {pos : ℕ}
    (hpast : ¬ req.pastHead = true) (hw : w ≠ []) (hnext : nextLine w = .unfinished pos) :
    runHead req w = .ok (.wait (req.scanned LINE_OPEN pos) w) := by
  rw [runHead, if_neg hpast, if_neg hw]
  split <;> rename_i h <;> rw [hnext] at h <;> cases h
  rfl

theorem runHead_broken {req : HttpRequest} {w : List UInt8} {pos : ℕ}
    (hpast : ¬ req.pastHead = true) (hnext : nextLine w = .broken pos) :
    runHead req w = .ok (.stop BAD_REQUEST (req.scanned LINE_BAD pos) w) := by
  have hw : w ≠ [] := by
    rintro rfl
    cases hnext
  rw [runHead, if_neg hpast, if_neg hw]
  split <;> rename_i h <;> rw [hnext] at h <;> cases h
  rfl

theorem runHead_complete {req : HttpRequest} {w line rest : List UInt8}
    (hpast : ¬ req.pastHead = true) (hnext : nextLine w = .complete line rest) :
    runHead req w = match (req.scanned LINE_OK (line.length + 2)).headLine line with
      | .error e => .error e
      | .ok (code, req', text) =>
        if code = BAD_REQUEST then .ok (.stop BAD_REQUEST req' (text ++ 0 :: rest))
        else if code = GET_REQUEST then .ok (.stop GET_REQUEST { req' with mCheckIndex := 0 } rest)
        else runHead { req' with mCheckIndex := 0 } rest := by
  have hw : w ≠ [] := by
    rintro rfl
    cases hnext
  rw [runHead, if_neg hpast, if_neg hw]
  split <;> rename_i h <;> rw [hnext] at h <;> cases h
  rfl

/-- The head does not depend on how far an earlier scan came. -/
theorem runHead_scanned {req : HttpRequest} {w : List UInt8} (hpast : ¬ req.pastHead = true)
    (hw : w ≠ []) (ls : LINE_STATE) (pos : ℕ) : runHead (req.scanned ls pos) w = runHead req w := by
  have hpast' : ¬ (req.scanned ls pos).pastHead = true := hpast
  cases hnext : nextLine w with
  | unfinished n =>
    rw [runHead_unfinished hpast' hw hnext, runHead_unfinished hpast hw hnext]
    rfl
  | broken n =>
    rw [runHead_broken hpast' hnext, runHead_broken hpast hnext]
    rfl
  | complete line rest =>
    rw [runHead_complete hpast' hnext, runHead_complete hpast hnext]
    rfl

/-- Bytes that arrive later continue the head where it waits, and are left
untouched where it does not. -/
theorem runHead_append (req : HttpRequest) (w more : List UInt8) :
    runHead req (w ++ more) = match runHead req w with
      | .error e => .error e
      | .ok (.wait req' w') => runHead req' (w' ++ more)
      | .ok (.stop code req' w') => .ok (.stop code req' (w' ++ more))
      | .ok (.past req' w') => .ok (.past req' (w' ++ more)) := by
  fun_induction runHead req w with
  | case1 req w hpast => exact runHead_past hpast _
  | case2 req hpast => rfl
  | case3 req w hpast hw pos hnext =>
    exact (runHead_scanned hpast (by simp [hw]) LINE_OPEN pos).symm
  | case4 req w hpast hw pos hnext =>
    exact runHead_broken hpast ((nextLine_append more).1 pos hnext)
  | case5 req w hpast hw line rest hnext e herr =>
    rw [runHead_complete hpast ((nextLine_append more).2 line rest hnext), herr]
  | case6 req w hpast hw line rest hnext req' text hline =>
    rw [runHead_complete hpast ((nextLine_append more).2 line rest hnext), hline]
    simp
  | case7 req w hpast hw line rest hnext req' text hline hbad =>
    rw [runHead_complete hpast ((nextLine_append more).2 line rest hnext), hline]
    simp
  | case8 req w hpast hw line rest hnext code req' text hline hbad hget ih =>
    rw [runHead_complete hpast ((nextLine_append more).2 line rest hnext), hline]
    simp only [if_neg hbad, if_neg hget]
    exact ih

theorem runHead_nil {req : HttpRequest} (hpast : ¬ req.pastHead = true) :
    runHead req [] = .ok (.wait req []) := by
  rw [runHead, if_neg hpast, if_pos rfl]

theorem runHead_fresh :
    runHead HttpRequest.fresh [] = .ok (.wait HttpRequest.fresh []) := runHead_nil (by decide)

/-- A head that waits has nothing more to do on the bytes it waits with. -/
theorem runHead_wait {req req' : HttpRequest} {w w' : List UInt8}
    (h : runHead req w = .ok (.wait req' w')) : runHead req' w' = .ok (.wait req' w') := by
  have happ := runHead_append req w []
  rw [List.append_nil, h] at happ
  simpa using happ.symm

end KyrosWebServer.Http
