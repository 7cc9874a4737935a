import KyrosWebServer.RequestWindow

/-!
# Progress of the parser

A call of `processRead` gets on in two ways: the states of the head consume a
line in every turn, and a request that is complete moves its scan position over
a line that stays unread. Neither goes beyond the unread bytes, so every call
ends and no move of the read pointer fails, whatever the calls before it
returned.
-/

namespace KyrosWebServer.Http

open CMemory Base FixedBuffer

/-- The `readPtrMove` of the `switch`: its buffer and its argument. -/
def switchMove (req : HttpRequest) (buf : FixedBuffer) (readptr : List UInt8) :
    Except Fault (Option (FixedBuffer × ℕ)) :=
  match req.mCheckState with
  | CHECK_STATE_REQUEST => do
    let (ret, req, readptr) ← req.parseRequest readptr
    let buf ← buf.store buf.mReadPtr readptr
    if ret = BAD_REQUEST then return none else return some (buf, req.mCheckIndex)
  | CHECK_STATE_HEADER => do
    let (ret, req) ← req.parseHeader readptr
    if ret = BAD_REQUEST then return none else return some (buf, req.mCheckIndex)
  | CHECK_STATE_BODY => return none
  | CHECK_STATE_SUCCESS => return none

/-- The `readPtrMove` of one turn of the loop in `processRead`, if it comes to one. -/
def turnMove (req : HttpRequest) (buf : FixedBuffer) :
    Except Fault (Option (FixedBuffer × ℕ)) := do
  let readptr ← buf.readPtr
  let (mLineState, mCheckIndex, readptr) ← parseLine readptr buf.used req.mCheckIndex
  let req := req.scanned mLineState mCheckIndex
  let buf ← buf.store buf.mReadPtr readptr
  if req.mLineState = LINE_OPEN ∧ req.mCheckState ≠ CHECK_STATE_BODY then return none
  else if req.mLineState = LINE_BAD then return none
  else switchMove req buf readptr

/-- How a turn moves the read pointer of its buffer. -/
inductive Moves (buf : FixedBuffer) (turn : Turn) : Option (FixedBuffer × ℕ) → Prop
  /-- It does not. -/
  | stays : turn.buf.mReadPtr = buf.mReadPtr → Moves buf turn none
  /-- It moves over unread bytes, and that is the last it does to the buffer. -/
  | passes {b : FixedBuffer} {n : ℕ} : n ≤ b.used → b.mReadPtr = buf.mReadPtr →
      b.mWritePtr = buf.mWritePtr → turn.buf = (b.readPtrMove n).2 → Moves buf turn (some (b, n))

theorem turnMove_scan {req : HttpRequest} {b b' : FixedBuffer} {text text' : List UInt8}
    {ls : LINE_STATE} {pos : ℕ} (hread : b.readPtr = .ok text)
    (hline : parseLine text b.used req.mCheckIndex = .ok (ls, pos, text'))
    (hstore : b.store b.mReadPtr text' = .ok b') :
    turnMove req b =
      if ls = LINE_OPEN ∧ req.mCheckState ≠ CHECK_STATE_BODY then .ok none
      else if ls = LINE_BAD then .ok none
      else switchMove (req.scanned ls pos) b' text' := by
  simp only [turnMove, hread, hline, hstore, bind, Except.bind, pure, Except.pure]
  rfl

/-- The switch moves over a line that has been scanned, or not at all. -/
theorem switchMove_moves {req : HttpRequest} {buf : FixedBuffer} {readptr : List UInt8}
    {turn : Turn} (hi : req.mCheckState ≠ CHECK_STATE_BODY → req.mCheckIndex ≤ buf.used)
    (h : switchCheckState req buf readptr = .ok turn) :
    ∃ m, switchMove req buf readptr = .ok m ∧ Moves buf turn m := by
  unfold switchMove
  unfold switchCheckState at h
  cases hst : req.mCheckState with
  | CHECK_STATE_REQUEST =>
    have hle := hi (by rw [hst]; exact CHECK_STATE.noConfusion)
    simp only [hst] at h ⊢
    obtain ⟨⟨ret, req', text⟩, hparse, h⟩ := bind_eq_ok h
    obtain ⟨b, hstore, h⟩ := bind_eq_ok h
    obtain ⟨hr, hw⟩ := store_pointers hstore
    simp only [hparse, hstore, bind, Except.bind, pure, Except.pure]
    dsimp only at h
    by_cases hbad : ret = BAD_REQUEST
    · rw [if_pos hbad] at h ⊢
      cases h
      exact ⟨none, rfl, .stays hr⟩
    · rw [if_neg hbad] at h ⊢
      cases h
      have hidx := HttpRequest.parseRequest_index hparse
      have hle' : req'.mCheckIndex ≤ b.used := by
        rw [hidx, store_used hstore]
        exact hle
      exact ⟨_, rfl, .passes hle' hr hw rfl⟩
  | CHECK_STATE_HEADER =>
    have hle := hi (by rw [hst]; exact CHECK_STATE.noConfusion)
    simp only [hst] at h ⊢
    obtain ⟨⟨ret, req'⟩, hparse, h⟩ := bind_eq_ok h
    simp only [hparse, bind, Except.bind, pure, Except.pure]
    dsimp only at h
    by_cases hbad : ret = BAD_REQUEST
    · rw [if_pos hbad] at h ⊢
      cases h
      exact ⟨none, rfl, .stays rfl⟩
    · rw [if_neg hbad] at h ⊢
      have hidx := HttpRequest.parseHeader_index hparse
      have hle' : req'.mCheckIndex ≤ buf.used := by
        rw [hidx]
        exact hle
      refine ⟨_, rfl, .passes hle' rfl rfl ?_⟩
      split at h
      · cases h
        rfl
      · cases h
        rfl
  | CHECK_STATE_BODY =>
    simp only [hst] at h ⊢
    obtain ⟨p, -, h⟩ := bind_eq_ok h
    cases h
    exact ⟨none, rfl, .stays rfl⟩
  | CHECK_STATE_SUCCESS =>
    simp only [hst] at h ⊢
    cases h
    exact ⟨none, rfl, .stays rfl⟩

/-- The move that is traced is the one of the turn. -/
theorem turnMove_moves {req : HttpRequest} {buf : FixedBuffer} {turn : Turn}
    (h : processReadTurn req buf = .ok turn) :
    ∃ m, turnMove req buf = .ok m ∧ Moves buf turn m := by
  have hturn := h
  obtain ⟨readptr, hread, h⟩ := bind_eq_ok h
  obtain ⟨⟨ls, pos, text⟩, hline, h⟩ := bind_eq_ok h
  obtain ⟨b, hstore, -⟩ := bind_eq_ok h
  obtain ⟨hr, hw⟩ := store_pointers hstore
  rw [processReadTurn_scan hread hline hstore] at hturn
  rw [turnMove_scan hread hline hstore]
  by_cases hopen : ls = LINE_OPEN ∧ req.mCheckState ≠ CHECK_STATE_BODY
  · rw [if_pos hopen] at hturn ⊢
    cases hturn
    exact ⟨none, rfl, .stays hr⟩
  rw [if_neg hopen] at hturn ⊢
  by_cases hbad : ls = LINE_BAD
  · rw [if_pos hbad] at hturn ⊢
    cases hturn
    exact ⟨none, rfl, .stays hr⟩
  rw [if_neg hbad] at hturn ⊢
  have hi : req.mCheckState ≠ CHECK_STATE_BODY → pos ≤ b.used := by
    intro hbody
    rw [store_used hstore]
    rw [lineOk_of_passed hopen hbad hbody] at hline
    exact (parseLine_ok hline).2
  obtain ⟨m, hm, hmoves⟩ := switchMove_moves hi hturn
  refine ⟨m, hm, ?_⟩
  cases hmoves with
  | stays hstays => exact .stays (hstays.trans hr)
  | passes hn hr' hw' heq => exact .passes hn (hr'.trans hr) (hw'.trans hw) heq

/-- Over unread bytes the read pointer moves without an error. -/
theorem readPtrMove_succeeds {b : FixedBuffer} (hb : b.Valid) {n : ℕ} (hn : n ≤ b.used) :
    (b.readPtrMove n).1 = 0 := by
  obtain ⟨consumed, free, h⟩ := hb.holds
  have hread := hb.read_nonneg
  have hwrite := h.write_eq
  have hstart := h.read_eq
  rw [h.used_eq] at hn
  exact if_pos ⟨by omega, by omega⟩

/-- The scan position stays within the unread bytes, turn by turn. -/
theorem NextTurn.inWindow {s t : HttpRequest × FixedBuffer} {consumed w free : List UInt8}
    (h : NextTurn s t) (hb : s.2.Holds consumed w free) (hi : s.1.mCheckIndex ≤ w.length) :
    ∃ consumed' w', t.2.Holds consumed' w' free ∧ t.1.mCheckIndex ≤ w'.length := by
  have hwin := processReadTurn_window hb hi
  rw [h.2] at hwin
  generalize windowTurn s.1 w = turn at hwin
  cases hwin with
  | again hb' hi' => exact ⟨_, _, hb', hi'⟩

theorem Turns.inWindow {s t : HttpRequest × FixedBuffer} {consumed w free : List UInt8}
    (h : Turns s t) (hb : s.2.Holds consumed w free) (hi : s.1.mCheckIndex ≤ w.length) :
    ∃ consumed' w', t.2.Holds consumed' w' free ∧ t.1.mCheckIndex ≤ w'.length := by
  induction h with
  | refl => exact ⟨consumed, w, hb, hi⟩
  | tail _ hturn ih =>
    obtain ⟨consumed', w', hb', hi'⟩ := ih
    exact hturn.inWindow hb' hi'

/-- What is left to do: bytes to consume, or bytes to scan behind a request
that is complete. -/
def toRead (req : HttpRequest) (buf : FixedBuffer) : ℕ :=
  if req.mCheckState = CHECK_STATE_SUCCESS then buf.used - req.mCheckIndex else buf.used

theorem toRead_le (req : HttpRequest) (buf : FixedBuffer) : toRead req buf ≤ buf.used := by
  unfold toRead
  split
  · exact Nat.sub_le ..
  · exact Nat.le_refl _

theorem toRead_of_ne {req : HttpRequest} (h : req.mCheckState ≠ CHECK_STATE_SUCCESS)
    (buf : FixedBuffer) : toRead req buf = buf.used := if_neg h

/-- Every further turn has less to do. -/
theorem toRead_lt {req req' : HttpRequest} {buf buf' : FixedBuffer}
    (h : processReadTurn req buf = .ok (.again req' buf')) : toRead req' buf' < toRead req buf := by
  cases processReadTurn_cases h with
  | accepted hst hij hj hused | toBody hst hij hj hused | header hst hij hj hused =>
    have hne : req.mCheckState ≠ CHECK_STATE_SUCCESS := by
      rw [hst]
      exact CHECK_STATE.noConfusion
    refine Nat.lt_of_le_of_lt (toRead_le _ _) ?_
    rw [toRead_of_ne hne]
    omega
  | behind hst hij hj hused =>
    simp only [toRead, HttpRequest.scanned, hst, if_true, hused]
    omega

/-- So a call has no more turns than that. -/
theorem turns_toRead_le {turns : ℕ → HttpRequest × FixedBuffer} {n : ℕ}
    (h : ∀ k < n, NextTurn (turns k) (turns (k + 1))) :
    n + toRead (turns n).1 (turns n).2 ≤ toRead (turns 0).1 (turns 0).2 := by
  induction n with
  | zero => exact Nat.le_of_eq (Nat.zero_add _)
  | succ n ih =>
    have hbefore := ih fun k hk => h k (Nat.lt_succ_of_lt hk)
    have hlast := toRead_lt (h n (Nat.lt_succ_self n)).2
    omega

/-- A negative length is all that the switch can fail on. -/
theorem windowSwitch_error {req : HttpRequest} {w : List UInt8} {e : Fault}
    (hi : req.mCheckIndex ≤ w.length)
    (hzero : req.mCheckState ≠ CHECK_STATE_BODY → (0 : UInt8) ∈ w)
    (h : windowSwitch req w = .error e) :
    req.mCheckState = CHECK_STATE_BODY ∧ req.contentLength < 0 := by
  unfold windowSwitch at h
  cases hst : req.mCheckState with
  | CHECK_STATE_REQUEST =>
    obtain ⟨ret, req', w', hparse, -, -⟩ :=
      req.parseRequest_window (hzero (by rw [hst]; exact CHECK_STATE.noConfusion))
    simp only [hst, hparse, bind, Except.bind, pure, Except.pure] at h
    split at h <;> cases h
  | CHECK_STATE_HEADER =>
    obtain ⟨ret, req', hparse, -⟩ :=
      req.parseHeader_window (hzero (by rw [hst]; exact CHECK_STATE.noConfusion))
    simp only [hst, hparse, bind, Except.bind, pure, Except.pure] at h
    split at h
    · cases h
    · split at h <;> cases h
  | CHECK_STATE_BODY =>
    refine ⟨rfl, Int.not_le.mp fun hlen => ?_⟩
    simp only [hst, HttpRequest.parseContent, HttpRequest.assign, if_neg (Int.not_lt.mpr hlen)] at h
    split at h
    · have hle : req.contentLength.toNat ≤ w.length := by omega
      rw [if_pos hle] at h
      cases h
    · cases h
  | CHECK_STATE_SUCCESS =>
    simp only [hst] at h
    cases h

/-- It is all that a turn can fail on. -/
theorem windowTurn_error {req : HttpRequest} {w : List UInt8} {e : Fault}
    (hi : req.mCheckIndex ≤ w.length) (h : windowTurn req w = .error e) :
    req.mCheckState = CHECK_STATE_BODY ∧ req.contentLength < 0 := by
  obtain ⟨ls, pos, w', hscan, hturn | ⟨-, hturn⟩ | ⟨hzero, hturn⟩⟩ := windowTurn_cases hi
  · rw [hturn] at h
    cases h
  · rw [hturn] at h
    cases h
  · have hpos : (req.scanned ls pos).mCheckIndex ≤ w'.length := by
      rw [hscan.length_eq]
      exact hscan.pos_le
    rw [hturn] at h
    have hfail := windowSwitch_error hpos hzero h
    exact hfail

/-- A call in which no negative length is taken for a body returns. -/
theorem processRead_returns {req : HttpRequest} {b : FixedBuffer} {consumed w free : List UInt8}
    (hb : b.Holds consumed w free) (hi : req.mCheckIndex ≤ w.length)
    (hlen : ∀ s, Turns (req, b) s → s.1.mCheckState = CHECK_STATE_BODY → 0 ≤ s.1.contentLength) :
    ∃ code req' b', processRead req b = .ok (code, req', b') := by
  induction req, b using processRead.induct generalizing consumed w with
  | case1 req b hused e hturn =>
    have hwin := processReadTurn_window hb hi
    generalize hturn' : windowTurn req w = turn at hwin
    rw [hturn] at hwin
    cases hwin
    obtain ⟨hst, hneg⟩ := windowTurn_error hi hturn'
    exact absurd hneg (Int.not_lt.mpr (hlen (req, b) .refl hst))
  | case2 req b hused code req' b' hturn =>
    exact ⟨code, req', b', processRead_turn hused hturn⟩
  | case3 req b hused req' b' hturn ih =>
    have hnext : NextTurn (req, b) (req', b') := ⟨hused, hturn⟩
    obtain ⟨consumed', w', hb', hi'⟩ := hnext.inWindow hb hi
    rw [processRead_turn hused hturn]
    exact ih hb' hi' fun s hs => hlen s (.head hnext hs)
  | case4 req b hused => exact ⟨_, _, _, processRead_unused req (by omega)⟩

/-- What a parser and its buffer need for the next call to get to its end. -/
structure Progresses (req : HttpRequest) (b : FixedBuffer) : Prop where
  /-- The scan position is not behind the unread bytes. -/
  index_le : req.mCheckIndex ≤ b.used
  /-- The read pointer moves over unread bytes only, so no move fails. -/
  moves : ∀ s turn, Turns (req, b) s → processReadTurn s.1 s.2 = .ok turn →
    ∃ m, turnMove s.1 s.2 = .ok m ∧ Moves s.2 turn m ∧
      ∀ b₁ n, m = some (b₁, n) → (b₁.readPtrMove n).1 = 0
  /-- The loop has no more further turns than there are unread bytes. -/
  turns_le : ∀ turns : ℕ → HttpRequest × FixedBuffer, turns 0 = (req, b) → ∀ n,
    (∀ k < n, NextTurn (turns k) (turns (k + 1))) → n ≤ b.used
  /-- Unless a negative length is taken for a body, the call returns. -/
  returns : (∀ s, Turns (req, b) s → s.1.mCheckState = CHECK_STATE_BODY → 0 ≤ s.1.contentLength) →
    ∃ code req' b', processRead req b = .ok (code, req', b')

/-- Every state that calls lead to is one in which the next call gets on. -/
theorem reachable_progresses {req : HttpRequest} {b : FixedBuffer} (h : Reachable req b) :
    Progresses req b := by
  obtain ⟨consumed, w, free, hb, hi⟩ := h.inWindow
  refine ⟨?_, ?_, ?_, processRead_returns hb hi⟩
  · rw [hb.used_eq]
    exact hi
  · intro s turn hs hturn
    obtain ⟨m, hm, hmoves⟩ := turnMove_moves hturn
    refine ⟨m, hm, hmoves, ?_⟩
    rintro b₁ n rfl
    obtain ⟨consumed', w', hb', -⟩ := hs.inWindow hb hi
    cases hmoves with
    | passes hn hr hw _ =>
      have hvalid := hb'.valid
      have hvalid₁ : b₁.Valid :=
        ⟨hr ▸ hvalid.read_nonneg, hr ▸ hw ▸ hvalid.read_le_write, hw ▸ hvalid.write_le_end⟩
      exact readPtrMove_succeeds hvalid₁ hn
  · intro turns hstart n hnext
    have hturns := turns_toRead_le hnext
    have hle := toRead_le (turns 0).1 (turns 0).2
    rw [hstart] at hturns hle
    exact Nat.le_trans (Nat.le_of_add_right_le hturns) hle

/-- A request has been answered, and the bytes of a second one wait. -/
theorem reachable_progresses_sample : ∃ req b, req.mCheckState = CHECK_STATE_SUCCESS ∧
    b.unread = minimalGet ∧ Progresses req b := by
  have hrun : (do
      let sent ← blank.append minimalGet
      let out ← processRead HttpRequest.fresh sent.2
      let again ← out.2.2.append minimalGet
      return (out.2.1.mCheckState, again.2.unread)) =
      Except.ok (ε := Fault) (CHECK_STATE_SUCCESS, minimalGet) := by
    decide +kernel
  obtain ⟨⟨n, b₁⟩, happend, hrun⟩ := bind_eq_ok hrun
  obtain ⟨⟨code, req, b₂⟩, hread, hrun⟩ := bind_eq_ok hrun
  obtain ⟨⟨m, b⟩, hagain, hrun⟩ := bind_eq_ok hrun
  simp only [pure, Except.pure, Except.ok.injEq, Prod.mk.injEq] at hrun
  have hreach : Reachable req b := .append (.read (.append (.new length_zeros) happend) hread) hagain
  exact ⟨req, b, hrun.1, hrun.2, reachable_progresses hreach⟩

end KyrosWebServer.Http
