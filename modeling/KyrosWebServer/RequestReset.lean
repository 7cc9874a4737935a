import KyrosWebServer.HttpRequest
import KyrosWebServer.Refinement

/-!
# What `Init` restores

`Init` resets the scan position but neither the check state nor the parsed
fields. A request object that went on to a second request therefore behaves
as a new one exactly when its first request line never left the initial
state of the machine.
-/

namespace KyrosWebServer.Http

open CMemory Base Refinement

/-- Append each chunk and call `processRead` after it: the results up to the
first fault, and the request object at the end. -/
def feedAll (req : HttpRequest) (buf : FixedBuffer) :
    List (List UInt8) → List HTTP_CODE × Except Fault HttpRequest
  | [] => ([], .ok req)
  | chunk :: chunks =>
    match (do let (_, buf) ← buf.append chunk; processRead req buf) with
    | .error e => ([], .error e)
    | .ok (code, req, buf) =>
      let rest := feedAll req buf chunks
      (code :: rest.1, rest.2)

/-- The check state and the parsed fields other than the method. -/
def HttpRequest.observe (req : HttpRequest) :
    CHECK_STATE × Bool × ℤ × List UInt8 × List UInt8 × List UInt8 × List UInt8 :=
  (req.mCheckState, req.isAlive, req.contentLength, req.host, req.url, req.version, req.body)

/-- Fed the same chunks into the same buffer, two request objects give the
same results and the same fields. -/
def SameBehaviour (req req' : HttpRequest) : Prop :=
  ∀ (buf : FixedBuffer) (chunks : List (List UInt8)), buf.Valid →
    (feedAll req buf chunks).1 = (feedAll req' buf chunks).1 ∧
    (feedAll req buf chunks).2.map HttpRequest.observe =
      (feedAll req' buf chunks).2.map HttpRequest.observe

/-- Request objects that a sequence of `processRead` calls can lead to. -/
inductive ReadState : HttpRequest → Prop
  | fresh : ReadState HttpRequest.fresh
  | read {req req' : HttpRequest} {buf buf' : FixedBuffer} {code : HTTP_CODE} :
      ReadState req → processRead req buf = .ok (code, req', buf') → ReadState req'

/-- Requests that differ at most in the method. -/
def SameButMethod (req req' : HttpRequest) : Prop := ∃ m, req' = { req with method := m }

theorem SameButMethod.observe_eq {req req' : HttpRequest} (h : SameButMethod req req') :
    req.observe = req'.observe := by
  obtain ⟨m, rfl⟩ := h
  rfl

/-- The request line parser reads no method and sets it the same way. -/
theorem parseRequest_agree {req req' : HttpRequest} (h : SameButMethod req req')
    (text : List UInt8) :
    Agree (fun r r' => r.1 = r'.1 ∧ SameButMethod r.2.1 r'.2.1 ∧ r.2.2 = r'.2.2)
      (req.parseRequest text) (req'.parseRequest text) := by
  obtain ⟨m, rfl⟩ := h
  refine .bind_same _ fun line => ?_
  split
  · exact .ok ⟨rfl, ⟨m, rfl⟩, rfl⟩
  refine .bind_same _ fun _method => ?_
  dsimp only
  split
  · exact .ok ⟨rfl, ⟨m, rfl⟩, rfl⟩
  rename_i k _
  refine .bind_same _ fun s₁ => .bind_same _ fun s₂ => ?_
  split
  · exact .ok ⟨rfl, ⟨some k, rfl⟩, rfl⟩
  refine .bind_same _ fun s₃ => .bind_same _ fun versionText => ?_
  split
  · exact .ok ⟨rfl, ⟨some k, rfl⟩, rfl⟩
  refine .bind_same _ fun urlText => .bind_same _ fun req₁ => .bind_same _ fun c => ?_
  split
  · exact .ok ⟨rfl, ⟨req₁.method, rfl⟩, rfl⟩
  · exact .ok ⟨rfl, ⟨req₁.method, rfl⟩, rfl⟩

theorem parseHeader_agree {req req' : HttpRequest} (h : SameButMethod req req')
    (text : List UInt8) :
    Agree (fun r r' => r.1 = r'.1 ∧ SameButMethod r.2 r'.2)
      (req.parseHeader text) (req'.parseHeader text) := by
  obtain ⟨m, rfl⟩ := h
  refine .bind_same _ fun line => ?_
  split
  · dsimp only
    split <;> exact .ok ⟨rfl, m, rfl⟩
  · split
    · exact .ok ⟨rfl, m, rfl⟩
    · split
      · exact .ok ⟨rfl, m, rfl⟩
      · split <;> exact .ok ⟨rfl, m, rfl⟩

/-- Turns that agree in everything but the method. -/
inductive Turn.SameButMethod : Turn → Turn → Prop
  | ret {code : HTTP_CODE} {req req' : HttpRequest} {buf : FixedBuffer} :
      Http.SameButMethod req req' → SameButMethod (.ret code req buf) (.ret code req' buf)
  | again {req req' : HttpRequest} {buf : FixedBuffer} :
      Http.SameButMethod req req' → SameButMethod (.again req buf) (.again req' buf)

theorem switchCheckState_agree {req req' : HttpRequest} (h : SameButMethod req req')
    (buf : FixedBuffer) (text : List UInt8) :
    Agree Turn.SameButMethod (switchCheckState req buf text) (switchCheckState req' buf text) := by
  have hst' : req'.mCheckState = req.mCheckState := by
    obtain ⟨m, rfl⟩ := h
    rfl
  simp only [switchCheckState, hst']
  cases hst : req.mCheckState with
  | CHECK_STATE_REQUEST =>
    refine .bind (parseRequest_agree h text) ?_
    rintro ⟨ret, req₁, text₁⟩ ⟨ret', req₁', text₁'⟩ ⟨hret, ⟨m₁, hreq⟩, htext⟩
    dsimp only at hret hreq htext
    subst hret hreq htext
    refine .bind_same _ fun b₁ => ?_
    dsimp only
    split
    · exact .ok (.ret ⟨m₁, rfl⟩)
    · exact .ok (.again ⟨m₁, rfl⟩)
  | CHECK_STATE_HEADER =>
    refine .bind (parseHeader_agree h text) ?_
    rintro ⟨ret, req₁⟩ ⟨ret', req₁'⟩ ⟨hret, m₁, hreq⟩
    dsimp only at hret hreq
    subst hret hreq
    dsimp only
    split
    · exact .ok (.ret ⟨m₁, rfl⟩)
    · split
      · exact .ok (.ret ⟨m₁, rfl⟩)
      · exact .ok (.again ⟨m₁, rfl⟩)
  | CHECK_STATE_BODY =>
    obtain ⟨m, rfl⟩ := h
    dsimp only [HttpRequest.parseContent]
    split
    · cases HttpRequest.assign text req.contentLength with
      | error e => exact .error e
      | ok body => exact .ok (.ret ⟨m, rfl⟩)
    · exact .ok (.ret ⟨m, rfl⟩)
  | CHECK_STATE_SUCCESS => exact .ok (.again h)

theorem processReadTurn_agree {req req' : HttpRequest} (h : SameButMethod req req')
    (buf : FixedBuffer) :
    Agree Turn.SameButMethod (processReadTurn req buf) (processReadTurn req' buf) := by
  have hidx : req'.mCheckIndex = req.mCheckIndex := by
    obtain ⟨m, rfl⟩ := h
    rfl
  simp only [processReadTurn, hidx]
  refine .bind_same _ fun readptr => .bind_same _ fun line => ?_
  obtain ⟨ls, j, text⟩ := line
  refine .bind_same _ fun b => ?_
  have hscan : SameButMethod (req.scanned ls j) (req'.scanned ls j) := by
    obtain ⟨m, rfl⟩ := h
    exact ⟨m, rfl⟩
  have hst : (req'.scanned ls j).mCheckState = (req.scanned ls j).mCheckState := by
    obtain ⟨m, rfl⟩ := h
    rfl
  have hls : (req'.scanned ls j).mLineState = (req.scanned ls j).mLineState := rfl
  simp only [hst, hls]
  split
  · exact .ok (.ret hscan)
  · split
    · exact .ok (.ret hscan)
    · exact switchCheckState_agree hscan b text

/-- The method of a request object never changes what `processRead` does. -/
theorem processRead_agree {req req' : HttpRequest} (h : SameButMethod req req')
    (buf : FixedBuffer) :
    Agree (fun r r' => r.1 = r'.1 ∧ SameButMethod r.2.1 r'.2.1 ∧ r.2.2 = r'.2.2)
      (processRead req buf) (processRead req' buf) := by
  induction req, buf using processRead.induct generalizing req' with
  | case1 req buf hused e hturn =>
    have hagree := processReadTurn_agree h buf
    rw [hturn] at hagree
    cases hturn' : processReadTurn req' buf with
    | ok turn => rw [hturn'] at hagree; cases hagree
    | error e' =>
      rw [hturn'] at hagree
      cases hagree
      rw [processRead_turn hused hturn, processRead_turn hused hturn']
      exact .error e
  | case2 req buf hused code req₁ buf₁ hturn =>
    have hagree := processReadTurn_agree h buf
    rw [hturn] at hagree
    cases hturn' : processReadTurn req' buf with
    | error e' => rw [hturn'] at hagree; cases hagree
    | ok turn =>
      rw [hturn'] at hagree
      cases hagree with
      | ok hsame =>
        cases hsame with
        | ret hreq =>
          rw [processRead_turn hused hturn, processRead_turn hused hturn']
          exact .ok ⟨rfl, hreq, rfl⟩
  | case3 req buf hused req₁ buf₁ hturn ih =>
    have hagree := processReadTurn_agree h buf
    rw [hturn] at hagree
    cases hturn' : processReadTurn req' buf with
    | error e' => rw [hturn'] at hagree; cases hagree
    | ok turn =>
      rw [hturn'] at hagree
      cases hagree with
      | ok hsame =>
        cases hsame with
        | again hreq =>
          rw [processRead_turn hused hturn, processRead_turn hused hturn']
          exact ih hreq
  | case4 req buf hused =>
    rw [processRead_unused _ (by omega), processRead_unused _ (by omega)]
    exact .ok ⟨rfl, h, rfl⟩

/-- Feeding two requests that differ at most in the method shows no difference. -/
theorem feedAll_agree {req req' : HttpRequest} (h : SameButMethod req req')
    (buf : FixedBuffer) (chunks : List (List UInt8)) :
    (feedAll req buf chunks).1 = (feedAll req' buf chunks).1 ∧
    (feedAll req buf chunks).2.map HttpRequest.observe =
      (feedAll req' buf chunks).2.map HttpRequest.observe := by
  induction chunks generalizing req req' buf with
  | nil => exact ⟨rfl, congrArg Except.ok h.observe_eq⟩
  | cons chunk chunks ih =>
    have hagree := Agree.bind_same (buf.append chunk) fun r => processRead_agree h r.2
    simp only [feedAll]
    generalize (buf.append chunk >>= fun r => processRead req r.2) = x at hagree ⊢
    generalize (buf.append chunk >>= fun r => processRead req' r.2) = y at hagree ⊢
    cases hagree with
    | error e => exact ⟨rfl, rfl⟩
    | @ok r r' hr =>
      obtain ⟨code, req₁, buf₁⟩ := r
      obtain ⟨code', req₁', buf₁'⟩ := r'
      obtain ⟨hcode, hreq, hbuf⟩ := hr
      dsimp only at hcode hbuf hreq ⊢
      subst hcode hbuf
      obtain ⟨hcodes, hobs⟩ := ih hreq buf₁
      exact ⟨by rw [hcodes], hobs⟩

/-- A turn that ends in the initial check state began in it and changed at
most the scan, the method and the target. -/
theorem processReadTurn_initial {req : HttpRequest} {buf : FixedBuffer} {turn : Turn}
    (h : processReadTurn req buf = .ok turn)
    (hst : turn.req.mCheckState = CHECK_STATE_REQUEST) :
    ∃ ls j m u, turn.req =
      { req with mLineState := ls, mCheckIndex := j, method := m, url := u } := by
  cases processReadTurn_cases h with
  | @scan ls j code b _ => exact ⟨ls, j, req.method, req.url, rfl⟩
  | @rejected ls j m u b _ => exact ⟨ls, j, m, u, rfl⟩
  | accepted _ _ _ _ | toBody _ _ _ _ | headEnds _ | bodyEnds _ => cases hst
  | header hst' _ _ _ | behind hst' _ _ _ =>
    have hst₁ : req.mCheckState = CHECK_STATE_REQUEST := hst
    rw [hst₁] at hst'
    cases hst'

/-- The same for a whole call. -/
theorem processRead_initial {req req' : HttpRequest} {buf buf' : FixedBuffer} {code : HTTP_CODE}
    (h : processRead req buf = .ok (code, req', buf'))
    (hst : req'.mCheckState = CHECK_STATE_REQUEST) :
    ∃ ls j m u, req' =
      { req with mLineState := ls, mCheckIndex := j, method := m, url := u } := by
  let Kept (req₁ : HttpRequest) : Prop := req₁.mCheckState = CHECK_STATE_REQUEST →
    ∃ ls j m u, req₁ = { req with mLineState := ls, mCheckIndex := j, method := m, url := u }
  have hkept : ∀ {req₁ : HttpRequest} {b : FixedBuffer} {turn : Turn}, Kept req₁ →
      processReadTurn req₁ b = .ok turn → Kept turn.req := by
    intro req₁ b turn hreq₁ hturn hst
    obtain ⟨ls, j, m, u, heq⟩ := processReadTurn_initial hturn hst
    have hst₁ : req₁.mCheckState = CHECK_STATE_REQUEST := by
      rw [heq] at hst
      exact hst
    obtain ⟨ls₁, j₁, m₁, u₁, rfl⟩ := hreq₁ hst₁
    exact ⟨ls, j, m, u, heq⟩
  refine processRead_rule (P := fun req₁ _ => Kept req₁) (Q := fun _ req₁ _ => Kept req₁) ?_ ?_ ?_
    (fun _ => ⟨req.mLineState, req.mCheckIndex, req.method, req.url, rfl⟩) h hst
  · intro req₁ b req₂ b₂ hreq₁ _ hturn
    exact hkept hreq₁ hturn
  · intro req₁ b code req₂ b₂ hreq₁ _ hturn
    exact hkept hreq₁ hturn
  · intro req₁ b hreq₁ _
    exact hreq₁

/-- Until a request line is accepted, no field but the method and the target
has left its initial value. -/
theorem ReadState.initial {req : HttpRequest} (h : ReadState req)
    (hst : req.mCheckState = CHECK_STATE_REQUEST) :
    ∃ ls j m u, req =
      { HttpRequest.fresh with mLineState := ls, mCheckIndex := j, method := m, url := u } := by
  induction h with
  | fresh => exact ⟨LINE_OPEN, 0, none, [], rfl⟩
  | read _ hread ih =>
    obtain ⟨ls, j, m, u, hreq'⟩ := processRead_initial hread hst
    have hst₀ := hst
    rw [hreq'] at hst₀
    obtain ⟨ls₀, j₀, m₀, u₀, hreq⟩ := ih hst₀
    exact ⟨ls, j, m, u, by rw [hreq', hreq]⟩

/-- After `Init`, a request object behaves as a new one exactly when it is
still in the initial check state with an empty target. -/
theorem init_restores_iff {req : HttpRequest} (h : ReadState req) :
    SameBehaviour req.Init HttpRequest.fresh ↔
      req.mCheckState = CHECK_STATE_REQUEST ∧ req.url = [] := by
  constructor
  · intro hsame
    have hobs := (hsame FixedBuffer.blank [] (FixedBuffer.create_holds _ _).valid).2
    have hfields := Except.ok.inj hobs
    simp only [HttpRequest.observe, Prod.mk.injEq] at hfields
    exact ⟨hfields.1, hfields.2.2.2.2.1⟩
  · rintro ⟨hst, hurl⟩ buf chunks -
    obtain ⟨ls, j, m, u, rfl⟩ := h.initial hst
    have hu : u = [] := hurl
    subst hu
    obtain ⟨hcodes, hobs⟩ := feedAll_agree (show SameButMethod HttpRequest.fresh _ from ⟨m, rfl⟩) buf chunks
    exact ⟨hcodes.symm, hobs.symm⟩

/-- A request object that has answered a request. -/
theorem readState_afterGet : ReadState afterGet := by
  have hfirst : (do
      let sent ← FixedBuffer.blank.append minimalGet
      let out ← processRead HttpRequest.fresh sent.2
      return (out.1, out.2.1)) = .ok (GET_REQUEST, afterGet) := by decide +kernel
  obtain ⟨⟨n, buf⟩, -, hfirst⟩ := bind_eq_ok hfirst
  obtain ⟨⟨code, req, buf'⟩, hread, hfirst⟩ := bind_eq_ok hfirst
  cases hfirst
  exact .read .fresh hread

/-- It is not restored, since it has left the initial check state. -/
theorem init_restores_iff_sample :
    (SameBehaviour afterGet.Init HttpRequest.fresh ↔
      afterGet.mCheckState = CHECK_STATE_REQUEST ∧ afterGet.url = []) ∧
    afterGet.mCheckState = CHECK_STATE_SUCCESS :=
  ⟨init_restores_iff readState_afterGet, rfl⟩

/-- A second bodyless request on the same connection is never recognised. -/
theorem init_loses_second_request :
    ¬ ∀ req, ReadState req → SameBehaviour req.Init HttpRequest.fresh := by
  intro hall
  have hcodes := (hall afterGet readState_afterGet FixedBuffer.blank [minimalGet]
    (FixedBuffer.create_holds _ _).valid).1
  have hsecond : (feedAll afterGet.Init FixedBuffer.blank [minimalGet]).1 = [NO_REQUEST] := by
    decide +kernel
  have hfresh : (feedAll HttpRequest.fresh FixedBuffer.blank [minimalGet]).1 = [GET_REQUEST] := by
    decide +kernel
  rw [hsecond, hfresh] at hcodes
  cases hcodes

end KyrosWebServer.Http
