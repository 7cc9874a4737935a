import KyrosWebServer.RequestDelivery
import KyrosWebServer.RequestHeaders

/-!
# Where the head ends

The head of a request ends with the first empty line behind the request line.
The parser looks for a line that is empty as a C string, so a line that begins
with NUL ends the head for it as well; on all other streams, however they are
cut into chunks, it consumes exactly the bytes up to the first empty line.
-/

namespace KyrosWebServer.Http

open CMemory CString Base FixedBuffer

/-- Some turn of a call takes the check state from the headers to what is
behind the head, and leaves this many bytes in the buffer. -/
def LeavesHeader (req : HttpRequest) (buf : FixedBuffer) (left : ℕ) : Prop :=
  ∃ req₁ buf₁ turn, Turns (req, buf) (req₁, buf₁) ∧ buf₁.used > 0 ∧
    req₁.mCheckState = CHECK_STATE_HEADER ∧ processReadTurn req₁ buf₁ = .ok turn ∧
    turn.req.pastHead = true ∧ turn.buf.used = left

/-- While the chunks are fed, the check state leaves the headers with `n` bytes
consumed; `m` bytes were accepted before. -/
inductive EndsHead : HttpRequest → FixedBuffer → ℕ → List (List UInt8) → ℕ → Prop
  | here {req : HttpRequest} {b b₁ : FixedBuffer} {m k left n : ℕ} {chunk : List UInt8}
      {chunks : List (List UInt8)} : b.append chunk = .ok (k, b₁) → LeavesHeader req b₁ left →
      n + left = m + k → EndsHead req b m (chunk :: chunks) n
  | later {req : HttpRequest} {b : FixedBuffer} {m n : ℕ} {chunk : List UInt8}
      {chunks : List (List UInt8)} {r : Received} : receive req b chunk = .ok r →
      r.code = NO_REQUEST → EndsHead r.req r.buf (m + r.appended) chunks n →
      EndsHead req b m (chunk :: chunks) n

/-- The appends that are made until the head has ended all fit. -/
def FitsHead (req : HttpRequest) (buf : FixedBuffer) : List (List UInt8) → Prop
  | [] => True
  | chunk :: chunks => chunk.length ≤ buf.avail ∧
      ∀ r, receive req buf chunk = .ok r → r.code = NO_REQUEST → ¬ r.req.pastHead = true →
        FitsHead r.req r.buf chunks

/-- A line end and an empty line. -/
def emptyLine : List UInt8 := [CR, LF, CR, LF]

/-- The shortest prefix of `s` that ends in CR LF CR LF. -/
def ShortestHead (s p : List UInt8) : Prop :=
  p <+: s ∧ emptyLine <:+ p ∧ ∀ q, q <+: s → emptyLine <:+ q → p.length ≤ q.length

/-- Behind a request line, and in front of the first empty line, a line begins
with NUL. -/
def NulLine (s : List UInt8) : Prop :=
  ∃ line lines last rest, s = line ++ CR :: LF :: (headerBytes lines ++ (0 :: last ++ CR :: LF :: rest)) ∧
    ((∀ c ∈ line, plain c = true) ∧ ∃ m u v, IsRequestLine (content line) m u v) ∧
    (∀ l ∈ lines, (∀ c ∈ l, plain c = true) ∧ l ≠ []) ∧ ∀ c ∈ last, plain c = true

/-- The head of these unread bytes ends in front of `rest`. -/
def HeadEndsAt (req : HttpRequest) (w rest : List UInt8) : Prop :=
  (∃ req', runHead req w = .ok (.stop GET_REQUEST req' rest)) ∨
    ∃ req', runHead req w = .ok (.past req' rest)

/-- No turn leads back into the head. -/
theorem processReadTurn_past {req : HttpRequest} {b : FixedBuffer} {turn : Turn}
    (hpast : req.pastHead = true) (h : processReadTurn req b = .ok turn) :
    turn.req.pastHead = true := by
  cases processReadTurn_cases h with
  | scan _ => exact hpast
  | headEnds _ | bodyEnds _ => rfl
  | behind _ _ _ _ => exact hpast
  | rejected hst | accepted hst _ _ _ | header hst _ _ _ | toBody hst _ _ _ =>
    simp [HttpRequest.pastHead, hst] at hpast

/-- No turn of the call leads back into the head. -/
theorem Turns.past {s t : HttpRequest × FixedBuffer} (h : Turns s t) (hpast : s.1.pastHead = true) :
    t.1.pastHead = true := by
  induction h with
  | refl => exact hpast
  | tail _ hturn ih => exact processReadTurn_past ih hturn.2

theorem processRead_past {req req' : HttpRequest} {b b' : FixedBuffer} {code : HTTP_CODE}
    (hpast : req.pastHead = true) (h : processRead req b = .ok (code, req', b')) :
    req'.pastHead = true := by
  refine processRead_rule (P := fun req _ => req.pastHead = true) (Q := fun _ req _ => req.pastHead = true)
    ?_ ?_ ?_ hpast h
  · intro req b req' b' hpast _ hturn
    exact processReadTurn_past hpast hturn
  · intro req b code req' b' hpast _ hturn
    exact processReadTurn_past hpast hturn
  · intro req b hpast _
    exact hpast

/-- Behind the head there is no end of the head any more. -/
theorem not_leavesHeader {req : HttpRequest} (hpast : req.pastHead = true) (b : FixedBuffer)
    (left : ℕ) : ¬ LeavesHeader req b left := by
  rintro ⟨req₁, b₁, turn, hturns, -, hst, -⟩
  have hpast₁ : req₁.pastHead = true := hturns.past hpast
  simp [HttpRequest.pastHead, hst] at hpast₁

theorem not_endsHead {req : HttpRequest} (hpast : req.pastHead = true) {b : FixedBuffer} {m n : ℕ}
    {chunks : List (List UInt8)} : ¬ EndsHead req b m chunks n := by
  intro h
  induction h with
  | here _ hleaves _ => exact not_leavesHeader hpast _ _ hleaves
  | later hreceive _ _ ih =>
    obtain ⟨⟨k, b₁⟩, -, hreceive⟩ := bind_eq_ok hreceive
    obtain ⟨⟨code, req', b'⟩, hread, hreceive⟩ := bind_eq_ok hreceive
    cases hreceive
    exact ih (processRead_past hpast hread)

/-- Along the turns of a call the head that is still to be read stays the same. -/
theorem Turns.runHead_eq {s t : HttpRequest × FixedBuffer} {consumed w free : List UInt8}
    (h : Turns s t) (hb : s.2.Holds consumed w free) (hi : s.1.InLine w)
    (hpast : ¬ t.1.pastHead = true) :
    ∃ consumed₁ w₁, t.2.Holds consumed₁ w₁ free ∧ t.1.InLine w₁ ∧
      runHead t.1 w₁ = runHead s.1 w := by
  induction h with
  | refl => exact ⟨consumed, w, hb, hi, rfl⟩
  | @tail u v _ hturn ih =>
    have hpast' : ¬ u.1.pastHead = true := fun hp => hpast (processReadTurn_past hp hturn.2)
    obtain ⟨consumed₁, w₁, hu, hi₁, hrun⟩ := ih hpast'
    obtain ⟨consumed₂, w₂, hv, hi₂, hrun'⟩ := hturn.runHead_eq hu hi₁ hpast'
    exact ⟨consumed₂, w₂, hv, hi₂, hrun'.trans hrun⟩

/-- A turn in the head that leads behind it is the one the head ends with. -/
theorem processReadTurn_leaves {req : HttpRequest} {b : FixedBuffer} {turn : Turn}
    {consumed w free : List UInt8} (hb : b.Holds consumed w free) (hi : req.InLine w)
    (hpast : ¬ req.pastHead = true) (hturn : processReadTurn req b = .ok turn)
    (hleft : turn.req.pastHead = true) :
    ∃ rest, HeadEndsAt req w rest ∧ turn.buf.used = rest.length := by
  cases hnext : nextLine w with
  | unfinished pos =>
    obtain ⟨b', hscan, -⟩ := processReadTurn_unfinished hb hi hpast hnext
    rw [hturn] at hscan
    cases hscan
    exact absurd hleft hpast
  | broken pos =>
    obtain ⟨b', hscan, -⟩ := processReadTurn_broken hb hi hnext
    rw [hturn] at hscan
    cases hscan
    exact absurd hleft hpast
  | complete line rest =>
    have hswitch := processReadTurn_head hb hi (by simpa using hpast) hnext
    have hrun := runHead_complete hpast hnext
    cases hline : (req.scanned LINE_OK (line.length + 2)).headLine line with
    | error e =>
      rw [hline, hturn] at hswitch
      cases hswitch
    | ok p =>
      obtain ⟨code, req', text⟩ := p
      rw [hline, hturn] at hswitch
      rw [hline] at hrun
      by_cases hbad : code = BAD_REQUEST
      · simp only [SwitchesAs, if_pos hbad] at hswitch
        obtain ⟨b', hswitch, -⟩ := hswitch
        cases hswitch
        rcases HttpRequest.headLine_cases (req.scanned LINE_OK (line.length + 2)) hpast hline
          with ⟨-, hhead⟩ | ⟨hcode, -⟩ | ⟨hcode, -⟩
        · exact absurd hleft hhead
        · rw [hbad] at hcode
          cases hcode
        · rw [hbad] at hcode
          cases hcode
      · simp only [SwitchesAs, if_neg hbad] at hswitch
        simp only [if_neg hbad] at hrun
        obtain ⟨b', hb', hswitch⟩ := hswitch
        by_cases hget : code = GET_REQUEST
        · rw [if_pos hget] at hswitch hrun
          cases hswitch
          exact ⟨rest, .inl ⟨_, hrun⟩, hb'.used_eq⟩
        · rw [if_neg hget] at hswitch hrun
          cases hswitch
          exact ⟨rest, .inr ⟨_, hrun.trans (runHead_past hleft rest)⟩, hb'.used_eq⟩

/-- Only a header line leads out of the head. -/
theorem HttpRequest.headLine_leaves {req req' : HttpRequest} {line text : List UInt8}
    {code : HTTP_CODE} (hpast : ¬ req.pastHead = true)
    (h : req.headLine line = .ok (code, req', text))
    (hleft : code = GET_REQUEST ∨ req'.pastHead = true) :
    req.mCheckState = CHECK_STATE_HEADER := by
  cases hst : req.mCheckState with
  | CHECK_STATE_REQUEST =>
    rw [headLine, if_pos hst] at h
    rcases parseRequest_cases h with ⟨rfl, m, u, rfl⟩ | ⟨rfl, m, u, v, rfl⟩
    · rcases hleft with hcode | hp
      · cases hcode
      · exact absurd hp hpast
    · rcases hleft with hcode | hp
      · cases hcode
      · simp [pastHead] at hp
  | CHECK_STATE_HEADER => rfl
  | CHECK_STATE_BODY => simp [pastHead, hst] at hpast
  | CHECK_STATE_SUCCESS => simp [pastHead, hst] at hpast

/-- The head is left where it ends among the unread bytes. -/
theorem leavesHeader_of_ends {req : HttpRequest} {b : FixedBuffer} {consumed w rest free : List UInt8}
    (hb : b.Holds consumed w free) (hi : req.InLine w) (hpast : ¬ req.pastHead = true)
    (hends : HeadEndsAt req w rest) : LeavesHeader req b rest.length := by
  unfold HeadEndsAt at hends
  fun_induction runHead req w generalizing b consumed with
  | case1 req w hp => exact absurd hp hpast
  | case2 | case3 | case4 | case5 | case6 => rcases hends with ⟨req₁, hends⟩ | ⟨req₁, hends⟩ <;> cases hends
  | case7 req w _ hw line rest' hnext req' text hline hbad =>
    rcases hends with ⟨req₁, hends⟩ | ⟨req₁, hends⟩
    · cases hends
      have hturn := processReadTurn_head hb hi (by simpa using hpast) hnext
      have hst : (req.scanned LINE_OK (line.length + 2)).mCheckState = CHECK_STATE_HEADER :=
        HttpRequest.headLine_leaves hpast hline (.inl rfl)
      have hp : ({ req' with mCheckIndex := 0 } : HttpRequest).pastHead = true := by
        rcases HttpRequest.headLine_cases (req.scanned LINE_OK (line.length + 2)) hpast hline
          with ⟨hcode, -⟩ | ⟨-, -, hsuccess⟩ | ⟨hcode, -⟩
        · cases hcode
        · simp [HttpRequest.pastHead, hsuccess]
        · cases hcode
      rw [hline] at hturn
      obtain ⟨b', hb', hturn⟩ := hturn
      exact ⟨req, b, _, .refl, hb.used_pos hw, hst, hturn, hp, hb'.used_eq⟩
    · cases hends
  | case8 req w _ hw line rest' hnext code req' text hline hbad hget ih =>
    have hturn := processReadTurn_head hb hi (by simpa using hpast) hnext
    rw [hline] at hturn
    simp only [SwitchesAs, if_neg hbad, if_neg hget] at hturn
    obtain ⟨b', hb', hturn⟩ := hturn
    by_cases hp : ({ req' with mCheckIndex := 0 } : HttpRequest).pastHead = true
    · have hst : (req.scanned LINE_OK (line.length + 2)).mCheckState = CHECK_STATE_HEADER :=
        HttpRequest.headLine_leaves hpast hline (.inr hp)
      rw [runHead_past hp] at hends
      rcases hends with ⟨req₁, hends⟩ | ⟨req₁, hends⟩
      · cases hends
      · cases hends
        exact ⟨req, b, _, .refl, hb.used_pos hw, hst, hturn, hp, hb'.used_eq⟩
    · obtain ⟨req₁, b₁, turn, hturns, hrest⟩ := ih hb' (Nat.zero_le _) hp hends
      exact ⟨req₁, b₁, turn, .head ⟨hb.used_pos hw, hturn⟩ hturns, hrest⟩

theorem HeadEndsAt.append {req : HttpRequest} {w rest : List UInt8} (h : HeadEndsAt req w rest)
    (more : List UInt8) : HeadEndsAt req (w ++ more) (rest ++ more) := by
  rcases h with ⟨req', h⟩ | ⟨req', h⟩
  · exact .inl ⟨req', by rw [runHead_append, h]⟩
  · exact .inr ⟨req', by rw [runHead_append, h]⟩

theorem HeadEndsAt.unique {req : HttpRequest} {w rest rest' : List UInt8}
    (h : HeadEndsAt req w rest) (h' : HeadEndsAt req w rest') : rest = rest' := by
  rcases h with ⟨req₁, h⟩ | ⟨req₁, h⟩ <;> rcases h' with ⟨req₂, h'⟩ | ⟨req₂, h'⟩ <;>
    rw [h] at h' <;> cases h' <;> rfl

/-- The check state leaves the headers with the bytes unread that follow the head. -/
theorem leavesHeader_iff {req : HttpRequest} {b : FixedBuffer} {consumed w free : List UInt8}
    {left : ℕ} (hb : b.Holds consumed w free) (hi : req.InLine w) (hpast : ¬ req.pastHead = true) :
    LeavesHeader req b left ↔ ∃ rest, HeadEndsAt req w rest ∧ left = rest.length := by
  constructor
  · rintro ⟨req₁, b₁, turn, hturns, -, hst, hturn, hleft, rfl⟩
    have hpast₁ : ¬ req₁.pastHead = true := by simp [HttpRequest.pastHead, hst]
    obtain ⟨consumed₁, w₁, hb₁, hi₁, hrun⟩ := hturns.runHead_eq hb hi hpast₁
    obtain ⟨rest, hends, hused⟩ := processReadTurn_leaves hb₁ hi₁ hpast₁ hturn hleft
    dsimp only at hrun
    rw [HeadEndsAt, hrun] at hends
    exact ⟨rest, hends, hused⟩
  · rintro ⟨rest, hends, rfl⟩
    exact leavesHeader_of_ends hb hi hpast hends

section Chunk

variable {req : HttpRequest} {b b₁ : FixedBuffer} {consumed w free rest chunk : List UInt8}
  {chunks : List (List UInt8)} {m n k : ℕ}

/-- A head that waits for more ends where the rest of it ends. -/
theorem headEndsAt_wait {req' : HttpRequest} {w' : List UInt8}
    (hr : runHead req w = .ok (.wait req' w')) (more : List UInt8) :
    HeadEndsAt req (w ++ more) rest ↔ HeadEndsAt req' (w' ++ more) rest := by
  unfold HeadEndsAt
  rw [runHead_append, hr]

/-- A call that receives the end of the head leaves the parser behind it, or
does not wait. -/
theorem HeadEndsAt.receive_past {r : Received} (hends : HeadEndsAt req (w ++ chunk) rest)
    (happend : b.append chunk = .ok (k, b₁)) (hb₁ : b₁.Holds consumed (w ++ chunk) free)
    (hi : req.InLine w) (hpast : ¬ req.pastHead = true) (hreceive : receive req b chunk = .ok r)
    (hcode : r.code = NO_REQUEST) : r.req.pastHead = true := by
  have hout := processRead_runHead hb₁ (hi.append chunk)
  rcases hends with ⟨req', hrun⟩ | ⟨req', hrun⟩
  · rw [hrun] at hout
    cases hout with
    | stop hread _ =>
      rw [receive_eq happend hread] at hreceive
      cases hreceive
      cases hcode
  · rw [hrun] at hout
    cases hout with
    | past hturns _ _ =>
      obtain ⟨⟨k', b₂⟩, happend', hreceive⟩ := bind_eq_ok hreceive
      obtain ⟨⟨code, req₂, b₃⟩, hread, hreceive⟩ := bind_eq_ok hreceive
      cases hreceive
      rw [happend] at happend'
      cases happend'
      have hpast' : req'.pastHead = true := by
        have hbody := runHead_past_body hpast hrun
        simp [HttpRequest.pastHead, hbody.1]
      exact processRead_past hpast' (hturns.processRead_eq.symm.trans hread)

/-- A chunk that brings the end of the head is the one the head ends in. -/
theorem endsHead_here (hends : HeadEndsAt req (w ++ chunk) rest)
    (happend : b.append chunk = .ok (k, b₁)) (hb₁ : b₁.Holds consumed (w ++ chunk) free)
    (hi : req.InLine w) (hpast : ¬ req.pastHead = true) :
    EndsHead req b m (chunk :: chunks) n ↔ n + rest.length = m + k := by
  have hleaves : ∀ left, LeavesHeader req b₁ left ↔
      ∃ rest, HeadEndsAt req (w ++ chunk) rest ∧ left = rest.length :=
    fun left => leavesHeader_iff hb₁ (hi.append chunk) hpast
  constructor
  · intro h
    cases h with
    | here happend' hleft hn =>
      rw [happend] at happend'
      cases happend'
      obtain ⟨rest', hends', rfl⟩ := (hleaves _).mp hleft
      rw [hends'.unique hends] at hn
      exact hn
    | later hreceive hcode hrest =>
      exact absurd hrest (not_endsHead (hends.receive_past happend hb₁ hi hpast hreceive hcode))
  · intro hn
    exact .here happend ((hleaves _).mpr ⟨rest, hends, rfl⟩) hn

/-- A chunk that does not bring the end of the head leads to the next call. -/
theorem endsHead_later (hends : ¬ ∃ rest, HeadEndsAt req (w ++ chunk) rest)
    (happend : b.append chunk = .ok (k, b₁)) (hb₁ : b₁.Holds consumed (w ++ chunk) free)
    (hi : req.InLine w) (hpast : ¬ req.pastHead = true) :
    EndsHead req b m (chunk :: chunks) n ↔ ∃ r, receive req b chunk = .ok r ∧
      r.code = NO_REQUEST ∧ EndsHead r.req r.buf (m + r.appended) chunks n := by
  constructor
  · intro h
    cases h with
    | here happend' hleft _ =>
      rw [happend] at happend'
      cases happend'
      obtain ⟨rest, hrest, -⟩ := (leavesHeader_iff hb₁ (hi.append chunk) hpast).mp hleft
      exact absurd ⟨rest, hrest⟩ hends
    | later hreceive hcode hrest => exact ⟨_, hreceive, hcode, hrest⟩
  · rintro ⟨r, hreceive, hcode, hrest⟩
    exact .later hreceive hcode hrest

end Chunk

/-- However a stream is cut, the head ends where it ends in the whole stream. -/
theorem endsHead_iff {chunks : List (List UInt8)} {req : HttpRequest} {b : FixedBuffer}
    {consumed w free : List UInt8} {m n : ℕ} (hb : b.Holds consumed w free) (hi : req.InLine w)
    (hwait : runHead req w = .ok (.wait req w)) (hfits : FitsHead req b chunks) :
    EndsHead req b m chunks n ↔
      ∃ rest, HeadEndsAt req (w ++ chunks.flatten) rest ∧ n + rest.length = m + chunks.flatten.length := by
  have hpast := runHead_waits hwait
  induction chunks generalizing req b consumed w free m with
  | nil =>
    constructor
    · intro h
      cases h
    · rintro ⟨rest, hends, -⟩
      rw [HeadEndsAt, List.flatten_nil, List.append_nil, hwait] at hends
      rcases hends with ⟨req', h⟩ | ⟨req', h⟩ <;> cases h
  | cons chunk chunks ih =>
    obtain ⟨hroom, hnext⟩ := hfits
    rw [hb.avail_eq] at hroom
    obtain ⟨b₁, consumed₁, free₁, happend, hb₁⟩ := hb.append_room hroom
    rw [List.flatten_cons, ← List.append_assoc, List.length_append]
    by_cases hends : ∃ rest, HeadEndsAt req (w ++ chunk) rest
    · obtain ⟨rest, hends⟩ := hends
      have hwhole := hends.append chunks.flatten
      rw [endsHead_here hends happend hb₁ hi hpast]
      constructor
      · intro hn
        refine ⟨rest ++ chunks.flatten, hwhole, ?_⟩
        rw [List.length_append]
        omega
      · rintro ⟨rest', hends', hn⟩
        rw [← hwhole.unique hends', List.length_append] at hn
        omega
    · rw [endsHead_later hends happend hb₁ hi hpast]
      have hout := processRead_runHead hb₁ (hi.append chunk)
      cases hr : runHead req (w ++ chunk) with
      | error e =>
        rw [hr] at hout
        cases hout with
        | error hread =>
          constructor
          · rintro ⟨r, hreceive, -⟩
            simp only [receive, happend, hread, bind, Except.bind] at hreceive
            cases hreceive
          · rintro ⟨rest, ⟨req', hrun⟩ | ⟨req', hrun⟩, -⟩ <;> rw [runHead_append, hr] at hrun <;> cases hrun
      | ok head =>
        rw [hr] at hout
        cases hout with
        | @wait req' b' consumed' w' hread hb' hi' =>
          have hreceive := receive_eq happend hread
          have hpast' := runHead_waits (runHead_wait hr)
          have hrest := ih (m := m + chunk.length) hb' hi' (runHead_wait hr)
            (hnext _ hreceive rfl hpast') hpast'
          simp only [headEndsAt_wait hr, ← Nat.add_assoc]
          refine Iff.trans ?_ hrest
          constructor
          · rintro ⟨r, hreceive', -, h⟩
            rw [hreceive] at hreceive'
            cases hreceive'
            exact h
          · intro h
            exact ⟨_, hreceive, rfl, h⟩
        | @stop code req' b' consumed' w' hread hb' =>
          rcases runHead_stop hr with ⟨rfl, -⟩ | ⟨rfl, -⟩
          · constructor
            · rintro ⟨r, hreceive, hcode, -⟩
              rw [receive_eq happend hread] at hreceive
              cases hreceive
              cases hcode
            · rintro ⟨rest, ⟨req₁, hrun⟩ | ⟨req₁, hrun⟩, -⟩ <;> rw [runHead_append, hr] at hrun <;>
                cases hrun
          · exact absurd ⟨w', .inl ⟨req', hr⟩⟩ hends
        | @past req' b' consumed' w' _ _ _ => exact absurd ⟨w', .inr ⟨req', hr⟩⟩ hends

/-- A head that ends has a complete first line. -/
theorem HeadEndsAt.line {req : HttpRequest} {w rest : List UInt8} (h : HeadEndsAt req w rest)
    (hpast : ¬ req.pastHead = true) :
    ∃ line w', (∀ c ∈ line, plain c = true) ∧ w = line ++ CR :: LF :: w' := by
  by_cases hw : w = []
  · rw [HeadEndsAt, hw, runHead_nil hpast] at h
    rcases h with ⟨req', h⟩ | ⟨req', h⟩ <;> cases h
  cases hnext : nextLine w with
  | unfinished pos =>
    rw [HeadEndsAt, runHead_unfinished hpast hw hnext] at h
    rcases h with ⟨req', h⟩ | ⟨req', h⟩ <;> cases h
  | broken pos =>
    rw [HeadEndsAt, runHead_broken hpast hnext] at h
    rcases h with ⟨req', h⟩ | ⟨req', h⟩ <;> cases h
  | complete line w' => exact ⟨line, w', nextLine_complete_plain hnext, nextLine_complete hnext⟩

/-- Of a head the parser sees the lines up to the first one that is empty as a
C string. -/
theorem headEndsAt_headers {req : HttpRequest} (hreq : req.InHeaders) {w rest : List UInt8} :
    HeadEndsAt req w rest ↔ ∃ lines last,
      w = headerBytes lines ++ (last ++ CR :: LF :: rest) ∧
      ((∀ l ∈ lines, ∀ c ∈ l, plain c = true) ∧ ∀ l ∈ lines, content l ≠ []) ∧
      (∀ c ∈ last, plain c = true) ∧ content last = [] := by
  constructor
  · intro h
    induction hn : w.length using Nat.strong_induction_on generalizing req w with
    | _ n ih =>
      obtain ⟨line, w', hplain, rfl⟩ := h.line hreq.head
      have hrun := runHead_header hreq hplain w'
      by_cases hempty : content line = []
      · rw [if_pos hempty] at hrun
        rw [HeadEndsAt, hrun] at h
        have hrest : w' = rest := by
          rcases h with ⟨req', h⟩ | ⟨req', h⟩ <;> split at h <;> cases h <;> rfl
        exact ⟨[], line, by rw [hrest]; rfl, ⟨by simp, by simp⟩, hplain, hempty⟩
      · rw [if_neg hempty] at hrun
        rw [HeadEndsAt, hrun] at h
        obtain ⟨lines, last, rfl, ⟨hlines, hne⟩, hlast⟩ :=
          ih w'.length (by rw [← hn]; simp; omega) (hreq.withHeaders [content line]) h rfl
        exact ⟨line :: lines, last, by simp [headerBytes],
          ⟨List.forall_mem_cons.mpr ⟨hplain, hlines⟩, List.forall_mem_cons.mpr ⟨hempty, hne⟩⟩, hlast⟩
  · rintro ⟨lines, last, rfl, ⟨hplain, hne⟩, hlast, hempty⟩
    have hend := runHead_header (hreq.withHeaders (lines.map content)) hlast rest
    rw [if_pos hempty] at hend
    rw [HeadEndsAt, runHead_headers hplain hne hreq, hend]
    by_cases h : (req.withHeaders (lines.map content)).contentLength = 0
    · exact .inl ⟨_, by rw [if_pos h]⟩
    · exact .inr ⟨_, by rw [if_neg h]⟩

/-- A stream whose head ends has a request line in front of its headers. -/
theorem headEndsAt_fresh {s rest : List UInt8} :
    HeadEndsAt HttpRequest.fresh s rest ↔ ∃ line w m u v, s = line ++ CR :: LF :: w ∧
      (∀ c ∈ line, plain c = true) ∧ IsRequestLine (content line) m u v ∧
      HeadEndsAt (HttpRequest.requested m u v) w rest := by
  constructor
  · intro h
    obtain ⟨line, w, hplain, rfl⟩ := h.line (by decide)
    by_cases hgrammar : ∃ m u v, IsRequestLine (content line) m u v
    · obtain ⟨m, u, v, hgrammar⟩ := hgrammar
      rw [HeadEndsAt, runHead_accepts hplain hgrammar] at h
      exact ⟨line, w, m, u, v, rfl, hplain, hgrammar, h⟩
    · obtain ⟨m, u, w', hrun, -⟩ := runHead_rejects hplain hgrammar w
      rw [HeadEndsAt, hrun] at h
      rcases h with ⟨req', h⟩ | ⟨req', h⟩ <;> cases h
  · rintro ⟨line, w, m, u, v, rfl, hplain, hgrammar, h⟩
    rw [HeadEndsAt, runHead_accepts hplain hgrammar]
    exact h

/-- In front of a CR that follows bytes without CR stand all of these. -/
theorem append_cr {a t line u : List UInt8} (h : a ++ CR :: t = line ++ u)
    (hline : ∀ c ∈ line, plain c = true) : ∃ c, a = line ++ c ∧ c ++ CR :: t = u := by
  rcases List.append_eq_append_iff.mp h with ⟨c, rfl, hu⟩ | ⟨c, rfl, hu⟩
  · cases c with
    | nil => exact ⟨[], by simp, by simpa using hu⟩
    | cons x c =>
      rw [List.cons_append] at hu
      obtain ⟨rfl, -⟩ := List.cons.inj hu
      have hcr := hline CR (by simp)
      simp [plain] at hcr
  · exact ⟨c, rfl, hu.symm⟩

/-- Behind the end of a line and header lines, CR LF CR LF occurs no earlier
than at the empty line. -/
theorem emptyLine_after {lines : List (List UInt8)}
    (hlines : ∀ l ∈ lines, (∀ c ∈ l, plain c = true) ∧ l ≠ []) {q rest : List UInt8}
    (hq : q <+: CR :: LF :: (headerBytes lines ++ CR :: LF :: rest)) (hend : emptyLine <:+ q) :
    (headerBytes lines).length + 4 ≤ q.length := by
  obtain ⟨a, rfl⟩ := hend
  obtain ⟨t, ht⟩ := hq
  induction lines generalizing a with
  | nil =>
    simp [headerBytes, emptyLine]
  | cons l lines ih =>
    obtain ⟨hplain, hne⟩ := hlines l List.mem_cons_self
    rw [headerBytes_cons] at ht
    obtain ⟨x, l', rfl⟩ := List.exists_cons_of_ne_nil hne
    cases a with
    | nil =>
      -- the third byte is the first one of a line
      simp only [emptyLine, List.nil_append, List.cons_append, List.cons.injEq, true_and] at ht
      have hcr := hplain x List.mem_cons_self
      rw [← ht.1] at hcr
      simp [plain] at hcr
    | cons y a =>
      cases a with
      | nil =>
        simp only [emptyLine, List.cons_append, List.nil_append, List.cons.injEq] at ht
        cases ht.2.1
      | cons z a =>
        simp only [List.cons_append, List.append_assoc, List.cons.injEq] at ht
        obtain ⟨-, -, ht⟩ := ht
        obtain ⟨c, rfl, hc⟩ := append_cr ht hplain
        have hle := ih (fun l hl => hlines l (List.mem_cons_of_mem _ hl)) c
          (by simpa [emptyLine] using hc)
        have hlen : (headerBytes ((x :: l') :: lines)).length =
            (x :: l').length + 2 + (headerBytes lines).length := by
          simp [headerBytes]
          omega
        rw [hlen]
        simp only [List.length_append, List.length_cons] at hle ⊢
        omega

theorem ne_nil_of_content {l : List UInt8} (h : content l ≠ []) : l ≠ [] := by
  rintro rfl
  exact h rfl

/-- A line that is empty as a C string is empty or begins with NUL. -/
theorem content_eq_nil {l : List UInt8} (h : content l = []) : l = [] ∨ ∃ l', l = 0 :: l' := by
  cases l with
  | nil => exact .inl rfl
  | cons c l' =>
    by_cases hc : c = 0
    · exact .inr ⟨l', by rw [hc]⟩
    · rw [content, List.takeWhile_cons_of_pos (by simpa using hc)] at h
      cases h

section Shape

variable {line last rest : List UInt8} {lines : List (List UInt8)}

/-- Line ends follow one another in front of the last line of a head. -/
theorem crlf_suffix (line : List UInt8) (lines : List (List UInt8)) :
    [CR, LF] <:+ line ++ CR :: LF :: headerBytes lines := by
  rcases List.eq_nil_or_concat lines with rfl | ⟨lines, l, rfl⟩
  · exact ⟨line, by simp [headerBytes]⟩
  · exact ⟨line ++ CR :: LF :: (headerBytes lines ++ l), by simp [headerBytes]⟩

/-- A head is the shortest prefix that ends in CR LF CR LF just if its last
line is empty. -/
theorem shortestHead_iff (hline : ∀ c ∈ line, plain c = true)
    (hlines : ∀ l ∈ lines, (∀ c ∈ l, plain c = true) ∧ l ≠ []) (hlast : ∀ c ∈ last, plain c = true) :
    ShortestHead (line ++ CR :: LF :: headerBytes lines ++ last ++ [CR, LF] ++ rest)
      (line ++ CR :: LF :: headerBytes lines ++ last ++ [CR, LF]) ↔ last = [] := by
  constructor
  · rintro ⟨-, ⟨z, hz⟩, -⟩
    rcases List.eq_nil_or_concat last with hnil | ⟨a, x, rfl⟩
    · exact hnil
    · have hsplit : (z ++ [CR]) ++ [LF, CR, LF] =
          (line ++ CR :: LF :: headerBytes lines ++ a) ++ [x, CR, LF] := by
        simpa [emptyLine] using hz
      obtain ⟨-, htail⟩ := List.append_inj' hsplit rfl
      cases htail
      have hlf := hlast LF (by simp)
      simp [plain] at hlf
  · rintro rfl
    rw [List.append_nil]
    refine ⟨List.prefix_append _ _, ?_, ?_⟩
    · obtain ⟨front, hfront⟩ := crlf_suffix line lines
      exact ⟨front, by rw [← hfront]; simp [emptyLine]⟩
    · rintro q ⟨t, ht⟩ ⟨a, rfl⟩
      have hcr : a ++ CR :: (LF :: CR :: LF :: t) =
          line ++ CR :: LF :: (headerBytes lines ++ CR :: LF :: rest) := by
        simpa [emptyLine] using ht
      obtain ⟨c, rfl, hc⟩ := append_cr hcr hline
      have hle := emptyLine_after hlines (q := c ++ emptyLine) ⟨t, by simpa [emptyLine] using hc⟩
        (List.suffix_append c emptyLine)
      simp only [List.length_append, List.length_cons, List.length_nil] at hle ⊢
      omega

theorem shortestHead_take {s : List UInt8} {n : ℕ} (hline : ∀ c ∈ line, plain c = true)
    (hlines : ∀ l ∈ lines, (∀ c ∈ l, plain c = true) ∧ l ≠ []) (hlast : ∀ c ∈ last, plain c = true)
    (hs : s = line ++ CR :: LF :: (headerBytes lines ++ (last ++ CR :: LF :: rest)))
    (hn : n + rest.length = s.length) : ShortestHead s (s.take n) ↔ last = [] := by
  have hfront : s = line ++ CR :: LF :: headerBytes lines ++ last ++ [CR, LF] ++ rest := by
    rw [hs]
    simp
  rw [hfront, List.length_append] at hn
  have hn' := Nat.add_right_cancel hn
  rw [hfront, hn', List.take_left]
  exact shortestHead_iff hline hlines hlast

end Shape

/-- Of the header lines that begin with NUL, the first one ends the head. -/
theorem first_nulLine {lines : List (List UInt8)} {last : List UInt8}
    (hlines : ∀ l ∈ lines, (∀ c ∈ l, plain c = true) ∧ l ≠ []) (hlast : ∀ c ∈ last, plain c = true)
    (rest : List UInt8) :
    ∃ lines₁ last₁ rest₁, headerBytes lines ++ (0 :: last ++ CR :: LF :: rest) =
      headerBytes lines₁ ++ (last₁ ++ CR :: LF :: rest₁) ∧
      ((∀ l ∈ lines₁, ∀ c ∈ l, plain c = true) ∧ ∀ l ∈ lines₁, content l ≠ []) ∧
      ((∀ c ∈ last₁, plain c = true) ∧ content last₁ = []) ∧ last₁ ≠ [] := by
  induction lines with
  | nil =>
    refine ⟨[], 0 :: last, rest, rfl, ⟨by simp, by simp⟩, ⟨?_, rfl⟩, nofun⟩
    exact List.forall_mem_cons.mpr ⟨by decide, hlast⟩
  | cons l lines ih =>
    obtain ⟨hplain, hne⟩ := hlines l List.mem_cons_self
    by_cases hempty : content l = []
    · exact ⟨[], l, headerBytes lines ++ (0 :: last ++ CR :: LF :: rest), by simp [headerBytes],
        ⟨by simp, by simp⟩, ⟨hplain, hempty⟩, hne⟩
    · obtain ⟨lines₁, last₁, rest₁, heq, ⟨hplain₁, hne₁⟩, hlast₁⟩ :=
        ih fun l hl => hlines l (List.mem_cons_of_mem _ hl)
      refine ⟨l :: lines₁, last₁, rest₁, ?_, ⟨List.forall_mem_cons.mpr ⟨hplain, hplain₁⟩,
        List.forall_mem_cons.mpr ⟨hempty, hne₁⟩⟩, hlast₁⟩
      rw [headerBytes_cons, headerBytes_cons, heq]

/-- However a stream is cut into chunks, the head ends with the first empty
line exactly when no line in front of that one begins with NUL. -/
theorem head_ends_at_emptyLine_iff {buf : FixedBuffer} (hvalid : buf.Valid)
    (hempty : buf.unread = []) {chunks : List (List UInt8)}
    (hfits : FitsHead HttpRequest.fresh buf chunks) :
    (∀ n, EndsHead HttpRequest.fresh buf 0 chunks n →
      ShortestHead chunks.flatten (chunks.flatten.take n)) ↔ ¬ NulLine chunks.flatten := by
  obtain ⟨consumed, free, hb⟩ := hvalid.holds
  rw [hempty] at hb
  have hin : HttpRequest.fresh.InLine [] := Nat.le_refl _
  have hends : ∀ n, EndsHead HttpRequest.fresh buf 0 chunks n ↔
      ∃ rest, HeadEndsAt HttpRequest.fresh chunks.flatten rest ∧
        n + rest.length = 0 + chunks.flatten.length :=
    fun n => endsHead_iff hb hin runHead_fresh hfits
  simp only [hends, Nat.zero_add]
  generalize chunks.flatten = s
  constructor
  · rintro hall ⟨line, lines, last, rest, rfl, ⟨hline, m, u, v, hgrammar⟩, hlines, hlast⟩
    obtain ⟨lines₁, last₁, rest₁, heq, ⟨hplain₁, hne₁⟩, ⟨hlast₁, hempty₁⟩, hne⟩ :=
      first_nulLine hlines hlast rest
    have hend : HeadEndsAt HttpRequest.fresh
        (line ++ CR :: LF :: (headerBytes lines ++ (0 :: last ++ CR :: LF :: rest))) rest₁ :=
      headEndsAt_fresh.mpr ⟨line, _, m, u, v, rfl, hline, hgrammar,
        (headEndsAt_headers ⟨rfl, rfl, rfl⟩).mpr
          ⟨lines₁, last₁, heq, ⟨hplain₁, hne₁⟩, hlast₁, hempty₁⟩⟩
    rw [heq] at hall hend
    have hlines₁ : ∀ l ∈ lines₁, (∀ c ∈ l, plain c = true) ∧ l ≠ [] := fun l hl =>
      ⟨hplain₁ l hl, ne_nil_of_content (hne₁ l hl)⟩
    have hlen : rest₁.length ≤
        (line ++ CR :: LF :: (headerBytes lines₁ ++ (last₁ ++ CR :: LF :: rest₁))).length := by
      simp only [List.length_append, List.length_cons]
      omega
    have hshort := hall _ ⟨rest₁, hend, Nat.sub_add_cancel hlen⟩
    exact hne ((shortestHead_take hline hlines₁ hlast₁ rfl (Nat.sub_add_cancel hlen)).mp hshort)
  · rintro hno n ⟨rest, hend, hn⟩
    obtain ⟨line, w, m, u, v, hs, hline, hgrammar, hend⟩ := headEndsAt_fresh.mp hend
    obtain ⟨lines, last, hw, ⟨hplain, hne⟩, hlast, hempty⟩ :=
      (headEndsAt_headers ⟨rfl, rfl, rfl⟩).mp hend
    have hlines : ∀ l ∈ lines, (∀ c ∈ l, plain c = true) ∧ l ≠ [] := fun l hl =>
      ⟨hplain l hl, ne_nil_of_content (hne l hl)⟩
    rw [hw] at hs
    rw [shortestHead_take hline hlines hlast hs hn]
    rcases content_eq_nil hempty with hnil | ⟨last', rfl⟩
    · exact hnil
    · exact absurd ⟨line, lines, last', rest, hs, ⟨hline, m, u, v, hgrammar⟩, hlines,
        fun c hc => hlast c (List.mem_cons_of_mem 0 hc)⟩ hno

/-- A request without header lines. -/
theorem head_ends_at_emptyLine_iff_sample :
    (∀ n, EndsHead HttpRequest.fresh blank 0 [minimalGet] n →
      ShortestHead [minimalGet].flatten ([minimalGet].flatten.take n)) ↔
      ¬ NulLine [minimalGet].flatten := by
  have hblank : blank.Holds [] [] (List.replicate kBufferSize 0) := create_holds _ _
  exact head_ends_at_emptyLine_iff hblank.valid hblank.unread_eq
    ⟨by decide, fun _ _ _ _ => trivial⟩

/-- A request line, a line that consists of NUL, and the empty line. -/
def nulHead : List UInt8 := minimalGet.take 16 ++ [0, CR, LF, CR, LF]

/-- The line with the NUL ends the head, and the empty line stays unread. -/
theorem nulHead_splits :
    ¬ ∀ (buf : FixedBuffer) (chunks : List (List UInt8)) (n : ℕ), buf.Valid → buf.unread = [] →
      FitsHead HttpRequest.fresh buf chunks → EndsHead HttpRequest.fresh buf 0 chunks n →
      ShortestHead chunks.flatten (chunks.flatten.take n) := by
  intro hall
  have hblank : blank.Holds [] [] (List.replicate kBufferSize 0) := create_holds _ _
  have hfits : FitsHead HttpRequest.fresh blank [nulHead] := ⟨by decide, fun _ _ _ _ => trivial⟩
  have hrun : runHead HttpRequest.fresh nulHead = .ok (.stop GET_REQUEST afterGet [CR, LF]) := by
    decide +kernel
  have hends : EndsHead HttpRequest.fresh blank 0 [nulHead] 19 :=
    (endsHead_iff hblank (Nat.le_refl _) runHead_fresh hfits).mpr
      ⟨[CR, LF], .inl ⟨afterGet, hrun⟩, rfl⟩
  have hsuffix := (hall blank [nulHead] 19 hblank.valid hblank.unread_eq hfits hends).2.1
  revert hsuffix
  decide

end KyrosWebServer.Http
