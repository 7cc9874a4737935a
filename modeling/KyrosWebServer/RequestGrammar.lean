import KyrosWebServer.RequestChunks

/-!
# The grammar of request lines

The request line as its readers know it: a method, blanks, a target that
begins with a slash, blanks, the version, and nothing else. The tokeniser,
which cuts the line in place, accepts exactly these lines and takes their
parts for the fields, apart from targets with a scheme.
-/

namespace KyrosWebServer.Http

open CMemory CString Base FixedBuffer

/-- A word that is a method, ignoring case. -/
def Names (word : List UInt8) (m : METHOD) : Prop :=
  m = GET ∧ word.map tolower = textGET.map tolower ∨
    m = POST ∧ word.map tolower = textPOST.map tolower

/-- `t` consists of a method, blanks, the target `u`, blanks and the version `v`. -/
def IsRequestLine (t : List UInt8) (m : METHOD) (u v : List UInt8) : Prop :=
  ∃ word w₁ w₂, t = word ++ (w₁ ++ (u ++ (w₂ ++ v))) ∧ Names word m ∧
    (w₁ ≠ [] ∧ ∀ c ∈ w₁, c ∈ blanks) ∧ (w₂ ≠ [] ∧ ∀ c ∈ w₂, c ∈ blanks) ∧
    u.head? = some slash ∧ (∀ c ∈ u, c ∉ blanks) ∧ v.map tolower = textVersion.map tolower

/-- The first blank-separated field, empty in front of a leading blank. -/
def firstField (t : List UInt8) : List UInt8 := t.takeWhile (!blanks.contains ·)

/-- The second blank-separated field. -/
def secondField (t : List UInt8) : List UInt8 :=
  ((t.dropWhile (!blanks.contains ·)).dropWhile (blanks.contains ·)).takeWhile
    (!blanks.contains ·)

/-- A field that begins with `http://`, ignoring case. -/
def HasScheme (field : List UInt8) : Prop := textScheme.map tolower <+: field.map tolower

/-- A line that begins with a field and has a scheme in the second one. -/
def SchemeTarget (t : List UInt8) : Prop := firstField t ≠ [] ∧ HasScheme (secondField t)

instance (t : List UInt8) : Decidable (SchemeTarget t) :=
  inferInstanceAs (Decidable (firstField t ≠ [] ∧ textScheme.map tolower <+: _))

/-- Text that is a C string of one word. -/
def OneWord (text : List UInt8) : Prop := (0 : UInt8) ∈ text ∧ ∀ c ∈ content text, c ∉ blanks

theorem oneWord_append {front : List UInt8} (h : (0 : UInt8) ∉ front) (hword : ∀ c ∈ front, c ∉ blanks)
    (rest : List UInt8) : OneWord (front ++ 0 :: rest) := by
  refine ⟨by simp, ?_⟩
  rw [content_append h]
  exact hword

/-- The methods differ in their first letters. -/
theorem methodOf_eq_some {word : List UInt8} {m : METHOD} (h₀ : (0 : UInt8) ∉ word) :
    HttpRequest.methodOf word = some m ↔ Names word m := by
  have hget : strcasecmp word textGET = 0 ↔ word.map tolower = textGET.map tolower :=
    strcasecmp_eq_zero h₀ (by decide)
  have hpost : strcasecmp word textPOST = 0 ↔ word.map tolower = textPOST.map tolower :=
    strcasecmp_eq_zero h₀ (by decide)
  have hne : textGET.map tolower ≠ textPOST.map tolower := by decide
  unfold HttpRequest.methodOf Names
  by_cases h : strcasecmp word textGET = 0
  · rw [if_pos h, Option.some.injEq, hget.mp h]
    simp only [hne, and_true, and_false, or_false]
    exact eq_comm
  · rw [if_neg h]
    by_cases hp : strcasecmp word textPOST = 0
    · rw [if_pos hp, Option.some.injEq, hpost.mp hp]
      simp only [hne.symm, and_true, and_false, false_or]
      exact eq_comm
    · rw [if_neg hp, ← hget, ← hpost]
      simp [h, hp]

/-- Folding moves no byte into or out of the blanks. -/
theorem tolower_blank {c : UInt8} (hc : c ∈ blanks) : tolower c = c := by
  simp only [blanks, List.mem_cons, List.not_mem_nil, or_false] at hc
  rcases hc with rfl | rfl <;> decide

/-- A text without blanks is folded from texts without blanks only. -/
theorem notMem_blanks {s text : List UInt8} (h : s.map tolower = text.map tolower)
    (htext : (text.map tolower).all (!blanks.contains ·) = true) : ∀ c ∈ s, c ∉ blanks := by
  intro c hc hblank
  have hmem : tolower c ∈ s.map tolower := List.mem_map_of_mem hc
  rw [h, tolower_blank hblank] at hmem
  have hno := List.all_eq_true.mp htext c hmem
  simp [hblank] at hno

theorem Names.notMem_blanks {word : List UInt8} {m : METHOD} (h : Names word m) :
    ∀ c ∈ word, c ∉ blanks := by
  rcases h with ⟨-, h⟩ | ⟨-, h⟩
  · exact Http.notMem_blanks h (by decide)
  · exact Http.notMem_blanks h (by decide)

/-- A target without a scheme is left alone. -/
theorem stripScheme_eq (req : HttpRequest) {u : List UInt8} (h₀ : (0 : UInt8) ∉ u)
    (h : ¬ HasScheme u) : req.stripScheme u = .ok req := by
  have hcmp : strncasecmp u textScheme 7 ≠ 0 := fun hzero =>
    h ((strncasecmp_eq_zero h₀ (by decide)).mp hzero)
  rw [HttpRequest.stripScheme, if_neg hcmp]

/-- Only the slash folds to the slash. -/
theorem tolower_slash {c : UInt8} (h : tolower c = slash) : c = slash := by
  unfold tolower at h
  split at h
  · next hc =>
    have hle := UInt8.le_iff_toNat_le.mp hc.1
    have hle' := UInt8.le_iff_toNat_le.mp hc.2
    have hval := congrArg UInt8.toNat h
    simp [slash] at hle hle' hval
    omega
  · exact h

/-- The branch for targets with a scheme finds a slash, and sets the target. -/
theorem stripScheme_scheme (req : HttpRequest) {u : List UInt8} (h₀ : (0 : UInt8) ∉ u)
    (h : HasScheme u) : ∃ url, req.stripScheme u = .ok { req with url := url } := by
  have hcmp : strncasecmp u textScheme 7 = 0 := (strncasecmp_eq_zero h₀ (by decide)).mpr h
  have hslash : slash ∈ u := by
    obtain ⟨c, hc, hfold⟩ := List.mem_map.mp (h.subset (show slash ∈ textScheme.map tolower by decide))
    rw [← tolower_slash hfold]
    exact hc
  rw [HttpRequest.stripScheme, if_pos hcmp]
  cases hfind : strchr u slash with
  | none =>
    rw [strchr, List.findIdx?_eq_none_iff] at hfind
    exact absurd (hfind slash hslash) (by simp)
  | some k => exact ⟨u.drop k, rfl⟩

/-- A slash is no scheme. -/
theorem not_hasScheme_slash (u : List UInt8) : ¬ HasScheme (slash :: u) := by
  intro h
  obtain ⟨tail, htail⟩ := h
  simp only [List.map_cons] at htail
  cases htail

/-- The first two words of a line that has them. -/
theorem fields_words {front w u back : List UInt8} {c x d : UInt8}
    (hfront : ∀ y ∈ front, y ∉ blanks) (hc : c ∈ blanks) (hw : ∀ y ∈ w, y ∈ blanks)
    (hu : ∀ y ∈ x :: u, y ∉ blanks) (hd : d ∈ blanks) :
    firstField (front ++ c :: (w ++ (x :: u ++ d :: back))) = front ∧
      secondField (front ++ c :: (w ++ (x :: u ++ d :: back))) = x :: u := by
  have hfront' : ∀ y ∈ front, (!blanks.contains y) = true := fun y hy => by simp [hfront y hy]
  have hw' : ∀ y ∈ c :: w, blanks.contains y = true := fun y hy => by
    simpa using List.forall_mem_cons.mpr ⟨hc, hw⟩ y hy
  have hu' : ∀ y ∈ x :: u, (!blanks.contains y) = true := fun y hy => by simp [hu y hy]
  constructor
  · rw [firstField, List.takeWhile_append_of_pos hfront', List.takeWhile_cons_of_neg (by simpa using hc),
      List.append_nil]
  · have hfirst : (front ++ c :: (w ++ (x :: u ++ d :: back))).dropWhile (!blanks.contains ·) =
        c :: w ++ (x :: (u ++ d :: back)) := by
      rw [List.dropWhile_append_of_pos hfront', List.dropWhile_cons_of_neg (by simpa using hc)]
      simp
    rw [secondField, hfirst, List.dropWhile_append_of_pos hw',
      List.dropWhile_cons_of_neg (by simpa using hu x List.mem_cons_self), ← List.cons_append,
      List.takeWhile_append_of_pos hu', List.takeWhile_cons_of_neg (by simpa using hd),
      List.append_nil]

namespace HttpRequest

/-- Lines of the grammar are accepted, with their parts as the fields. -/
theorem parseRequest_accepts (req : HttpRequest) {t u v : List UInt8} {m : METHOD}
    (h₀ : (0 : UInt8) ∉ t) (h : IsRequestLine t m u v) (more : List UInt8) :
    ∃ text, req.parseRequest (t ++ 0 :: more) = .ok (NO_REQUEST,
      { req with method := some m, url := u, version := v, mCheckState := CHECK_STATE_HEADER },
      text) := by
  obtain ⟨word, w₁, w₂, rfl, hm, ⟨hw₁, hw₁'⟩, ⟨hw₂, hw₂'⟩, hslash, hu, hv⟩ := h
  obtain ⟨c, w, rfl⟩ := List.exists_cons_of_ne_nil hw₁
  obtain ⟨d, w', rfl⟩ := List.exists_cons_of_ne_nil hw₂
  obtain ⟨u, rfl⟩ := List.head?_eq_some_iff.mp hslash
  have hword : (0 : UInt8) ∉ word := fun h => h₀ (List.mem_append_left _ h)
  have hv₀ : (0 : UInt8) ∉ v := fun h => h₀ (by simp [h])
  have hu₀ : (0 : UInt8) ∉ slash :: u := fun h =>
    h₀ (List.mem_append_right _ (List.mem_append_right _ (List.mem_append_left _ h)))
  have hversion : ∀ c ∈ v, c ∉ blanks := notMem_blanks hv (by decide)
  have hc : c ∈ blanks := hw₁' c List.mem_cons_self
  have hd : d ∈ blanks := hw₂' d List.mem_cons_self
  have hline : word ++ (c :: w ++ (slash :: u ++ (d :: w' ++ v))) =
      word ++ c :: (w ++ (slash :: u ++ d :: (w' ++ v))) := by simp
  have hcmp : strcasecmp v textVersion = 0 := (strcasecmp_eq_zero hv₀ (by decide)).mpr hv
  rw [hline] at h₀ ⊢
  refine ⟨word ++ 0 :: (w ++ (slash :: u ++ 0 :: (w' ++ v))) ++ 0 :: more, ?_⟩
  rw [req.parseRequest_words h₀ hm.notMem_blanks hc ((methodOf_eq_some hword).mpr hm)
    (fun y hy => hw₁' y (List.mem_cons_of_mem c hy)) hu hd
    (fun y hy => hw₂' y (List.mem_cons_of_mem d hy))
    fun y tail hy => hversion y (by rw [hy]; exact List.mem_cons_self)]
  dsimp only
  rw [if_neg (fun hne => hne hcmp), stripScheme_eq _ hu₀ (not_hasScheme_slash u)]
  simp [Except.map]

/-- Other lines are rejected, with one word left of them; the target changes
only when the second field has a scheme. -/
theorem parseRequest_rejects (req : HttpRequest) {t : List UInt8} (h₀ : (0 : UInt8) ∉ t)
    (h : ¬ ∃ m u v, IsRequestLine t m u v) (more : List UInt8) :
    ∃ m u text, req.parseRequest (t ++ 0 :: more) =
      .ok (BAD_REQUEST, { req with method := m, url := u }, text) ∧ OneWord text ∧
      (¬ SchemeTarget t → u = req.url) := by
  cases lineWords t with
  | noBlank hline =>
    exact ⟨_, _, _, req.parseRequest_noBlank h₀ hline more, oneWord_append h₀ hline more, fun _ => rfl⟩
  | @noMethod front back c hfront hc hm =>
    have hfront₀ : (0 : UInt8) ∉ front := fun h => h₀ (List.mem_append_left _ h)
    refine ⟨_, _, _, req.parseRequest_noMethod h₀ hfront hc hm more, ?_, fun _ => rfl⟩
    rw [List.append_assoc]
    exact oneWord_append hfront₀ hfront _
  | @noVersion front w u c m hfront hc hm hw hu =>
    have hfront₀ : (0 : UInt8) ∉ front := fun h => h₀ (List.mem_append_left _ h)
    refine ⟨_, _, _, req.parseRequest_noVersion h₀ hfront hc hm hw hu more, ?_, fun _ => rfl⟩
    rw [List.append_assoc]
    exact oneWord_append hfront₀ hfront _
  | @words front w u w' v c x d m hfront hc hm hw hu hd hw' hv =>
    obtain ⟨hfirst, hsecond⟩ : firstField (front ++ c :: (w ++ (x :: u ++ d :: (w' ++ v)))) = front ∧
        secondField (front ++ c :: (w ++ (x :: u ++ d :: (w' ++ v)))) = x :: u :=
      fields_words hfront hc hw hu hd
    have hne : front ≠ [] := by
      rintro rfl
      cases hm
    have htail : (0 : UInt8) ∉ x :: u ++ d :: (w' ++ v) := fun h =>
      h₀ (List.mem_append_right _ (List.mem_cons_of_mem c (List.mem_append_right _ h)))
    have hu₀ : (0 : UInt8) ∉ x :: u := fun h => htail (List.mem_append_left _ h)
    have hv₀ : (0 : UInt8) ∉ v := fun h =>
      htail (List.mem_append_right _ (List.mem_cons_of_mem d (List.mem_append_right _ h)))
    have hfront₀ : (0 : UInt8) ∉ front := fun h => h₀ (List.mem_append_left _ h)
    have hcut : OneWord (front ++ 0 :: (w ++ (x :: u ++ 0 :: (w' ++ v))) ++ 0 :: more) := by
      rw [List.append_assoc]
      exact oneWord_append hfront₀ hfront _
    rw [SchemeTarget, hfirst, hsecond, req.parseRequest_words h₀ hfront hc hm hw hu hd hw' hv]
    dsimp only
    by_cases hcmp : strcasecmp v textVersion = 0
    · rw [if_neg (fun hne => hne hcmp)]
      by_cases hscheme : HasScheme (x :: u)
      · obtain ⟨url, hurl⟩ := stripScheme_scheme { req with method := some m } hu₀ hscheme
        have hslash : x ≠ slash := by
          rintro rfl
          exact not_hasScheme_slash u hscheme
        rw [hurl]
        simp only [Except.map, if_pos hslash]
        exact ⟨some m, url, _, rfl, hcut, fun hno => absurd ⟨hne, hscheme⟩ hno⟩
      · rw [stripScheme_eq _ hu₀ hscheme]
        have hslash : x ≠ slash := by
          -- the words would be those of a request line
          rintro rfl
          refine h ⟨m, slash :: u, v, front, c :: w, d :: w', by simp,
            (methodOf_eq_some hfront₀).mp hm, ⟨nofun, ?_⟩, ⟨nofun, ?_⟩, rfl, hu, ?_⟩
          · exact List.forall_mem_cons.mpr ⟨hc, hw⟩
          · exact List.forall_mem_cons.mpr ⟨hd, hw'⟩
          · exact (strcasecmp_eq_zero hv₀ (by decide)).mp hcmp
        simp only [Except.map, if_pos hslash]
        exact ⟨some m, req.url, _, rfl, hcut, fun _ => rfl⟩
    · rw [if_pos hcmp]
      exact ⟨some m, req.url, _, rfl, hcut, fun _ => rfl⟩

end HttpRequest

/-- The request object of a new parser that has accepted a request line. -/
def HttpRequest.requested (m : METHOD) (u v : List UInt8) : HttpRequest :=
  { HttpRequest.fresh with
    url := u, version := v, method := some m, mCheckState := CHECK_STATE_HEADER,
    mLineState := LINE_OK }

theorem HttpRequest.requested_head (m : METHOD) (u v : List UInt8) :
    ¬ (requested m u v).pastHead = true := Bool.false_ne_true

theorem runHead_fresh_line {line : List UInt8} (hplain : ∀ c ∈ line, plain c = true)
    (rest : List UInt8) :
    ∃ more, runHead HttpRequest.fresh (line ++ CR :: LF :: rest) =
      match (HttpRequest.fresh.scanned LINE_OK (line.length + 2)).parseRequest
          (content line ++ 0 :: more) with
      | .error e => .error e
      | .ok (code, req', text) =>
        if code = BAD_REQUEST then .ok (.stop BAD_REQUEST req' (text ++ 0 :: rest))
        else if code = GET_REQUEST then .ok (.stop GET_REQUEST { req' with mCheckIndex := 0 } rest)
        else runHead { req' with mCheckIndex := 0 } rest := by
  obtain ⟨more, hmore⟩ := content_split line
  have hstart : (HttpRequest.fresh.scanned LINE_OK (line.length + 2)).headLine line =
      (HttpRequest.fresh.scanned LINE_OK (line.length + 2)).parseRequest (line ++ [0]) :=
    if_pos rfl
  refine ⟨more, ?_⟩
  rw [← hmore, ← hstart]
  exact runHead_complete (by decide) (nextLine_crlf hplain rest)

/-- Lines of the grammar lead to the headers. -/
theorem runHead_accepts {line u v : List UInt8} {m : METHOD}
    (hplain : ∀ c ∈ line, plain c = true) (h : IsRequestLine (content line) m u v)
    (rest : List UInt8) :
    runHead HttpRequest.fresh (line ++ CR :: LF :: rest) =
      runHead (HttpRequest.requested m u v) rest := by
  obtain ⟨more, hrun⟩ := runHead_fresh_line hplain rest
  obtain ⟨text, hparse⟩ := HttpRequest.parseRequest_accepts
    (HttpRequest.fresh.scanned LINE_OK (line.length + 2)) (zero_notMem_content line) h more
  rw [hrun, hparse]
  rfl

/-- Other lines end in `BAD_REQUEST`. -/
theorem runHead_rejects {line : List UInt8} (hplain : ∀ c ∈ line, plain c = true)
    (h : ¬ ∃ m u v, IsRequestLine (content line) m u v) (rest : List UInt8) :
    ∃ m u w, runHead HttpRequest.fresh (line ++ CR :: LF :: rest) = .ok (.stop BAD_REQUEST
      { HttpRequest.fresh.scanned LINE_OK (line.length + 2) with method := m, url := u } w) ∧
      (¬ SchemeTarget (content line) → u = []) := by
  obtain ⟨more, hrun⟩ := runHead_fresh_line hplain rest
  obtain ⟨m, u, text, hparse, -, hu⟩ := HttpRequest.parseRequest_rejects
    (HttpRequest.fresh.scanned LINE_OK (line.length + 2)) (zero_notMem_content line) h more
  rw [hrun, hparse]
  exact ⟨m, u, _, rfl, hu⟩

/-- A line is a request line in one way only. -/
theorem IsRequestLine.unique {t u v u' v' : List UInt8} {m m' : METHOD} (h₀ : (0 : UInt8) ∉ t)
    (h : IsRequestLine t m u v) (h' : IsRequestLine t m' u' v') : m = m' ∧ u = u' ∧ v = v' := by
  -- both ways are what the parser finds
  obtain ⟨text, hparse⟩ := HttpRequest.parseRequest_accepts HttpRequest.fresh h₀ h []
  obtain ⟨text', hparse'⟩ := HttpRequest.parseRequest_accepts HttpRequest.fresh h₀ h' []
  rw [hparse] at hparse'
  simp only [Except.ok.injEq, Prod.mk.injEq, HttpRequest.mk.injEq, Option.some.injEq] at hparse'
  obtain ⟨-, ⟨hu, hv, -, -, hm, -⟩, -⟩ := hparse'
  exact ⟨hm, hu, hv⟩

/-- A new parser accepts the lines of the grammar, with their parts as the
fields, and rejects all others that have no scheme in the second field. -/
theorem requestLine_accepted_iff {buf : FixedBuffer} (hvalid : buf.Valid)
    (hempty : buf.unread = []) {line : List UInt8} (hlen : line.length ≤ 1022)
    (hline : ∀ c ∈ line, c ≠ CR ∧ c ≠ LF) (hscheme : ¬ SchemeTarget (content line)) :
    ∃ r, receive HttpRequest.fresh buf (line ++ [CR, LF]) = .ok r ∧ r.appended = line.length + 2 ∧
      (r.req.mCheckState = CHECK_STATE_HEADER ↔ ∃ m u v, IsRequestLine (content line) m u v) ∧
      (∀ m u v, IsRequestLine (content line) m u v → r.code = NO_REQUEST ∧
        r.req.method = some m ∧ r.req.url = u ∧ r.req.version = v ∧ r.buf.unread = []) ∧
      ((¬ ∃ m u v, IsRequestLine (content line) m u v) → r.code = BAD_REQUEST ∧
        r.req.mCheckState = CHECK_STATE_REQUEST ∧ r.req.url = [] ∧ r.req.version = []) := by
  obtain ⟨consumed, free, hb⟩ := hvalid.holds
  rw [hempty] at hb
  have hroom : (line ++ [CR, LF]).length ≤ kBufferSize - ([] : List UInt8).length := by
    rw [List.length_append, kBufferSize_eq]
    simp
    omega
  obtain ⟨b, consumed₁, free₁, happend, hb₁⟩ := hb.append_room hroom
  have hout := processRead_runHead hb₁ (show HttpRequest.fresh.InLine _ from Nat.zero_le _)
  have hplain : ∀ c ∈ line, plain c = true := fun c hc => plain_iff.mpr (hline c hc)
  rw [List.nil_append] at hout
  by_cases h : ∃ m u v, IsRequestLine (content line) m u v
  · obtain ⟨m, u, v, hgrammar⟩ := h
    rw [runHead_accepts hplain hgrammar, runHead_nil (HttpRequest.requested_head m u v)] at hout
    cases hout with
    | wait hread hb' _ =>
      refine ⟨_, receive_eq happend hread, by simp, ?_, ?_, ?_⟩
      · exact ⟨fun _ => ⟨m, u, v, hgrammar⟩, fun _ => rfl⟩
      · intro m' u' v' hgrammar'
        obtain ⟨rfl, rfl, rfl⟩ := hgrammar.unique (zero_notMem_content line) hgrammar'
        exact ⟨rfl, rfl, rfl, rfl, hb'.unread_eq⟩
      · intro hno
        exact absurd ⟨m, u, v, hgrammar⟩ hno
  · obtain ⟨m, u, w, hrun, hu⟩ := runHead_rejects hplain h []
    rw [hrun, hu hscheme] at hout
    cases hout with
    | stop hread hb' =>
      refine ⟨_, receive_eq happend hread, by simp, ?_, ?_, ?_⟩
      · constructor
        · intro hst
          cases hst
        · intro hgrammar
          exact absurd hgrammar h
      · intro m u v hgrammar
        exact absurd ⟨m, u, v, hgrammar⟩ h
      · intro _
        exact ⟨rfl, rfl, rfl, rfl⟩

/-- A request line with a tab and two spaces, and its NUL. -/
theorem requestLine_accepted_iff_sample :
    ∃ line : List UInt8, line.length ≤ 1022 ∧ (∀ c ∈ line, c ≠ CR ∧ c ≠ LF) ∧
      ¬ SchemeTarget (content line) ∧ ∃ r,
      receive HttpRequest.fresh blank (line ++ [CR, LF]) = .ok r ∧ r.appended = line.length + 2 ∧
      (r.req.mCheckState = CHECK_STATE_HEADER ↔ ∃ m u v, IsRequestLine (content line) m u v) ∧
      (∀ m u v, IsRequestLine (content line) m u v → r.code = NO_REQUEST ∧
        r.req.method = some m ∧ r.req.url = u ∧ r.req.version = v ∧ r.buf.unread = []) ∧
      ((¬ ∃ m u v, IsRequestLine (content line) m u v) → r.code = BAD_REQUEST ∧
        r.req.mCheckState = CHECK_STATE_REQUEST ∧ r.req.url = [] ∧ r.req.version = []) := by
  have hblank : blank.Holds [] [] (List.replicate kBufferSize 0) := create_holds _ _
  let line : List UInt8 := textPOST ++ [9] ++ [slash] ++ [32, 32] ++ textVersion ++ [0, 65]
  have hlen : line.length ≤ 1022 := by decide
  have hplain : line.all plain = true := by decide
  have hline : ∀ c ∈ line, c ≠ CR ∧ c ≠ LF := fun c hc =>
    plain_iff.mp (List.all_eq_true.mp hplain c hc)
  have hscheme : ¬ SchemeTarget (content line) := by decide
  exact ⟨line, hlen, hline, hscheme,
    requestLine_accepted_iff hblank.valid hblank.unread_eq hlen hline hscheme⟩

end KyrosWebServer.Http
