import KyrosWebServer.RequestGrammar

/-!
# Targets with a scheme

A target may be written with `http://` and a host in front of its path. The
branch that should take them off moves the member `url` while the target is
read through `_url`, so the first byte tested is still that of the scheme.
-/

namespace KyrosWebServer.Http

open CMemory CString Base FixedBuffer

/-- Neither NUL nor part of a line end. -/
def Clean (text : List UInt8) : Prop := ∀ c ∈ text, c ≠ 0 ∧ c ≠ CR ∧ c ≠ LF

theorem Clean.append {s t : List UInt8} (hs : Clean s) (ht : Clean t) : Clean (s ++ t) :=
  List.forall_mem_append.mpr ⟨hs, ht⟩

theorem Clean.plain {text : List UInt8} (h : Clean text) : ∀ c ∈ text, plain c = true :=
  fun c hc => plain_iff.mpr (h c hc).2

theorem Clean.content_eq {text : List UInt8} (h : Clean text) : content text = text :=
  content_eq_self fun hzero => (h 0 hzero).1 rfl

/-- What folds to a clean text is clean. -/
theorem clean_of_fold {s text : List UInt8} (h : s.map tolower = text.map tolower)
    (htext : (text.map tolower).all (fun c => c != 0 && c != CR && c != LF) = true) : Clean s := by
  have hfolded : ∀ c ∈ s, tolower c ≠ 0 ∧ tolower c ≠ CR ∧ tolower c ≠ LF := by
    intro c hc
    have hmem : tolower c ∈ text.map tolower := h ▸ List.mem_map_of_mem hc
    simpa [and_assoc] using List.all_eq_true.mp htext _ hmem
  intro c hc
  obtain ⟨hzero, hcr, hlf⟩ := hfolded c hc
  refine ⟨?_, ?_, ?_⟩
  · rintro rfl
    exact hzero (by decide)
  · rintro rfl
    exact hcr (by decide)
  · rintro rfl
    exact hlf (by decide)

theorem clean_blanks {text : List UInt8} (h : ∀ c ∈ text, c ∈ blanks) : Clean text := by
  intro c hc
  have hblank := h c hc
  simp only [blanks, List.mem_cons, List.not_mem_nil, or_false] at hblank
  rcases hblank with rfl | rfl <;> decide

/-- A method, blanks, a target, blanks and a version. -/
def requestLine (word w₁ u w₂ v : List UInt8) : List UInt8 := word ++ (w₁ ++ (u ++ (w₂ ++ v)))

/-- The words of a request line around its target. -/
structure Around (word w₁ w₂ v : List UInt8) (m : METHOD) : Prop where
  /-- The first word is a method. -/
  names : Names word m
  /-- Blanks in front of the target. -/
  front : w₁ ≠ [] ∧ ∀ c ∈ w₁, c ∈ blanks
  /-- Blanks behind it. -/
  back : w₂ ≠ [] ∧ ∀ c ∈ w₂, c ∈ blanks
  /-- The last word is the version. -/
  version : v.map tolower = textVersion.map tolower

/-- A host, without a slash and in one piece. -/
structure IsHost (host : List UInt8) : Prop where
  /-- There is one. -/
  ne_nil : host ≠ []
  /-- Without NUL and line ends. -/
  clean : Clean host
  /-- Without blanks and slashes. -/
  word : ∀ c ∈ host, c ∉ blanks ∧ c ≠ slash

/-- A path that begins with a slash, in one piece. -/
structure IsPath (path : List UInt8) : Prop where
  /-- The first byte. -/
  slash : path.head? = some slash
  /-- Without NUL and line ends. -/
  clean : Clean path
  /-- Without blanks. -/
  word : ∀ c ∈ path, c ∉ blanks

/-- The target `http://host/path`. -/
def absoluteForm (host path : List UInt8) : List UInt8 := textScheme ++ (host ++ path)

variable {word w₁ w₂ v host path : List UInt8} {m : METHOD}

theorem absoluteForm_clean (hhost : IsHost host) (hpath : IsPath path) :
    Clean (absoluteForm host path) := by
  have hscheme : Clean textScheme := clean_of_fold rfl (by decide)
  exact hscheme.append (hhost.clean.append hpath.clean)

theorem Around.clean (h : Around word w₁ w₂ v m) {u : List UInt8} (hu : Clean u) :
    Clean (requestLine word w₁ u w₂ v) := by
  have hword : Clean word := by
    rcases h.names with ⟨-, hname⟩ | ⟨-, hname⟩
    · exact clean_of_fold hname (by decide)
    · exact clean_of_fold hname (by decide)
  have hversion : Clean v := clean_of_fold h.version (by decide)
  exact hword.append ((clean_blanks h.front.2).append (hu.append
    ((clean_blanks h.back.2).append hversion)))

/-- With a path as its target the line is one of the grammar. -/
theorem Around.isRequestLine (h : Around word w₁ w₂ v m) (hpath : IsPath path) :
    IsRequestLine (requestLine word w₁ path w₂ v) m path v :=
  ⟨word, w₁, w₂, rfl, h.names, h.front, h.back, hpath.slash, hpath.word, h.version⟩

/-- The second field of a line with these words is its target. -/
theorem secondField_requestLine {x : UInt8} {u : List UInt8} (hword : ∀ c ∈ word, c ∉ blanks)
    (hfront : w₁ ≠ [] ∧ ∀ c ∈ w₁, c ∈ blanks) (hu : ∀ c ∈ x :: u, c ∉ blanks)
    (hback : w₂ ≠ [] ∧ ∀ c ∈ w₂, c ∈ blanks) :
    secondField (requestLine word w₁ (x :: u) w₂ v) = x :: u := by
  obtain ⟨hw₁, hw₁'⟩ := hfront
  obtain ⟨hw₂, hw₂'⟩ := hback
  obtain ⟨c, w, rfl⟩ := List.exists_cons_of_ne_nil hw₁
  obtain ⟨d, w', rfl⟩ := List.exists_cons_of_ne_nil hw₂
  have hshape : requestLine word (c :: w) (x :: u) (d :: w') v =
      word ++ c :: (w ++ (x :: u ++ d :: (w' ++ v))) := by simp [requestLine]
  rw [hshape]
  exact (fields_words hword (hw₁' c List.mem_cons_self)
    (fun y hy => hw₁' y (List.mem_cons_of_mem c hy)) hu (hw₂' d List.mem_cons_self)).2

/-- With an absolute target it is none: the target does not begin with a slash. -/
theorem Around.not_isRequestLine (h : Around word w₁ w₂ v m) (hhost : IsHost host)
    (hpath : IsPath path) :
    ¬ ∃ m' u v', IsRequestLine (requestLine word w₁ (absoluteForm host path) w₂ v) m' u v' := by
  rintro ⟨m', u, v', word', w₁', w₂', hline, hnames, hfront, hback, hslash, hu, -⟩
  obtain ⟨u, rfl⟩ := List.head?_eq_some_iff.mp hslash
  have hscheme : ∀ c ∈ textScheme, c ∉ blanks := notMem_blanks rfl (by decide)
  have htarget : ∀ c ∈ absoluteForm host path, c ∉ blanks := by
    rw [absoluteForm, List.forall_mem_append, List.forall_mem_append]
    exact ⟨hscheme, fun c hc => (hhost.word c hc).1, hpath.word⟩
  have hfield : secondField (requestLine word w₁ (absoluteForm host path) w₂ v) =
      absoluteForm host path :=
    secondField_requestLine h.names.notMem_blanks h.front htarget h.back
  have hfield' : secondField (requestLine word' w₁' (slash :: u) w₂' v') = slash :: u :=
    secondField_requestLine hnames.notMem_blanks hfront hu hback
  rw [hline] at hfield
  have hfirst := (List.cons.inj (hfield'.symm.trans hfield)).1
  revert hfirst
  decide

/-- A new parser takes two buffers for the same request line, with the path as
the target, and leaves nothing of it unread. -/
def AcceptedAlike (b b₁ : FixedBuffer) (path : List UInt8) : Prop :=
  ∃ req b' req₁ b₁', processRead HttpRequest.fresh b = .ok (NO_REQUEST, req, b') ∧
    processRead HttpRequest.fresh b₁ = .ok (NO_REQUEST, req₁, b₁') ∧
    req.url = path ∧ req₁.url = path ∧ req.method = req₁.method ∧ req.version = req₁.version ∧
    req.mCheckState = req₁.mCheckState ∧ b'.unread = [] ∧ b₁'.unread = []

/-- A request line with a path is accepted, and read to its end. -/
theorem Around.accepted (h : Around word w₁ w₂ v m) (hpath : IsPath path) {b : FixedBuffer}
    (hb : b.Valid) (hunread : b.unread = requestLine word w₁ path w₂ v ++ [CR, LF]) :
    ∃ req b', processRead HttpRequest.fresh b = .ok (NO_REQUEST, req, b') ∧
      req = HttpRequest.requested m path v ∧ b'.unread = [] := by
  obtain ⟨consumed, free, hholds⟩ := hb.holds
  have hclean := h.clean hpath.clean
  have hgrammar := h.isRequestLine hpath
  rw [← hclean.content_eq] at hgrammar
  rw [hunread] at hholds
  have hout := processRead_runHead hholds (show HttpRequest.fresh.InLine _ from Nat.zero_le _)
  rw [runHead_accepts hclean.plain hgrammar, runHead_nil (HttpRequest.requested_head m path v)] at hout
  cases hout with
  | wait hread hb' _ => exact ⟨_, _, hread, rfl, hb'.unread_eq⟩

/-- The same line with a scheme and a host is rejected. -/
theorem Around.rejected (h : Around word w₁ w₂ v m) (hhost : IsHost host) (hpath : IsPath path)
    {b : FixedBuffer} (hb : b.Valid)
    (hunread : b.unread = requestLine word w₁ (absoluteForm host path) w₂ v ++ [CR, LF]) :
    ∃ req b', processRead HttpRequest.fresh b = .ok (BAD_REQUEST, req, b') := by
  obtain ⟨consumed, free, hholds⟩ := hb.holds
  have hclean := h.clean (absoluteForm_clean hhost hpath)
  have hgrammar := h.not_isRequestLine hhost hpath
  rw [← hclean.content_eq] at hgrammar
  rw [hunread] at hholds
  have hout := processRead_runHead hholds (show HttpRequest.fresh.InLine _ from Nat.zero_le _)
  obtain ⟨m', u, w, hrun, _⟩ := runHead_rejects hclean.plain hgrammar []
  rw [hrun] at hout
  cases hout with
  | stop hread _ => exact ⟨_, _, hread⟩

/-- For every method, host and path, the line with the path alone is accepted,
the line with the absolute target is rejected, and never are they taken for the
same. -/
theorem absoluteForm_never_accepted (h : Around word w₁ w₂ v m) (hhost : IsHost host)
    (hpath : IsPath path) {b b₁ : FixedBuffer} (hb : b.Valid) (hb₁ : b₁.Valid)
    (habsolute : b.unread = requestLine word w₁ (absoluteForm host path) w₂ v ++ [CR, LF])
    (horigin : b₁.unread = requestLine word w₁ path w₂ v ++ [CR, LF]) :
    (∃ req b', processRead HttpRequest.fresh b = .ok (BAD_REQUEST, req, b')) ∧
    (∃ req₁ b₁', processRead HttpRequest.fresh b₁ = .ok (NO_REQUEST, req₁, b₁') ∧
      req₁ = HttpRequest.requested m path v ∧ b₁'.unread = []) ∧
    ¬ AcceptedAlike b b₁ path := by
  have hrejected := h.rejected hhost hpath hb habsolute
  refine ⟨hrejected, h.accepted hpath hb₁ horigin, ?_⟩
  rintro ⟨req, b', -, -, hread, -⟩
  obtain ⟨req', b'', hbad⟩ := hrejected
  rw [hbad] at hread
  cases hread

/-- The parts of `GET http://a/ HTTP/1.1`. -/
theorem around_get : Around textGET [32] [32] textVersion GET :=
  have hblank : ∀ c ∈ ([32] : List UInt8), c ∈ blanks := List.forall_mem_singleton.mpr (by decide)
  ⟨.inl ⟨rfl, rfl⟩, ⟨List.cons_ne_nil _ _, hblank⟩, ⟨List.cons_ne_nil _ _, hblank⟩, rfl⟩

theorem isHost_a : IsHost [97] :=
  ⟨List.cons_ne_nil _ _, List.forall_mem_singleton.mpr (by decide),
    List.forall_mem_singleton.mpr (by decide)⟩

theorem isPath_slash : IsPath [slash] :=
  ⟨rfl, List.forall_mem_singleton.mpr (by decide), List.forall_mem_singleton.mpr (by decide)⟩

/-- Any text of at most the capacity is what some buffer holds. -/
theorem exists_unread {text : List UInt8} (h : text.length ≤ kBufferSize) :
    ∃ b : FixedBuffer, b.Valid ∧ b.unread = text := by
  obtain ⟨b, _, _, _, hb⟩ := (create_holds _ length_zeros).append_room (s := text) h
  exact ⟨b, hb.valid, hb.unread_eq⟩

/-- Buffers for `GET http://a/ HTTP/1.1` and for `GET / HTTP/1.1`. -/
theorem exists_lines : ∃ b b₁ : FixedBuffer, b.Valid ∧ b₁.Valid ∧
    b.unread = requestLine textGET [32] (absoluteForm [97] [slash]) [32] textVersion ++ [CR, LF] ∧
    b₁.unread = requestLine textGET [32] [slash] [32] textVersion ++ [CR, LF] := by
  obtain ⟨b, hb, habsolute⟩ := exists_unread (show (requestLine textGET [32]
    (absoluteForm [97] [slash]) [32] textVersion ++ [CR, LF]).length ≤ kBufferSize by decide)
  obtain ⟨b₁, hb₁, horigin⟩ := exists_unread (show (requestLine textGET [32] [slash] [32]
    textVersion ++ [CR, LF]).length ≤ kBufferSize by decide)
  exact ⟨b, b₁, hb, hb₁, habsolute, horigin⟩

/-- The line with the host and the line without it. -/
theorem absoluteForm_never_accepted_get : ∃ b b₁ : FixedBuffer,
    (∃ req b', processRead HttpRequest.fresh b = .ok (BAD_REQUEST, req, b')) ∧
    (∃ req₁ b₁', processRead HttpRequest.fresh b₁ = .ok (NO_REQUEST, req₁, b₁') ∧
      req₁ = HttpRequest.requested GET [slash] textVersion ∧ b₁'.unread = []) ∧
    ¬ AcceptedAlike b b₁ [slash] := by
  obtain ⟨b, b₁, hb, hb₁, habsolute, horigin⟩ := exists_lines
  exact ⟨b, b₁, absoluteForm_never_accepted around_get isHost_a isPath_slash hb hb₁ habsolute horigin⟩

/-- `GET http://a/ HTTP/1.1` is not taken for `GET / HTTP/1.1`. -/
theorem absoluteForm_differs : ∃ b b₁ : FixedBuffer, b.Valid ∧ b₁.Valid ∧
    b.unread = requestLine textGET [32] (absoluteForm [97] [slash]) [32] textVersion ++ [CR, LF] ∧
    b₁.unread = requestLine textGET [32] [slash] [32] textVersion ++ [CR, LF] ∧
    ¬ AcceptedAlike b b₁ [slash] := by
  obtain ⟨b, b₁, hb, hb₁, habsolute, horigin⟩ := exists_lines
  refine ⟨b, b₁, hb, hb₁, habsolute, horigin, ?_⟩
  rintro ⟨req, b', -, -, hread, -⟩
  obtain ⟨req', b'', hbad⟩ := around_get.rejected isHost_a isPath_slash hb habsolute
  rw [hbad] at hread
  cases hread

end KyrosWebServer.Http
