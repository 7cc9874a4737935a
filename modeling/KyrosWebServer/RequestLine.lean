import KyrosWebServer.HttpRequest

/-!
# One line of a request

The scanner of `parseLine` stops at the first CR or LF of the unread bytes,
so its result is decided by the shape of these bytes. The parsers of a line
look at nothing behind the NUL that `parseLine` leaves at its end.
-/

namespace KyrosWebServer.Http

open CMemory CString Base

/-- A byte the line scanner passes over. -/
def plain (c : UInt8) : Bool := c != CR && c != LF

theorem plain_iff {c : UInt8} : plain c = true ↔ c ≠ CR ∧ c ≠ LF := by
  simp [plain]

/-- How the first line of the unread bytes ends. -/
inductive LineBreak
  /-- Not yet: the scanner waits at this position. -/
  | unfinished (pos : ℕ)
  /-- At a CR or LF that does not belong to a CRLF. -/
  | broken (pos : ℕ)
  /-- At a CRLF, with the bytes in front of it and behind it. -/
  | complete (line rest : List UInt8)
  deriving DecidableEq

/-- How a line ends that is followed by `tail`, which is empty or begins with
a CR or LF. -/
def lineEnd (line : List UInt8) : List UInt8 → LineBreak
  | [] => .unfinished line.length
  | c :: tail =>
    if c = CR then
      match tail with
      | [] => .unfinished line.length
      | d :: rest => if d = LF then .complete line rest else .broken line.length
    else .broken line.length

/-- The first line of the unread bytes. -/
def nextLine (w : List UInt8) : LineBreak := lineEnd (w.takeWhile plain) (w.dropWhile plain)

/-- Bytes without CR and LF in front belong to the line. -/
theorem nextLine_plain {line tail : List UInt8} (h : ∀ x ∈ line, plain x = true)
    (htail : ∀ c rest, tail = c :: rest → plain c = false) :
    nextLine (line ++ tail) = lineEnd line tail := by
  have htake : (line ++ tail).takeWhile plain = line := by
    rw [List.takeWhile_append_of_pos h]
    cases tail with
    | nil => simp
    | cons c rest => simp [htail c rest rfl]
  have hdrop : (line ++ tail).dropWhile plain = tail := by
    rw [List.dropWhile_append_of_pos h]
    cases tail with
    | nil => rfl
    | cons c rest => simp [htail c rest rfl]
  rw [nextLine, htake, hdrop]

theorem nextLine_all {w : List UInt8} (h : ∀ x ∈ w, plain x = true) :
    nextLine w = .unfinished w.length := by
  have hline := nextLine_plain h (show ∀ c rest, ([] : List UInt8) = c :: rest → plain c = false by simp)
  simpa [lineEnd] using hline

theorem nextLine_crlf {line : List UInt8} (h : ∀ x ∈ line, plain x = true) (rest : List UInt8) :
    nextLine (line ++ CR :: LF :: rest) = .complete line rest := by
  rw [nextLine_plain h (by simp [plain, CR])]
  simp [lineEnd]

/-- The five shapes of the unread bytes, by what follows the first line. -/
theorem nextLine_cases (w : List UInt8) :
    ∃ line, (∀ x ∈ line, plain x = true) ∧ line = w.takeWhile plain ∧
      ((w = line ∧ nextLine w = .unfinished line.length) ∨
       (w = line ++ [CR] ∧ nextLine w = .unfinished line.length) ∨
       (∃ rest, w = line ++ CR :: LF :: rest ∧ nextLine w = .complete line rest) ∨
       (∃ c rest, c ≠ LF ∧ w = line ++ CR :: c :: rest ∧ nextLine w = .broken line.length) ∨
       (∃ rest, w = line ++ LF :: rest ∧ nextLine w = .broken line.length)) := by
  have hw := List.takeWhile_append_dropWhile (p := plain) (l := w)
  refine ⟨w.takeWhile plain, fun x hx => ?_, rfl, ?_⟩
  · have hall := List.all_takeWhile (p := plain) (l := w)
    exact List.all_eq_true.mp hall x hx
  · unfold nextLine
    cases htail : w.dropWhile plain with
    | nil =>
      rw [htail, List.append_nil] at hw
      exact .inl ⟨hw.symm, rfl⟩
    | cons c tail =>
      rw [htail] at hw
      have hc : plain c = false := by
        have hhead := List.head_dropWhile_not plain (l := w) (by rw [htail]; simp)
        simpa [htail] using hhead
      by_cases hcr : c = CR
      · subst hcr
        cases tail with
        | nil => exact .inr (.inl ⟨hw.symm, by simp [lineEnd]⟩)
        | cons d rest =>
          by_cases hlf : d = LF
          · subst hlf
            exact .inr (.inr (.inl ⟨rest, hw.symm, by simp [lineEnd]⟩))
          · exact .inr (.inr (.inr (.inl ⟨d, rest, hlf, hw.symm, by simp [lineEnd, hlf]⟩)))
      · have hlf : c = LF := by
          have hne : ¬ (c ≠ CR ∧ c ≠ LF) := fun h => by simp [plain_iff.mpr h] at hc
          exact Decidable.not_not.mp fun h => hne ⟨hcr, h⟩
        subst hlf
        exact .inr (.inr (.inr (.inr ⟨tail, hw.symm, by simp [lineEnd, hcr]⟩)))

/-- A line that has ended stays as it is when more bytes arrive. -/
theorem nextLine_append {w : List UInt8} (more : List UInt8) :
    (∀ pos, nextLine w = .broken pos → nextLine (w ++ more) = .broken pos) ∧
    (∀ line rest, nextLine w = .complete line rest →
      nextLine (w ++ more) = .complete line (rest ++ more)) := by
  obtain ⟨line, hline, -, h | h | ⟨rest, h⟩ | ⟨c, rest, hc, h⟩ | ⟨rest, h⟩⟩ := nextLine_cases w
  · simp [h.2]
  · simp [h.2]
  · rw [h.2, h.1, List.append_assoc, nextLine_plain hline (by simp [plain, CR])]
    simp [lineEnd]
  · rw [h.2, h.1, List.append_assoc, nextLine_plain hline (by simp [plain, CR])]
    simp [lineEnd, hc]
  · rw [h.2, h.1, List.append_assoc, nextLine_plain hline (by simp [plain, LF])]
    simp [lineEnd, CR, LF]

/-- A complete line and its CRLF are the front of the unread bytes. -/
theorem nextLine_complete {w line rest : List UInt8} (h : nextLine w = .complete line rest) :
    w = line ++ CR :: LF :: rest := by
  obtain ⟨line', -, -, h' | h' | ⟨rest', h'⟩ | ⟨c, rest', -, h'⟩ | ⟨rest', h'⟩⟩ :=
    nextLine_cases w <;> rw [h'.2] at h <;> cases h
  exact h'.1

theorem nextLine_complete_plain {w line rest : List UInt8} (h : nextLine w = .complete line rest) :
    ∀ x ∈ line, plain x = true := by
  obtain ⟨line', hline, -, h' | h' | ⟨rest', h'⟩ | ⟨c, rest', -, h'⟩ | ⟨rest', h'⟩⟩ :=
    nextLine_cases w <;> rw [h'.2] at h <;> cases h
  exact hline

/-- An unfinished scan has passed over the whole line. -/
theorem nextLine_unfinished {w : List UInt8} {pos : ℕ} (h : nextLine w = .unfinished pos) :
    pos = (w.takeWhile plain).length := by
  obtain ⟨line, -, htake, h' | h' | ⟨rest, h'⟩ | ⟨c, rest, -, h'⟩ | ⟨rest, h'⟩⟩ :=
    nextLine_cases w <;> rw [h'.2] at h <;> cases h <;> rw [htake]

theorem nextLine_broken {w : List UInt8} {pos : ℕ} (h : nextLine w = .broken pos) :
    pos = (w.takeWhile plain).length := by
  obtain ⟨line, -, htake, h' | h' | ⟨rest, h'⟩ | ⟨c, rest, -, h'⟩ | ⟨rest, h'⟩⟩ :=
    nextLine_cases w <;> rw [h'.2] at h <;> cases h <;> rw [htake]

theorem byteAt_append {front back : List UInt8} {c : UInt8} :
    byteAt (front ++ c :: back) front.length = .ok c := by
  simp [byteAt]

/-- The scanner passes over bytes that are neither CR nor LF. -/
theorem parseLine_skip {line tail : List UInt8} {sz i : ℕ} (h : ∀ x ∈ line, plain x = true)
    (hi : i ≤ line.length) (hsz : line.length ≤ sz) :
    parseLine (line ++ tail) sz i = parseLine (line ++ tail) sz line.length := by
  induction hn : line.length - i generalizing i with
  | zero =>
    have heq : i = line.length := by omega
    rw [heq]
  | succ n ih =>
    have hlt : i < line.length := by omega
    have hbyte : byteAt (line ++ tail) i = .ok (line)[i] := by
      simp [byteAt, List.getElem?_append_left hlt, hlt]
    obtain ⟨hcr, hlf⟩ := plain_iff.mp (h (line)[i] (List.getElem_mem hlt))
    rw [parseLine, if_pos (by omega), hbyte]
    simp only [bind, Except.bind, if_neg hcr, if_neg hlf]
    exact ih hlt (by omega)

/-- What `parseLine` returns, by the first line of the unread bytes, when the
scan position is not behind that line. -/
theorem parseLine_nextLine {w : List UInt8} (free : List UInt8) {i : ℕ}
    (hi : i ≤ (w.takeWhile plain).length) :
    parseLine (w ++ free) w.length i = .ok (match nextLine w with
      | .unfinished pos => (LINE_OPEN, pos, w ++ free)
      | .broken pos => (LINE_BAD, pos, w ++ free)
      | .complete line rest => (LINE_OK, line.length + 2, line ++ 0 :: 0 :: (rest ++ free))) := by
  obtain ⟨line, hline, htake, h⟩ := nextLine_cases w
  rw [← htake] at hi
  rcases h with h | h | ⟨rest, h⟩ | ⟨c, rest, hc, h⟩ | ⟨rest, h⟩
  · rw [h.2, h.1, parseLine_skip hline hi (Nat.le_refl _), parseLine, if_neg (by omega)]
  · rw [h.2, h.1, List.append_assoc, parseLine_skip hline hi (by simp), parseLine,
      if_pos (by simp), List.singleton_append, byteAt_append]
    simp [bind, Except.bind, pure, Except.pure]
  · have hnext : byteAt (line ++ CR :: LF :: (rest ++ free)) (line.length + 1) = .ok LF := by
      simp [byteAt]
    rw [h.2, h.1, List.append_assoc, List.cons_append, List.cons_append,
      parseLine_skip hline hi (by simp), parseLine, if_pos (by simp), byteAt_append]
    simp only [bind, Except.bind, pure, Except.pure, if_true, hnext]
    rw [if_neg (by simp)]
    simp
  · have hnext : byteAt (line ++ CR :: c :: (rest ++ free)) (line.length + 1) = .ok c := by
      simp [byteAt]
    rw [h.2, h.1, List.append_assoc, List.cons_append, List.cons_append,
      parseLine_skip hline hi (by simp), parseLine, if_pos (by simp), byteAt_append]
    simp only [bind, Except.bind, pure, Except.pure, if_true, hnext, if_neg hc]
    rw [if_neg (by simp)]
  · rw [h.2, h.1, List.append_assoc, List.cons_append, parseLine_skip hline hi (by simp),
      parseLine, if_pos (by simp), byteAt_append]
    simp only [bind, Except.bind, pure, Except.pure, if_true]
    rw [if_neg (by simp [CR, LF])]
    -- the byte in front of the LF has been passed over, so it is no CR
    by_cases hpos : line.length > 1
    · have hlt : line.length - 1 < line.length := by omega
      have hprev : byteAt (line ++ LF :: (rest ++ free)) (line.length - 1) =
          .ok (line)[line.length - 1] := by
        simp [byteAt, List.getElem?_append_left hlt, hlt]
      have hcr := (plain_iff.mp (hline _ (List.getElem_mem hlt))).1
      rw [if_pos hpos, hprev]
      simp only [if_neg hcr]
    · rw [if_neg hpos]

theorem zero_set {w : List UInt8} {k : ℕ} (h : w[k]? = some 0) (i : ℕ) :
    (w.set i 0)[k]? = some 0 := by
  have hlt : k < w.length := (List.getElem?_eq_some_iff.mp h).1
  rw [List.getElem?_set]
  by_cases hi : i = k
  · rw [if_pos hi, if_pos (by omega)]
  · rw [if_neg hi, h]

/-- The scan position stays within the unread bytes. -/
theorem parseLine_le {rd_buf text : List UInt8} {sz i j : ℕ} {ls : LINE_STATE}
    (h : parseLine rd_buf sz i = .ok (ls, j, text)) (hi : i ≤ sz) : j ≤ sz := by
  cases parseLine_cases h with
  | unfinished hj => exact hj hi
  | broken hj => exact Nat.le_of_lt hj
  | crlf _ hj => exact hj
  | lf _ hj => exact hj

/-- The scanner writes inside the unread bytes only, and only zeros. -/
theorem parseLine_zero {w free text : List UInt8} {i j : ℕ} {ls : LINE_STATE}
    (h : parseLine (w ++ free) w.length i = .ok (ls, j, text)) :
    ∃ w', text = w' ++ free ∧ w'.length = w.length ∧
      ∀ k : ℕ, w[k]? = some 0 → w'[k]? = some 0 := by
  have hcut : ∀ p q, p < w.length → q < w.length → ∃ w', ((w ++ free).set p 0).set q 0 = w' ++ free ∧
      w'.length = w.length ∧ ∀ k : ℕ, w[k]? = some 0 → w'[k]? = some 0 := by
    intro p q hp hq
    refine ⟨(w.set p 0).set q 0, ?_, by simp, fun k hk => zero_set (zero_set hk p) q⟩
    rw [List.set_append_left _ _ hp, List.set_append_left _ _ (by simpa using hq)]
  cases parseLine_cases h with
  | unfinished | broken => exact ⟨w, rfl, rfl, fun _ hk => hk⟩
  | @crlf pos _ hpos => exact hcut pos (pos + 1) (by omega) hpos
  | @lf pos _ hpos => exact hcut pos (pos - 1) hpos (by omega)

theorem set_middle {front back : List UInt8} {c d : UInt8} {n : ℕ} (h : front.length = n) :
    (front ++ c :: back).set n d = front ++ d :: back := by
  subst h
  simp

theorem drop_middle {front back : List UInt8} {c : UInt8} {n : ℕ} (h : front.length + 1 = n) :
    (front ++ c :: back).drop n = back := by
  subst h
  simp

namespace HttpRequest

/-- The method that the first word of a line names. -/
def methodOf (word : List UInt8) : Option METHOD :=
  if strcasecmp word textGET = 0 then some GET
  else if strcasecmp word textPOST = 0 then some POST
  else none

/-- A line without blanks is rejected as it is. -/
theorem parseRequest_noBlank (req : HttpRequest) {line : List UInt8} (h₀ : (0 : UInt8) ∉ line)
    (hline : ∀ x ∈ line, x ∉ blanks) (more : List UInt8) :
    req.parseRequest (line ++ 0 :: more) = .ok (BAD_REQUEST, req, line ++ 0 :: more) := by
  simp only [parseRequest, cstr_content h₀, strpbrk_eq_none hline, bind, Except.bind, pure,
    Except.pure]

section Words

/-! A line of words: `front` up to the blank `c`, then the blanks `w`, the word
`u` up to the blank `d`, then the blanks `w'` and the rest `v`. -/

variable {front w u w' v : List UInt8} {c d : UInt8}

/-- A line whose first word is no method is rejected, cut behind that word. -/
theorem parseRequest_noMethod (req : HttpRequest) {back : List UInt8}
    (hline : (0 : UInt8) ∉ front ++ c :: back) (hfront : ∀ x ∈ front, x ∉ blanks)
    (hc : c ∈ blanks) (hm : methodOf front = none) (more : List UInt8) :
    req.parseRequest (front ++ c :: back ++ 0 :: more) =
      .ok (BAD_REQUEST, req, front ++ 0 :: back ++ 0 :: more) := by
  have h₀ : (0 : UInt8) ∉ front := fun h => hline (List.mem_append_left _ h)
  have hset : (front ++ c :: back ++ 0 :: more).set front.length 0 =
      front ++ 0 :: (back ++ 0 :: more) := by
    rw [List.append_assoc, List.cons_append, set_middle rfl]
  unfold methodOf at hm
  simp only [parseRequest, cstr_content hline, strpbrk_append hfront hc, hset, cstr_content h₀, hm,
    bind, Except.bind, pure, Except.pure]
  simp

/-- A line without a blank behind its second word is rejected. -/
theorem parseRequest_noVersion (req : HttpRequest) {m : METHOD}
    (hline : (0 : UInt8) ∉ front ++ c :: (w ++ u))
    (hfront : ∀ x ∈ front, x ∉ blanks) (hc : c ∈ blanks) (hm : methodOf front = some m)
    (hw : ∀ x ∈ w, x ∈ blanks) (hu : ∀ x ∈ u, x ∉ blanks) (more : List UInt8) :
    req.parseRequest (front ++ c :: (w ++ u) ++ 0 :: more) =
      .ok (BAD_REQUEST, { req with method := some m }, front ++ 0 :: (w ++ u) ++ 0 :: more) := by
  have h₀ : (0 : UInt8) ∉ front := fun h => hline (List.mem_append_left _ h)
  have hback : (0 : UInt8) ∉ w ++ u :=
    fun h => hline (List.mem_append_right _ (List.mem_cons_of_mem c h))
  have hu₀ : (0 : UInt8) ∉ u := fun h => hback (List.mem_append_right _ h)
  have hspn : strspn (w ++ u) blanks = w.length :=
    strspn_append hw fun x tail hx => hu x (by simp [hx])
  have hset : (front ++ c :: (w ++ u) ++ 0 :: more).set front.length 0 =
      front ++ 0 :: (w ++ u ++ 0 :: more) := by
    rw [List.append_assoc, List.cons_append, set_middle rfl]
  have hdrop : (front ++ 0 :: (w ++ u ++ 0 :: more)).drop (front.length + 1) =
      w ++ u ++ 0 :: more := drop_middle rfl
  have htarget : (front ++ 0 :: (w ++ u ++ 0 :: more)).drop (front.length + 1 + w.length) =
      u ++ 0 :: more := by
    rw [← List.drop_drop, hdrop, List.append_assoc, List.drop_left]
  unfold methodOf at hm
  simp only [parseRequest, cstr_content hline, strpbrk_append hfront hc, hset, cstr_content h₀, hm,
    hdrop, cstr_content hback, hspn, htarget, cstr_content hu₀, strpbrk_eq_none hu, bind,
    Except.bind, pure, Except.pure]
  simp

/-- A line of three words or more, cut behind the first two. -/
theorem parseRequest_words (req : HttpRequest) {m : METHOD} {x : UInt8} {u : List UInt8}
    (hline : (0 : UInt8) ∉ front ++ c :: (w ++ (x :: u ++ d :: (w' ++ v))))
    (hfront : ∀ x ∈ front, x ∉ blanks) (hc : c ∈ blanks) (hm : methodOf front = some m)
    (hw : ∀ x ∈ w, x ∈ blanks) (hu : ∀ y ∈ x :: u, y ∉ blanks) (hd : d ∈ blanks)
    (hw' : ∀ x ∈ w', x ∈ blanks) (hv : ∀ y tail, v = y :: tail → y ∉ blanks) (more : List UInt8) :
    req.parseRequest (front ++ c :: (w ++ (x :: u ++ d :: (w' ++ v))) ++ 0 :: more) =
      let text := front ++ 0 :: (w ++ (x :: u ++ 0 :: (w' ++ v))) ++ 0 :: more
      if strcasecmp v textVersion ≠ 0 then
        .ok (BAD_REQUEST, { req with method := some m }, text)
      else (stripScheme { req with method := some m } (x :: u)).map fun req' =>
        if x ≠ slash then (BAD_REQUEST, req', text)
        else (NO_REQUEST,
          { req' with url := x :: u, version := v, mCheckState := CHECK_STATE_HEADER }, text) := by
  have h₀ : (0 : UInt8) ∉ front := fun h => hline (List.mem_append_left _ h)
  have hrest : (0 : UInt8) ∉ w ++ (x :: u ++ d :: (w' ++ v)) :=
    fun h => hline (List.mem_append_right _ (List.mem_cons_of_mem c h))
  have htail : (0 : UInt8) ∉ x :: u ++ d :: (w' ++ v) := fun h => hrest (List.mem_append_right _ h)
  have hu₀ : (0 : UInt8) ∉ x :: u := fun h => htail (List.mem_append_left _ h)
  have hback : (0 : UInt8) ∉ w' ++ v :=
    fun h => htail (List.mem_append_right _ (List.mem_cons_of_mem d h))
  have hv₀ : (0 : UInt8) ∉ v := fun h => hback (List.mem_append_right _ h)
  have hspn : strspn (w ++ (x :: u ++ d :: (w' ++ v))) blanks = w.length := by
    refine strspn_append hw fun y tail hy => ?_
    cases hy
    exact hu x List.mem_cons_self
  have hspn' : strspn (w' ++ v) blanks = w'.length := strspn_append hw' hv
  -- the text after the first and after the second cut
  have hset : (front ++ c :: (w ++ (x :: u ++ d :: (w' ++ v))) ++ 0 :: more).set front.length 0 =
      front ++ 0 :: (w ++ (x :: u ++ d :: (w' ++ v)) ++ 0 :: more) := by
    rw [List.append_assoc, List.cons_append, set_middle rfl]
  have hdrop : (front ++ 0 :: (w ++ (x :: u ++ d :: (w' ++ v)) ++ 0 :: more)).drop
      (front.length + 1) = w ++ (x :: u ++ d :: (w' ++ v)) ++ 0 :: more := drop_middle rfl
  have htarget : (front ++ 0 :: (w ++ (x :: u ++ d :: (w' ++ v)) ++ 0 :: more)).drop
      (front.length + 1 + w.length) = x :: u ++ d :: (w' ++ v) ++ 0 :: more := by
    rw [← List.drop_drop, hdrop, List.append_assoc, List.drop_left]
  have hset' : (front ++ 0 :: (w ++ (x :: u ++ d :: (w' ++ v)) ++ 0 :: more)).set
      (front.length + 1 + w.length + (x :: u).length) 0 =
        (front ++ 0 :: (w ++ x :: u)) ++ 0 :: (w' ++ v ++ 0 :: more) := by
    have hsplit : front ++ 0 :: (w ++ (x :: u ++ d :: (w' ++ v)) ++ 0 :: more) =
        (front ++ 0 :: (w ++ x :: u)) ++ d :: (w' ++ v ++ 0 :: more) := by simp
    rw [hsplit, set_middle (by simp; omega)]
  have hafter : ((front ++ 0 :: (w ++ x :: u)) ++ 0 :: (w' ++ v ++ 0 :: more)).drop
      (front.length + 1 + w.length + (x :: u).length + 1) = w' ++ v ++ 0 :: more :=
    drop_middle (by simp; omega)
  have hversion : ((front ++ 0 :: (w ++ x :: u)) ++ 0 :: (w' ++ v ++ 0 :: more)).drop
      (front.length + 1 + w.length + (x :: u).length + 1 + w'.length) = v ++ 0 :: more := by
    rw [← List.drop_drop, hafter, List.append_assoc, List.drop_left]
  have hurl : ((front ++ 0 :: (w ++ x :: u)) ++ 0 :: (w' ++ v ++ 0 :: more)).drop
      (front.length + 1 + w.length) = x :: u ++ 0 :: (w' ++ v ++ 0 :: more) := by
    have hsplit : (front ++ 0 :: (w ++ x :: u)) ++ 0 :: (w' ++ v ++ 0 :: more) =
        (front ++ 0 :: w) ++ (x :: u ++ 0 :: (w' ++ v ++ 0 :: more)) := by simp
    rw [hsplit, List.drop_left' (by simp; omega)]
  have hfirst : byteAt ((front ++ 0 :: (w ++ x :: u)) ++ 0 :: (w' ++ v ++ 0 :: more))
      (front.length + 1 + w.length) = .ok x := by
    have hget := congrArg (fun l : List UInt8 => l[0]?) hurl
    simp only [List.getElem?_drop, Nat.add_zero] at hget
    rw [byteAt, hget]
    rfl
  have htext : front ++ 0 :: (w ++ (x :: u ++ 0 :: (w' ++ v))) ++ 0 :: more =
      (front ++ 0 :: (w ++ x :: u)) ++ 0 :: (w' ++ v ++ 0 :: more) := by simp
  unfold methodOf at hm
  simp only [htext]
  simp only [parseRequest, cstr_content hline, strpbrk_append hfront hc, hset, cstr_content h₀, hm,
    hdrop, cstr_content hrest, hspn, htarget, cstr_content htail, strpbrk_append hu hd, hset',
    hafter, cstr_content hback, hspn', hversion, cstr_content hv₀, hurl, cstr_content hu₀, hfirst,
    bind, Except.bind, pure, Except.pure]
  split
  · rfl
  · cases stripScheme { req with method := some m } (x :: u) with
    | error e => rfl
    | ok req' =>
      dsimp only [Except.map]
      split <;> rfl

end Words

/-- The shapes of a line that the request line parser tells apart. -/
inductive LineWords : List UInt8 → Prop
  | noBlank {line : List UInt8} (hline : ∀ x ∈ line, x ∉ blanks) : LineWords line
  | noMethod {front back : List UInt8} {c : UInt8} (hfront : ∀ x ∈ front, x ∉ blanks)
      (hc : c ∈ blanks) (hm : methodOf front = none) : LineWords (front ++ c :: back)
  | noVersion {front w u : List UInt8} {c : UInt8} {m : METHOD} (hfront : ∀ x ∈ front, x ∉ blanks)
      (hc : c ∈ blanks) (hm : methodOf front = some m) (hw : ∀ x ∈ w, x ∈ blanks)
      (hu : ∀ x ∈ u, x ∉ blanks) : LineWords (front ++ c :: (w ++ u))
  | words {front w u w' v : List UInt8} {c x d : UInt8} {m : METHOD}
      (hfront : ∀ x ∈ front, x ∉ blanks) (hc : c ∈ blanks) (hm : methodOf front = some m)
      (hw : ∀ x ∈ w, x ∈ blanks) (hu : ∀ y ∈ x :: u, y ∉ blanks) (hd : d ∈ blanks)
      (hw' : ∀ x ∈ w', x ∈ blanks) (hv : ∀ y tail, v = y :: tail → y ∉ blanks) :
      LineWords (front ++ c :: (w ++ (x :: u ++ d :: (w' ++ v))))

/-- Every line has one of them. -/
theorem lineWords (line : List UInt8) : LineWords line := by
  rcases exists_strpbrk line blanks with hline | ⟨front, c, back, rfl, hfront, hc⟩
  · exact .noBlank hline
  cases hm : methodOf front with
  | none => exact .noMethod hfront hc hm
  | some m =>
    obtain ⟨w, rest, rfl, hw, hrest⟩ := exists_strspn back blanks
    rcases exists_strpbrk rest blanks with hu | ⟨u, d, back', rfl, hu, hd⟩
    · exact .noVersion hfront hc hm hw hu
    · cases u with
      | nil => exact absurd hd (hrest d back' rfl)
      | cons x u =>
        obtain ⟨w', v, rfl, hw', hv⟩ := exists_strspn back' blanks
        exact .words hfront hc hm hw hu hd hw' hv

/-- The request line parser neither reads nor writes behind the first NUL. -/
theorem parseRequest_content (req : HttpRequest) {line : List UInt8} (h₀ : (0 : UInt8) ∉ line) :
    ∃ r : Except Fault (HTTP_CODE × HttpRequest × List UInt8), ∀ more,
      req.parseRequest (line ++ 0 :: more) =
        r.map fun p => (p.1, p.2.1, p.2.2 ++ 0 :: more) := by
  cases lineWords line with
  | noBlank hline =>
    refine ⟨.ok (BAD_REQUEST, req, line), fun more => ?_⟩
    rw [req.parseRequest_noBlank h₀ hline]
    rfl
  | @noMethod front back c hfront hc hm =>
    refine ⟨.ok (BAD_REQUEST, req, front ++ 0 :: back), fun more => ?_⟩
    rw [req.parseRequest_noMethod h₀ hfront hc hm]
    rfl
  | @noVersion front w u c m hfront hc hm hw hu =>
    refine ⟨.ok (BAD_REQUEST, { req with method := some m }, front ++ 0 :: (w ++ u)), fun more => ?_⟩
    rw [req.parseRequest_noVersion h₀ hfront hc hm hw hu]
    rfl
  | @words front w u w' v c x d m hfront hc hm hw hu hd hw' hv =>
    let text := front ++ 0 :: (w ++ (x :: u ++ 0 :: (w' ++ v)))
    refine ⟨if strcasecmp v textVersion ≠ 0 then
        .ok (BAD_REQUEST, { req with method := some m }, text)
      else (stripScheme { req with method := some m } (x :: u)).map fun req' =>
        if x ≠ slash then (BAD_REQUEST, req', text)
        else (NO_REQUEST,
          { req' with url := x :: u, version := v, mCheckState := CHECK_STATE_HEADER }, text),
      fun more => ?_⟩
    rw [req.parseRequest_words h₀ hfront hc hm hw hu hd hw' hv]
    dsimp only
    split
    · rfl
    · cases stripScheme { req with method := some m } (x :: u) with
      | error e => rfl
      | ok req' =>
        dsimp only [Except.map]
        split <;> rfl

/-- What stands behind a NUL plays no part in the request line. -/
theorem parseRequest_append (req : HttpRequest) (line more : List UInt8) :
    req.parseRequest (line ++ 0 :: more) =
      (req.parseRequest (line ++ [0])).map fun p => (p.1, p.2.1, p.2.2 ++ more) := by
  have hlocal : ∀ {front : List UInt8} (mid : List UInt8), (0 : UInt8) ∉ front →
      req.parseRequest (front ++ 0 :: (mid ++ more)) =
        (req.parseRequest (front ++ 0 :: mid)).map fun p => (p.1, p.2.1, p.2.2 ++ more) := by
    intro front mid h₀
    obtain ⟨r, hr⟩ := parseRequest_content req h₀
    rw [hr, hr]
    cases r with
    | error e => rfl
    | ok p => simp [Except.map]
  by_cases h₀ : (0 : UInt8) ∈ line
  · obtain ⟨front, back, rfl, hfront⟩ := List.eq_append_cons_of_mem h₀
    have h := hlocal (back ++ [0]) hfront
    simpa using h
  · have h := hlocal [] h₀
    simpa using h

/-- The request line is cut in at most two places. -/
theorem parseRequest_text {req req' : HttpRequest} {text text' : List UInt8} {ret : HTTP_CODE}
    (h : req.parseRequest text = .ok (ret, req', text')) :
    text' = text ∨ ∃ i, text' = text.set i 0 ∨ ∃ j, text' = (text.set i 0).set j 0 := by
  obtain ⟨line, -, h⟩ := bind_eq_ok h
  split at h
  · cases h
    exact .inl rfl
  rename_i i _
  obtain ⟨_method, -, h⟩ := bind_eq_ok h
  dsimp only at h
  split at h
  · cases h
    exact .inr ⟨i, .inl rfl⟩
  obtain ⟨s₁, -, h⟩ := bind_eq_ok h
  obtain ⟨s₂, -, h⟩ := bind_eq_ok h
  split at h
  · cases h
    exact .inr ⟨i, .inl rfl⟩
  obtain ⟨s₃, -, h⟩ := bind_eq_ok h
  obtain ⟨versionText, -, h⟩ := bind_eq_ok h
  split at h
  · cases h
    exact .inr ⟨i, .inr ⟨_, rfl⟩⟩
  obtain ⟨urlText, -, h⟩ := bind_eq_ok h
  obtain ⟨req₁, -, h⟩ := bind_eq_ok h
  obtain ⟨c, -, h⟩ := bind_eq_ok h
  split at h <;> cases h <;> exact .inr ⟨i, .inr ⟨_, rfl⟩⟩

/-- Cutting the request line keeps its length. -/
theorem parseRequest_length {req req' : HttpRequest} {text text' : List UInt8} {ret : HTTP_CODE}
    (h : req.parseRequest text = .ok (ret, req', text')) : text'.length = text.length := by
  rcases parseRequest_text h with rfl | ⟨i, rfl | ⟨j, rfl⟩⟩
  · rfl
  · exact List.length_set
  · rw [List.length_set, List.length_set]

/-- Cutting the request line brings in no byte but NUL. -/
theorem parseRequest_mem {req req' : HttpRequest} {text text' : List UInt8} {ret : HTTP_CODE}
    (h : req.parseRequest text = .ok (ret, req', text')) : ∀ c ∈ text', c ∈ text ∨ c = 0 := by
  intro c hc
  rcases parseRequest_text h with rfl | ⟨i, rfl | ⟨j, rfl⟩⟩
  · exact .inl hc
  · exact List.mem_or_eq_of_mem_set hc
  · rcases List.mem_or_eq_of_mem_set hc with hc | hc
    · exact List.mem_or_eq_of_mem_set hc
    · exact .inr hc

/-- What stands behind a NUL plays no part in a header line. -/
theorem parseHeader_append (req : HttpRequest) (line more : List UInt8) :
    req.parseHeader (line ++ 0 :: more) = req.parseHeader (line ++ [0]) := by
  rw [parseHeader, parseHeader, cstr_append line more]

end HttpRequest

end KyrosWebServer.Http
