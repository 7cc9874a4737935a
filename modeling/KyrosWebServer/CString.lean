import KyrosWebServer.CMemory

/-!
# NUL-terminated strings

The C string functions that a text parser needs, on the content in front of
the terminating NUL. A `char*` is the list of bytes from the pointer to the
end of its storage; `cstr` finds the content or runs off the storage.
Case folding is that of the C locale.
-/

namespace KyrosWebServer.CString

open CMemory

/-- The bytes in front of the first NUL. -/
def cstr : List UInt8 → Except Fault (List UInt8)
  | [] => .error .outOfBounds
  | c :: text => if c = 0 then .ok [] else (cstr text).map (c :: ·)

/-- The part of a text that the C string functions see. -/
def content (text : List UInt8) : List UInt8 := text.takeWhile (· != 0)

/-- `strpbrk`: position of the first byte that is in `accept`. -/
def strpbrk (s accept : List UInt8) : Option ℕ := s.findIdx? (accept.contains ·)

/-- `strspn`: length of the longest prefix made of bytes of `accept`. -/
def strspn (s accept : List UInt8) : ℕ := (s.takeWhile (accept.contains ·)).length

/-- `strchr` for a byte other than NUL. -/
def strchr (s : List UInt8) (c : UInt8) : Option ℕ := s.findIdx? (· == c)

/-- Lower-case form of an ASCII letter, other bytes unchanged. -/
def tolower (c : UInt8) : UInt8 := if 65 ≤ c ∧ c ≤ 90 then c + 32 else c

/-- `strcasecmp`: difference of the first bytes that differ after folding,
where the end of a string counts as NUL. -/
def strcasecmp : List UInt8 → List UInt8 → ℤ
  | [], [] => 0
  | a :: _, [] => (tolower a).toNat
  | [], b :: _ => -(tolower b).toNat
  | a :: s, b :: t =>
    if tolower a = tolower b then strcasecmp s t else (tolower a).toNat - (tolower b).toNat

/-- `strncasecmp`: the same for at most `n` bytes of each string. -/
def strncasecmp (s t : List UInt8) (n : ℕ) : ℤ := strcasecmp (s.take n) (t.take n)

/-- `isspace` of the C locale. -/
def isspace (c : UInt8) : Bool := c == 32 || (9 ≤ c && c ≤ 13)

/-- `isdigit`. -/
def isdigit (c : UInt8) : Bool := 48 ≤ c && c ≤ 57

/-- The value of the leading decimal digits, on top of those already read. -/
def digitsValue : List UInt8 → ℕ → ℕ
  | [], acc => acc
  | c :: s, acc => if isdigit c then digitsValue s (10 * acc + (c.toNat - 48)) else acc

/-- `atol` as `strtol` in base ten: leading spaces, an optional sign, digits,
saturating at the range of a 64-bit `long`. -/
def atol (s : List UInt8) : ℤ :=
  match s.dropWhile isspace with
  | [] => 0
  | c :: t =>
    if c = 45 then max (-9223372036854775808) (-(digitsValue t 0 : ℤ))
    else if c = 43 then min 9223372036854775807 (digitsValue t 0 : ℤ)
    else min 9223372036854775807 (digitsValue (c :: t) 0 : ℤ)

/-- The content of a string is found whatever follows the NUL. -/
theorem cstr_content {s : List UInt8} (h : (0 : UInt8) ∉ s) (rest : List UInt8) :
    cstr (s ++ 0 :: rest) = .ok s := by
  induction s with
  | nil => rfl
  | cons c s ih =>
    have hc : c ≠ 0 := fun h0 => h (h0 ▸ List.mem_cons_self)
    rw [List.cons_append, cstr, if_neg hc, ih fun hs => h (List.mem_cons_of_mem c hs)]
    rfl

/-- Whatever follows a NUL is no part of the string in front of it. -/
theorem cstr_append (text more : List UInt8) : cstr (text ++ 0 :: more) = cstr (text ++ [0]) := by
  induction text with
  | nil => rfl
  | cons c text ih => simp only [List.cons_append, cstr, ih]

/-- The search for the NUL runs off the storage exactly when there is none. -/
theorem cstr_eq_error {text : List UInt8} {e : Fault} :
    cstr text = .error e ↔ e = .outOfBounds ∧ (0 : UInt8) ∉ text := by
  induction text with
  | nil => simp [cstr, eq_comm]
  | cons c text ih =>
    rw [cstr, List.mem_cons, not_or]
    by_cases hc : c = 0
    · simp [hc]
    · rw [if_neg hc, map_eq_error, ih]
      simp [Ne.symm hc]

theorem zero_notMem_content (text : List UInt8) : (0 : UInt8) ∉ content text := by
  intro h
  have hall := List.all_eq_true.mp List.all_takeWhile 0 h
  simp at hall

/-- A text without a NUL is seen as a whole. -/
theorem content_eq_self {text : List UInt8} (h : (0 : UInt8) ∉ text) : content text = text := by
  have hall : ∀ c ∈ text, (c != 0) = true := fun c hc => by
    have hne : c ≠ 0 := fun h₀ => h (h₀ ▸ hc)
    simpa using hne
  have happend : (text ++ []).takeWhile (· != 0) = text ++ List.takeWhile (· != 0) [] :=
    List.takeWhile_append_of_pos hall
  simpa [content] using happend

theorem content_append {front : List UInt8} (h : (0 : UInt8) ∉ front) (rest : List UInt8) :
    content (front ++ 0 :: rest) = front := by
  have hall : ∀ c ∈ front, (c != 0) = true := fun c hc => by
    have hne : c ≠ 0 := fun h₀ => h (h₀ ▸ hc)
    simpa using hne
  rw [content, List.takeWhile_append_of_pos hall]
  simp

/-- A text and its NUL, split at the first NUL. -/
theorem content_split (text : List UInt8) : ∃ more, text ++ [0] = content text ++ 0 :: more := by
  have hsplit := List.takeWhile_append_dropWhile (p := (· != 0)) (l := text)
  unfold content
  cases hdrop : text.dropWhile (· != 0) with
  | nil =>
    rw [hdrop, List.append_nil] at hsplit
    rw [hsplit]
    exact ⟨[], rfl⟩
  | cons c tail =>
    have hhead := List.head_dropWhile_not (· != (0 : UInt8)) (l := text)
      (by rw [hdrop]; exact nofun)
    simp only [hdrop, List.head_cons, bne_eq_false_iff_eq] at hhead
    rw [hdrop, hhead] at hsplit
    refine ⟨tail ++ [0], ?_⟩
    conv => lhs; rw [← hsplit]
    simp

/-- A found byte splits the string in front of it. -/
theorem strpbrk_eq_some {s accept : List UInt8} {i : ℕ} (h : strpbrk s accept = some i) :
    ∃ front c back, s = front ++ c :: back ∧ front.length = i ∧ c ∈ accept ∧
      ∀ x ∈ front, x ∉ accept := by
  unfold strpbrk at h
  obtain ⟨hlt, hc, hfront⟩ := List.findIdx?_eq_some_iff_getElem.mp h
  refine ⟨s.take i, s[i], s.drop (i + 1), ?_, ?_, ?_, ?_⟩
  · rw [List.getElem_cons_drop, List.take_append_drop]
  · rw [List.length_take]
    omega
  · simpa using hc
  · intro x hx
    obtain ⟨j, hj, rfl⟩ := List.getElem_of_mem hx
    rw [List.length_take] at hj
    have hneg := hfront j (by omega)
    rw [List.getElem_take]
    simpa using hneg

/-- A string has no byte of `accept`, or splits at the first one. -/
theorem exists_strpbrk (s accept : List UInt8) :
    (∀ x ∈ s, x ∉ accept) ∨ ∃ front c back, s = front ++ c :: back ∧
      (∀ x ∈ front, x ∉ accept) ∧ c ∈ accept := by
  cases h : strpbrk s accept with
  | none =>
    left
    simpa [strpbrk, List.findIdx?_eq_none_iff] using h
  | some i =>
    obtain ⟨front, c, back, hs, -, hc, hfront⟩ := strpbrk_eq_some h
    exact .inr ⟨front, c, back, hs, hfront, hc⟩

/-- The first byte of `accept` is where the bytes in front of it end. -/
theorem strpbrk_append {front back accept : List UInt8} {c : UInt8}
    (hfront : ∀ x ∈ front, x ∉ accept) (hc : c ∈ accept) :
    strpbrk (front ++ c :: back) accept = some front.length := by
  induction front with
  | nil => simp [strpbrk, List.findIdx?_cons, hc]
  | cons x front ih =>
    have hx : x ∉ accept := hfront x List.mem_cons_self
    have hrest := ih fun y hy => hfront y (List.mem_cons_of_mem x hy)
    unfold strpbrk at hrest ⊢
    rw [List.cons_append, List.findIdx?_cons, hrest]
    simp [hx]

/-- No byte of `accept` is found where there is none. -/
theorem strpbrk_eq_none {s accept : List UInt8} (h : ∀ x ∈ s, x ∉ accept) :
    strpbrk s accept = none := by
  simpa [strpbrk, List.findIdx?_eq_none_iff] using h

/-- Bytes of `accept` are counted up to the first other byte. -/
theorem strspn_append {w rest accept : List UInt8} (hw : ∀ x ∈ w, x ∈ accept)
    (hrest : ∀ c tail, rest = c :: tail → c ∉ accept) : strspn (w ++ rest) accept = w.length := by
  have hall : ∀ x ∈ w, accept.contains x = true := fun x hx => by simpa using hw x hx
  unfold strspn
  rw [List.takeWhile_append_of_pos hall]
  cases rest with
  | nil => simp
  | cons c tail => simp [hrest c tail rfl]

theorem drop_strspn (s accept : List UInt8) :
    s.drop (strspn s accept) = s.dropWhile (accept.contains ·) := by
  have hsplit := List.takeWhile_append_dropWhile (p := (accept.contains ·)) (l := s)
  have hdrop := congrArg (List.drop (strspn s accept)) hsplit
  rw [strspn, List.drop_left] at hdrop
  exact hdrop.symm

/-- A string is a run of bytes of `accept` and what follows it. -/
theorem exists_strspn (s accept : List UInt8) :
    ∃ w rest, s = w ++ rest ∧ (∀ x ∈ w, x ∈ accept) ∧ ∀ c tail, rest = c :: tail → c ∉ accept := by
  refine ⟨s.takeWhile (accept.contains ·), s.dropWhile (accept.contains ·), ?_, ?_, ?_⟩
  · exact List.takeWhile_append_dropWhile.symm
  · intro x hx
    simpa using List.all_eq_true.mp List.all_takeWhile x hx
  · intro c tail htail hc
    have hhead := List.head_dropWhile_not (accept.contains ·) (l := s) (by rw [htail]; exact nofun)
    simp only [htail, List.head_cons] at hhead
    simp [hc] at hhead

/-- Only NUL folds to NUL. -/
theorem tolower_ne_zero {c : UInt8} (h : c ≠ 0) : tolower c ≠ 0 := by
  unfold tolower
  split
  · next hc =>
    intro hzero
    have hle := UInt8.le_iff_toNat_le.mp hc.2
    have hval := congrArg UInt8.toNat hzero
    simp at hle hval
    omega
  · exact h

/-- Strings compare equal when they are equal after folding. -/
theorem strcasecmp_eq_zero {s t : List UInt8} (hs : (0 : UInt8) ∉ s) (ht : (0 : UInt8) ∉ t) :
    strcasecmp s t = 0 ↔ s.map tolower = t.map tolower := by
  have hval : ∀ {c : UInt8}, c ≠ 0 → ((tolower c).toNat : ℤ) ≠ 0 := by
    intro c hc hzero
    refine tolower_ne_zero hc (UInt8.toNat_inj.mp ?_)
    exact Int.ofNat_inj.mp hzero
  induction s, t using strcasecmp.induct with
  | case1 => simp [strcasecmp]
  | case2 a s =>
    have ha := hval (List.ne_of_not_mem_cons hs).symm
    simpa [strcasecmp] using ha
  | case3 b t =>
    have hb := hval (List.ne_of_not_mem_cons ht).symm
    simpa [strcasecmp] using hb
  | case4 a s b t h ih =>
    have hrest := ih (List.not_mem_of_not_mem_cons hs) (List.not_mem_of_not_mem_cons ht)
    rw [strcasecmp, if_pos h]
    simpa only [List.map_cons, List.cons.injEq, h, true_and] using hrest
  | case5 a s b t h =>
    have hne : (tolower a).toNat ≠ (tolower b).toNat := fun heq => h (UInt8.toNat_inj.mp heq)
    rw [strcasecmp, if_neg h]
    simp only [List.map_cons, List.cons.injEq, h, false_and, iff_false]
    omega

/-- A string begins with another one, ignoring case. -/
theorem strncasecmp_eq_zero {s t : List UInt8} (hs : (0 : UInt8) ∉ s) (ht : (0 : UInt8) ∉ t) :
    strncasecmp s t t.length = 0 ↔ t.map tolower <+: s.map tolower := by
  have htake : (0 : UInt8) ∉ s.take t.length := fun h => hs (List.mem_of_mem_take h)
  rw [strncasecmp, List.take_length, strcasecmp_eq_zero htake ht, List.prefix_iff_eq_take,
    List.length_map, List.map_take]
  exact eq_comm

end KyrosWebServer.CString
