import KyrosWebServer.CMemory

/-!
# The fixed-size byte buffer

`FixedBuffer` from base/Buffer with its two pointers as offsets into the
storage. The pointers are kept signed, because `readPtrMove` moves the read
pointer before it looks at the bounds. `Holds` reads a well-placed buffer as
consumed bytes, unread bytes and free bytes; each operation has one
specification in these terms.
-/

namespace KyrosWebServer.Base

open CMemory

/-- Bytes behind every buffer. -/
def kBufferSize : ℕ := 1024

theorem kBufferSize_eq : kBufferSize = 1024 := rfl

theorem length_zeros : (List.replicate kBufferSize (0 : UInt8)).length = kBufferSize :=
  List.length_replicate

/-- The storage `_buf.._end` and the two pointers, relative to `_buf`. -/
structure FixedBuffer where
  /-- The bytes of the storage. -/
  buf : List UInt8
  /-- Start of the unread bytes. -/
  mReadPtr : ℤ
  /-- End of the unread bytes. -/
  mWritePtr : ℤ
  /-- `_end` is `kBufferSize` bytes behind `_buf`. -/
  length_buf : buf.length = kBufferSize

namespace FixedBuffer

/-- The constructor: uninitialised storage, both pointers at its start. -/
def create (raw : List UInt8) (h : raw.length = kBufferSize) : FixedBuffer := ⟨raw, 0, 0, h⟩

/-- A new buffer whose storage happens to be zero. -/
def blank : FixedBuffer := create (List.replicate kBufferSize 0) length_zeros

/-- `size_t` distance of the pointers. -/
def used (b : FixedBuffer) : ℕ := toSize (b.mWritePtr - b.mReadPtr)

/-- Free bytes, whether in front of the read pointer or behind the write pointer. -/
def avail (b : FixedBuffer) : ℕ := toSize ((kBufferSize : ℤ) - b.used)

/-- Read `n` bytes from a pointer. -/
def load (b : FixedBuffer) (p : ℤ) (n : ℕ) : Except Fault (List UInt8) :=
  if 0 ≤ p ∧ p + n ≤ kBufferSize then .ok ((b.buf.drop p.toNat).take n)
  else .error .outOfBounds

/-- Write bytes from a pointer on. -/
def store (b : FixedBuffer) (p : ℤ) (src : List UInt8) : Except Fault FixedBuffer :=
  if 0 ≤ p ∧ p + src.length ≤ kBufferSize then
    .ok { b with buf := overwrite b.buf p.toNat src,
                 length_buf := by rw [length_overwrite, b.length_buf] }
  else .error .outOfBounds

/-- `append(str, len)` for the `len` bytes of `str`: at the tail when they fit
there, after sliding the unread bytes to the front when they fit in all, else
not at all. The sliding `memcpy` copies the bytes as they were. -/
def append (b : FixedBuffer) (str : List UInt8) : Except Fault (ℕ × FixedBuffer) :=
  let len := str.length
  if toSize (kBufferSize - b.mWritePtr) > len then do
    let b ← b.store b.mWritePtr str
    return (len, { b with mWritePtr := b.mWritePtr + len })
  else if b.avail ≥ len then do
    let used_len := b.used
    let held ← b.load b.mReadPtr used_len
    let b ← b.store 0 held
    let b := { b with mReadPtr := 0, mWritePtr := used_len }
    let b ← b.store b.mWritePtr str
    return (len, { b with mWritePtr := b.mWritePtr + len })
  else .ok (0, b)

/-- The read pointer moves in any case; the result tells whether it stayed
between the storage and the write pointer. -/
def readPtrMove (b : FixedBuffer) (len : ℤ) : ℤ × FixedBuffer :=
  let temp := b.mReadPtr + len
  (if temp ≥ 0 ∧ temp ≤ b.mWritePtr then 0 else -1, { b with mReadPtr := temp })

/-- Both pointers return to the start of the storage. -/
def reset (b : FixedBuffer) : FixedBuffer := { b with mReadPtr := 0, mWritePtr := 0 }

/-- Everything reachable through the read pointer, up to the end of the storage. -/
def readPtr (b : FixedBuffer) : Except Fault (List UInt8) :=
  b.load b.mReadPtr (kBufferSize - b.mReadPtr).toNat

/-- The comment in the class: `_buf<=mReadPtr<=mWritePtr<=_end`. -/
structure Valid (b : FixedBuffer) : Prop where
  /-- The read pointer is not in front of the storage. -/
  read_nonneg : 0 ≤ b.mReadPtr
  /-- The unread bytes have a start and an end. -/
  read_le_write : b.mReadPtr ≤ b.mWritePtr
  /-- The write pointer is not behind the storage. -/
  write_le_end : b.mWritePtr ≤ kBufferSize

/-- The bytes in `[mReadPtr, mWritePtr)`. -/
def unread (b : FixedBuffer) : List UInt8 :=
  (b.buf.drop b.mReadPtr.toNat).take (b.mWritePtr - b.mReadPtr).toNat

/-- The storage read as consumed, unread and free bytes. -/
structure Holds (b : FixedBuffer) (consumed w free : List UInt8) : Prop where
  /-- The three parts make up the storage. -/
  buf_eq : b.buf = consumed ++ (w ++ free)
  /-- The read pointer is behind the consumed bytes. -/
  read_eq : b.mReadPtr = consumed.length
  /-- The write pointer is behind the unread bytes. -/
  write_eq : b.mWritePtr = consumed.length + w.length

variable {b : FixedBuffer} {consumed w free : List UInt8}

/-- Writing to the storage moves no pointer. -/
theorem store_pointers {b' : FixedBuffer} {p : ℤ} {src : List UInt8}
    (h : b.store p src = .ok b') : b'.mReadPtr = b.mReadPtr ∧ b'.mWritePtr = b.mWritePtr := by
  unfold store at h
  split at h
  · cases h
    exact ⟨rfl, rfl⟩
  · contradiction

theorem store_used {b' : FixedBuffer} {p : ℤ} {src : List UInt8}
    (h : b.store p src = .ok b') : b'.used = b.used := by
  obtain ⟨hr, hw⟩ := store_pointers h
  rw [used, hr, hw]
  rfl

/-- Consuming at most the used bytes lowers their number by as much. -/
theorem readPtrMove_used {n : ℕ} (h : n ≤ b.used) : (b.readPtrMove n).2.used = b.used - n := by
  change toSize (b.mWritePtr - (b.mReadPtr + n)) = _
  rw [← Int.sub_sub, toSize_sub h]
  rfl

theorem create_holds (raw : List UInt8) (h : raw.length = kBufferSize) :
    (create raw h).Holds [] [] raw := ⟨rfl, rfl, rfl⟩

theorem Holds.length_eq (h : b.Holds consumed w free) :
    consumed.length + w.length + free.length = kBufferSize := by
  have hl := b.length_buf
  rw [h.buf_eq] at hl
  simpa [Nat.add_assoc] using hl

theorem Holds.valid (h : b.Holds consumed w free) : b.Valid := by
  have hl := h.length_eq
  exact ⟨by rw [h.read_eq]; omega, by rw [h.read_eq, h.write_eq]; omega,
    by rw [h.write_eq]; omega⟩

theorem Holds.unread_eq (h : b.Holds consumed w free) : b.unread = w := by
  have hr : b.mReadPtr.toNat = consumed.length := by rw [h.read_eq]; omega
  have hn : (b.mWritePtr - b.mReadPtr).toNat = w.length := by rw [h.read_eq, h.write_eq]; omega
  rw [unread, hr, hn, h.buf_eq]
  simp

/-- A buffer whose pointers are in order splits into its three parts. -/
theorem Valid.holds (h : b.Valid) : ∃ consumed free, b.Holds consumed b.unread free := by
  obtain ⟨h₀, h₁, h₂⟩ := h
  have hl := b.length_buf
  refine ⟨b.buf.take b.mReadPtr.toNat,
    b.buf.drop (b.mReadPtr.toNat + (b.mWritePtr - b.mReadPtr).toNat), ?_, ?_, ?_⟩
  · rw [unread, ← List.drop_drop, List.take_append_drop, List.take_append_drop]
  · rw [List.length_take]
    omega
  · rw [unread, List.length_take, List.length_take, List.length_drop]
    omega

theorem Holds.used_eq (h : b.Holds consumed w free) : b.used = w.length := by
  have hl := h.length_eq
  have hk := kBufferSize_eq
  rw [used, h.read_eq, h.write_eq, toSize_of_range (by omega) (by omega)]
  omega

theorem Holds.used_pos (h : b.Holds consumed w free) (hw : w ≠ []) : b.used > 0 := by
  rw [h.used_eq]
  exact List.length_pos_iff.mpr hw

theorem Holds.avail_eq (h : b.Holds consumed w free) : b.avail = kBufferSize - w.length := by
  have hl := h.length_eq
  have hk := kBufferSize_eq
  rw [avail, h.used_eq, toSize_of_range (by omega) (by omega)]
  omega

theorem Holds.toNat_read (h : b.Holds consumed w free) : b.mReadPtr.toNat = consumed.length := by
  rw [h.read_eq]
  omega

theorem Holds.load_eq (h : b.Holds consumed w free) :
    b.load b.mReadPtr w.length = .ok w := by
  have hl := h.length_eq
  rw [load, if_pos ⟨h.valid.read_nonneg, by rw [h.read_eq]; omega⟩, h.toNat_read, h.buf_eq]
  simp

/-- The memory behind the read pointer is the window and the free bytes. -/
theorem Holds.readPtr_eq (h : b.Holds consumed w free) : b.readPtr = .ok (w ++ free) := by
  have hl := h.length_eq
  have hn : ((kBufferSize : ℤ) - b.mReadPtr).toNat = (w ++ free).length := by
    rw [h.read_eq, List.length_append]
    omega
  rw [readPtr, load, if_pos ⟨h.valid.read_nonneg, by rw [h.read_eq]; omega⟩,
    h.toNat_read, hn, h.buf_eq, List.drop_left, List.take_length]

/-- Writing through the read pointer exchanges the window, byte for byte. -/
theorem Holds.store_window (h : b.Holds consumed w free) (w' : List UInt8)
    (hw : w'.length = w.length) :
    ∃ b', b.store b.mReadPtr (w' ++ free) = .ok b' ∧ b'.Holds consumed w' free := by
  have hl := h.length_eq
  have hmid : overwrite (consumed ++ ((w ++ free) ++ [])) consumed.length (w' ++ free) =
      consumed ++ ((w' ++ free) ++ []) := overwrite_middle (by simp [hw])
  rw [store, if_pos ⟨h.valid.read_nonneg, by rw [h.read_eq, List.length_append]; omega⟩]
  refine ⟨_, rfl, ?_, h.read_eq, by rw [h.write_eq, hw]⟩
  change overwrite b.buf b.mReadPtr.toNat (w' ++ free) = _
  rw [h.toNat_read, h.buf_eq]
  simpa using hmid

/-- Consuming a prefix of the window is in range and leaves the rest. -/
theorem Holds.readPtrMove_eq {x : List UInt8} (h : b.Holds consumed (x ++ w) free) :
    (b.readPtrMove x.length).1 = 0 ∧ (b.readPtrMove x.length).2.Holds (consumed ++ x) w free := by
  have hw : b.mWritePtr = consumed.length + (x.length + w.length) := by
    rw [h.write_eq, List.length_append]
    omega
  constructor
  · exact if_pos ⟨by rw [h.read_eq]; omega, by rw [h.read_eq, hw]; omega⟩
  · refine ⟨?_, ?_, ?_⟩
    · change b.buf = _
      rw [h.buf_eq]
      simp
    · change b.mReadPtr + x.length = _
      rw [h.read_eq, List.length_append]
      omega
    · change b.mWritePtr = _
      rw [hw, List.length_append]
      omega

/-- Writing behind the window extends it into the free bytes. -/
theorem Holds.store_tail (h : b.Holds consumed w free) {s : List UInt8}
    (hs : s.length ≤ free.length) :
    ∃ b', b.store b.mWritePtr s = .ok b' ∧ b'.mReadPtr = b.mReadPtr ∧
      b'.mWritePtr = b.mWritePtr ∧
      ({ b' with mWritePtr := b'.mWritePtr + s.length } : FixedBuffer).Holds consumed (w ++ s)
        (free.drop s.length) := by
  have hl := h.length_eq
  have hwr : b.mWritePtr.toNat = (consumed ++ w).length := by
    rw [h.write_eq, List.length_append]
    omega
  have hmid : overwrite ((consumed ++ w) ++ (free.take s.length ++ free.drop s.length))
      (consumed ++ w).length s = (consumed ++ w) ++ (s ++ free.drop s.length) :=
    overwrite_middle (by rw [List.length_take]; omega)
  rw [store, if_pos ⟨by rw [h.write_eq]; omega, by rw [h.write_eq]; omega⟩]
  refine ⟨_, rfl, rfl, rfl, ?_, h.read_eq, ?_⟩
  · change overwrite b.buf b.mWritePtr.toNat s = _
    rw [List.take_append_drop] at hmid
    rw [hwr, h.buf_eq, ← List.append_assoc, hmid]
    simp
  · change b.mWritePtr + s.length = _
    rw [h.write_eq, List.length_append]
    omega

/-- Sliding the unread bytes to the front joins the free bytes at the tail. -/
theorem Holds.slide (h : b.Holds consumed w free) :
    ∃ b' free', b.store 0 w = .ok b' ∧
      ({ b' with mReadPtr := 0, mWritePtr := w.length } : FixedBuffer).Holds [] w free' := by
  have hl := h.length_eq
  have hb := b.length_buf
  rw [store, if_pos ⟨by omega, by omega⟩]
  refine ⟨_, b.buf.drop w.length, rfl, ?_, rfl, by simp⟩
  exact overwrite_front (by omega)

/-- The room that `append` and `readFd` find at the tail. -/
theorem Holds.toSize_tail (h : b.Holds consumed w free) :
    toSize ((kBufferSize : ℤ) - b.mWritePtr) = free.length := by
  have hl := h.length_eq
  have hk := kBufferSize_eq
  rw [h.write_eq, toSize_of_range (by omega) (by omega)]
  omega

/-- A block that fits in the free bytes, wherever they are, is appended. -/
theorem Holds.append_room (h : b.Holds consumed w free) {s : List UInt8}
    (hs : s.length ≤ kBufferSize - w.length) :
    ∃ b' consumed' free', b.append s = .ok (s.length, b') ∧ b'.Holds consumed' (w ++ s) free' := by
  have hl := h.length_eq
  have htail := h.toSize_tail
  by_cases hroom : free.length > s.length
  · obtain ⟨b', hstore, -, -, hb'⟩ := h.store_tail (s := s) (by omega)
    refine ⟨_, consumed, _, ?_, hb'⟩
    simp only [append, htail, if_pos hroom, hstore, bind, Except.bind, pure, Except.pure]
  · obtain ⟨b₁, free₁, hstore₁, hb₁⟩ := h.slide
    have hl₁ := hb₁.length_eq
    simp only [List.length_nil] at hl₁
    obtain ⟨b₂, hstore₂, -, -, hb₂⟩ := hb₁.store_tail (s := s) (by omega)
    refine ⟨_, [], _, ?_, hb₂⟩
    have havail : b.avail ≥ s.length := by rw [h.avail_eq]; exact hs
    simp only at hstore₂
    simp only [append, htail, if_neg hroom, if_pos havail, h.used_eq, h.load_eq, hstore₁, hstore₂,
      bind, Except.bind, pure, Except.pure]

/-- A block that does not fit is refused and nothing moves. -/
theorem Holds.append_no_room (h : b.Holds consumed w free) {s : List UInt8}
    (hs : ¬ s.length ≤ kBufferSize - w.length) : b.append s = .ok (0, b) := by
  have hl := h.length_eq
  have htail := h.toSize_tail
  have hroom : ¬ free.length > s.length := by omega
  have havail : ¬ b.avail ≥ s.length := by rw [h.avail_eq]; exact hs
  simp only [append, htail, if_neg hroom, if_neg havail]

theorem reset_holds (b : FixedBuffer) : b.reset.Holds [] [] b.buf := ⟨rfl, rfl, rfl⟩

end FixedBuffer

end KyrosWebServer.Base
