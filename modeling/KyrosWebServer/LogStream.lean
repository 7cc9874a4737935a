import KyrosWebServer.BufferCalls
import Mathlib.Algebra.Ring.Nat

/-!
# The log stream

`LogStream` from base/LogStream: one operand after the other goes into a
`FixedBuffer`, text through `append`, numbers straight behind the write
pointer. `convert` and `convertHex` share their digit loop, which runs on the
memory from a `char*` to the end of its storage and writes the least
significant digit first. `double` and `float` operands are left out.
-/

namespace KyrosWebServer.Base

open CMemory
open Net (toInt)

/-- The integer types that numbers are rendered from. Division and remainder
are those of C++, which truncate towards zero. -/
class Integral (T : Type) extends Div T, Mod T where
  /-- The number that an object of the type stands for. -/
  value : T → ℤ
  /-- A small integer literal of the type. -/
  literal : ℕ → T
  /-- No type is wider than 64 bits. -/
  value_range : ∀ i, -9223372036854775808 ≤ value i ∧ value i < 18446744073709551616
  /-- Every type holds the digits. -/
  value_literal : ∀ n < 128, value (literal n) = n
  /-- Quotients by positive numbers do not overflow. -/
  value_div : ∀ i j, 0 < value j → value (i / j) = (value i).tdiv (value j)
  /-- Nor do remainders, which have the sign of the dividend. -/
  value_mod : ∀ i j, 0 < value j → value (i % j) = (value i).tmod (value j)

open Integral

/-- `int`. -/
instance : Integral Int32 where
  value := Int32.toInt
  literal := Int32.ofNat
  value_range i := by
    have hlow := i.le_toInt
    have hhigh := i.toInt_lt
    omega
  value_literal n hn := Int32.toInt_ofNat_of_lt (by omega)
  value_div i j hj := by
    apply Int32.toInt_div_of_ne_right
    rintro rfl
    exact absurd hj (by decide)
  value_mod i j _ := Int32.toInt_mod i j

/-- `long` and `long long`. -/
instance : Integral Int64 where
  value := Int64.toInt
  literal := Int64.ofNat
  value_range i := by
    have hlow := i.le_toInt
    have hhigh := i.toInt_lt
    omega
  value_literal n hn := Int64.toInt_ofNat_of_lt (by omega)
  value_div i j hj := by
    apply Int64.toInt_div_of_ne_right
    rintro rfl
    exact absurd hj (by decide)
  value_mod i j _ := Int64.toInt_mod i j

/-- `unsigned int`. -/
instance : Integral UInt32 where
  value i := i.toNat
  literal := UInt32.ofNat
  value_range i := by
    have hhigh := i.toNat_lt
    omega
  value_literal n hn := by
    rw [UInt32.toNat_ofNat_of_lt' (Nat.lt_trans hn (by decide))]
  value_div i j _ := by
    rw [UInt32.toNat_div]
    rfl
  value_mod i j _ := by
    rw [UInt32.toNat_mod]
    rfl

/-- `unsigned long`, `unsigned long long` and `uintptr_t`. -/
instance : Integral UInt64 where
  value i := i.toNat
  literal := UInt64.ofNat
  value_range i := by
    have hhigh := i.toNat_lt
    omega
  value_literal n hn := by
    rw [UInt64.toNat_ofNat_of_lt' (Nat.lt_trans hn (by decide))]
  value_div i j _ := by
    rw [UInt64.toNat_div]
    rfl
  value_mod i j _ := by
    rw [UInt64.toNat_mod]
    rfl

/-- Bytes of characters. -/
def chars (text : List Char) : List UInt8 := text.map Char.toUInt8

/-- A character array of digits with its NUL, and the base it is for. -/
structure Digits where
  /-- The bytes of the array. -/
  array : List UInt8
  /-- Where the digit zero stands in it. -/
  zero : ℕ
  /-- The divisor of the loop. -/
  base : ℕ
  /-- The quotients get smaller. -/
  two_le : 2 ≤ base
  /-- The base is a literal of every type. -/
  base_lt : base < 128

/-- `digits`, mirrored around `zero` for the remainders of negative numbers. -/
def digits : Digits where
  array := chars ['9', '8', '7', '6', '5', '4', '3', '2', '1',
    '0', '1', '2', '3', '4', '5', '6', '7', '8', '9'] ++ [0]
  zero := 9
  base := 10
  two_le := by decide
  base_lt := by decide

/-- `digitsHex`. -/
def digitsHex : Digits where
  array := chars ['0', '1', '2', '3', '4', '5', '6', '7', '8', '9',
    'A', 'B', 'C', 'D', 'E', 'F'] ++ [0]
  zero := 0
  base := 16
  two_le := by decide
  base_lt := by decide

/-- `zero[lsd]`, inside the array. -/
def Digits.get (table : Digits) (lsd : ℤ) : Except Fault UInt8 :=
  if 0 ≤ table.zero + lsd then
    match table.array[(table.zero + lsd).toNat]? with
    | some c => .ok c
    | none => .error .outOfBounds
  else .error .outOfBounds

/-- `buf[p] = c`, inside the storage. -/
def put (buf : List UInt8) (p : ℕ) (c : UInt8) : Except Fault (List UInt8) :=
  if p < buf.length then .ok (buf.set p c) else .error .outOfBounds

/-- What is left of a number that has more than one digit is nearer to zero. -/
theorem natAbs_div_lt {T : Type} [Integral T] (table : Digits) {i : T}
    (h : value (i / (literal table.base : T)) ≠ 0) :
    (value (i / (literal table.base : T))).natAbs < (value i).natAbs := by
  have hbase := table.two_le
  have hliteral : value (literal table.base : T) = table.base := value_literal _ table.base_lt
  rw [value_div i _ (by omega), hliteral] at h ⊢
  have hquot : ((value i).tdiv table.base).natAbs = (value i).natAbs / table.base := by
    rw [Int.natAbs_tdiv, Int.natAbs_natCast]
    rfl
  have hne := Int.natAbs_ne_zero.mpr h
  rw [hquot] at hne ⊢
  exact Nat.div_lt_self (Nat.pos_of_ne_zero fun hzero => hne (by rw [hzero, Nat.zero_div]))
    (by omega)

/-- The `do` loop of `convert` and `convertHex` from `p` on: the memory and the
new `p`. -/
def digitLoop {T : Type} [Integral T] (table : Digits) (buf : List UInt8) (p : ℕ) (i : T) :
    Except Fault (List UInt8 × ℕ) := do
  let lsd := toInt (value (i % (literal table.base : T)))
  let c ← table.get lsd
  let buf ← put buf p c
  if _h : value (i / (literal table.base : T)) ≠ 0 then
    digitLoop table buf (p + 1) (i / (literal table.base : T))
  else return (buf, p + 1)
termination_by (value i).natAbs
decreasing_by exact natAbs_div_lt table _h

/-- `*p = '\0'`, `std::reverse(buf, p)`, and the length. -/
def finish (buf : List UInt8) (p : ℕ) : Except Fault (ℕ × List UInt8) := do
  let buf ← put buf p 0
  return (p, (buf.take p).reverse ++ buf.drop p)

/-- `convert(buf, v)`: the length of the text, and the memory behind `buf`. -/
def convert {T : Type} [Integral T] (buf : List UInt8) (v : T) : Except Fault (ℕ × List UInt8) := do
  let (buf, p) ← digitLoop digits buf 0 v
  if value v < 0 then
    let buf ← put buf p (Char.toUInt8 '-')
    finish buf (p + 1)
  else finish buf p

/-- `convertHex(buf, v)`. -/
def convertHex (buf : List UInt8) (v : UInt64) : Except Fault (ℕ × List UInt8) := do
  let (buf, p) ← digitLoop digitsHex buf 0 v
  finish buf p

/-- The memory from the write pointer to the end of the storage. -/
def FixedBuffer.writePtr (b : FixedBuffer) : Except Fault (List UInt8) :=
  b.load b.mWritePtr (kBufferSize - b.mWritePtr).toNat

/-- The text of a C string. -/
structure CStr where
  /-- The characters in front of the NUL. -/
  text : List UInt8
  /-- None of them is the NUL. -/
  zero_notMem : (0 : UInt8) ∉ text

/-- What can be logged. -/
inductive Operand
  | bool (v : Bool)
  | short (v : Int16)
  | unsignedShort (v : UInt16)
  | int (v : Int32)
  | unsignedInt (v : UInt32)
  | long (v : Int64)
  | unsignedLong (v : UInt64)
  | longLong (v : Int64)
  | unsignedLongLong (v : UInt64)
  /-- `const void*` as the `uintptr_t` of its address. -/
  | pointer (v : UInt64)
  | char (v : UInt8)
  /-- `const char*`, which may be null. -/
  | cstring (str : Option CStr)
  /-- `std::string`, any bytes. -/
  | string (v : List UInt8)

/-- The stream of one record. Its output function is the default one. -/
structure LogStream where
  /-- The record so far. -/
  mBuffer : FixedBuffer

namespace LogStream

/-- Room asked for in front of a number. -/
def kMaxNumericSize : ℕ := 32

/-- The constructor, over uninitialised storage. -/
def create (raw : List UInt8) (h : raw.length = kBufferSize) : LogStream :=
  ⟨FixedBuffer.create raw h⟩

/-- `mBuffer.append(str, len)` with the result ignored. -/
def append (s : LogStream) (str : List UInt8) : Except Fault LogStream := do
  let (_, b) ← s.mBuffer.append str
  return { s with mBuffer := b }

/-- What a function left in the memory behind `writePtr()`, then `add(len)`. -/
def commit (s : LogStream) (len : ℕ) (mem : List UInt8) : Except Fault LogStream := do
  let b ← s.mBuffer.store s.mBuffer.mWritePtr mem
  return { s with mBuffer := (b.add len).2 }

/-- `formatInteger(v)`. -/
def formatInteger {T : Type} [Integral T] (s : LogStream) (v : T) : Except Fault LogStream := do
  if s.mBuffer.avail ≥ kMaxNumericSize then
    let buf ← s.mBuffer.writePtr
    let (len, mem) ← convert buf v
    s.commit len mem
  else return s

/-- `operator<<(const void *)`. -/
def formatPointer (s : LogStream) (v : UInt64) : Except Fault LogStream := do
  if s.mBuffer.avail ≥ kMaxNumericSize then
    let buf ← s.mBuffer.writePtr
    let buf ← put buf 0 (Char.toUInt8 '0')
    let buf ← put buf 1 (Char.toUInt8 'x')
    let (len, mem) ← convertHex (buf.drop 2) v
    s.commit (len + 2) (buf.take 2 ++ mem)
  else return s

/-- `operator<<`. -/
def log (s : LogStream) : Operand → Except Fault LogStream
  | .bool v => s.append (chars [if v then '1' else '0'])
  | .short v => s.formatInteger v.toInt32
  | .unsignedShort v => s.formatInteger v.toUInt32
  | .int v => s.formatInteger v
  | .unsignedInt v => s.formatInteger v
  | .long v | .longLong v => s.formatInteger v
  | .unsignedLong v | .unsignedLongLong v => s.formatInteger v
  | .pointer v => s.formatPointer v
  | .char v => s.append [v]
  | .cstring none => s.append (chars ['(', 'n', 'u', 'l', 'l', ')'])
  | .cstring (some str) => s.append str.text
  | .string v => s.append v

/-- A chain of `<<`. -/
def logAll (s : LogStream) : List Operand → Except Fault LogStream
  | [] => .ok s
  | op :: ops => do
    let s ← s.log op
    s.logAll ops

/-- The destructor: the bytes handed to `mOutput`, whose length is an `int`. -/
def destroy (s : LogStream) : Except Fault (List UInt8) := do
  let s ← s.append (chars ['\n'])
  s.mBuffer.load s.mBuffer.mReadPtr (toInt s.mBuffer.used).toNat

end LogStream

end KyrosWebServer.Base
