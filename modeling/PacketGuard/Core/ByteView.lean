import PacketGuard.Core.Strings
import PacketGuard.Lib.WireBytes

/-! Byte views (`core/byte_view.cpp`) and the endian readers
(`core/endian.hpp`).  A view is a pointer into a buffer and a length; it never
reaches past the end of its buffer.  `data()[i]` is unchecked in the source:
past the end of the view it reads what follows the view in the buffer, and only
past the end of the buffer is the model's answer arbitrary. -/
namespace PacketGuard.Core
open PacketGuard.Lib

structure ByteView where
  buffer : List UInt8
  start : Nat
  size : Nat
  within : start + size ≤ buffer.length
  deriving DecidableEq

namespace ByteView

/-- The view of a whole vector. -/
def ofVector (data : List UInt8) : ByteView := ⟨data, 0, data.length, by simp⟩

/-- `data()[i]`. -/
def data (v : ByteView) (i : Nat) : UInt8 := v.buffer.getD (v.start + i) 0

/-- The pointer `data() + offset`. -/
def ptr (v : ByteView) (offset : Nat) : Nat → UInt8 := fun i => v.data (offset + i)

/-- The `length` bytes copied from `data() + offset`. -/
def copy (v : ByteView) (offset length : Nat) : List UInt8 :=
  (List.range length).map (v.ptr offset)

/-- A zero-length slice keeps the pointer of the view it is taken from. -/
def slice (v : ByteView) (offset length : Nat) : Result ByteView :=
  if h : v.size < offset ∨ v.size - offset < length then failure "slice outside view"
  else if length = 0 then
    .ok ⟨v.buffer, v.start, 0, by have := v.within; omega⟩
  else
    .ok ⟨v.buffer, v.start + offset, length, by have := v.within; omega⟩

/-- `to_vector`. -/
def toVector (v : ByteView) : List UInt8 := (v.buffer.drop v.start).take v.size

end ByteView

/-! ## Endian readers -/

def readBe16 (p : Nat → UInt8) : Nat := ((p 0).toNat <<< 8) ||| (p 1).toNat

def readBe32 (p : Nat → UInt8) : Nat :=
  ((p 0).toNat <<< 24) ||| ((p 1).toNat <<< 16) ||| ((p 2).toNat <<< 8) ||| (p 3).toNat

def readLe16 (p : Nat → UInt8) : Nat := (p 0).toNat ||| ((p 1).toNat <<< 8)

def readLe32 (p : Nat → UInt8) : Nat :=
  (p 0).toNat ||| ((p 1).toNat <<< 8) ||| ((p 2).toNat <<< 16) ||| ((p 3).toNat <<< 24)

/-! ## What a view shows -/

namespace ByteView

@[simp] theorem length_toVector (v : ByteView) : v.toVector.length = v.size := by
  have := v.within
  simp only [toVector, List.length_take, List.length_drop]
  omega

@[simp] theorem toVector_ofVector (data : List UInt8) : (ofVector data).toVector = data := by
  simp [toVector, ofVector]

@[simp] theorem size_ofVector (data : List UInt8) : (ofVector data).size = data.length := rfl

/-- Inside the view, `data()[i]` is the view's byte. -/
theorem data_eq_getD {v : ByteView} {i : Nat} (h : i < v.size) :
    v.data i = v.toVector.getD i 0 := by
  simp [data, toVector, List.getD_eq_getElem?_getD, h]

/-- Copying from inside the view copies the view's bytes. -/
theorem copy_eq {v : ByteView} {offset length : Nat} (h : offset + length ≤ v.size) :
    v.copy offset length = (v.toVector.drop offset).take length := by
  have hlen := v.length_toVector
  apply List.ext_getElem
  · simp only [copy, List.length_map, List.length_range, List.length_take, List.length_drop]
    omega
  · intro i hi _
    simp only [copy, List.length_map, List.length_range] at hi
    have hlt : offset + i < v.toVector.length := by omega
    simp only [copy, ptr, List.getElem_map, List.getElem_range, List.getElem_take,
      List.getElem_drop, data_eq_getD (show offset + i < v.size by omega)]
    exact List.getD_eq_getElem _ _ hlt

/-- The view that `slice` returns. -/
def sub (v : ByteView) (offset length : Nat) (h : offset + length ≤ v.size) : ByteView :=
  ⟨v.buffer, if length = 0 then v.start else v.start + offset, length, by
    have := v.within
    split <;> omega⟩

theorem slice_eq_ok {v : ByteView} {offset length : Nat} (h : offset + length ≤ v.size) :
    v.slice offset length = .ok (v.sub offset length h) := by
  rw [slice, dif_neg (by omega)]
  by_cases h0 : length = 0
  · subst h0
    rfl
  · simp [sub, h0]

theorem slice_eq_error {v : ByteView} {offset length : Nat} (h : v.size < offset + length) :
    v.slice offset length = failure "slice outside view" := by
  rw [slice, dif_pos (by omega)]

@[simp] theorem size_sub (v : ByteView) (offset length : Nat) (h : offset + length ≤ v.size) :
    (v.sub offset length h).size = length := rfl

theorem toVector_sub {v : ByteView} {offset length : Nat} (h : offset + length ≤ v.size) :
    (v.sub offset length h).toVector = (v.toVector.drop offset).take length := by
  by_cases h0 : length = 0
  · subst h0
    simp [toVector, sub]
  · simp only [toVector, sub, if_neg h0, List.drop_take, List.drop_drop, List.take_take]
    congr 1
    omega

theorem ptr_sub {v : ByteView} {offset length : Nat} (h : offset + length ≤ v.size)
    (hpos : 0 < length) (k : Nat) : (v.sub offset length h).ptr k = v.ptr (offset + k) := by
  funext i
  simp [ptr, data, sub, Nat.ne_of_gt hpos, Nat.add_assoc]

/-! ### Views that show the same bytes -/

/-- `w` shows the bytes of `v`, and perhaps more behind them. -/
def Extends (w v : ByteView) : Prop := v.toVector <+: w.toVector

/-- Two views that show the same bytes. -/
def SameBytes (v w : ByteView) : Prop := v.toVector = w.toVector

theorem SameBytes.extends {v w : ByteView} (h : SameBytes v w) : w.Extends v :=
  ⟨[], (List.append_nil _).trans h⟩

theorem SameBytes.size_eq {v w : ByteView} (h : SameBytes v w) : v.size = w.size := by
  rw [← length_toVector, ← length_toVector, h]

namespace Extends
variable {v w : ByteView} (h : w.Extends v)
include h

theorem size_le : v.size ≤ w.size := by
  rw [← length_toVector, ← length_toVector]
  exact h.length_le

theorem data_eq {i : Nat} (hi : i < v.size) : v.data i = w.data i := by
  have hle := h.size_le
  obtain ⟨tail, ht⟩ := h
  rw [data_eq_getD hi, data_eq_getD (show i < w.size by omega), ← ht,
    List.getD_append _ _ _ _ (by simpa using hi)]

theorem ptr_eq {offset i : Nat} (hi : offset + i < v.size) : v.ptr offset i = w.ptr offset i :=
  h.data_eq hi

theorem readBe16_eq {offset : Nat} (hi : offset + 2 ≤ v.size) :
    readBe16 (v.ptr offset) = readBe16 (w.ptr offset) := by
  simp only [readBe16]
  rw [h.ptr_eq (by omega), h.ptr_eq (by omega)]

theorem readBe32_eq {offset : Nat} (hi : offset + 4 ≤ v.size) :
    readBe32 (v.ptr offset) = readBe32 (w.ptr offset) := by
  simp only [readBe32]
  rw [h.ptr_eq (by omega), h.ptr_eq (by omega), h.ptr_eq (by omega), h.ptr_eq (by omega)]

theorem readLe32_eq {offset : Nat} (hi : offset + 4 ≤ v.size) :
    readLe32 (v.ptr offset) = readLe32 (w.ptr offset) := by
  simp only [readLe32]
  rw [h.ptr_eq (by omega), h.ptr_eq (by omega), h.ptr_eq (by omega), h.ptr_eq (by omega)]

theorem copy_eq {offset length : Nat} (hl : offset + length ≤ v.size) :
    v.copy offset length = w.copy offset length := by
  apply List.map_congr_left
  intro i hi
  rw [List.mem_range] at hi
  exact h.ptr_eq (by omega)

/-- Slices taken at the same place show the same bytes. -/
theorem sub {offset length : Nat} (hl : offset + length ≤ v.size) :
    (v.sub offset length hl).SameBytes (w.sub offset length (hl.trans h.size_le)) := by
  have hle := h.size_le
  obtain ⟨tail, ht⟩ := h
  have hlen := v.length_toVector
  rw [SameBytes, toVector_sub, toVector_sub, ← ht, List.drop_append_of_le_length (by omega),
    List.take_append_of_le_length (by rw [List.length_drop]; omega)]

end Extends

/-! ### Bytes at an offset -/

/-- The view holds `bytes` at `offset`. -/
def Holds (v : ByteView) (offset : Nat) (bytes : List UInt8) : Prop :=
  ∃ before after, v.toVector = before ++ (bytes ++ after) ∧ before.length = offset

theorem holds_ofVector (bytes after : List UInt8) : (ofVector (bytes ++ after)).Holds 0 bytes :=
  ⟨[], after, by simp, rfl⟩

namespace Holds
variable {v : ByteView} {offset : Nat} {bytes bytes' : List UInt8}

theorem left (h : v.Holds offset (bytes ++ bytes')) : v.Holds offset bytes := by
  obtain ⟨before, after, hv, hlen⟩ := h
  exact ⟨before, bytes' ++ after, by simpa using hv, hlen⟩

theorem right (h : v.Holds offset (bytes ++ bytes')) : v.Holds (offset + bytes.length) bytes' := by
  obtain ⟨before, after, hv, hlen⟩ := h
  exact ⟨before ++ bytes, after, by simpa using hv, by simp [hlen]⟩

theorem le (h : v.Holds offset bytes) : offset + bytes.length ≤ v.size := by
  obtain ⟨before, after, hv, hlen⟩ := h
  rw [← length_toVector, hv]
  simp only [List.length_append]
  omega

theorem drop_take (h : v.Holds offset bytes) :
    (v.toVector.drop offset).take bytes.length = bytes := by
  obtain ⟨before, after, hv, rfl⟩ := h
  simp [hv]

theorem copy (h : v.Holds offset bytes) : v.copy offset bytes.length = bytes := by
  rw [copy_eq h.le, h.drop_take]

theorem toVector_sub (h : v.Holds offset bytes) :
    (v.sub offset bytes.length h.le).toVector = bytes := by
  rw [ByteView.toVector_sub, h.drop_take]

theorem data {b : UInt8} (h : v.Holds offset (b :: bytes)) : v.data offset = b := by
  have hle := h.le
  obtain ⟨before, after, hv, rfl⟩ := h
  rw [List.length_cons] at hle
  rw [data_eq_getD (by omega), hv]
  simp

end Holds
end ByteView

/-! ## Reading numbers -/

theorem or_eq_add {a b k : Nat} (h : b < 2 ^ k) : (a <<< k) ||| b = a * 2 ^ k + b := by
  rw [← Nat.shiftLeft_add_eq_or_of_lt h, Nat.shiftLeft_eq]

/-- One more byte on the right. -/
theorem or_byte_eq (a : Nat) {b : Nat} (h : b < 256) : (a <<< 8) ||| b = a * 256 + b :=
  or_eq_add (k := 8) h

theorem readBe16_eq (p : Nat → UInt8) : readBe16 p = (p 0).toNat * 256 + (p 1).toNat :=
  or_byte_eq _ (p 1).toNat_lt

theorem readLe16_eq (p : Nat → UInt8) : readLe16 p = (p 1).toNat * 256 + (p 0).toNat := by
  rw [readLe16, Nat.or_comm]
  exact or_byte_eq _ (p 0).toNat_lt

/-- Four bytes put together with shifts, most significant first. -/
theorem or_bytes_eq (a : Nat) {b c d : Nat} (hb : b < 256) (hc : c < 256) (hd : d < 256) :
    (a <<< 24) ||| (b <<< 16) ||| (c <<< 8) ||| d = ((a * 256 + b) * 256 + c) * 256 + d := by
  have hab : (a <<< 24) ||| (b <<< 16) = (a * 256 + b) <<< 16 := by
    rw [← or_byte_eq a hb, Nat.shiftLeft_or_distrib, ← Nat.shiftLeft_add]
  have habc : ((a * 256 + b) <<< 16) ||| (c <<< 8) = ((a * 256 + b) * 256 + c) <<< 8 := by
    rw [← or_byte_eq (a * 256 + b) hc, Nat.shiftLeft_or_distrib, ← Nat.shiftLeft_add]
  rw [hab, habc, or_byte_eq _ hd]

theorem readBe32_eq (p : Nat → UInt8) :
    readBe32 p = (((p 0).toNat * 256 + (p 1).toNat) * 256 + (p 2).toNat) * 256 + (p 3).toNat :=
  or_bytes_eq _ (p 1).toNat_lt (p 2).toNat_lt (p 3).toNat_lt

theorem readLe32_eq (p : Nat → UInt8) :
    readLe32 p = (((p 3).toNat * 256 + (p 2).toNat) * 256 + (p 1).toNat) * 256 + (p 0).toNat := by
  rw [← or_bytes_eq _ (p 2).toNat_lt (p 1).toNat_lt (p 0).toNat_lt, readLe32,
    Nat.or_comm (_ ||| _ ||| _), Nat.or_comm (_ ||| _), Nat.or_comm (p 0).toNat,
    ← Nat.or_assoc, ← Nat.or_assoc]

/-! Numbers as the bytes they are read from. -/

theorem readBe16_ptr (v : ByteView) (offset : Nat) :
    readBe16 (v.ptr offset) = bigEndianValue (v.copy offset 2) := by
  rw [readBe16_eq]
  simp [bigEndianValue, ByteView.copy, List.range_succ]

theorem readBe32_ptr (v : ByteView) (offset : Nat) :
    readBe32 (v.ptr offset) = bigEndianValue (v.copy offset 4) := by
  rw [readBe32_eq]
  simp [bigEndianValue, ByteView.copy, List.range_succ]

theorem readLe16_ptr (v : ByteView) (offset : Nat) :
    readLe16 (v.ptr offset) = bigEndianValue (v.copy offset 2).reverse := by
  rw [readLe16_eq]
  simp [bigEndianValue, ByteView.copy, List.range_succ]

theorem readLe32_ptr (v : ByteView) (offset : Nat) :
    readLe32 (v.ptr offset) = bigEndianValue (v.copy offset 4).reverse := by
  rw [readLe32_eq]
  simp [bigEndianValue, ByteView.copy, List.range_succ]

namespace ByteView.Holds
variable {v : ByteView} {offset n : Nat}

theorem copy_bigEndian {width : Nat} (h : v.Holds offset (bigEndian width n)) :
    v.copy offset width = bigEndian width n := by
  have hc := h.copy
  rwa [length_bigEndian] at hc

theorem copy_littleEndian {width : Nat} (h : v.Holds offset (littleEndian width n)) :
    v.copy offset width = littleEndian width n := by
  have hc := h.copy
  rwa [length_littleEndian] at hc

theorem readBe16 (h : v.Holds offset (bigEndian 2 n)) (hn : n < 2 ^ 16) :
    readBe16 (v.ptr offset) = n := by
  rw [readBe16_ptr, h.copy_bigEndian, bigEndianValue_bigEndian (by simpa using hn)]

theorem readBe32 (h : v.Holds offset (bigEndian 4 n)) (hn : n < 2 ^ 32) :
    readBe32 (v.ptr offset) = n := by
  rw [readBe32_ptr, h.copy_bigEndian, bigEndianValue_bigEndian (by simpa using hn)]

theorem readLe16 (h : v.Holds offset (littleEndian 2 n)) (hn : n < 2 ^ 16) :
    readLe16 (v.ptr offset) = n := by
  rw [readLe16_ptr, h.copy_littleEndian, littleEndian, List.reverse_reverse,
    bigEndianValue_bigEndian (by simpa using hn)]

theorem readLe32 (h : v.Holds offset (littleEndian 4 n)) (hn : n < 2 ^ 32) :
    readLe32 (v.ptr offset) = n := by
  rw [readLe32_ptr, h.copy_littleEndian, littleEndian, List.reverse_reverse,
    bigEndianValue_bigEndian (by simpa using hn)]

end ByteView.Holds

end PacketGuard.Core
