import PacketGuard.Core.ByteView

/-! `ByteReader` (`core/byte_view.cpp`): a view and an offset into it, which a
read moves behind what it has read and a read that does not fit leaves alone.
What a parser gets that reads one field after the other is then exactly what
was written there. -/
namespace PacketGuard.Core
open PacketGuard.Lib

/-- A reader never stands behind its view. -/
@[ext] structure ByteReader where
  view : ByteView
  offset : Nat
  within : offset ≤ view.size
  deriving DecidableEq

namespace ByteReader

def remaining (r : ByteReader) : Nat := if r.offset ≤ r.view.size then r.view.size - r.offset else 0

def canRead (r : ByteReader) (count : Nat) : Bool := decide (count ≤ r.remaining)

theorem canRead_iff {r : ByteReader} {count : Nat} :
    r.canRead count = true ↔ r.offset + count ≤ r.view.size := by
  have hwithin := r.within
  rw [canRead, decide_eq_true_iff, remaining, if_pos hwithin]
  omega

/-- `offset_ += count`, once `can_read(count)`. -/
def skip (r : ByteReader) (count : Nat) (h : r.canRead count = true) : ByteReader :=
  ⟨r.view, r.offset + count, canRead_iff.mp h⟩

/-- A read of `width` bytes, and what it says when they are not there. -/
def readFixed {α : Type} (r : ByteReader) (width : Nat) (short : String)
    (decode : (Nat → UInt8) → α) :
    Result α × ByteReader :=
  if h : r.canRead width = true then (.ok (decode (r.view.ptr r.offset)), r.skip width h)
    else (failure short, r)

def readU8 (r : ByteReader) : Result UInt8 × ByteReader :=
  r.readFixed 1 "short read for u8" fun p => p 0

def readBe16 (r : ByteReader) : Result UInt16 × ByteReader :=
  r.readFixed 2 "short read for be16" fun p => UInt16.ofNat (Core.readBe16 p)

def readBe32 (r : ByteReader) : Result UInt32 × ByteReader :=
  r.readFixed 4 "short read for be32" fun p => UInt32.ofNat (Core.readBe32 p)

def readLe16 (r : ByteReader) : Result UInt16 × ByteReader :=
  r.readFixed 2 "short read for le16" fun p => UInt16.ofNat (Core.readLe16 p)

def readLe32 (r : ByteReader) : Result UInt32 × ByteReader :=
  r.readFixed 4 "short read for le32" fun p => UInt32.ofNat (Core.readLe32 p)

def readBytes (r : ByteReader) (count : Nat) : Result ByteView × ByteReader :=
  if h : r.canRead count = true then
    match r.view.slice r.offset count with
    | .ok bytes => (.ok bytes, r.skip count h)
    | .error e => (.error e, r)
  else (failure "short read for byte span", r)

/-! ## Fields -/

/-- What one read is asked for. -/
inductive Shape
  | u8
  | be16
  | be32
  | le16
  | le32
  | bytes (count : Nat)
  deriving DecidableEq

/-- What one read gives. -/
inductive Field
  | u8 (value : UInt8)
  | be16 (value : UInt16)
  | be32 (value : UInt32)
  | le16 (value : UInt16)
  | le32 (value : UInt32)
  | bytes (span : List UInt8)
  deriving DecidableEq

def Shape.width : Shape → Nat
  | .u8 => 1
  | .be16 | .le16 => 2
  | .be32 | .le32 => 4
  | .bytes count => count

/-- What a read says when its field does not fit. -/
def Shape.short : Shape → String
  | .u8 => "short read for u8"
  | .be16 => "short read for be16"
  | .be32 => "short read for be32"
  | .le16 => "short read for le16"
  | .le32 => "short read for le32"
  | .bytes _ => "short read for byte span"

def Field.shape : Field → Shape
  | .u8 _ => .u8
  | .be16 _ => .be16
  | .be32 _ => .be32
  | .le16 _ => .le16
  | .le32 _ => .le32
  | .bytes span => .bytes span.length

/-- The field as it is written. -/
def Field.encode : Field → List UInt8
  | .u8 value => [value]
  | .be16 value => bigEndian 2 value.toNat
  | .be32 value => bigEndian 4 value.toNat
  | .le16 value => littleEndian 2 value.toNat
  | .le32 value => littleEndian 4 value.toNat
  | .bytes span => span

def read (r : ByteReader) : Shape → Result Field × ByteReader
  | .u8 => r.readU8.map (Except.map .u8) id
  | .be16 => r.readBe16.map (Except.map .be16) id
  | .be32 => r.readBe32.map (Except.map .be32) id
  | .le16 => r.readLe16.map (Except.map .le16) id
  | .le32 => r.readLe32.map (Except.map .le32) id
  | .bytes count => (r.readBytes count).map (Except.map fun span => .bytes span.toVector) id

/-- A parser that reads one field after the other and stops at the first that does not fit. -/
def readAll (r : ByteReader) : List Shape → Result (List Field) × ByteReader
  | [] => (.ok [], r)
  | s :: shapes =>
    match r.read s with
    | (.error e, r) => (.error e, r)
    | (.ok f, r) => (r.readAll shapes).map (Except.map (f :: ·)) id

/-! ## One read -/

theorem map_readFixed {α : Type} (r : ByteReader) (width : Nat) (short : String)
    (decode : (Nat → UInt8) → α)
    (make : α → Field) :
    (r.readFixed width short decode).map (Except.map make) id =
      if h : r.canRead width = true then (.ok (make (decode (r.view.ptr r.offset))), r.skip width h)
      else (failure short, r) := by
  unfold readFixed
  split <;> rfl

/-- The bytes of a number that was read are the bytes it was read from. -/
theorem bigEndian_copy (v : ByteView) (offset width : Nat) :
    bigEndian width (bigEndianValue (v.copy offset width) % 256 ^ width) = v.copy offset width ∧
      littleEndian width (bigEndianValue (v.copy offset width).reverse % 256 ^ width) =
        v.copy offset width := by
  have hlength : (v.copy offset width).length = width := by simp [ByteView.copy]
  have hlt := bigEndianValue_lt (v.copy offset width)
  have hlt' := bigEndianValue_lt (v.copy offset width).reverse
  have hbytes := bigEndian_bigEndianValue (v.copy offset width)
  have hbytes' := bigEndian_bigEndianValue (v.copy offset width).reverse
  rw [List.length_reverse] at hlt' hbytes'
  rw [hlength] at hlt hlt' hbytes hbytes'
  rw [Nat.mod_eq_of_lt hlt, Nat.mod_eq_of_lt hlt', littleEndian, hbytes, hbytes',
    List.reverse_reverse]
  exact ⟨rfl, rfl⟩

/-- **Step lemma**: a field that fits is read, and the reader moves behind the bytes
that the field is written in; one that does not leaves the reader where it is. -/
theorem read_eq (r : ByteReader) (s : Shape) : ∃ f : Field,
    r.read s = (if h : r.canRead s.width = true then (.ok f, r.skip s.width h)
      else (failure s.short, r)) ∧
      (r.canRead s.width = true → f.shape = s ∧ f.encode = r.view.copy r.offset s.width) := by
  have hcopy := bigEndian_copy r.view r.offset
  cases s with
  | u8 => exact ⟨.u8 (r.view.ptr r.offset 0), by rw [read, readU8, map_readFixed]; rfl, fun _ =>
    ⟨rfl, rfl⟩⟩
  | be16 =>
    refine ⟨.be16 (UInt16.ofNat (Core.readBe16 (r.view.ptr r.offset))), ?_, fun _ => ⟨rfl, ?_⟩⟩
    · rw [read, readBe16, map_readFixed]
      rfl
    · rw [Field.encode, UInt16.toNat_ofNat', readBe16_ptr]
      exact (hcopy 2).1
  | be32 =>
    refine ⟨.be32 (UInt32.ofNat (Core.readBe32 (r.view.ptr r.offset))), ?_, fun _ => ⟨rfl, ?_⟩⟩
    · rw [read, readBe32, map_readFixed]
      rfl
    · rw [Field.encode, UInt32.toNat_ofNat', readBe32_ptr]
      exact (hcopy 4).1
  | le16 =>
    refine ⟨.le16 (UInt16.ofNat (Core.readLe16 (r.view.ptr r.offset))), ?_, fun _ => ⟨rfl, ?_⟩⟩
    · rw [read, readLe16, map_readFixed]
      rfl
    · rw [Field.encode, UInt16.toNat_ofNat', readLe16_ptr]
      exact (hcopy 2).2
  | le32 =>
    refine ⟨.le32 (UInt32.ofNat (Core.readLe32 (r.view.ptr r.offset))), ?_, fun _ => ⟨rfl, ?_⟩⟩
    · rw [read, readLe32, map_readFixed]
      rfl
    · rw [Field.encode, UInt32.toNat_ofNat', readLe32_ptr]
      exact (hcopy 4).2
  | bytes count =>
    by_cases h : r.canRead (Shape.bytes count).width = true
    · have hfits : r.offset + count ≤ r.view.size := canRead_iff.mp h
      refine ⟨.bytes (r.view.sub r.offset count hfits).toVector, ?_, fun _ => ⟨?_, ?_⟩⟩
      · have hcount : r.canRead count = true := h
        rw [read, readBytes, dif_pos h, dif_pos hcount, ByteView.slice_eq_ok hfits]
        rfl
      · rw [Field.shape, ByteView.length_toVector, ByteView.size_sub]
      · rw [Field.encode, ByteView.toVector_sub, Shape.width, ByteView.copy_eq hfits]
    · refine ⟨.bytes [], ?_, fun hfits => absurd hfits h⟩
      have hcount : ¬ r.canRead count = true := h
      rw [read, readBytes, dif_neg h, dif_neg hcount]
      rfl

theorem length_encode (f : Field) : f.encode.length = f.shape.width := by
  cases f <;> simp [Field.encode, Field.shape, Shape.width]

theorem bigEndian_injective {width n m : Nat} (hn : n < 256 ^ width) (hm : m < 256 ^ width)
    (h : bigEndian width n = bigEndian width m) : n = m := by
  rw [← bigEndianValue_bigEndian hn, h, bigEndianValue_bigEndian hm]

/-- A field is told by its shape and its bytes. -/
theorem Field.eq_of_encode {f g : Field} (hshape : f.shape = g.shape) (h : f.encode = g.encode) :
    f = g := by
  cases f <;> cases g <;> try cases hshape
  case u8.u8 value value' => rw [List.singleton_injective h]
  case be16.be16 value value' =>
    rw [UInt16.toNat_inj.mp (bigEndian_injective value.toNat_lt value'.toNat_lt h)]
  case be32.be32 value value' =>
    rw [UInt32.toNat_inj.mp (bigEndian_injective value.toNat_lt value'.toNat_lt h)]
  case le16.le16 value value' =>
    rw [UInt16.toNat_inj.mp
      (bigEndian_injective value.toNat_lt value'.toNat_lt (List.reverse_injective h))]
  case le32.le32 value value' =>
    rw [UInt32.toNat_inj.mp
      (bigEndian_injective value.toNat_lt value'.toNat_lt (List.reverse_injective h))]
  case bytes.bytes span span' => rw [show span = span' from h]

/-! ## A run of reads -/

/-- The bytes in which fields are written one behind the other. -/
def encodeAll (fields : List Field) : List UInt8 := fields.flatMap Field.encode

theorem encodeAll_cons (f : Field) (fields : List Field) :
    encodeAll (f :: fields) = f.encode ++ encodeAll fields := rfl

/-- The bytes that are left to read. -/
def rest (r : ByteReader) : List UInt8 := r.view.toVector.drop r.offset

theorem length_rest (r : ByteReader) : r.rest.length = r.view.size - r.offset := by
  rw [rest, List.length_drop, ByteView.length_toVector]

theorem rest_skip {r : ByteReader} {count : Nat} (h : r.canRead count = true) :
    r.rest = r.view.copy r.offset count ++ (r.skip count h).rest := by
  rw [ByteView.copy_eq (canRead_iff.mp h), rest, rest, skip, ← List.drop_drop,
    List.take_append_drop]

theorem map_cons_ok_iff {x : Result (List Field) × ByteReader} {f : Field} {fields : List Field}
    {r : ByteReader} :
    x.map (Except.map (f :: ·)) id = (.ok fields, r) ↔ ∃ fields', fields = f :: fields' ∧
      x = (.ok fields', r) := by
  rcases x with ⟨e | fields', r'⟩
  · simp [Except.map]
  · simp [Except.map, eq_comm]

theorem map_cons_error_iff {x : Result (List Field) × ByteReader} {f : Field} {e : Status}
    {r : ByteReader} :
    x.map (Except.map (f :: ·)) id = (.error e, r) ↔ x = (.error e, r) := by
  rcases x with ⟨e' | fields', r'⟩ <;> simp [Except.map]

/-- **Run lemma**, for a run to its end: the fields are the ones that are written there. -/
theorem readAll_ok_iff (r r' : ByteReader) (shapes : List Shape) (fields : List Field) :
    r.readAll shapes = (.ok fields, r') ↔
      fields.map Field.shape = shapes ∧ encodeAll fields <+: r.rest ∧ r'.view = r.view ∧
        r'.offset = r.offset + (encodeAll fields).length := by
  induction shapes generalizing r fields with
  | nil =>
    rw [readAll, Prod.mk.injEq, Except.ok.injEq, List.map_eq_nil_iff]
    constructor
    · rintro ⟨rfl, rfl⟩
      exact ⟨rfl, List.nil_prefix, rfl, rfl⟩
    · rintro ⟨rfl, -, hview, hoffset⟩
      exact ⟨rfl, (ByteReader.ext hview hoffset).symm⟩
  | cons s shapes ih =>
    obtain ⟨f, hread, hf⟩ := r.read_eq s
    by_cases hfits : r.canRead s.width = true
    · obtain ⟨hshape, hencode⟩ := hf hfits
      rw [dif_pos hfits] at hread
      have hlength := length_encode f
      rw [hshape] at hlength
      simp only [readAll, hread, map_cons_ok_iff, ih]
      constructor
      · rintro ⟨fields', rfl, rfl, hprefix, hview, hoffset⟩
        refine ⟨by rw [List.map_cons, hshape], ?_, hview, ?_⟩
        · rw [encodeAll_cons, hencode, rest_skip hfits]
          exact (List.prefix_append_right_inj _).mpr hprefix
        · rw [hoffset, encodeAll_cons, List.length_append, hlength, ← Nat.add_assoc]
          rfl
      · rintro ⟨hshapes, ⟨after, hafter⟩, hview, hoffset⟩
        obtain ⟨g, fields', rfl, hg, hshapes⟩ := List.map_eq_cons_iff.mp hshapes
        have hlength' := length_encode g
        rw [hg] at hlength'
        rw [encodeAll_cons, rest_skip hfits, List.append_assoc, ← hencode] at hafter
        obtain ⟨hbytes, hrest⟩ := List.append_inj hafter (by rw [hlength, hlength'])
        obtain rfl := Field.eq_of_encode (hg.trans hshape.symm) hbytes
        refine ⟨fields', rfl, hshapes, ⟨after, hrest⟩, hview, ?_⟩
        rw [hoffset, encodeAll_cons, List.length_append, hlength, ← Nat.add_assoc]
        rfl
    · rw [dif_neg hfits] at hread
      have hwidth := mt canRead_iff.mpr hfits
      simp only [readAll, hread, failure]
      constructor
      · intro h
        cases (Prod.mk.inj h).1
      · rintro ⟨hshapes, hprefix, -, -⟩
        obtain ⟨g, fields', rfl, hg, -⟩ := List.map_eq_cons_iff.mp hshapes
        have hle := hprefix.length_le
        have hwithin := r.within
        rw [encodeAll_cons, List.length_append, length_encode, hg, length_rest] at hle
        omega

/-- **Run lemma**, for a run that stops: all fields before the last one fit. -/
theorem readAll_error_iff (r r' : ByteReader) (shapes : List Shape) (e : Status) :
    r.readAll shapes = (.error e, r') ↔
      ∃ done s after, shapes = done ++ s :: after ∧ r'.view = r.view ∧
        r'.offset = r.offset + (done.map Shape.width).sum ∧ r.view.size < r'.offset + s.width ∧
          e = Status.failure s.short.toList := by
  induction shapes generalizing r with
  | nil => simp [readAll]
  | cons s shapes ih =>
    obtain ⟨f, hread, -⟩ := r.read_eq s
    by_cases hfits : r.canRead s.width = true
    · rw [dif_pos hfits] at hread
      simp only [readAll, hread, map_cons_error_iff, ih]
      constructor
      · rintro ⟨done, t, after, rfl, hview, hoffset, hshort, he⟩
        refine ⟨s :: done, t, after, rfl, hview, ?_, hshort, he⟩
        rw [hoffset, List.map_cons, List.sum_cons, ← Nat.add_assoc]
        rfl
      · rintro ⟨done, t, after, hshapes, hview, hoffset, hshort, he⟩
        cases done with
        | nil =>
          obtain ⟨rfl, -⟩ := List.cons.inj hshapes
          have hle := canRead_iff.mp hfits
          rw [hoffset, List.map_nil, List.sum_nil, Nat.add_zero] at hshort
          omega
        | cons s' done =>
          obtain ⟨rfl, rfl⟩ := List.cons.inj hshapes
          refine ⟨done, t, after, rfl, hview, ?_, hshort, he⟩
          rw [hoffset, List.map_cons, List.sum_cons, ← Nat.add_assoc]
          rfl
    · rw [dif_neg hfits] at hread
      have hwidth := mt canRead_iff.mpr hfits
      simp only [readAll, hread, failure, Prod.mk.injEq, Except.error.injEq]
      constructor
      · rintro ⟨rfl, rfl⟩
        exact ⟨[], s, shapes, rfl, rfl, rfl, by omega, rfl⟩
      · rintro ⟨done, t, after, hshapes, hview, hoffset, -, he⟩
        cases done with
        | nil =>
          obtain ⟨rfl, -⟩ := List.cons.inj hshapes
          exact ⟨he.symm, (ByteReader.ext hview hoffset).symm⟩
        | cons s' done =>
          -- the reader would stand behind its view
          obtain ⟨rfl, -⟩ := List.cons.inj hshapes
          have hwithin := r'.within
          rw [hview, hoffset, List.map_cons, List.sum_cons] at hwithin
          omega

/-- **Reading field by field** gives exactly the fields whose bytes come next and
leaves the reader behind them; a run that stops has read every field before the one
that does not fit, and says which that was. -/
theorem readAll_iff (r r' : ByteReader) (shapes : List Shape) :
    (∀ fields, r.readAll shapes = (.ok fields, r') ↔
      fields.map Field.shape = shapes ∧ encodeAll fields <+: r.rest ∧ r'.view = r.view ∧
        r'.offset = r.offset + (encodeAll fields).length) ∧
    ∀ e, r.readAll shapes = (.error e, r') ↔
      ∃ done s after, shapes = done ++ s :: after ∧ r'.view = r.view ∧
        r'.offset = r.offset + (done.map Shape.width).sum ∧ r.view.size < r'.offset + s.width ∧
          e = Status.failure s.short.toList :=
  ⟨readAll_ok_iff r r' shapes, readAll_error_iff r r' shapes⟩

end ByteReader
end PacketGuard.Core
