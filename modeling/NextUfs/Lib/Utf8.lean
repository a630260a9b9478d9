/-
NextUfs.Lib.Utf8 — bytes read as UTF-8 with stray bytes among them.

The well-formed sequences are those of the core library,
`String.utf8EncodeChar c` for a `Char`, and a `Char` is a Unicode scalar value:
there is no overlong form, no surrogate and nothing above U+10FFFF.
`Segmented` says how a byte string falls into such sequences and stray bytes,
without an order of reading: every sequence that occurs anywhere is a segment.
`Scanned` is the same from left to right, and `Scanned.segmented` connects the
two; it rests on a lead byte never being a continuation byte.

Nothing here mentions a file system.
-/
import Mathlib.Data.List.Basic

namespace NextUfs.Lib.Utf8

open String (utf8EncodeChar)

/-- The bytes of a text. -/
def encode (cs : List Char) : List UInt8 := cs.flatMap utf8EncodeChar

@[simp] theorem encode_nil : encode [] = [] := rfl

@[simp] theorem encode_append (cs ds : List Char) : encode (cs ++ ds) = encode cs ++ encode ds :=
  List.flatMap_append

@[simp] theorem encode_cons (c : Char) (cs : List Char) :
    encode (c :: cs) = utf8EncodeChar c ++ encode cs := rfl

/-- U+FFFD. -/
def replacement : Char := '\uFFFD'

/-- A well-formed sequence, or a byte that is part of none. -/
inductive Segment where
  | char (c : Char)
  | stray (b : UInt8)
  deriving DecidableEq, Repr

namespace Segment

def bytes : Segment → List UInt8
  | char c => utf8EncodeChar c
  | stray b => [b]

/-- What is shown for a segment. -/
def shown : Segment → Char
  | char c => c
  | stray _ => replacement

end Segment

/-- The segments of a byte string: a byte is stray only if it is part of no well-formed sequence,
and then it is no ASCII byte. -/
structure Segmented (s : List UInt8) (segs : List Segment) : Prop where
  bytes : segs.flatMap Segment.bytes = s
  whole : ∀ p c q, s = p ++ utf8EncodeChar c ++ q →
    ∃ l r, segs = l ++ .char c :: r ∧ l.flatMap Segment.bytes = p
  stray : ∀ b, .stray b ∈ segs → 0x80 ≤ b

/-- The same, read from left to right. -/
inductive Scanned : List UInt8 → List Segment → Prop where
  | nil : Scanned [] []
  | char {c s segs} : Scanned s segs → Scanned (utf8EncodeChar c ++ s) (.char c :: segs)
  | stray {b s segs} : (∀ c, ¬ utf8EncodeChar c <+: b :: s) → Scanned s segs →
      Scanned (b :: s) (.stray b :: segs)

/-! ## Lead and continuation bytes -/

/-- A byte of the form 10xxxxxx. -/
def Continuation (b : UInt8) : Prop := 0x80 ≤ b.toNat ∧ b.toNat < 0xc0

/-- A sequence is a lead byte and continuation bytes. -/
theorem utf8EncodeChar_eq (c : Char) : ∃ b t, utf8EncodeChar c = b :: t ∧ ¬ Continuation b ∧
    ∀ x ∈ t, Continuation x := by
  have hv : c.val.toNat < 0x110000 := by
    have h := c.valid
    simp only [UInt32.isValidChar, Nat.isValidChar] at h
    omega
  unfold String.utf8EncodeChar
  dsimp only
  generalize c.val.toNat = v at hv
  simp only [Continuation]
  split
  · exact ⟨_, _, rfl, by rw [UInt8.toNat_ofNat']; omega, by simp⟩
  split
  · refine ⟨_, _, rfl, by rw [UInt8.toNat_ofNat']; omega, ?_⟩
    simp only [List.mem_cons, List.not_mem_nil, or_false, forall_eq, UInt8.toNat_ofNat']
    omega
  split
  · refine ⟨_, _, rfl, by rw [UInt8.toNat_ofNat']; omega, ?_⟩
    simp only [List.mem_cons, List.not_mem_nil, or_false, forall_eq_or_imp, forall_eq,
      UInt8.toNat_ofNat']
    omega
  · refine ⟨_, _, rfl, by rw [UInt8.toNat_ofNat']; omega, ?_⟩
    simp only [List.mem_cons, List.not_mem_nil, or_false, forall_eq_or_imp, forall_eq,
      UInt8.toNat_ofNat']
    omega

theorem utf8EncodeChar_ne_nil (c : Char) : utf8EncodeChar c ≠ [] := by
  obtain ⟨b, t, h, -⟩ := utf8EncodeChar_eq c
  rw [h]
  exact List.cons_ne_nil b t

theorem toNat_ofNat {n : Nat} (h : n.isValidChar) : (Char.ofNat n).val.toNat = n := by
  rw [Char.ofNat, dif_pos h]
  rfl

theorem exists_char {n : Nat} (h : n.isValidChar) : ∃ c : Char, c.val.toNat = n :=
  ⟨Char.ofNat n, toNat_ofNat h⟩

/-- An ASCII byte is a sequence. -/
theorem utf8EncodeChar_ascii {b : UInt8} (hb : b < 0x80) :
    utf8EncodeChar (Char.ofNat b.toNat) = [b] := by
  have hlt : b.toNat < 128 := UInt8.lt_iff_toNat_lt.mp hb
  have hval := toNat_ofNat (n := b.toNat) (by simp only [Nat.isValidChar]; omega)
  simp only [String.utf8EncodeChar, hval]
  rw [if_pos (by omega), UInt8.ofNat_toNat]

/-- Only an ASCII character begins with an ASCII byte. -/
theorem val_ge {c : Char} {b : UInt8} {t : List UInt8} (h : utf8EncodeChar c = b :: t)
    (hb : 0x80 ≤ b.toNat) : 0x80 ≤ c.val.toNat := by
  by_contra hlt
  simp only [String.utf8EncodeChar] at h
  rw [if_pos (by omega)] at h
  obtain ⟨rfl, -⟩ := List.cons.inj h
  rw [UInt8.toNat_ofNat'] at hb
  omega

/-- Every byte of a sequence but the first is a continuation byte. -/
theorem continuation_of_append {c : Char} {p q : List UInt8} {x : UInt8}
    (h : utf8EncodeChar c = p ++ x :: q) (hp : p ≠ []) : Continuation x := by
  obtain ⟨b, t, hc, -, ht⟩ := utf8EncodeChar_eq c
  rcases p with _ | ⟨y, p⟩
  · exact absurd rfl hp
  · rw [hc] at h
    obtain ⟨-, rfl⟩ := List.cons.inj h
    exact ht x (by simp)

/-- Two sequences at the head of one string are the same. -/
theorem char_unique {c d : Char} {s q : List UInt8}
    (h : utf8EncodeChar c ++ s = utf8EncodeChar d ++ q) : c = d := by
  have hc := @ByteArray.utf8DecodeChar?_utf8EncodeChar_append s.toByteArray c
  have hd := @ByteArray.utf8DecodeChar?_utf8EncodeChar_append q.toByteArray d
  rw [← List.toByteArray_append, h, List.toByteArray_append, hd] at hc
  exact (Option.some.inj hc).symm

/-! ## From left to right -/

/-- No sequence starts inside another. -/
theorem append_of_char {c d : Char} {s p q : List UInt8}
    (h : utf8EncodeChar c ++ s = p ++ (utf8EncodeChar d ++ q)) (hp : p ≠ []) :
    ∃ p', p = utf8EncodeChar c ++ p' ∧ s = p' ++ (utf8EncodeChar d ++ q) := by
  rcases List.append_eq_append_iff.mp h with ⟨p', hp', hs⟩ | ⟨q', hc, hq⟩
  · exact ⟨p', hp', hs⟩
  obtain ⟨b, t, hd, hb, -⟩ := utf8EncodeChar_eq d
  rcases q' with _ | ⟨x, q'⟩
  · exact ⟨[], by rw [hc, List.append_nil, List.append_nil], hq.symm⟩
  · rw [hd] at hq
    obtain ⟨rfl, -⟩ := List.cons.inj hq
    exact absurd (continuation_of_append hc hp) hb

/-- Reading from left to right finds every sequence. -/
theorem Scanned.segmented {s : List UInt8} {segs : List Segment} (h : Scanned s segs) :
    Segmented s segs := by
  induction h with
  | nil =>
    refine ⟨rfl, fun p c q h => ?_, fun b hb => absurd hb List.not_mem_nil⟩
    have hnil := congrArg List.length h
    have hpos := List.length_pos_iff.mpr (utf8EncodeChar_ne_nil c)
    simp only [List.length_nil, List.length_append] at hnil
    omega
  | @char c s segs _ ih =>
    refine ⟨?_, fun p d q h => ?_, fun b hb => ?_⟩
    · rw [List.flatMap_cons, ih.bytes]
      rfl
    · rw [List.append_assoc] at h
      rcases eq_or_ne p [] with rfl | hp
      · exact ⟨[], segs, by rw [char_unique h]; rfl, rfl⟩
      · obtain ⟨p', rfl, hs⟩ := append_of_char h hp
        obtain ⟨l, r, hsegs, hl⟩ := ih.whole p' d q (by rw [hs, List.append_assoc])
        exact ⟨.char c :: l, r, by rw [hsegs]; rfl, by rw [List.flatMap_cons, hl]; rfl⟩
    · rcases List.mem_cons.mp hb with hb | hb
      · exact absurd hb (by simp)
      · exact ih.stray b hb
  | @stray b s segs hnone _ ih =>
    refine ⟨?_, fun p d q h => ?_, fun x hx => ?_⟩
    · rw [List.flatMap_cons, ih.bytes]
      rfl
    · rw [List.append_assoc] at h
      rcases p with _ | ⟨y, p⟩
      · exact absurd ⟨q, h.symm⟩ (hnone d)
      · obtain ⟨rfl, hs⟩ := List.cons.inj h
        obtain ⟨l, r, hsegs, hl⟩ := ih.whole p d q (hs.trans (List.append_assoc ..).symm)
        exact ⟨.stray b :: l, r, by rw [hsegs]; rfl, by rw [List.flatMap_cons, hl]; rfl⟩
    · rcases List.mem_cons.mp hx with hx | hx
      · obtain rfl : x = b := by simpa using hx
        by_contra hlt
        exact hnone _ ⟨s, by rw [utf8EncodeChar_ascii (UInt8.not_le.mp hlt)]; rfl⟩
      · exact ih.stray x hx

/-! ## The segments are determined by the bytes -/

theorem Segment.bytes_ne_nil (x : Segment) : x.bytes ≠ [] := by
  cases x with
  | char c => exact utf8EncodeChar_ne_nil c
  | stray b => exact List.cons_ne_nil b []

theorem flatMap_bytes_eq_nil {l : List Segment} (h : l.flatMap Segment.bytes = []) : l = [] := by
  cases l with
  | nil => rfl
  | cons x l =>
    rw [List.flatMap_cons] at h
    exact absurd (List.append_eq_nil_iff.mp h).1 x.bytes_ne_nil

/-- A sequence at the head is the first segment. -/
theorem Segmented.head {s q : List UInt8} {segs : List Segment} {c : Char} (h : Segmented s segs)
    (hs : s = utf8EncodeChar c ++ q) : ∃ r, segs = .char c :: r := by
  obtain ⟨l, r, hsegs, hl⟩ := h.whole [] c q hs
  obtain rfl := flatMap_bytes_eq_nil hl
  exact ⟨r, hsegs⟩

theorem Segmented.tail {s : List UInt8} {x : Segment} {segs : List Segment}
    (h : Segmented s (x :: segs)) : Segmented (segs.flatMap Segment.bytes) segs := by
  refine ⟨rfl, fun p c q hq => ?_, fun b hb => h.stray b (List.mem_cons_of_mem _ hb)⟩
  have hs : s = (x.bytes ++ p) ++ utf8EncodeChar c ++ q := by
    rw [← h.bytes, List.flatMap_cons, hq, List.append_assoc, List.append_assoc, List.append_assoc]
  obtain ⟨l, r, hsegs, hl⟩ := h.whole _ c q hs
  rcases l with _ | ⟨y, l⟩
  · exact absurd (List.append_eq_nil_iff.mp hl.symm).1 x.bytes_ne_nil
  · obtain ⟨rfl, hrest⟩ := List.cons.inj hsegs
    rw [List.flatMap_cons] at hl
    exact ⟨l, r, hrest, List.append_cancel_left hl⟩

theorem Segmented.scanned {s : List UInt8} {segs : List Segment} (h : Segmented s segs) :
    Scanned s segs := by
  induction segs generalizing s with
  | nil =>
    rw [← h.bytes]
    exact .nil
  | cons x segs ih =>
    rw [← h.bytes, List.flatMap_cons]
    cases x with
    | char c => exact .char (ih h.tail)
    | stray b =>
      refine .stray (fun c hc => ?_) (ih h.tail)
      obtain ⟨q, hq⟩ := hc
      obtain ⟨r, hr⟩ := h.head (c := c) (q := q) (by rw [hq, ← h.bytes]; rfl)
      exact absurd (List.cons.inj hr).1 (by simp)

theorem Segmented.unique {s : List UInt8} {segs segs' : List Segment} (h : Segmented s segs)
    (h' : Segmented s segs') : segs = segs' := by
  induction h.scanned generalizing segs' with
  | nil =>
    exact (flatMap_bytes_eq_nil h'.bytes).symm
  | @char c s segs hscan ih =>
    obtain ⟨r, rfl⟩ := h'.head rfl
    have htail := h'.tail
    have hbytes : r.flatMap Segment.bytes = s := List.append_cancel_left h'.bytes
    rw [hbytes] at htail
    rw [ih hscan.segmented htail]
  | @stray b s segs hnone hscan ih =>
    have hscan' := h'.scanned
    generalize hz : b :: s = z at hscan'
    cases hscan' with
    | nil => exact absurd hz (by simp)
    | @char c s' r _ => exact absurd ⟨s', hz.symm⟩ (hnone c)
    | @stray b' s' r _ hrest =>
      obtain ⟨rfl, rfl⟩ := List.cons.inj hz
      rw [ih hscan.segmented hrest.segmented]

end NextUfs.Lib.Utf8
