/-
NextUfs.Core.ReportTheorems — the JSON strings of `Core.Report`.

`sequenceValid_iff` says that the recogniser accepts the well-formed UTF-8
sequences and nothing else. The loop then reads its input as `Utf8.Scanned`
does and spells it piece by piece (`jsonStringLoop_spec`).
-/
import NextUfs.Core.Report
import NextUfs.Lib.Utf8
import NextUfs.Lib.Json
import Mathlib.Tactic.IntervalCases

namespace NextUfs.Core

open NextUfs.Lib NextUfs.Lib.Utf8
open String (utf8EncodeChar)

/-! ## The recogniser -/

theorem continuation_iff (b : UInt8) : (b &&& 0xc0 == 0x80) = true ↔ Continuation b := by
  have hall : ∀ n : Fin 256, (UInt8.ofNat n &&& 0xc0 == 0x80) = true ↔
      0x80 ≤ n.val ∧ n.val < 0xc0 := by decide +kernel
  have h := hall ⟨b.toNat, b.toNat_lt⟩
  rwa [UInt8.ofNat_toNat] at h

theorem ofNat_eq {b : UInt8} {n : Nat} (h : n = b.toNat) : UInt8.ofNat n = b := by
  rw [h, UInt8.ofNat_toNat]

/-- The sequences of two bytes. -/
theorem char_of_two {a b : UInt8} (ha : 0xc2 ≤ a.toNat ∧ a.toNat ≤ 0xdf) (hb : Continuation b) :
    ∃ c, utf8EncodeChar c = [a, b] := by
  obtain ⟨h₁, h₂⟩ := hb
  obtain ⟨c, hc⟩ := exists_char (n := (a.toNat - 0xc0) * 64 + (b.toNat - 0x80))
    (by simp only [Nat.isValidChar]; omega)
  refine ⟨c, ?_⟩
  simp only [String.utf8EncodeChar, hc]
  rw [if_neg (by omega), if_pos (by omega), ofNat_eq (b := a) (by omega),
    ofNat_eq (b := b) (by omega)]

/-- The sequences of three bytes: no overlong form, no surrogate. -/
theorem char_of_three {a b d : UInt8} (ha : 0xe0 ≤ a.toNat ∧ a.toNat ≤ 0xef) (hb : Continuation b)
    (hd : Continuation d) (he0 : a.toNat = 0xe0 → 0xa0 ≤ b.toNat)
    (hed : a.toNat = 0xed → b.toNat < 0xa0) : ∃ c, utf8EncodeChar c = [a, b, d] := by
  obtain ⟨h₁, h₂⟩ := hb
  obtain ⟨h₃, h₄⟩ := hd
  obtain ⟨c, hc⟩ := exists_char
    (n := (a.toNat - 0xe0) * 4096 + (b.toNat - 0x80) * 64 + (d.toNat - 0x80))
    (by simp only [Nat.isValidChar]; omega)
  refine ⟨c, ?_⟩
  simp only [String.utf8EncodeChar, hc]
  rw [if_neg (by omega), if_neg (by omega), if_pos (by omega), ofNat_eq (b := a) (by omega),
    ofNat_eq (b := b) (by omega), ofNat_eq (b := d) (by omega)]

/-- The sequences of four bytes: no overlong form, nothing above U+10FFFF. -/
theorem char_of_four {a b d e : UInt8} (ha : 0xf0 ≤ a.toNat ∧ a.toNat ≤ 0xf4)
    (hb : Continuation b) (hd : Continuation d) (he : Continuation e)
    (hf0 : a.toNat = 0xf0 → 0x90 ≤ b.toNat) (hf4 : a.toNat = 0xf4 → b.toNat < 0x90) :
    ∃ c, utf8EncodeChar c = [a, b, d, e] := by
  obtain ⟨h₁, h₂⟩ := hb
  obtain ⟨h₃, h₄⟩ := hd
  obtain ⟨h₅, h₆⟩ := he
  obtain ⟨c, hc⟩ := exists_char (n := (a.toNat - 0xf0) * 262144 + (b.toNat - 0x80) * 4096 +
    (d.toNat - 0x80) * 64 + (e.toNat - 0x80)) (by simp only [Nat.isValidChar]; omega)
  refine ⟨c, ?_⟩
  simp only [String.utf8EncodeChar, hc]
  rw [if_neg (by omega), if_neg (by omega), if_neg (by omega), ofNat_eq (b := a) (by omega),
    ofNat_eq (b := b) (by omega), ofNat_eq (b := d) (by omega), ofNat_eq (b := e) (by omega)]

/-- What the tests for `valid` say, with the bytes as numbers. -/
@[mk_iff]
structure SequenceOk (a : UInt8) (rest : List UInt8) : Prop where
  lead : sequenceLength a ≠ 0
  room : sequenceLength a ≤ rest.length + 1
  tail : ∀ b ∈ rest.take (sequenceLength a - 1), Continuation b
  three : a.toNat = 0xe0 → 0xa0 ≤ (rest.getD 0 0).toNat
  surrogate : a.toNat = 0xed → (rest.getD 0 0).toNat < 0xa0
  four : a.toNat = 0xf0 → 0x90 ≤ (rest.getD 0 0).toNat
  last : a.toNat = 0xf4 → (rest.getD 0 0).toNat < 0x90

theorem sequenceValid_iff {a : UInt8} {rest : List UInt8} :
    sequenceValid a rest = true ↔ SequenceOk a rest := by
  rw [sequenceOk_iff]
  generalize hs : rest.getD 0 0 = s
  simp only [sequenceValid, hs, Bool.and_eq_true, bne_iff_ne, decide_eq_true_eq, List.all_eq_true,
    continuation_iff, Bool.not_eq_true', Bool.or_eq_false_iff, Bool.and_eq_false_iff,
    beq_eq_false_iff_ne, decide_eq_false_iff_not, UInt8.lt_iff_toNat_lt, UInt8.le_iff_toNat_le,
    ge_iff_le, ne_eq, ← UInt8.toNat_inj, UInt8.reduceToNat, imp_iff_not_or, Nat.not_lt,
    Nat.not_le, and_assoc]

/-- The lengths by the value of the lead byte. -/
theorem sequenceLength_cases (a : UInt8) :
    (0xc2 ≤ a.toNat ∧ a.toNat ≤ 0xdf ∧ sequenceLength a = 2) ∨
    (0xe0 ≤ a.toNat ∧ a.toNat ≤ 0xef ∧ sequenceLength a = 3) ∨
    (0xf0 ≤ a.toNat ∧ a.toNat ≤ 0xf4 ∧ sequenceLength a = 4) ∨
    ((a.toNat < 0xc2 ∨ 0xf4 < a.toNat) ∧ sequenceLength a = 0) := by
  simp only [sequenceLength, ge_iff_le, UInt8.le_iff_toNat_le, UInt8.reduceToNat]
  split
  · omega
  split
  · omega
  split
  · omega
  · omega

/-- What the recogniser accepts is a well-formed sequence. -/
theorem char_of_valid {a : UInt8} {rest : List UInt8} (h : SequenceOk a rest) :
    ∃ c, utf8EncodeChar c = a :: rest.take (sequenceLength a - 1) := by
  obtain ⟨hlead, hroom, htail, hthree, hsurrogate, hfour, hlast⟩ := h
  rcases sequenceLength_cases a with ⟨h₁, h₂, hn⟩ | ⟨h₁, h₂, hn⟩ | ⟨h₁, h₂, hn⟩ | ⟨-, hn⟩
  · rw [hn] at hroom htail ⊢
    obtain ⟨b, rest, rfl⟩ := List.exists_cons_of_length_pos (l := rest) (by omega)
    exact char_of_two ⟨h₁, h₂⟩ (htail b (by simp))
  · rw [hn] at hroom htail ⊢
    rcases rest with _ | ⟨b, _ | ⟨d, rest⟩⟩
    · exact absurd hroom (by simp)
    · exact absurd hroom (by simp)
    · exact char_of_three ⟨h₁, h₂⟩ (htail b (by simp)) (htail d (by simp)) hthree hsurrogate
  · rw [hn] at hroom htail ⊢
    rcases rest with _ | ⟨b, _ | ⟨d, _ | ⟨e, rest⟩⟩⟩
    · exact absurd hroom (by simp)
    · exact absurd hroom (by simp)
    · exact absurd hroom (by simp)
    · exact char_of_four ⟨h₁, h₂⟩ (htail b (by simp)) (htail d (by simp)) (htail e (by simp))
        hfour hlast
  · exact absurd hn hlead

/-- A sequence as a lead byte of its length and that many continuation bytes. -/
theorem SequenceOk.of_bytes {a b : UInt8} {t q : List UInt8}
    (hn : sequenceLength a = t.length + 2) (hb : Continuation b) (ht : ∀ x ∈ t, Continuation x)
    (hthree : a.toNat = 0xe0 → 0xa0 ≤ b.toNat) (hsurrogate : a.toNat = 0xed → b.toNat < 0xa0)
    (hfour : a.toNat = 0xf0 → 0x90 ≤ b.toNat) (hlast : a.toNat = 0xf4 → b.toNat < 0x90) :
    SequenceOk a (b :: (t ++ q)) := by
  refine ⟨by omega, ?_, ?_, hthree, hsurrogate, hfour, hlast⟩
  · rw [hn, List.length_cons, List.length_append]
    omega
  · rw [hn, show t.length + 2 - 1 = t.length + 1 by omega, List.take_succ_cons, List.take_left]
    intro x hx
    rcases List.mem_cons.mp hx with rfl | hx
    · exact hb
    · exact ht x hx

/-- A well-formed sequence is accepted. -/
theorem valid_of_char {a : UInt8} {rest : List UInt8} {c : Char} (ha : 0x80 ≤ a.toNat)
    (h : utf8EncodeChar c <+: a :: rest) : SequenceOk a rest := by
  have hvalid := c.valid
  simp only [UInt32.isValidChar, Nat.isValidChar] at hvalid
  obtain ⟨q, hq⟩ := h
  revert hq
  simp only [String.utf8EncodeChar]
  generalize c.val.toNat = v at hvalid
  intro hq
  have hlen := sequenceLength_cases a
  split at hq
  · obtain ⟨rfl, -⟩ := List.cons.inj hq
    rw [UInt8.toNat_ofNat'] at ha
    omega
  split at hq
  · obtain ⟨rfl, rfl⟩ := List.cons.inj hq
    rw [UInt8.toNat_ofNat'] at hlen
    refine SequenceOk.of_bytes (t := []) ?_ ?_ (by simp) ?_ ?_ ?_ ?_ <;>
      simp only [Continuation, UInt8.toNat_ofNat', List.length_nil] <;> omega
  split at hq
  · obtain ⟨rfl, rfl⟩ := List.cons.inj hq
    rw [UInt8.toNat_ofNat'] at hlen
    refine SequenceOk.of_bytes (t := [_]) ?_ ?_ ?_ ?_ ?_ ?_ ?_ <;>
      simp only [Continuation, UInt8.toNat_ofNat', List.length_singleton, List.mem_singleton,
        forall_eq] <;> omega
  · obtain ⟨rfl, rfl⟩ := List.cons.inj hq
    rw [UInt8.toNat_ofNat'] at hlen
    refine SequenceOk.of_bytes (t := [_, _]) ?_ ?_ ?_ ?_ ?_ ?_ ?_ <;>
      simp only [Continuation, UInt8.toNat_ofNat', List.length_cons, List.length_nil,
        List.mem_cons, List.not_mem_nil, or_false, forall_eq_or_imp, forall_eq] <;> omega

/-! ## The loop -/

/-- `out` spells the text of `s`. -/
def Told (s out : List UInt8) : Prop :=
  ∃ segs body, Scanned s segs ∧ Json.Spells body (segs.map Segment.shown) ∧ encode body = out

theorem Told.nil : Told [] [] := ⟨[], [], .nil, .nil, rfl⟩

theorem Told.char {s out : List UInt8} {c : Char} {p : List Char} (hp : Json.Piece p c)
    (h : Told s out) : Told (utf8EncodeChar c ++ s) (encode p ++ out) := by
  obtain ⟨segs, body, hscan, hspell, rfl⟩ := h
  exact ⟨_, p ++ body, .char hscan, .cons hp hspell, encode_append p body⟩

theorem Told.ascii {c : UInt8} {s out : List UInt8} {p : List Char} (hc : c < 0x80)
    (hp : Json.Piece p (Char.ofNat c.toNat)) (h : Told s out) : Told (c :: s) (encode p ++ out) := by
  have hchar := Told.char hp h
  rwa [utf8EncodeChar_ascii hc] at hchar

/-- A stray byte is shown as U+FFFD. -/
theorem Told.stray {b : UInt8} {s out : List UInt8} (hb : ∀ c, ¬ utf8EncodeChar c <+: b :: s)
    (h : Told s out) : Told (b :: s) ([BACKSLASH, 0x75, 0x66, 0x66, 0x66, 0x64] ++ out) := by
  obtain ⟨segs, body, hscan, hspell, rfl⟩ := h
  have hp : Json.Piece ['\\', 'u', 'f', 'f', 'f', 'd'] replacement :=
    ⟨⟨_, _, rfl, by decide⟩, fun rest => rfl⟩
  exact ⟨_, _, .stray hb hscan, .cons hp hspell, encode_append _ body⟩

/-! ## Escapes -/

theorem hexDigit_lower : ∀ n < 16,
    Json.hexDigit (Char.ofNat (lowerHexDigit n).toNat) = some n ∧ lowerHexDigit n < 0x80 := by
  decide

/-- A digit as a character. -/
def hexChar (n : Nat) : Char := Char.ofNat (lowerHexDigit n).toNat

/-- A control character as four digits. -/
theorem piece_control {n : Nat} (hn : n < 32) :
    ∃ p, Json.Piece p (Char.ofNat n) ∧ encode p = unicodeEscapeOf n := by
  refine ⟨['\\', 'u', hexChar (n / 4096 % 16), hexChar (n / 256 % 16), hexChar (n / 16 % 16),
    hexChar (n % 16)], ⟨⟨_, _, rfl, by decide⟩, fun rest => ?_⟩, ?_⟩
  · have hdigit (k : Nat) : Json.hexDigit (hexChar (k % 16)) = some (k % 16) :=
      (hexDigit_lower _ (Nat.mod_lt _ (by omega))).1
    have hvalue : ((n / 4096 % 16 * 16 + n / 256 % 16) * 16 + n / 16 % 16) * 16 + n % 16 = n := by
      omega
    have hvalid : n.isValidChar := .inl (by omega)
    simp only [List.cons_append, List.nil_append, Json.character, Json.escape, Json.unicodeEscape,
      Json.hex4, hdigit, hvalue, hvalid, if_true, Option.bind_eq_bind, Option.bind_some,
      Option.pure_def]
  · have hbyte (k : Nat) : utf8EncodeChar (hexChar (k % 16)) = [lowerHexDigit (k % 16)] :=
      utf8EncodeChar_ascii (hexDigit_lower _ (Nat.mod_lt _ (by omega))).2
    simp only [encode_cons, encode_nil, hbyte]
    rfl

theorem piece_plain {c : Char} (h : 0x20 ≤ c.val.toNat) (hq : c ≠ '"') (hb : c ≠ '\\') :
    Json.Piece [c] c :=
  .plain hq hb fun hlt => absurd (UInt32.lt_iff_toNat_lt.mp hlt) (Nat.not_lt.mpr h)

/-- The loop spells what it reads. -/
theorem jsonStringLoop_spec : ∀ {fuel : Nat} {s : List UInt8}, s.length ≤ fuel →
    Told s (jsonStringLoop fuel s)
  | _, [], _ => by
    rw [jsonStringLoop]
    exact .nil
  | 0, _ :: _, h => absurd h (Nat.not_succ_le_zero _)
  | fuel + 1, c :: rest, h => by
    have hrest : rest.length ≤ fuel := Nat.le_of_succ_le_succ h
    have ih := jsonStringLoop_spec hrest
    rw [jsonStringLoop]
    split
    case isTrue hc =>
      rcases hc with rfl | rfl
      · exact Told.ascii (p := ['\\', '"']) (by decide)
          ⟨⟨_, _, rfl, by decide⟩, fun rest => rfl⟩ ih
      · exact Told.ascii (p := ['\\', '\\']) (by decide)
          ⟨⟨_, _, rfl, by decide⟩, fun rest => rfl⟩ ih
    case isFalse hc =>
    rw [not_or] at hc
    split
    case isTrue h =>
      subst h
      exact Told.ascii (p := ['\\', 'n']) (by decide) ⟨⟨_, _, rfl, by decide⟩, fun rest => rfl⟩ ih
    split
    case isTrue h =>
      subst h
      exact Told.ascii (p := ['\\', 'r']) (by decide) ⟨⟨_, _, rfl, by decide⟩, fun rest => rfl⟩ ih
    split
    case isTrue h =>
      subst h
      exact Told.ascii (p := ['\\', 't']) (by decide) ⟨⟨_, _, rfl, by decide⟩, fun rest => rfl⟩ ih
    split
    case isTrue h =>
      obtain ⟨p, hp, hout⟩ := piece_control (UInt8.lt_iff_toNat_lt.mp h)
      rw [← hout]
      exact Told.ascii (UInt8.lt_trans h (by decide)) hp ih
    case isFalse h32 =>
    split
    case isTrue h =>
      have hlt : c.toNat < 128 := UInt8.lt_iff_toNat_lt.mp h
      have hval := toNat_ofNat (n := c.toNat) (.inl (by omega))
      have hp : Json.Piece [Char.ofNat c.toNat] (Char.ofNat c.toNat) := by
        refine piece_plain ?_ (fun hq => ?_) (fun hb => ?_)
        · rw [hval]
          exact UInt8.le_iff_toNat_le.mp (UInt8.not_lt.mp h32)
        · rw [hq] at hval
          exact hc.1 (UInt8.toNat_inj.mp hval.symm)
        · rw [hb] at hval
          exact hc.2 (UInt8.toNat_inj.mp hval.symm)
      have htold := Told.ascii h hp ih
      rwa [encode_cons, encode_nil, utf8EncodeChar_ascii h, List.append_nil] at htold
    case isFalse h128 =>
    have hge : 0x80 ≤ c.toNat := UInt8.le_iff_toNat_le.mp (UInt8.not_lt.mp h128)
    split
    case isTrue hvalid =>
      obtain ⟨d, hd⟩ := char_of_valid (sequenceValid_iff.mp hvalid)
      have hval := val_ge hd hge
      have hp := piece_plain (c := d) (by omega)
        (fun hq => absurd (hq ▸ hval) (by decide)) (fun hb => absurd (hb ▸ hval) (by decide))
      have hdrop : (rest.drop (sequenceLength c - 1)).length ≤ fuel := by
        rw [List.length_drop]
        omega
      have htold := Told.char hp (jsonStringLoop_spec hdrop)
      rwa [encode_cons, encode_nil, List.append_nil, hd, List.cons_append,
        List.take_append_drop] at htold
    case isFalse hvalid =>
      exact .stray (fun d hd => hvalid (sequenceValid_iff.mpr (valid_of_char hge hd))) ih

/-- The output is valid UTF-8 and a JSON string literal; decoded, it is the input with its
well-formed sequences kept and every stray byte replaced. -/
theorem json_string (s : List UInt8) : ∃ literal segs,
    reportJsonString s = encode literal ∧
    Json.stringLiteral literal = some (segs.map Segment.shown) ∧
    Segmented s segs := by
  obtain ⟨segs, body, hscan, hspell, hout⟩ := jsonStringLoop_spec (le_refl s.length)
  refine ⟨'"' :: (body ++ ['"']), segs, ?_, hspell.stringLiteral, hscan.segmented⟩
  rw [reportJsonString, ← hout, encode_cons, encode_append]
  rfl

/-- A sequence cut off by the end of the string. -/
example : reportJsonString [0x61, 0x0a, 0xc3, 0xa9, 0xe2, 0x82] =
    encode "\"a\\né\\ufffd\\ufffd\"".toList := by decide +kernel

end NextUfs.Core
