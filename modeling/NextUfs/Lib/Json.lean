/-
NextUfs.Lib.Json — JSON string literals.

`stringLiteral` is a decoder for the `string` of the JSON grammar: quotes
around unescaped characters, the two-character escapes and `\u` escapes, a
surrogate pair of the latter being one character. It fails on anything else, a
lone surrogate and an unescaped control character among it. `Piece` is what one
character may be written as, and `Spells.stringLiteral` decodes a literal piece
by piece.

Nothing here mentions a file system.
-/
import Mathlib.Data.List.Basic

namespace NextUfs.Lib.Json

/-- The value of a hexadecimal digit. -/
def hexDigit (c : Char) : Option Nat :=
  let v := c.val.toNat
  if 0x30 ≤ v ∧ v ≤ 0x39 then some (v - 0x30)
  else if 0x41 ≤ v ∧ v ≤ 0x46 then some (v - 0x41 + 10)
  else if 0x61 ≤ v ∧ v ≤ 0x66 then some (v - 0x61 + 10)
  else none

/-- The code unit of the four digits of a `\u` escape. -/
def hex4 : List Char → Option (Nat × List Char)
  | a :: b :: c :: d :: rest => do
    let a ← hexDigit a
    let b ← hexDigit b
    let c ← hexDigit c
    let d ← hexDigit d
    return (((a * 16 + b) * 16 + c) * 16 + d, rest)
  | _ => none

/-- What follows a backslash and `u`. A high surrogate takes the low one's escape with it. -/
def unicodeEscape (s : List Char) : Option (Char × List Char) := do
  let (u, rest) ← hex4 s
  if u.isValidChar then return (Char.ofNat u, rest) else
  match rest with
  | '\\' :: 'u' :: rest => do
    let (v, rest) ← hex4 rest
    if u < 0xdc00 ∧ 0xdc00 ≤ v ∧ v < 0xe000 then
      return (Char.ofNat (0x10000 + (u - 0xd800) * 0x400 + (v - 0xdc00)), rest)
    else none
  | _ => none

/-- What follows a backslash. -/
def escape : List Char → Option (Char × List Char)
  | 'u' :: rest => unicodeEscape rest
  | c :: rest =>
    if c = '"' ∨ c = '\\' ∨ c = '/' then some (c, rest)
    else if c = 'b' then some (Char.ofNat 8, rest)
    else if c = 'f' then some (Char.ofNat 12, rest)
    else if c = 'n' then some ('\n', rest)
    else if c = 'r' then some ('\r', rest)
    else if c = 't' then some ('\t', rest)
    else none
  | [] => none

/-- One character of a literal, and what follows it. -/
def character : List Char → Option (Char × List Char)
  | [] => none
  | c :: rest =>
    if c = '\\' then escape rest
    else if c = '"' ∨ c.val < 0x20 then none
    else some (c, rest)

/-- The characters up to the closing quote, which must be the end. Every turn takes a character at
least, so as many turns as there are characters are enough. -/
def characters : Nat → List Char → Option (List Char)
  | 0, _ => none
  | fuel + 1, s =>
    if s = ['"'] then some [] else do
    let (c, rest) ← character s
    let t ← characters fuel rest
    return c :: t

/-- The text a JSON string literal stands for. -/
def stringLiteral : List Char → Option (List Char)
  | [] => none
  | q :: rest => if q = '"' then characters rest.length rest else none

/-! ## Pieces -/

/-- The spelling `p` of the character `c`, whatever follows. -/
structure Piece (p : List Char) (c : Char) : Prop where
  head : ∃ a t, p = a :: t ∧ a ≠ '"'
  decodes : ∀ rest, character (p ++ rest) = some (c, rest)

theorem Piece.plain {c : Char} (hq : c ≠ '"') (hb : c ≠ '\\') (hc : ¬ c.val < 0x20) :
    Piece [c] c := by
  refine ⟨⟨c, [], rfl, hq⟩, fun rest => ?_⟩
  rw [List.singleton_append, character, if_neg hb, if_neg (by simp [hq, hc])]

/-- A text spelled out piece by piece. -/
inductive Spells : List Char → List Char → Prop where
  | nil : Spells [] []
  | cons {p s c t} : Piece p c → Spells s t → Spells (p ++ s) (c :: t)

theorem Spells.characters {s t : List Char} (h : Spells s t) :
    ∀ {fuel : Nat}, s.length < fuel → characters fuel (s ++ ['"']) = some t := by
  induction h with
  | nil =>
    intro fuel hfuel
    obtain ⟨n, rfl⟩ := Nat.exists_eq_succ_of_ne_zero (Nat.ne_of_gt hfuel)
    rfl
  | @cons p s c t hp _ ih =>
    intro fuel hfuel
    obtain ⟨n, rfl⟩ := Nat.exists_eq_succ_of_ne_zero (Nat.ne_of_gt (Nat.zero_lt_of_lt hfuel))
    obtain ⟨a, u, rfl, ha⟩ := hp.head
    have hne : (a :: u ++ s) ++ ['"'] ≠ ['"'] := fun h => ha (List.cons.inj h).1
    have hlen : s.length < n := by
      simp only [List.length_append, List.length_cons] at hfuel
      omega
    rw [Json.characters, if_neg hne, List.append_assoc, hp.decodes]
    simp only [Option.bind_eq_bind, Option.bind_some, ih hlen, Option.pure_def]

/-- A text spelled out between quotes. -/
theorem Spells.stringLiteral {s t : List Char} (h : Spells s t) :
    stringLiteral ('"' :: (s ++ ['"'])) = some t := by
  rw [Json.stringLiteral, if_pos rfl]
  refine h.characters ?_
  rw [List.length_append, List.length_singleton]
  omega

end NextUfs.Lib.Json
