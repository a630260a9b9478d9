/-
NextUfs.Core.Report — the string output of `src/core/report.c`:
`nextufs_report_json_string`.

The stream is the list of bytes written to it. A loop index is the rest of the
string it stands at.
-/
import Mathlib.Data.List.Basic

namespace NextUfs.Core

def QUOTE : UInt8 := 0x22
def BACKSLASH : UInt8 := 0x5c

/-- A digit of `%04x`. -/
def lowerHexDigit (n : Nat) : UInt8 := if n < 10 then UInt8.ofNat (0x30 + n) else UInt8.ofNat (0x61 + (n - 10))

/-- `\u%04x`. -/
def unicodeEscapeOf (n : Nat) : List UInt8 :=
  [BACKSLASH, 0x75, lowerHexDigit (n / 4096 % 16), lowerHexDigit (n / 256 % 16),
    lowerHexDigit (n / 16 % 16), lowerHexDigit (n % 16)]

/-- The `n` of `nextufs_report_json_string`: how long the sequence of a lead byte is, 0 if the byte
leads none. -/
def sequenceLength (c : UInt8) : Nat :=
  if c ≥ 0xc2 ∧ c ≤ 0xdf then 2
  else if c ≥ 0xe0 ∧ c ≤ 0xef then 3
  else if c ≥ 0xf0 ∧ c ≤ 0xf4 then 4
  else 0

/-- The tests for `valid`, `rest` being what follows the byte. The last one looks at the second byte
of a sequence that has one. -/
def sequenceValid (c : UInt8) (rest : List UInt8) : Bool :=
  let n := sequenceLength c
  let s1 := rest.getD 0 0
  (n != 0 && n ≤ rest.length + 1) &&
    ((rest.take (n - 1)).all fun b => b &&& 0xc0 == 0x80) &&
    !((c == 0xe0 && s1 < 0xa0) || (c == 0xed && s1 ≥ 0xa0) ||
      (c == 0xf0 && s1 < 0x90) || (c == 0xf4 && s1 ≥ 0x90))

/-- The loop of `nextufs_report_json_string`. Every turn takes a byte at least, so as many turns as
there are bytes are enough. -/
def jsonStringLoop : Nat → List UInt8 → List UInt8
  | _, [] => []
  | 0, _ => []
  | fuel + 1, c :: rest =>
    if c = QUOTE ∨ c = BACKSLASH then [BACKSLASH, c] ++ jsonStringLoop fuel rest
    else if c = 0x0a then [BACKSLASH, 0x6e] ++ jsonStringLoop fuel rest
    else if c = 0x0d then [BACKSLASH, 0x72] ++ jsonStringLoop fuel rest
    else if c = 0x09 then [BACKSLASH, 0x74] ++ jsonStringLoop fuel rest
    else if c < 32 then unicodeEscapeOf c.toNat ++ jsonStringLoop fuel rest
    else if c < 128 then [c] ++ jsonStringLoop fuel rest
    else if sequenceValid c rest then
      c :: rest.take (sequenceLength c - 1) ++
        jsonStringLoop fuel (rest.drop (sequenceLength c - 1))
    else [BACKSLASH, 0x75, 0x66, 0x66, 0x66, 0x64] ++ jsonStringLoop fuel rest

/-- `nextufs_report_json_string`. -/
def reportJsonString (s : List UInt8) : List UInt8 :=
  [QUOTE] ++ jsonStringLoop s.length s ++ [QUOTE]

end NextUfs.Core
