import Mathlib.Data.List.Basic

/-! Strings as `JSON.stringify` writes them. -/
namespace JsonText

def isControl (c : Char) : Bool := c.toNat < 0x20

def hexDigit (n : ℕ) : Char := (Nat.toDigits 16 n).headD '0'

def escape (c : Char) : List Char :=
  if c = '"' then ['\\', '"']
  else if c = '\\' then ['\\', '\\']
  else if !isControl c then [c]
  else if c.toNat = 8 then ['\\', 'b']
  else if c.toNat = 9 then ['\\', 't']
  else if c.toNat = 10 then ['\\', 'n']
  else if c.toNat = 12 then ['\\', 'f']
  else if c.toNat = 13 then ['\\', 'r']
  else ['\\', 'u', '0', '0', hexDigit (c.toNat / 16), hexDigit (c.toNat % 16)]

def quote (s : List Char) : List Char := '"' :: s.flatMap escape ++ ['"']

variable {s : List Char} {c : Char}

theorem escape_plain (hquote : c ≠ '"') (hslash : c ≠ '\\') (hplain : isControl c = false) :
    escape c = [c] := by
  rw [escape, if_neg hquote, if_neg hslash, hplain]
  rfl

theorem quote_plain (h : ∀ c ∈ s, c ≠ '"' ∧ c ≠ '\\' ∧ isControl c = false) :
    quote s = '"' :: s ++ ['"'] := by
  have hchars : ∀ c ∈ s, escape c = [c] :=
    fun c hc => escape_plain (h c hc).1 (h c hc).2.1 (h c hc).2.2
  rw [quote, List.flatMap_congr hchars, List.flatMap_singleton']

end JsonText
