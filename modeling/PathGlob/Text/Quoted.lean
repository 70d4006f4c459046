import PathGlob.Text.Printing

/-! Quoted texts, readable back and free of invisible characters.

Single quotes, unless the text holds one and no double quote. Inside, a backslash
escapes itself, the quote in use and the characters that do not print; these are
written by code point, in the shortest of three widths. -/
namespace PathGlob.Text

def singleQuote : Char := '\x27'

def doubleQuote : Char := '\x22'

def backslash : Char := '\x5c'

/-- The lowest `width` hexadecimal digits of `n`, lower case. -/
def hex (n : Nat) : (width : Nat) → Text
  | 0 => []
  | width + 1 => hex (n / 16) width ++ [Nat.digitChar (n % 16)]

theorem length_hex (n width : Nat) : (hex n width).length = width := by
  induction width generalizing n with
  | zero => rfl
  | succ width ih => simp [hex, ih]

/-- How `c` is written between two `quote`s. -/
def quotedChar (quote c : Char) : Text :=
  if c = quote || c = backslash then [backslash, c]
  else if c = '\n' then [backslash, 'n']
  else if c = '\r' then [backslash, 'r']
  else if c = '\t' then [backslash, 't']
  else if prints c then [c]
  else if c.toNat < 0x100 then backslash :: 'x' :: hex c.toNat 2
  else if c.toNat < 0x10000 then backslash :: 'u' :: hex c.toNat 4
  else backslash :: 'U' :: hex c.toNat 8

/-- The quote that leaves the least to escape. -/
def quoteFor (s : Text) : Char :=
  if singleQuote ∈ s && doubleQuote ∉ s then doubleQuote else singleQuote

def quoted (s : Text) : Text :=
  let quote := quoteFor s
  quote :: s.flatMap (quotedChar quote) ++ [quote]

end PathGlob.Text
