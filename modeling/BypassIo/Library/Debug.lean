import Mathlib.Tactic.Common

/-!
# Strings in `{:?}` format

Rust prints a string between quotes and escapes the characters that a terminal may not show.
Which characters from 128 on these are is a table of the Unicode version, and a parameter here.
-/

namespace Rust

/-- Printed as it is. The table `wide` decides from 128 on. -/
def printable (wide : Char → Bool) (c : Char) : Bool :=
  32 ≤ c.toNat && c.toNat < 127 || 128 ≤ c.toNat && wide c

/-- `char::escape_debug_ext`, without escapes of the single quote. -/
def escapeDebug (wide : Char → Bool) (c : Char) : List Char :=
  if c = '\x00' then ['\\', '0']
  else if c = '\t' then ['\\', 't']
  else if c = '\r' then ['\\', 'r']
  else if c = '\n' then ['\\', 'n']
  else if c = '\\' then ['\\', '\\']
  else if c = '"' then ['\\', '"']
  else if printable wide c then [c]
  else '\\' :: 'u' :: '{' :: (Nat.toDigits 16 c.toNat ++ ['}'])

/-- A string in `{:?}` format. -/
def debug (wide : Char → Bool) (s : String) : String :=
  "\"" ++ String.ofList (s.toList.flatMap (escapeDebug wide)) ++ "\""

example : debug (fun _ => false) "a\t\"" = "\"a\\t\\\"\"" := by decide

end Rust
