import PathScout.Text.Visible

/-!
# Quoted text

* `Text.quoted`: a text in double quotes, with escapes for quotes, backslashes, line ends, tabs,
  zero, and every character without a visible form of its own.
-/

namespace PathScout.Text

/-- A character as it is written between double quotes. -/
def quotedChar (c : Char) : String :=
  if c = '\x00' then "\\0"
  else if c = '\t' then "\\t"
  else if c = '\r' then "\\r"
  else if c = '\n' then "\\n"
  else if c = '"' then "\\\""
  else if c = '\\' then "\\\\"
  else if isVisible c then String.singleton c
  else "\\u\x7b" ++ String.ofList (Nat.toDigits 16 c.toNat) ++ "\x7d"

/-- A text in double quotes. -/
def quoted (s : String) : String := "\"" ++ String.join (s.toList.map quotedChar) ++ "\""

end PathScout.Text
