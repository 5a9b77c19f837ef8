import ContractIR.Text.Printable
/-!
# Text — quoted names

Messages show a name between double quotes when its exact spelling
matters. A character that cannot be shown as it is gets an escape: the six
short ones, or the code point in lower-case hexadecimal between braces.
-/

namespace ContractIR

namespace Text

/-- A number in lower-case hexadecimal, without leading zeros. -/
def hexadecimal (n : Nat) : String := String.ofList (Nat.toDigits 16 n)

/-- One character of a quoted name. -/
def quotedChar (c : Char) : String :=
  match c with
  | '\x22' => "\\\""
  | '\\' => "\\\\"
  | '\n' => "\\n"
  | '\r' => "\\r"
  | '\t' => "\\t"
  | '\x00' => "\\0"
  | c => if isPlain c then c.toString else "\\u\x7b" ++ hexadecimal c.toNat ++ "\x7d"

/-- A name between double quotes. -/
def quoted (s : String) : String :=
  "\"" ++ String.join (s.toList.map quotedChar) ++ "\""

/-- An optional name, shown as `None` or as `Some("name")`. -/
def quotedOption : Option String → String
  | none => "None"
  | some s => "Some(" ++ quoted s ++ ")"

/-- A half-open range of positions. -/
def range (start stop : Nat) : String := s!"{start}..{stop}"

end Text

end ContractIR
