import ContractIR.Text.Quoted
/-!
# Text — JSON string literals

Reports are written as JSON. Only the quote, the backslash and the
characters below U+0020 are escaped; everything else is written as it is.
-/

namespace ContractIR

namespace Text

/-- One character of a JSON string literal. -/
def jsonChar (c : Char) : String :=
  match c with
  | '\x22' => "\\\""
  | '\\' => "\\\\"
  | '\x08' => "\\b"
  | '\x0c' => "\\f"
  | '\n' => "\\n"
  | '\r' => "\\r"
  | '\t' => "\\t"
  | c =>
    if c.toNat < 0x10 then "\\u000" ++ hexadecimal c.toNat
    else if c.toNat < 0x20 then "\\u00" ++ hexadecimal c.toNat
    else c.toString

/-- A JSON string literal, quotes included. -/
def jsonString (s : String) : String :=
  "\"" ++ String.join (s.toList.map jsonChar) ++ "\""

end Text

end ContractIR
