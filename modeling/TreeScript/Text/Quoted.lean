/-!
# Quoted text

Two written forms of a text. A script literal stands in single quotes and escapes the quote, the
backslash, the tab and the line feed. A diagnostic form stands in double quotes and also escapes
every character that leaves no mark of its own on a page.
-/

namespace TreeScript.Text

set_option autoImplicit false

def escapeChar (c : Char) : List Char :=
  if c = '\\' then ['\\', '\\']
  else if c = '\t' then ['\\', 't']
  else if c = '\n' then ['\\', 'n']
  else if c = '\'' then ['\\', '\'']
  else [c]

def escape (characters : List Char) : List Char := characters.flatMap escapeChar

def escapeString (text : String) : String := String.ofList (escape text.toList)

def quote (text : String) : String := s!"'{escapeString text}'"

/-- Controls, blanks other than the space, characters that only direct the layout, combining
marks, and code points set aside for private use. -/
def isUnprintable (c : Char) : Bool :=
  let code := c.toNat
  code < 0x20 || (0x7F ≤ code && code ≤ 0xA0) || code == 0xAD ||
    (0x300 ≤ code && code ≤ 0x36F) || code == 0x61C || code == 0x1680 || code == 0x180E ||
    (0x2000 ≤ code && code ≤ 0x200F) || (0x2028 ≤ code && code ≤ 0x202F) ||
    (0x205F ≤ code && code ≤ 0x206F) || code == 0x3000 || (0xE000 ≤ code && code ≤ 0xF8FF) ||
    (0xFE00 ≤ code && code ≤ 0xFE0F) || code == 0xFEFF || (0xFFF0 ≤ code && code ≤ 0xFFFB) ||
    0xE0000 ≤ code

/-- One character of the diagnostic form. An unprintable character without an escape of its own
is written by its code in lower case hexadecimal digits. -/
def diagnosticChar (c : Char) : List Char :=
  if c = '"' then ['\\', '"']
  else if c = '\\' then ['\\', '\\']
  else if c = '\n' then ['\\', 'n']
  else if c = '\t' then ['\\', 't']
  else if c = '\r' then ['\\', 'r']
  else if c = '\x00' then ['\\', '0']
  else if isUnprintable c then '\\' :: 'u' :: '\x7b' :: Nat.toDigits 16 c.toNat ++ ['\x7d']
  else [c]

def diagnostic (text : String) : String :=
  String.ofList ('"' :: text.toList.flatMap diagnosticChar ++ ['"'])

/-- In the name of a file the single quote is escaped too. -/
def fileDiagnosticChar (c : Char) : List Char :=
  if c = '\'' then ['\\', '\''] else diagnosticChar c

def fileDiagnostic (file : String) : String :=
  String.ofList ('"' :: file.toList.flatMap fileDiagnosticChar ++ ['"'])

@[simp] theorem escape_nil : escape [] = [] := rfl

@[simp] theorem escape_cons (c : Char) (rest : List Char) :
    escape (c :: rest) = escapeChar c ++ escape rest := by
  simp [escape]

theorem escape_append (front back : List Char) :
    escape (front ++ back) = escape front ++ escape back := by
  simp [escape]

end TreeScript.Text
