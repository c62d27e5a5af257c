/-!
# ArithTree.Text.Quoted

A text shown as a quoted literal. Single quotes are preferred; a text that holds a single quote and
no double quote is shown in double quotes. Inside, the quote in use and the backslash are escaped,
and so are the control characters.
-/

namespace ArithTree
namespace Text

def singleQuote : Char := Char.ofNat 39

/-- Two hexadecimal digits. -/
def hexPair (n : Nat) : List Char := [Nat.digitChar (n / 16), Nat.digitChar (n % 16)]

/-- How one character is shown between quotes `q`. -/
def escape (q c : Char) : List Char :=
  if c = q ∨ c = '\\' then ['\\', c]
  else if c = '\n' then ['\\', 'n']
  else if c = '\r' then ['\\', 'r']
  else if c = '\t' then ['\\', 't']
  else if c.toNat < 32 ∨ c.toNat = 127 then '\\' :: 'x' :: hexPair c.toNat
  else [c]

/-- The quote that a text is shown in. -/
def quoteFor (cs : List Char) : Char :=
  if singleQuote ∈ cs ∧ '"' ∉ cs then '"' else singleQuote

def quotedChars (cs : List Char) : List Char :=
  let q := quoteFor cs
  q :: (cs.flatMap (escape q) ++ [q])

def quoted (s : String) : String := String.ofList (quotedChars s.toList)

end Text
end ArithTree
