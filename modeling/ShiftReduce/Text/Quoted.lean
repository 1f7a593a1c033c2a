import ShiftReduce.Text.Printable

/-!
Quoted text.

The delimiter is a single quote, unless the text holds a single quote and no double quote. The
backslash and the delimiter are written after a backslash, tab, line feed and carriage return by
their letter, any other character that is not printable by its code point in hexadecimal with two,
four or eight digits.
-/

namespace ShiftReduce.Text

def singleQuote : Char := '\x27'

def doubleQuote : Char := '\x22'

def delimiter (cs : List Char) : Char :=
  if singleQuote ∈ cs ∧ doubleQuote ∉ cs then doubleQuote else singleQuote

def hex (width n : Nat) : List Char :=
  let digits := Nat.toDigits 16 n
  List.replicate (width - digits.length) '0' ++ digits

def escapeCode (n : Nat) : List Char :=
  if n < 0x100 then '\\' :: 'x' :: hex 2 n
  else if n < 0x10000 then '\\' :: 'u' :: hex 4 n
  else '\\' :: 'U' :: hex 8 n

def escape (printable : Char → Bool) (delim c : Char) : List Char :=
  if c = '\\' ∨ c = delim then ['\\', c]
  else if c = '\t' then ['\\', 't']
  else if c = '\n' then ['\\', 'n']
  else if c = '\r' then ['\\', 'r']
  else if printable c then [c]
  else escapeCode c.toNat

def quoteWith (printable : Char → Bool) (cs : List Char) : List Char :=
  let delim := delimiter cs
  delim :: cs.flatMap (escape printable delim) ++ [delim]

def quote (s : String) : String :=
  String.ofList (quoteWith isPrintable s.toList)

/-- Bytes are quoted like the characters with their values, after the letter b, and only ASCII
stays as it is. -/
def quoteBytes (bs : List UInt8) : String :=
  String.ofList ('b' :: quoteWith isPrintableAscii (bs.map fun b => Char.ofNat b.toNat))

end ShiftReduce.Text
