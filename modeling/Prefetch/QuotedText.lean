import Prefetch.PrintableText

/-!
# Quoted texts in messages

A message that names a piece of text writes it between quotation marks. Apostrophes are used
unless the text holds an apostrophe and no double quote. A backslash and the mark in use are
written behind a backslash, and line feed, carriage return and tab by their letters. Any other
unprintable character is written by its code in two, four or eight hexadecimal digits, as few as
hold it. All other characters stand for themselves.
-/

namespace Prefetch

def hexDigit (n : Nat) : Char :=
  if n.blt 10 then Char.ofNat (0x30 + n) else Char.ofNat (0x57 + n)

def hexDigits : (width : Nat) → Nat → List Char
  | 0, _ => []
  | width + 1, n => hexDigits width (n / 16) ++ [hexDigit (n % 16)]

def escapeCode (n : Nat) : List Char :=
  if n.blt 0x100 then '\\' :: 'x' :: hexDigits 2 n
  else if n.blt 0x10000 then '\\' :: 'u' :: hexDigits 4 n
  else '\\' :: 'U' :: hexDigits 8 n

def quoteMark (text : List Char) : Char :=
  if text.contains '\'' && !text.contains '"' then '"' else '\''

def escapeChar (mark c : Char) : List Char :=
  if c = mark || c = '\\' then ['\\', c]
  else if c = '\n' then ['\\', 'n']
  else if c = '\r' then ['\\', 'r']
  else if c = '\t' then ['\\', 't']
  else if isUnprintable c then escapeCode c.toNat
  else [c]

def quoted (text : String) : String :=
  let mark := quoteMark text.toList
  String.ofList (mark :: text.toList.flatMap (escapeChar mark) ++ [mark])

end Prefetch
