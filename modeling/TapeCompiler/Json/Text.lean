import TapeCompiler.Json.Stop

/-!
# Strings of JSON text

A string stands between double quotes. Quotes, backslashes and control characters inside it are
written as escapes; characters beyond 16 bits may be written as a pair of escaped surrogates.
-/

namespace TapeCompiler.Json

/-- The character of a one-letter escape. -/
def plainEscape? : Char → Option Char
  | '"' => some '"'
  | '\\' => some '\\'
  | '/' => some '/'
  | 'b' => some '\x08'
  | 'f' => some '\x0c'
  | 'n' => some '\n'
  | 'r' => some '\r'
  | 't' => some '\t'
  | _ => none

/-- The value of a hexadecimal digit. -/
def hexDigit? (c : Char) : Option Nat :=
  if c.isDigit then some (c.toNat - '0'.toNat)
  else if 'a' ≤ c ∧ c ≤ 'f' then some (c.toNat - 'a'.toNat + 10)
  else if 'A' ≤ c ∧ c ≤ 'F' then some (c.toNat - 'A'.toNat + 10)
  else none

/-- The value of four hexadecimal digits. -/
def hexUnit? (a b c d : Char) : Option Nat :=
  match hexDigit? a, hexDigit? b, hexDigit? c, hexDigit? d with
  | some a, some b, some c, some d => some (((a * 16 + b) * 16 + c) * 16 + d)
  | _, _, _, _ => none

/-- The stop at four bytes that are not four hexadecimal digits. -/
def stopInUnit (cs : List Char) : Stop :=
  if byteCount cs < 4 then stopAtEnd .string else ⟨.badEscape, byteCount cs - 4⟩

/-- Whether a 16-bit unit is the first of a pair of surrogates. -/
def isHighSurrogate (u : Nat) : Bool := 0xD800 ≤ u && u ≤ 0xDBFF

/-- Whether a 16-bit unit is the second of a pair of surrogates. -/
def isLowSurrogate (u : Nat) : Bool := 0xDC00 ≤ u && u ≤ 0xDFFF

/-- The character of a pair of surrogates. -/
def surrogatePair (high low : Nat) : Char :=
  Char.ofNat ((high - 0xD800) * 0x400 + (low - 0xDC00) + 0x10000)

/-- Puts a character in front of a scanned string. -/
def consChar (c : Char) (rest : Except Stop (List Char × List Char)) :
    Except Stop (List Char × List Char) :=
  match rest with
  | .ok (cs, left) => .ok (c :: cs, left)
  | .error e => .error e

/-- Takes the characters of a string whose opening quote has been taken, with the closing quote. -/
def scanString : List Char → Except Stop (List Char × List Char)
  | [] => .error (stopAtEnd .string)
  | '"' :: rest => .ok ([], rest)
  | '\\' :: 'u' :: a :: b :: c :: d :: rest =>
    match hexUnit? a b c d with
    | none => .error (stopInUnit (a :: b :: c :: d :: rest))
    | some u =>
      if isLowSurrogate u then .error (stopBefore .loneSurrogate rest)
      else if !isHighSurrogate u then consChar (Char.ofNat u) (scanString rest)
      else
        match rest with
        | '\\' :: 'u' :: e :: f :: g :: h :: rest' =>
          match hexUnit? e f g h with
          | none => .error (stopInUnit (e :: f :: g :: h :: rest'))
          | some v =>
            if isLowSurrogate v then consChar (surrogatePair u v) (scanString rest')
            else .error (stopBefore .loneSurrogate rest')
        | '\\' :: 'u' :: short => .error (stopInUnit short)
        | ['\\'] | [] => .error (stopAtEnd .string)
        | '\\' :: wrong => .error (stopWithin .unfinishedSurrogate wrong)
        | wrong => .error (stopWithin .unfinishedSurrogate wrong)
  | '\\' :: 'u' :: short => .error (stopInUnit short)
  | ['\\'] => .error (stopAtEnd .string)
  | '\\' :: c :: rest =>
    match plainEscape? c with
    | some e => consChar e (scanString rest)
    | none => .error (stopWithin .badEscape (c :: rest))
  | c :: rest =>
    if c.toNat < 0x20 then .error (stopBefore .controlCharacter rest)
    else consChar c (scanString rest)

/-- Passes over a string whose opening quote has been taken. Surrogates need not come in pairs. -/
def skipString : List Char → Except Stop (List Char)
  | [] => .error (stopAtEnd .string)
  | '"' :: rest => .ok rest
  | '\\' :: 'u' :: a :: b :: c :: d :: rest =>
    match hexUnit? a b c d with
    | none => .error (stopInUnit (a :: b :: c :: d :: rest))
    | some _ => skipString rest
  | '\\' :: 'u' :: short => .error (stopInUnit short)
  | ['\\'] => .error (stopAtEnd .string)
  | '\\' :: c :: rest =>
    match plainEscape? c with
    | some _ => skipString rest
    | none => .error (stopWithin .badEscape (c :: rest))
  | c :: rest =>
    if c.toNat < 0x20 then .error (stopBefore .controlCharacter (c :: rest))
    else skipString rest

/-- A digit of a hexadecimal number. -/
def hexChar (n : Nat) : Char := if n < 10 then Char.ofNat (n + 48) else Char.ofNat (n + 87)

/-- A character as written inside a string. -/
def escapeChar (c : Char) : List Char :=
  if c = '"' then ['\\', '"']
  else if c = '\\' then ['\\', '\\']
  else if c = '\x08' then ['\\', 'b']
  else if c = '\x0c' then ['\\', 'f']
  else if c = '\n' then ['\\', 'n']
  else if c = '\r' then ['\\', 'r']
  else if c = '\t' then ['\\', 't']
  else if c.toNat < 0x20 then ['\\', 'u', '0', '0', hexChar (c.toNat / 16), hexChar (c.toNat % 16)]
  else [c]

/-- A string as written. -/
def writeString (s : String) : String :=
  "\"" ++ String.ofList (s.toList.flatMap escapeChar) ++ "\""

end TapeCompiler.Json
