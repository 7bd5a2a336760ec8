import TapeCompiler.Decimal.Shortest
import TapeCompiler.Json.Stop

/-!
# Numbers of JSON text

A number without a fraction and an exponent that fits 64 bits is an integer; every other number is a
double. The double is computed from the leading digits, as many as fit 64 bits, and a power of ten.
-/

namespace TapeCompiler.Json

/-- A number of a document. -/
inductive Number where
  | integer (value : Int)
  | float (value : Float)

/-- Digits behind a sign and a first digit, with `e+` or `e-` and an exponent for numbers that are
very large or very small. -/
def floatText (x : Float) : String :=
  let sign := if x.toBits.toNat < 0x8000000000000000 then "" else "-"
  if x == 0 then sign ++ "0.0"
  else
    let (digits, e) := (Decimal.Binary.ofBits x.toBits).shortest
    let zeros (n : Nat) : List Char := List.replicate n '0'
    let written : List Char :=
      if e < -5 ∨ 15 < e then
        digits.take 1 ++ (if digits.length = 1 then [] else '.' :: digits.drop 1) ++
          ['e', if e < 0 then '-' else '+'] ++ Nat.toDigits 10 e.natAbs
      else if e < 0 then ['0', '.'] ++ zeros (e.natAbs - 1) ++ digits
      else if digits.length ≤ e.toNat + 1 then
        digits ++ zeros (e.toNat + 1 - digits.length) ++ ['.', '0']
      else digits.take (e.toNat + 1) ++ ['.'] ++ digits.drop (e.toNat + 1)
    sign ++ String.ofList written

/-- The largest 64-bit word. -/
def maxWord : Nat := 0xFFFFFFFFFFFFFFFF

/-- The largest exponent that is counted. -/
def maxExponent : Nat := 0x7FFFFFFF

/-- Takes digits into a number as long as it stays at most `limit`. Answers the number, how many
digits were taken, and the rest. -/
def takeDigits (limit : Nat) (n taken : Nat) : List Char → Nat × Nat × List Char
  | [] => (n, taken, [])
  | c :: rest =>
    if c.isDigit && n * 10 + (c.toNat - '0'.toNat) ≤ limit then
      takeDigits limit (n * 10 + (c.toNat - '0'.toNat)) (taken + 1) rest
    else (n, taken, c :: rest)

/-- The power of ten as a double. -/
def powerOfTen (k : Nat) : Float := Float.ofScientific 1 false k

/-- The double `n * 10 ^ exponent`, with the sign. Numbers too large for a double are refused. -/
def scaleFloat (positive : Bool) (n : Nat) (exponent : Int) (rest : List Char) :
    Except Stop (Number × List Char) :=
  let signed (x : Float) : Number := .float (if positive then x else -x)
  let x := (UInt64.ofNat n).toFloat
  if n = 0 then .ok (signed x, rest)
  else if 308 < exponent then .error (stopBefore .numberRange rest)
  else if 0 ≤ exponent then
    let y := x * powerOfTen exponent.toNat
    if y.isInf then .error (stopBefore .numberRange rest) else .ok (signed y, rest)
  else if -308 ≤ exponent then .ok (signed (x / powerOfTen exponent.natAbs), rest)
  else if -616 ≤ exponent then
    .ok (signed (x / powerOfTen 308 / powerOfTen (exponent.natAbs - 308)), rest)
  else .ok (signed 0, rest)

/-- Takes the exponent of a number, behind its mark. -/
def scanExponent (positive : Bool) (n : Nat) (exponent : Int) (cs : List Char) :
    Except Stop (Number × List Char) :=
  let (raises, digits) : Bool × List Char :=
    match cs with
    | '+' :: rest => (true, rest)
    | '-' :: rest => (false, rest)
    | rest => (true, rest)
  match digits with
  | [] => .error (stopAtEnd .value)
  | c :: rest =>
    if !c.isDigit then .error (stopWithin .badNumber (c :: rest))
    else
      match takeDigits maxExponent 0 0 (c :: rest) with
      | (k, _, rest) =>
        match rest with
        | d :: rest' =>
          if !d.isDigit then
            scaleFloat positive n (if raises then exponent + k else exponent - k) (d :: rest')
          else if raises && n != 0 then .error (stopBefore .numberRange rest')
          else .ok (.float (if positive then 0 else -0), rest'.dropWhile Char.isDigit)
        | [] => scaleFloat positive n (if raises then exponent + k else exponent - k) []

/-- Takes the exponent of a number if there is one. -/
def scanScale (positive : Bool) (n : Nat) (exponent : Int) (cs : List Char) :
    Except Stop (Number × List Char) :=
  match cs with
  | 'e' :: rest | 'E' :: rest => scanExponent positive n exponent rest
  | rest => scaleFloat positive n exponent rest

/-- Takes the fraction of a number, behind its point. -/
def scanFraction (positive : Bool) (n : Nat) (exponent : Int) (cs : List Char) :
    Except Stop (Number × List Char) :=
  match cs with
  | [] => .error (stopAtEnd .value)
  | c :: _ =>
    if !c.isDigit then .error (stopWithin .badNumber cs)
    else
      match takeDigits maxWord n 0 cs with
      | (n, taken, rest) =>
        scanScale positive n (exponent - taken) (rest.dropWhile Char.isDigit)

/-- Takes what follows the integral digits of a number that fits 64 bits. -/
def scanTail (positive : Bool) (n : Nat) (cs : List Char) : Except Stop (Number × List Char) :=
  match cs with
  | '.' :: rest => scanFraction positive n 0 rest
  | 'e' :: rest | 'E' :: rest => scanExponent positive n 0 rest
  | rest =>
    if positive then .ok (.integer n, rest)
    else if n = 0 ∨ 0x8000000000000000 < n then .ok (.float (-(UInt64.ofNat n).toFloat), rest)
    else .ok (.integer (-n), rest)

/-- Takes what follows the integral digits of a number that does not fit 64 bits. -/
def scanLongTail (positive : Bool) (n dropped : Nat) (cs : List Char) :
    Except Stop (Number × List Char) :=
  match cs with
  | '.' :: rest => scanFraction positive n dropped rest
  | rest => scanScale positive n dropped rest

/-- Takes a number whose sign has been taken. -/
def scanNumber (positive : Bool) (cs : List Char) : Except Stop (Number × List Char) :=
  match cs with
  | [] => .error (stopAtEnd .value)
  | '0' :: rest =>
    match rest with
    | c :: _ => if c.isDigit then .error (stopWithin .badNumber rest) else scanTail positive 0 rest
    | [] => scanTail positive 0 rest
  | c :: _ =>
    if !c.isDigit then .error (stopWithin .badNumber cs)
    else
      match takeDigits maxWord 0 0 cs with
      | (n, _, rest) =>
        let dropped := (rest.takeWhile Char.isDigit).length
        if dropped = 0 then scanTail positive n rest
        else scanLongTail positive n dropped (rest.dropWhile Char.isDigit)

/-- Passes over the exponent of a number, behind its mark. -/
def skipExponent (cs : List Char) : Except Stop (List Char) :=
  let digits :=
    match cs with
    | '+' :: rest | '-' :: rest => rest
    | rest => rest
  match digits with
  | [] => .error (stopBefore .badNumber [])
  | c :: rest =>
    if c.isDigit then .ok (rest.dropWhile Char.isDigit)
    else .error (stopWithin .badNumber (c :: rest))

/-- Passes over the exponent of a number if there is one. -/
def skipScale (cs : List Char) : Except Stop (List Char) :=
  match cs with
  | 'e' :: rest | 'E' :: rest => skipExponent rest
  | rest => .ok rest

/-- Passes over what follows the integral digits of a number. -/
def skipTail (cs : List Char) : Except Stop (List Char) :=
  match cs with
  | '.' :: rest =>
    if rest.takeWhile Char.isDigit = [] then .error (stopWithin .badNumber rest)
    else skipScale (rest.dropWhile Char.isDigit)
  | rest => skipScale rest

/-- Passes over a number whose sign has been taken. -/
def skipNumber (cs : List Char) : Except Stop (List Char) :=
  match cs with
  | [] => .error (stopBefore .badNumber [])
  | '0' :: rest =>
    match rest with
    | c :: _ => if c.isDigit then .error (stopWithin .badNumber rest) else skipTail rest
    | [] => skipTail rest
  | c :: _ =>
    if c.isDigit then skipTail (cs.dropWhile Char.isDigit) else .error (stopWithin .badNumber cs)

end TapeCompiler.Json
