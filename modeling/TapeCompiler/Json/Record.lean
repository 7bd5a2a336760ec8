import TapeCompiler.Json.Skip
import TapeCompiler.Program

/-!
# Typed values of JSON text

Scanners for strings, integers, lists and records. A record is an object with some known fields, in
any order, or a list of the values of the fields in their order. Fields that are not known are
passed over. The first fault of a document, in reading order, is the one that is reported.
-/

namespace TapeCompiler.Json

/-- The stop at a value that is not what was wanted. The value itself is taken if it is no list or
object. -/
def refuse (wanted : Wanted) (cs : List Char) : Stop :=
  let word (letters : List Char) (found : Found) (rest : List Char) : Stop :=
    match scanWord letters rest with
    | .ok rest => stopBefore (.wrongType found wanted) rest
    | .error e => e
  let number (positive : Bool) (digits : List Char) : Stop :=
    match scanNumber positive digits with
    | .ok (.integer n, rest) => stopBefore (.wrongType (.integer n) wanted) rest
    | .ok (.float x, rest) => stopBefore (.wrongType (.float (floatText x)) wanted) rest
    | .error e => e
  match cs with
  | 'n' :: rest => word ['u', 'l', 'l'] .null rest
  | 't' :: rest => word ['r', 'u', 'e'] (.boolean true) rest
  | 'f' :: rest => word ['a', 'l', 's', 'e'] (.boolean false) rest
  | '-' :: rest => number false rest
  | '"' :: rest =>
    match scanString rest with
    | .ok (s, rest) => stopBefore (.wrongType (.string (String.ofList s)) wanted) rest
    | .error e => e
  | '[' :: _ => stopBefore (.wrongType .list wanted) cs
  | '\x7b' :: _ => stopBefore (.wrongType .object wanted) cs
  | c :: _ => if c.isDigit then number true cs else stopWithin .expectedValue cs
  | [] => stopAtEnd .value

/-- Takes a string, where `wanted` says what it is for. -/
def scanText (wanted : Wanted) : Scanner String := fun cs =>
  match skipSpace cs with
  | [] => .error (stopAtEnd .value)
  | '"' :: rest =>
    match scanString rest with
    | .ok (s, rest) => .ok (String.ofList s, rest)
    | .error e => .error e
  | rest => .error (refuse wanted rest)

/-- The integer that a number is, if it is representable. -/
def toInteger (n : Number) (rest : List Char) : Except Stop (Int × List Char) :=
  match n with
  | .float x => .error (stopBefore (.wrongType (.float (floatText x)) .integer) rest)
  | .integer i =>
    if Program.Representable i then .ok (i, rest) else .error (stopBefore (.integerRange i) rest)

/-- Takes an integer of 64 bits. -/
def scanInteger : Scanner Int := fun cs =>
  match skipSpace cs with
  | [] => .error (stopAtEnd .value)
  | '-' :: rest =>
    match scanNumber false rest with
    | .ok (n, rest) => toInteger n rest
    | .error e => .error e
  | c :: rest =>
    if c.isDigit then
      match scanNumber true (c :: rest) with
      | .ok (n, rest) => toInteger n rest
      | .error e => .error e
    else .error (refuse .integer (c :: rest))

/-- Takes what stands in front of the next entry of a list: nothing before the first, and a comma
before the others. Answers nothing at the end of the list, in front of its bracket. -/
def scanNext (first : Bool) (cs : List Char) : Except Stop (Option (List Char)) :=
  match skipSpace cs with
  | [] => .error (stopAtEnd .list)
  | ']' :: _ => .ok none
  | c :: rest =>
    if first then .ok (some (c :: rest))
    else if c = ',' then
      match skipSpace rest with
      | [] => .error (stopAtEnd .value)
      | ']' :: rest => .error (stopWithin .trailingComma (']' :: rest))
      | rest => .ok (some rest)
    else .error (stopWithin .expectedCommaOrBracket (c :: rest))

/-- Takes the closing bracket of a list. -/
def scanListEnd (cs : List Char) : Except Stop (List Char) :=
  match skipSpace cs with
  | [] => .error (stopAtEnd .list)
  | ']' :: rest => .ok rest
  | ',' :: rest =>
    match skipSpace rest with
    | ']' :: rest => .error (stopWithin .trailingComma (']' :: rest))
    | rest => .error (stopWithin .trailingCharacters rest)
  | rest => .error (stopWithin .trailingCharacters rest)

/-- Takes the entries of a list whose opening bracket has been taken, with the closing one. The
first argument bounds the number of entries. -/
def scanEntries {α : Type} (entry : Scanner α) : Nat → Bool → Scanner (List α)
  | 0, _, _ => .error (stopAtEnd .list)
  | rounds + 1, first, cs => do
    match ← scanNext first cs with
    | none =>
      let rest ← scanListEnd cs
      pure ([], rest)
    | some cs =>
      let (a, rest) ← entry cs
      let (as, rest) ← scanEntries entry rounds false rest
      pure (a :: as, rest)

/-- Takes a list. Every entry takes at least one character. -/
def scanList {α : Type} (entry : Scanner α) : Scanner (List α) := fun cs =>
  match skipSpace cs with
  | [] => .error (stopAtEnd .value)
  | '[' :: rest => scanEntries entry (rest.length + 1) true rest
  | rest => .error (refuse .list rest)

/-- A field of a record that is being read: its name, whether it has been read, and how. -/
structure Field (σ : Type) where
  name : String
  present : σ → Bool
  scan : σ → Scanner σ

/-- How a record is read: what it is, its fields, and what is made of them. `finish` names the first
missing field if one is missing. -/
structure Schema (σ α : Type) where
  wanted : Wanted
  fields : List (Field σ)
  blank : σ
  finish : σ → Except String α

/-- Takes what stands in front of the next key of an object, with its opening quote. Answers nothing
at the end of the object, in front of its bracket. -/
def scanNextKey (first : Bool) (cs : List Char) : Except Stop (Option (List Char)) :=
  match skipSpace cs with
  | [] => .error (stopAtEnd .object)
  | '\x7d' :: _ => .ok none
  | c :: rest =>
    if first then
      if c = '"' then .ok (some rest) else .error (stopWithin .keyNotString (c :: rest))
    else if c = ',' then
      match skipSpace rest with
      | [] => .error (stopAtEnd .value)
      | '"' :: rest => .ok (some rest)
      | '\x7d' :: rest => .error (stopWithin .trailingComma ('\x7d' :: rest))
      | rest => .error (stopWithin .keyNotString rest)
    else .error (stopWithin .expectedCommaOrBrace (c :: rest))

/-- The text behind space and a closing bracket, if there is one. -/
def behindBrace (cs : List Char) : List Char :=
  match skipSpace cs with
  | '\x7d' :: rest => rest
  | rest => rest

/-- Takes the fields of an object whose opening bracket has been taken, up to the closing one. The
first argument bounds the number of fields. -/
def scanFields {σ : Type} (fields : List (Field σ)) : Nat → Bool → σ → Scanner σ
  | 0, _, _, _ => .error (stopAtEnd .object)
  | rounds + 1, first, draft, cs => do
    match ← scanNextKey first cs with
    | none => pure (draft, skipSpace cs)
    | some cs =>
      let (key, rest) ← scanString cs
      let name := String.ofList key
      match fields.find? fun f => f.name == name with
      | some field =>
        if field.present draft then
          .error (stopBefore (.duplicateField name) (behindBrace rest))
        else
          let rest ← scanColon rest
          let (draft, rest) ← field.scan draft rest
          scanFields fields rounds false draft rest
      | none =>
        let rest ← scanColon rest
        let rest ← skip rest
        scanFields fields rounds false draft rest

/-- Takes the values of fields from a list whose opening bracket has been taken, up to the closing
one. `count` of the `size` fields have been taken. -/
def scanItems {σ : Type} (wanted : Wanted) (size count : Nat) :
    List (Field σ) → σ → Scanner σ
  | [], draft, cs => .ok (draft, cs)
  | field :: fields, draft, cs => do
    match ← scanNext (count == 0) cs with
    | none => .error (stopBefore (.tooShort count wanted size) ((skipSpace cs).drop 1))
    | some cs =>
      let (draft, rest) ← field.scan draft cs
      scanItems wanted size (count + 1) fields draft rest

/-- The record made of what has been read. A missing field is reported behind the record. -/
def finishRecord {σ α : Type} (schema : Schema σ α) (draft : σ) (rest : List Char) :
    Except Stop (α × List Char) :=
  match schema.finish draft with
  | .ok a => .ok (a, rest)
  | .error name => .error (stopBefore (.missingField name) rest)

/-- Takes a record. -/
def scanRecord {σ α : Type} (schema : Schema σ α) : Scanner α := fun cs => do
  match skipSpace cs with
  | [] => .error (stopAtEnd .value)
  | '[' :: rest =>
    let size := schema.fields.length
    let (draft, rest) ← scanItems schema.wanted size 0 schema.fields schema.blank rest
    let rest ← scanListEnd rest
    finishRecord schema draft rest
  | '\x7b' :: rest =>
    let (draft, rest) ← scanFields schema.fields (rest.length + 1) true schema.blank rest
    finishRecord schema draft (rest.drop 1)
  | rest => .error (refuse schema.wanted rest)

end TapeCompiler.Json
