import Managed.Toml.Moment
import Managed.Toml.Number

/-!
# TOML documents

A document is a list of pairs and headers. `parse?` gives its table, unless the text is no document.
-/

namespace Managed.Toml

open Reader

/-! ## Values -/

def boolean : Reader Value :=
  (do word "true"; return .boolean true) <|> (do word "false"; return .boolean false)

/-- A value without parts. -/
def scalar : Reader Value :=
  (do return .string (← anyString)) <|> boolean <|> moment <|> float <|> integer

def arrayOf (element : Reader Value) : Reader Value := do
  char '['
  let elements ← separated (char ',') (do
    gaps
    let v ← element
    gaps
    return v)
  if !elements.isEmpty then
    let _ ← option (char ',')
  gaps
  char ']'
  return .array elements

def pairOf (value : Reader Value) : Reader Pair := do
  let (path, key) ← dottedKey
  char '='
  blanks
  return { path, key, value := ← value }

def inlineTableOf (value : Reader Value) : Reader Value := do
  char '\x7b'
  let pairs ← separated (char ',') (do
    let pair ← pairOf value
    blanks
    return pair)
  blanks
  char '\x7d'
  match Table.addPairs {} pairs with
  | some t => return .inline t.entries
  | none => failure

/-- A value with parts nested at most `depth` times. -/
def value : Nat → Reader Value
  | 0 => scalar
  | depth + 1 => scalar <|> arrayOf (value depth) <|> inlineTableOf (value depth)

/-! ## Lines -/

inductive Statement where
  | pair (pair : Pair)
  | header (header : Header)
  /-- An empty line or a comment. -/
  | nothing

def header : Reader Header := do
  char '['
  let repeated := (← option (char '[')).isSome
  let (path, key) ← dottedKey
  char ']'
  if repeated then char ']'
  return { path, key, repeated }

def statement : Reader Statement := do
  blanks
  let filler : Reader Statement := do
    let _ ← option comment
    newline <|> finished
    return .nothing
  let section' : Reader Statement := do
    let h ← header
    lineRest
    return .header h
  let assignment : Reader Statement := do
    let p ← pairOf (value (depthLimit - 1))
    lineRest
    return .pair p
  filler <|> section' <|> assignment

/-- Adds statements to a document whose last header is given, with the pairs that follow it so far.
-/
def assemble (root : Table) (last : Option Header) (pairs : List Pair) :
    List Statement → Option Table
  | [] =>
    match last with
    | some h => root.addSection h pairs
    | none => root.addPairs pairs
  | .nothing :: rest => assemble root last pairs rest
  | .pair p :: rest => assemble root last (pairs ++ [p]) rest
  | .header h :: rest => do
    let root ← assemble root last pairs []
    assemble root (some h) [] rest

/-- The table of a document. A byte order mark in front is skipped. -/
def parse? (text : String) : Option Table := do
  let chars := match text.toList with
    | '﻿' :: rest => rest
    | chars => chars
  let (statements, rest) ← many statement chars
  let (_, rest) ← blanks rest
  if rest.isEmpty then assemble {} none [] statements else none

end Managed.Toml
