/-
# Project files

A document is a sequence of statements, one a line: a key with a value, the header of a table, or the
header of one more table of an array.  A key may have several parts, each naming a table inside the one
before.

What a key may still be used for depends on how it came to be, and that is all the state there is besides
the data: `sealed` holds the keys of inline tables and arrays, nothing below which may change, and
`declared` the keys that a header may not open again.  Keys opened on the way by a key of several parts
become declared at the next header (`pending`).

* `value`: a value; arrays and inline tables nest, so it carries a bound on the depth.
* `Document.setValue`, `Document.openTable`, `Document.openItem`: the three kinds of statements.
* `parse`: the tables of a document.
-/
import LuaServer.Toml.Scalar

namespace LuaServer.Toml

/-! ## 1. Tables inside tables -/

/-- A key: the names of the tables on the way, and the last name. -/
abbrev Key := List Text

/-- Changes the members of the table with a key, making the tables on the way that are missing.  The
last table of an array stands for the array, if `lists` allows. -/
def atTable (lists : Bool) (f : Members → Option Members) : Key → Members → Option Members
  | [], ms => f ms
  | k :: ks, ms =>
    match Table.get? k ms with
    | none => (atTable lists f ks []).map fun inner => Table.insert k (.obj inner) ms
    | some (.obj inner) =>
      (atTable lists f ks inner).map fun inner => Table.insert k (.obj inner) ms
    | some (.arr items) =>
      match lists, items.getLast? with
      | true, some (.obj inner) =>
        (atTable lists f ks inner).map fun inner =>
          Table.insert k (.arr (items.dropLast ++ [.obj inner])) ms
      | _, _ => none
    | some _ => none

/-- Adds a member that must be new. -/
def addNew (name : Text) (v : Json) (ms : Members) : Option Members :=
  if Table.has name ms then none else some (Table.insert name v ms)

/-- Adds an empty table to the array with a name, which may be new. -/
def addItem (name : Text) (ms : Members) : Option Members :=
  match Table.get? name ms with
  | none => some (Table.insert name (.arr [.obj []]) ms)
  | some (.arr items) => some (Table.insert name (.arr (items ++ [.obj []])) ms)
  | some _ => none

/-- One of the keys is the given one or leads to it. -/
def covers (keys : List Key) (k : Key) : Bool := keys.any fun s => s.isPrefixOf k

/-- An array or a table. -/
def isNest : Json → Bool
  | .arr _ | .obj _ => true
  | _ => false

/-! ## 2. Keys and values -/

/-- Moves over white space on one line. -/
def skipSpace (t : Text) : Text := t.dropWhile isSpace

/-- What a bare key consists of. -/
def isBareKey (c : Code) : Bool :=
  isDigit c || (code 'a' ≤ c && c ≤ code 'z') || (code 'A' ≤ c && c ≤ code 'Z') || c = code '-'
    || c = code '_'

/-- One part of a key. -/
def keyPart : Read Text := fun t =>
  match t with
  | [] => malformed
  | c :: _ =>
    if isBareKey c then .ok (t.takeWhile isBareKey, t.dropWhile isBareKey)
    else if c = code '\'' then literalString t
    else if c = code '"' then basicString t
    else malformed

/-- A key, with at most `depth` parts. -/
def key : (depth : Nat) → Read Key
  | 0, _ => malformed
  | depth + 1, t =>
    match keyPart t with
    | .error e => .error e
    | .ok (p, rest) =>
      let rest := skipSpace rest
      if rest.head? = some (code '.') then
        match key depth (skipSpace (rest.drop 1)) with
        | .error e => .error e
        | .ok (ps, rest) => .ok (p :: ps, rest)
      else .ok ([p], rest)

/-- What is left after a comment, if one stands in front. -/
def skipComment (t : Text) : Except Fault Text :=
  if t.head? = some (code '#') then
    let c := (t.drop 1).takeWhile (· != 10)
    if c.any isControl then malformed else .ok ((t.drop 1).drop c.length)
  else .ok t

/-- What is left after white space, line ends and comments. -/
def skipLines : (depth : Nat) → Text → Except Fault Text
  | 0, t => .ok t
  | depth + 1, t =>
    let t := t.dropWhile isSpaceOrLine
    if t.head? = some (code '#') then
      match skipComment t with
      | .error e => .error e
      | .ok t => skipLines depth t
    else .ok t

mutual

/-- A value. -/
def value : (depth : Nat) → Read Json
  | 0, _ => malformed
  | depth + 1, t =>
    match t with
    | [] => malformed
    | c :: rest =>
      if c = code '"' ∨ c = code '\'' then
        match string c t with
        | .ok (s, rest) => .ok (.str s, rest)
        | .error e => .error e
      else if (text "true").isPrefixOf t then .ok (.bool true, t.drop 4)
      else if (text "false").isPrefixOf t then .ok (.bool false, t.drop 5)
      else if c = code '[' then
        match skipLines t.length rest with
        | .error e => .error e
        | .ok rest => items depth [] rest
      else if c = code '\x7b' then
        let rest := skipSpace rest
        if rest.head? = some (code '\x7d') then .ok (.obj [], rest.drop 1)
        else inlineMembers depth [] [] rest
      else number t

/-- The items of an array up to its end, those before in reverse. -/
def items : (depth : Nat) → List Json → Read Json
  | 0, _, _ => malformed
  | depth + 1, acc, t =>
    if t.head? = some (code ']') then .ok (.arr acc.reverse, t.drop 1)
    else
      match value depth t with
      | .error e => .error e
      | .ok (v, t) =>
        match skipLines t.length t with
        | .error e => .error e
        | .ok t =>
          if t.head? = some (code ']') then .ok (.arr (v :: acc).reverse, t.drop 1)
          else if t.head? = some (code ',') then
            match skipLines t.length (t.drop 1) with
            | .error e => .error e
            | .ok t => items depth (v :: acc) t
          else malformed

/-- The members of an inline table from one of them on.  `done` are the keys that may not be added
to. -/
def inlineMembers : (depth : Nat) → Members → List Key → Read Json
  | 0, _, _, _ => malformed
  | depth + 1, ms, done, t =>
    match key t.length t with
    | .error e => .error e
    | .ok (k, t) =>
      if t.head? = some (code '=') then
        match value depth (skipSpace (t.drop 1)) with
        | .error e => .error e
        | .ok (v, t) =>
          if covers done k then malformed
          else
            match atTable false (addNew (k.getLastD []) v) k.dropLast ms with
            | none => malformed
            | some ms =>
              let t := skipSpace t
              if t.head? = some (code '\x7d') then .ok (.obj ms, t.drop 1)
              else if t.head? = some (code ',') then
                inlineMembers depth ms (if isNest v then k :: done else done)
                  (skipSpace (t.drop 1))
              else malformed
      else malformed

end

/-! ## 3. Documents -/

/-- A document so far: its data, and what its keys may still be used for. -/
structure Document where
  data : Members := []
  sealed : List Key := []
  declared : List Key := []
  pending : List Key := []

namespace Document

/-- The keys of the tables that a key of several parts opens below a header. -/
def onTheWay (header k : Key) : List Key :=
  (List.range (k.length - 1)).map fun i => header ++ k.take (i + 1)

/-- A key with a value, below a header. -/
def setValue (d : Document) (header k : Key) (v : Json) : Option Document :=
  let way := onTheWay header k
  if way.any (fun w => d.declared.contains w) then none
  else if covers d.sealed (header ++ k.dropLast) then none
  else
    (atTable true (addNew (k.getLastD []) v) (header ++ k.dropLast) d.data).map fun data =>
      { d with
        data := data
        sealed := if isNest v then (header ++ k) :: d.sealed else d.sealed
        pending := way ++ d.pending }

/-- What was pending is declared. -/
def settle (d : Document) : Document :=
  { d with declared := d.pending ++ d.declared, pending := [] }

/-- The header of a table, which may be opened once. -/
def openTable (d : Document) (k : Key) : Option Document :=
  if d.declared.contains k || covers d.sealed k then none
  else
    (atTable true some k d.data).map fun data => { d with data := data, declared := k :: d.declared }

/-- The header of one more table of an array: what was said of the tables below it no longer holds. -/
def openItem (d : Document) (k : Key) : Option Document :=
  if covers d.sealed k then none
  else
    let keep (s : Key) : Bool := !k.isPrefixOf s
    (atTable true (addItem (k.getLastD [])) k.dropLast d.data).map fun data =>
      { d with
        data := data
        sealed := d.sealed.filter keep
        declared := k :: d.declared.filter keep }

end Document

/-- The header of a table or of an item: its key, and what is left. -/
def header (d : Document) (t : Text) : Except Fault (Document × Key × Text) :=
  let isItem := (text "[[").isPrefixOf t
  let size := if isItem then 2 else 1
  match key t.length (skipSpace (t.drop size)) with
  | .error e => .error e
  | .ok (k, t) =>
    match if isItem then d.settle.openItem k else d.settle.openTable k with
    | none => malformed
    | some d =>
      if (List.replicate size (code ']')).isPrefixOf t then .ok (d, k, t.drop size) else malformed

/-- A key with its value. -/
def keyValue (d : Document) (h : Key) (t : Text) : Except Fault (Document × Text) :=
  match key t.length t with
  | .error e => .error e
  | .ok (k, t) =>
    if t.head? = some (code '=') then
      let t := skipSpace (t.drop 1)
      match value (2 * t.length + 2) t with
      | .error e => .error e
      | .ok (v, t) =>
        match d.setValue h k v with
        | none => malformed
        | some d => .ok (d, t)
    else malformed

/-- One line of a document: the document and the header after it, and what is left after the
statement. -/
def statement (d : Document) (h : Key) (t : Text) : Except Fault (Document × Key × Text) :=
  match t with
  | [] => .ok (d, h, t)
  | c :: _ =>
    if c = 10 ∨ c = code '#' then .ok (d, h, t)
    else if c = code '[' then header d t
    else if isBareKey c ∨ c = code '"' ∨ c = code '\'' then
      match keyValue d h t with
      | .error e => .error e
      | .ok (d, t) => .ok (d, h, t)
    else malformed

/-- The lines of a document, at most `count` of them. -/
def lines : (count : Nat) → Document → Key → Text → Except Fault Document
  | 0, d, _, _ => .ok d
  | count + 1, d, h, t =>
    match statement d h (skipSpace t) with
    | .error e => .error e
    | .ok (d, h, t) =>
      match skipComment (skipSpace t) with
      | .error e => .error e
      | .ok [] => .ok d
      | .ok (c :: rest) => if c = 10 then lines count d h rest else malformed

/-- Line ends in one form: a carriage return, alone or before a newline, is a newline. -/
def plainLines : Text → Text
  | [] => []
  | [c] => if c = 13 then [10] else [c]
  | c :: d :: cs =>
    if c = 13 then
      if d = 10 then 10 :: plainLines cs else 10 :: plainLines (d :: cs)
    else c :: plainLines (d :: cs)

/-- The tables of a document. -/
def parse (source : Text) : Except Fault Members :=
  let t := plainLines source
  match lines (t.length + 1) {} [] t with
  | .ok d => .ok d.data
  | .error e => .error e

end LuaServer.Toml
