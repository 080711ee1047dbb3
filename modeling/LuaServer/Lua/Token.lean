/-
# Tokens of the language

A token is a kind with its value, the place of its first code point, and the stretch of source that
it stands for.  The end of the text is a token too, so that every reader of tokens has one to look at.

* `Keyword`, `Symbol`: the fixed words and signs, each with its spelling.
* `Numeral`: what a number denotes, an exact integer or a double.
* `Token.near`: how a message names the token at which something went wrong.
-/
import LuaServer.Number.Shortest

namespace LuaServer.Lua

/-! ## 1. Fixed words and signs -/

/-- The reserved words. -/
inductive Keyword where
  | and | break | do | else | elseif | end | false | for | function | goto | if | in | local | nil
  | not | or | repeat | return | then | true | until | while
deriving DecidableEq, Repr

namespace Keyword

/-- How a reserved word is written. -/
def name : Keyword → String
  | .and => "and" | .break => "break" | .do => "do" | .else => "else" | .elseif => "elseif"
  | .end => "end" | .false => "false" | .for => "for" | .function => "function" | .goto => "goto"
  | .if => "if" | .in => "in" | .local => "local" | .nil => "nil" | .not => "not" | .or => "or"
  | .repeat => "repeat" | .return => "return" | .then => "then" | .true => "true"
  | .until => "until" | .while => "while"

/-- Every reserved word. -/
def all : List Keyword :=
  [.and, .break, .do, .else, .elseif, .end, .false, .for, .function, .goto, .if, .in, .local, .nil,
    .not, .or, .repeat, .return, .then, .true, .until, .while]

/-- The code points of a reserved word. -/
def spelling (k : Keyword) : Text := text k.name

/-- The reserved word that a text spells. -/
def ofText? (t : Text) : Option Keyword := all.find? (fun k => k.spelling = t)

theorem mem_all (k : Keyword) : k ∈ all := by cases k <;> decide

end Keyword

/-- The signs. -/
inductive Symbol where
  | ellipsis | concat | eq | ne | le | ge | intDiv | colons | shiftLeft | shiftRight
  | plus | minus | star | slash | percent | caret | hash | amp | tilde | pipe | lt | gt | assign
  | parenOpen | parenClose | braceOpen | braceClose | bracketOpen | bracketClose
  | semicolon | colon | comma | dot
deriving DecidableEq, Repr

namespace Symbol

/-- How a sign is written. -/
def name : Symbol → String
  | .ellipsis => "..." | .concat => ".." | .eq => "==" | .ne => "~=" | .le => "<=" | .ge => ">="
  | .intDiv => "//" | .colons => "::" | .shiftLeft => "<<" | .shiftRight => ">>"
  | .plus => "+" | .minus => "-" | .star => "*" | .slash => "/" | .percent => "%" | .caret => "^"
  | .hash => "#" | .amp => "&" | .tilde => "~" | .pipe => "|" | .lt => "<" | .gt => ">"
  | .assign => "=" | .parenOpen => "(" | .parenClose => ")" | .braceOpen => "\x7b"
  | .braceClose => "\x7d" | .bracketOpen => "[" | .bracketClose => "]" | .semicolon => ";"
  | .colon => ":" | .comma => "," | .dot => "."

/-- Every sign, longer ones before their prefixes, so that the first match is the longest. -/
def all : List Symbol :=
  [.ellipsis, .concat, .eq, .ne, .le, .ge, .intDiv, .colons, .shiftLeft, .shiftRight,
    .plus, .minus, .star, .slash, .percent, .caret, .hash, .amp, .tilde, .pipe, .lt, .gt, .assign,
    .parenOpen, .parenClose, .braceOpen, .braceClose, .bracketOpen, .bracketClose,
    .semicolon, .colon, .comma, .dot]

/-- The code points of a sign. -/
def spelling (s : Symbol) : Text := text s.name

theorem mem_all (s : Symbol) : s ∈ all := by cases s <;> decide

end Symbol

/-! ## 2. Numerals and tokens -/

/-- What a number denotes. -/
inductive Numeral where
  | integer (n : Nat)
  | float (d : Double)
deriving DecidableEq, Repr

namespace Numeral

/-- A numeral with a point or an exponent. -/
def isFloat : Numeral → Bool
  | .integer _ => false
  | .float _ => true

/-- The canonical text of a numeral. -/
def text : Numeral → Text
  | .integer n => decimal n
  | .float d => d.text

end Numeral

/-- The kind of a token with its value. -/
inductive Kind where
  | name (n : Text)
  | keyword (k : Keyword)
  | number (n : Numeral)
  | string (s : Text)
  | symbol (s : Symbol)
  | eof
deriving DecidableEq, Repr

/-- A token: its kind, its place and the source it stands for. -/
structure Token where
  kind : Kind
  pos : Pos
  text : Text
deriving DecidableEq, Repr

namespace Token

/-- The value of a token as a text. -/
def value (t : Token) : Text :=
  match t.kind with
  | .name n => n
  | .keyword k => k.spelling
  | .number n => n.text
  | .string s => s
  | .symbol s => s.spelling
  | .eof => []

/-- How a message names the token. -/
def near (t : Token) : Text :=
  match t.kind with
  | .eof => LuaServer.text "<eof>"
  | _ => t.text

/-- The token is the end of the text. -/
def isEof (t : Token) : Bool := t.kind = .eof

/-- The token is the given reserved word. -/
def isKeyword (t : Token) (k : Keyword) : Bool := t.kind = .keyword k

/-- The token is the given sign. -/
def isSymbol (t : Token) (s : Symbol) : Bool := t.kind = .symbol s

end Token

end LuaServer.Lua
