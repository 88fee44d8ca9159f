import SignalRules.Grammar
import SignalRules.Span

/-!
# Tokens

A token is a piece of source with a kind and a span. Which characters make up tokens is fixed by a
lexicon: the quote characters, the symbols that are tokens by themselves, the reserved words, and
the operators made of several symbols. Each grammar has its lexicon, and hosts can make others.

## Main definitions

* `TokenKind`, `Token`.
* `Lexicon`, `Lexicon.make`, `Lexicon.ofGrammar`.
* `isIdentifier`: the shape of dotted names.
-/

namespace SignalRules

/-- The kinds of tokens. -/
inductive TokenKind where
  /-- A reserved word or an operator of several symbols. -/
  | keyword
  /-- A single stop symbol. -/
  | symbol
  /-- A text literal. -/
  | string
  /-- A run of characters that starts with a digit or a minus sign. -/
  | number
  /-- A dotted name. -/
  | identifier
deriving DecidableEq, Inhabited

/-- The name of a kind of token. -/
def TokenKind.name : TokenKind → String
  | keyword => "keyword"
  | symbol => "symbol"
  | string => "string"
  | number => "number"
  | identifier => "identifier"

/-- A token. The text of a string literal is its content, without quotes and escapes. -/
structure Token where
  /-- The kind. -/
  kind : TokenKind
  /-- The text. -/
  text : String
  /-- The place in the source. -/
  span : Span
deriving DecidableEq, Inhabited

/-- Whether a token is the stop symbol `c`. -/
def Token.isSymbol (t : Token) (c : Char) : Bool :=
  t.kind == .symbol && t.text == String.singleton c

/-- What the characters of a source mean. -/
structure Lexicon where
  /-- The characters that enclose a text literal. -/
  quotes : List Char
  /-- The characters that are tokens by themselves. -/
  stopSymbols : List Char
  /-- The reserved words. -/
  keywords : List String
  /-- The operators of several symbols, the longest first. -/
  stopKeywords : List String
deriving DecidableEq, Inhabited

namespace Lexicon

/-- The lexicon with the given classes. A space is always a stop symbol, and longer operators are
tried before shorter ones. -/
def make (quotes stopSymbols : List Char) (keywords stopKeywords : List String) : Lexicon where
  quotes := quotes
  stopSymbols := if stopSymbols.contains ' ' then stopSymbols else stopSymbols ++ [' ']
  keywords := keywords
  stopKeywords := stopKeywords.mergeSort fun s t =>
    Text.byteLength t.toList ≤ Text.byteLength s.toList

/-- The lexicon of a grammar. -/
def ofGrammar (g : Grammar) : Lexicon :=
  make g.quotes g.stopSymbols g.keywords g.stopKeywords

/-- Whether a character ends the token before it. -/
def isStop (lx : Lexicon) (c : Char) : Bool := Text.isBlank c || lx.stopSymbols.contains c

end Lexicon

/-- The ASCII letters. -/
def isLetter (c : Char) : Bool := ('a' ≤ c && c ≤ 'z') || ('A' ≤ c && c ≤ 'Z')

/-- The ASCII letters and digits. -/
def isAlphanumeric (c : Char) : Bool := isLetter c || ('0' ≤ c && c ≤ '9')

/-- The part of a name behind its first letter: letters and digits, where every dot is followed by
a letter or digit. -/
def isNameTail : List Char → Bool
  | [] => true
  | '.' :: c :: cs => isAlphanumeric c && isNameTail cs
  | c :: cs => isAlphanumeric c && isNameTail cs

/-- Whether a text is a dotted name: segments of letters and digits joined by dots, the first of
which starts with a letter. -/
def isIdentifier : List Char → Bool
  | [] => false
  | c :: cs => isLetter c && isNameTail cs

end SignalRules
