import FlowTyping.Source.Lines

/-!
# Tokens

A token is a piece of the source with its kind, its text and its span.  Keywords are the texts that
`Token.keyword?` knows; every other identifier text is a plain name.
-/

namespace FlowTyping

namespace Token

/-- What a token is. -/
inductive Kind where
  | defKw | doKw | elseKw | elsifKw | endKw | falseKw | ifKw | nilKw | trueKw | whileKw | yieldKw
  | eq | bar | lparen | rparen | lbrace | rbrace | comma | semicolon
  /-- A line feed.  It ends a statement where the parser looks at it. -/
  | newline
  | int | float | char | string
  | ident
  | comment
  /-- The end of the text. -/
  | eof
  /-- A piece that is no token: a stray character or a literal without its closing quote. -/
  | invalid
deriving DecidableEq, Repr, Inhabited

/-- How messages speak of a kind of token. -/
def Kind.describe : Kind → String
  | defKw => "`def`"
  | doKw => "`do`"
  | elseKw => "`else`"
  | elsifKw => "`elsif`"
  | endKw => "`end`"
  | falseKw => "`false`"
  | ifKw => "`if`"
  | nilKw => "`nil`"
  | trueKw => "`true`"
  | whileKw => "`while`"
  | yieldKw => "`yield`"
  | eq => "`=`"
  | bar => "`|`"
  | lparen => "`(`"
  | rparen => "`)`"
  | lbrace => "`\x7b`"
  | rbrace => "`\x7d`"
  | comma => "`,`"
  | semicolon => "`;`"
  | newline => "newline"
  | int => "integer literal"
  | float => "float literal"
  | char => "character literal"
  | string => "string literal"
  | ident => "identifier"
  | comment => "comment"
  | eof => "end of file"
  | invalid => "invalid token"

/-- Every keyword with its kind. -/
def keywords : List (String × Kind) :=
  [("def", .defKw), ("do", .doKw), ("else", .elseKw), ("elsif", .elsifKw), ("end", .endKw),
    ("false", .falseKw), ("if", .ifKw), ("nil", .nilKw), ("true", .trueKw), ("while", .whileKw),
    ("yield", .yieldKw)]

/-- The kind of a keyword.  Case matters. -/
def keyword? (word : String) : Option Kind := keywords.lookup word

end Token

/-- A token: its kind, the characters it is made of, and where they stand. -/
structure Token where
  kind : Token.Kind
  text : String
  span : Span
deriving DecidableEq, Repr, Inhabited

namespace Token

/-- The token that stands behind all others, where the text ends. -/
def eofAt (pos : Nat) : Token := ⟨.eof, "", ⟨pos, pos⟩⟩

end Token

end FlowTyping
