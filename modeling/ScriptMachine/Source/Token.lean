import ScriptMachine.Source.Position

/-!
# Tokens

The words, literals and signs of the language, with their spelling.
-/

namespace ScriptMachine.Source

/-- The reserved words. -/
inductive Keyword
  | kwLet
  | kwMut
  | kwIf
  | kwElse
  | kwWhile
  | kwFn
  | kwReturn
  | kwNil
  | kwTrue
  | kwFalse
deriving DecidableEq, Repr

/-- The operators and delimiters. -/
inductive Sign
  | plus
  | minus
  | star
  | slash
  | percent
  | eq
  | ne
  | lt
  | le
  | gt
  | ge
  | and
  | or
  | not
  | assign
  | lparen
  | rparen
  | lbrace
  | rbrace
  | comma
  | semicolon
deriving DecidableEq, Repr

/-- A token: an integer holds its digits, a string its raw contents, an identifier its name. -/
inductive Token
  | integer (digits : String)
  | text (raw : String)
  | ident (name : String)
  | keyword (k : Keyword)
  | sign (s : Sign)
deriving DecidableEq, Repr

/-- A token and the place of its first character. -/
structure Lexeme where
  token : Token
  pos : Position
deriving DecidableEq, Repr

/-- The tokens of a whole text and the place where the text ends. -/
structure TokenStream where
  lexemes : List Lexeme
  stop : Position
deriving DecidableEq, Repr

/-! ## Spelling -/

/-- The word itself. -/
def Keyword.spelling : Keyword → String
  | .kwLet => "let"
  | .kwMut => "mut"
  | .kwIf => "if"
  | .kwElse => "else"
  | .kwWhile => "while"
  | .kwFn => "fn"
  | .kwReturn => "return"
  | .kwNil => "nil"
  | .kwTrue => "true"
  | .kwFalse => "false"

/-- The keyword that a word spells, if it is reserved. -/
def Keyword.ofWord? : String → Option Keyword
  | "let" => some .kwLet
  | "mut" => some .kwMut
  | "if" => some .kwIf
  | "else" => some .kwElse
  | "while" => some .kwWhile
  | "fn" => some .kwFn
  | "return" => some .kwReturn
  | "nil" => some .kwNil
  | "true" => some .kwTrue
  | "false" => some .kwFalse
  | _ => none

/-- The sign itself. -/
def Sign.spelling : Sign → String
  | .plus => "+"
  | .minus => "-"
  | .star => "*"
  | .slash => "/"
  | .percent => "%"
  | .eq => "=="
  | .ne => "!="
  | .lt => "<"
  | .le => "<="
  | .gt => ">"
  | .ge => ">="
  | .and => "&&"
  | .or => "||"
  | .not => "!"
  | .assign => "="
  | .lparen => "("
  | .rparen => ")"
  | .lbrace => "\x7b"
  | .rbrace => "\x7d"
  | .comma => ","
  | .semicolon => ";"

/-- The longest sign at the head of a text, and what follows it. -/
def Sign.read? : List Char → Option (Sign × List Char)
  | '=' :: '=' :: r => some (.eq, r)
  | '!' :: '=' :: r => some (.ne, r)
  | '<' :: '=' :: r => some (.le, r)
  | '>' :: '=' :: r => some (.ge, r)
  | '&' :: '&' :: r => some (.and, r)
  | '|' :: '|' :: r => some (.or, r)
  | '+' :: r => some (.plus, r)
  | '-' :: r => some (.minus, r)
  | '*' :: r => some (.star, r)
  | '/' :: r => some (.slash, r)
  | '%' :: r => some (.percent, r)
  | '<' :: r => some (.lt, r)
  | '>' :: r => some (.gt, r)
  | '!' :: r => some (.not, r)
  | '=' :: r => some (.assign, r)
  | '(' :: r => some (.lparen, r)
  | ')' :: r => some (.rparen, r)
  | '{' :: r => some (.lbrace, r)
  | '}' :: r => some (.rbrace, r)
  | ',' :: r => some (.comma, r)
  | ';' :: r => some (.semicolon, r)
  | _ => none

/-- What a token carries: digits, raw contents, a name, or its spelling. -/
def Token.content : Token → String
  | .integer digits => digits
  | .text raw => raw
  | .ident name => name
  | .keyword k => k.spelling
  | .sign s => s.spelling

/-- How a message quotes a token; one without content is named by its kind. -/
def Token.shown (t : Token) : String :=
  if t.content.isEmpty then
    match t with
    | .integer _ => "integer"
    | .ident _ => "identifier"
    | _ => "string"
  else t.content

/-- The spelling of a keyword is read as it. -/
theorem Keyword.ofWord?_spelling (k : Keyword) : Keyword.ofWord? k.spelling = some k := by
  cases k <;> rfl

/-- A sign that is read stands at the head of the text. -/
theorem Sign.eq_spelling_append_of_read? {s r : List Char} {g : Sign}
    (h : Sign.read? s = some (g, r)) : s = g.spelling.toList ++ r := by
  unfold Sign.read? at h
  split at h <;> simp only [Option.some.injEq, Prod.mk.injEq, reduceCtorEq] at h <;>
    (obtain ⟨rfl, rfl⟩ := h; rfl)

end ScriptMachine.Source
