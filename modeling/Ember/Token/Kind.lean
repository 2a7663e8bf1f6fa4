import Ember.Number.Text
import Ember.Text.Quoted

/-!
# Kinds of tokens

Keywords, marks (operators and delimiters), names and literals, with their spelling in a source and their text in messages.
-/

namespace Ember

/-- Words with a meaning of their own. -/
inductive Keyword where
  | defKw | inlineKw | letKw | varKw | mutKw | ifKw | elseKw | whileKw | forKw | inKw | returnKw
  | importKw | moduleKw | typeKw | packageKw | copyKw | refKw | viewKw | asKw | trueKw | falseKw | noneKw
deriving DecidableEq, Repr

namespace Keyword

/-- Every keyword. -/
def all : List Keyword :=
  [.defKw, .inlineKw, .letKw, .varKw, .mutKw, .ifKw, .elseKw, .whileKw, .forKw, .inKw, .returnKw, .importKw, .moduleKw,
    .typeKw, .packageKw, .copyKw, .refKw, .viewKw, .asKw, .trueKw, .falseKw, .noneKw]

/-- The keyword as a source writes it. -/
def spelling : Keyword → String
  | .defKw => "def"
  | .inlineKw => "inline"
  | .letKw => "let"
  | .varKw => "var"
  | .mutKw => "mut"
  | .ifKw => "if"
  | .elseKw => "else"
  | .whileKw => "while"
  | .forKw => "for"
  | .inKw => "in"
  | .returnKw => "return"
  | .importKw => "import"
  | .moduleKw => "module"
  | .typeKw => "type"
  | .packageKw => "package"
  | .copyKw => "copy"
  | .refKw => "ref"
  | .viewKw => "view"
  | .asKw => "as"
  | .trueKw => "true"
  | .falseKw => "false"
  | .noneKw => "none"

/-- The keyword as messages name it. -/
def label (k : Keyword) : String :=
  k.spelling.capitalize

/-- The keyword that a word spells. -/
def ofWord? (word : String) : Option Keyword :=
  all.find? fun k => k.spelling == word

end Keyword

/-- Operators and delimiters. -/
inductive Mark where
  | plus | minus | star | slash | percent | eq | eqEq | ne | lt | le | gt | ge | andAnd | orOr | not | and | or | caret
  | tilde | shl | shr | plusEq | minusEq | starEq | slashEq | percentEq | dot
  | lParen | rParen | lBrace | rBrace | lBracket | rBracket | comma | colon | semicolon
deriving DecidableEq, Repr

namespace Mark

/-- The mark as messages name it. -/
def label : Mark → String
  | .plus => "Plus"
  | .minus => "Minus"
  | .star => "Star"
  | .slash => "Slash"
  | .percent => "Percent"
  | .eq => "Eq"
  | .eqEq => "EqEq"
  | .ne => "Ne"
  | .lt => "Lt"
  | .le => "Le"
  | .gt => "Gt"
  | .ge => "Ge"
  | .andAnd => "AndAnd"
  | .orOr => "OrOr"
  | .not => "Not"
  | .and => "And"
  | .or => "Or"
  | .caret => "Caret"
  | .tilde => "Tilde"
  | .shl => "Shl"
  | .shr => "Shr"
  | .plusEq => "PlusEq"
  | .minusEq => "MinusEq"
  | .starEq => "StarEq"
  | .slashEq => "SlashEq"
  | .percentEq => "PercentEq"
  | .dot => "Dot"
  | .lParen => "LParen"
  | .rParen => "RParen"
  | .lBrace => "LBrace"
  | .rBrace => "RBrace"
  | .lBracket => "LBracket"
  | .rBracket => "RBracket"
  | .comma => "Comma"
  | .colon => "Colon"
  | .semicolon => "Semicolon"

/-- The mark of two characters, if they form one. -/
def ofPair? : Char → Char → Option Mark
  | '+', '=' => some .plusEq
  | '-', '=' => some .minusEq
  | '*', '=' => some .starEq
  | '/', '=' => some .slashEq
  | '%', '=' => some .percentEq
  | '=', '=' => some .eqEq
  | '!', '=' => some .ne
  | '<', '=' => some .le
  | '<', '<' => some .shl
  | '>', '=' => some .ge
  | '>', '>' => some .shr
  | '&', '&' => some .andAnd
  | '|', '|' => some .orOr
  | _, _ => none

/-- The mark of one character, if it is one. -/
def ofChar? : Char → Option Mark
  | '+' => some .plus
  | '-' => some .minus
  | '*' => some .star
  | '/' => some .slash
  | '%' => some .percent
  | '=' => some .eq
  | '!' => some .not
  | '<' => some .lt
  | '>' => some .gt
  | '&' => some .and
  | '|' => some .or
  | '^' => some .caret
  | '~' => some .tilde
  | '.' => some .dot
  | ':' => some .colon
  | '(' => some .lParen
  | ')' => some .rParen
  | '{' => some .lBrace
  | '}' => some .rBrace
  | '[' => some .lBracket
  | ']' => some .rBracket
  | ',' => some .comma
  | ';' => some .semicolon
  | _ => none

end Mark

/-- What a token is. -/
inductive Kind where
  | keyword (k : Keyword)
  | mark (m : Mark)
  | ident (name : String)
  /-- An integer literal below `2 ^ 64`; the sign is no part of it. -/
  | integer (magnitude : Nat)
  /-- An integer literal that needs more than 64 bits. -/
  | oversized (digits : String)
  | floating (value : Double)
  | string (value : String)
  | cstring (value : String)
  | character (value : Char)
  | byte (value : Nat)
  /-- A character that starts no token, or a malformed literal. -/
  | unknown (c : Char)
  | endOfFile
deriving DecidableEq, Repr

namespace Kind

/-- A kind as messages show it. -/
def text : Kind → String
  | .keyword k => k.label
  | .mark m => m.label
  | .ident name => "Ident(" ++ Text.quoted name ++ ")"
  | .integer n => "IntLit(" ++ toString n ++ ")"
  | .oversized digits => "OversizedInt(" ++ Text.quoted digits ++ ")"
  | .floating x => "FloatLit(" ++ x.text ++ ")"
  | .string s => "StringLit(" ++ Text.quoted s ++ ")"
  | .cstring s => "CStringLit(" ++ Text.quoted s ++ ")"
  | .character c => "CharLit(" ++ Text.quotedChar c ++ ")"
  | .byte b => "ByteCharLit(" ++ toString b ++ ")"
  | .unknown c => "Unknown(" ++ Text.quotedChar c ++ ")"
  | .endOfFile => "Eof"

end Kind

end Ember
