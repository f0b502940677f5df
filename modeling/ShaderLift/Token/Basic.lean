import ShaderLift.Numeral.Single

/-!
The words of a shader source, each with the text it is written as.
-/

namespace ShaderLift

inductive Keyword where
  | if_ | else_ | for_ | while_ | do_ | return_ | break_ | continue_ | discard
  | const | uniform | in_ | out | inout | flat | buffer
  | highp | mediump | lowp | precision | layout
  deriving DecidableEq, Repr

namespace Keyword

def text : Keyword → List Char
  | if_ => "if".toList
  | else_ => "else".toList
  | for_ => "for".toList
  | while_ => "while".toList
  | do_ => "do".toList
  | return_ => "return".toList
  | break_ => "break".toList
  | continue_ => "continue".toList
  | discard => "discard".toList
  | const => "const".toList
  | uniform => "uniform".toList
  | in_ => "in".toList
  | out => "out".toList
  | inout => "inout".toList
  | flat => "flat".toList
  | buffer => "buffer".toList
  | highp => "highp".toList
  | mediump => "mediump".toList
  | lowp => "lowp".toList
  | precision => "precision".toList
  | layout => "layout".toList

def all : List Keyword :=
  [if_, else_, for_, while_, do_, return_, break_, continue_, discard, const, uniform, in_, out,
    inout, flat, buffer, highp, mediump, lowp, precision, layout]

def ofText? (cs : List Char) : Option Keyword := all.find? fun k => k.text = cs

end Keyword

inductive Symbol where
  | lparen | rparen | lbrace | rbrace | lbracket | rbracket
  | comma | semi | dot | question | colon
  | assign | addAssign | subAssign | mulAssign | divAssign | remAssign
  | inc | dec | plus | minus | star | slash | percent
  | shl | shr | lt | gt | le | ge | eqEq | notEq
  | amp | caret | pipe | andAnd | xorXor | orOr | bang | tilde
  deriving DecidableEq, Repr

namespace Symbol

def text : Symbol → List Char
  | lparen => ['(']
  | rparen => [')']
  | lbrace => ['\x7b']
  | rbrace => ['\x7d']
  | lbracket => ['[']
  | rbracket => [']']
  | comma => [',']
  | semi => [';']
  | dot => ['.']
  | question => ['?']
  | colon => [':']
  | assign => ['=']
  | addAssign => ['+', '=']
  | subAssign => ['-', '=']
  | mulAssign => ['*', '=']
  | divAssign => ['/', '=']
  | remAssign => ['%', '=']
  | inc => ['+', '+']
  | dec => ['-', '-']
  | plus => ['+']
  | minus => ['-']
  | star => ['*']
  | slash => ['/']
  | percent => ['%']
  | shl => ['<', '<']
  | shr => ['>', '>']
  | lt => ['<']
  | gt => ['>']
  | le => ['<', '=']
  | ge => ['>', '=']
  | eqEq => ['=', '=']
  | notEq => ['!', '=']
  | amp => ['&']
  | caret => ['^']
  | pipe => ['|']
  | andAnd => ['&', '&']
  | xorXor => ['^', '^']
  | orOr => ['|', '|']
  | bang => ['!']
  | tilde => ['~']

def all : List Symbol :=
  [lparen, rparen, lbrace, rbrace, lbracket, rbracket, comma, semi, dot, question, colon, assign,
    addAssign, subAssign, mulAssign, divAssign, remAssign, inc, dec, plus, minus, star, slash,
    percent, shl, shr, lt, gt, le, ge, eqEq, notEq, amp, caret, pipe, andAnd, xorXor, orOr, bang,
    tilde]

def ofText? (cs : List Char) : Option Symbol := all.find? fun s => s.text = cs

end Symbol

inductive Token where
  | keyword (word : Keyword)
  | symbol (mark : Symbol)
  | bool (value : Bool)
  | int (value : Int32)
  | uint (value : UInt32)
  | float (value : Single)
  | ident (name : String)
  /-- A line that starts with a hash, without the white space at its end. -/
  | directive (text : String)
  deriving DecidableEq, Repr

def Token.text : Token → List Char
  | .keyword k => k.text
  | .symbol s => s.text
  | .bool b => if b then "true".toList else "false".toList
  | .int v => Numeral.integer v.toInt
  | .uint v => Numeral.decimal v.toNat ++ ['u']
  | .float v => v.text
  | .ident name => name.toList
  | .directive text => text.toList

end ShaderLift
