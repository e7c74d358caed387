/-! Tokens: the words, signs and literals of a program, each with the place of its
last character. -/

namespace ExprMachine

/-- Lines count from 1. On the first line a column is the index of a character, and
before the first character it is -1; each later line starts one column further. -/
structure Place where
  line : Nat
  column : Int
deriving DecidableEq, Repr

inductive Keyword where
  | andWord
  | classWord
  | elseWord
  | falseWord
  | funWord
  | forWord
  | ifWord
  | nilWord
  | orWord
  | printWord
  | returnWord
  | superWord
  | thisWord
  | trueWord
  | varWord
  | whileWord
deriving DecidableEq, Repr

namespace Keyword

def spelling : Keyword → String
  | andWord => "and"
  | classWord => "class"
  | elseWord => "else"
  | falseWord => "false"
  | funWord => "fun"
  | forWord => "for"
  | ifWord => "if"
  | nilWord => "nil"
  | orWord => "or"
  | printWord => "print"
  | returnWord => "return"
  | superWord => "super"
  | thisWord => "this"
  | trueWord => "true"
  | varWord => "var"
  | whileWord => "while"

def all : List Keyword :=
  [andWord, classWord, elseWord, falseWord, funWord, forWord, ifWord, nilWord, orWord,
    printWord, returnWord, superWord, thisWord, trueWord, varWord, whileWord]

def ofName? (name : String) : Option Keyword :=
  all.find? (·.spelling == name)

end Keyword

inductive Kind where
  | leftParen
  | rightParen
  | leftBrace
  | rightBrace
  | comma
  | dot
  | minus
  | plus
  | semicolon
  | slash
  | star
  | bang
  | bangEqual
  | equal
  | equalEqual
  | greater
  | greaterEqual
  | less
  | lessEqual
  | identifier (name : String)
  | string (text : String)
  | number (value : Float)
  | keyword (word : Keyword)
deriving DecidableEq

structure Token where
  kind : Kind
  /-- The characters of the program that make up the token. -/
  text : String
  place : Place
deriving DecidableEq

end ExprMachine
