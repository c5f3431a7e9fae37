import Ozymandias.BitLists

/-!
The bytes and the classes of bytes that the query languages are written in.
-/
namespace Ozymandias.Ascii

open BitLists

def space : Byte := 0x20
def lparen : Byte := 0x28
def rparen : Byte := 0x29
def lbrace : Byte := 0x7b
def rbrace : Byte := 0x7d
def lbracket : Byte := 0x5b
def rbracket : Byte := 0x5d
def dquote : Byte := 0x22
def backslash : Byte := 0x5c
def comma : Byte := 0x2c
def plus : Byte := 0x2b
def minus : Byte := 0x2d
def slash : Byte := 0x2f
def bang : Byte := 0x21
def dollar : Byte := 0x24
def atSign : Byte := 0x40
def greater : Byte := 0x3e
def less : Byte := 0x3c
def equals : Byte := 0x3d
def underscore : Byte := 0x5f
def asterisk : Byte := 0x2a
def period : Byte := 0x2e

def ofChars (cs : List Char) : List Byte := cs.map (fun c => BitVec.ofNat 8 c.toNat)

def isSpace (c : Byte) : Bool := c = space || c = 0x09 || c = 0x0a || c = 0x0d
def isDigit (c : Byte) : Bool := 0x30 ≤ c.toNat && c.toNat ≤ 0x39
def isLetter (c : Byte) : Bool :=
  (0x61 ≤ c.toNat && c.toNat ≤ 0x7a) || (0x41 ≤ c.toNat && c.toNat ≤ 0x5a)

end Ozymandias.Ascii
