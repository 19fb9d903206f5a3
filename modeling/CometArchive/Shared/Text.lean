import CometArchive.Shared.Bytes

set_option autoImplicit false

namespace GoText

def isSpace (c : Char) : Bool :=
  let n := c.toNat
  (9 ≤ n && n ≤ 13) || n == 0x20 || n == 0x85 || n == 0xA0 || n == 0x1680 ||
    (0x2000 ≤ n && n ≤ 0x200A) || n == 0x2028 || n == 0x2029 || n == 0x202F || n == 0x205F ||
    n == 0x3000

def trimBoth (drop : Char → Bool) (chars : List Char) : List Char :=
  ((chars.dropWhile drop).reverse.dropWhile drop).reverse

def trimSpace (text : String) : String := String.ofList (trimBoth isSpace text.toList)

def trimChar (c : Char) (text : String) : String := String.ofList (trimBoth (· == c) text.toList)

/-- `strings.ToLower` on ASCII letters. -/
def toLower (text : String) : String := String.ofList (text.toList.map Char.toLower)

def len (text : String) : Nat := text.utf8ByteSize

def contains (text : String) (c : Char) : Bool := text.toList.contains c

def splitSlash (text : String) : List (List Char) := text.toList.splitOn '/'

def decimal12 (value : Int) : String :=
  let digits := (Nat.toDigits 10 value.natAbs)
  let sign := if value < 0 then ['-'] else []
  String.ofList (sign ++ List.replicate (12 - sign.length - digits.length) '0' ++ digits)

end GoText
