import Dyplo.Image.Bytes

/-!
# The description tag of a bitstream

A description is a list of fields that semicolons separate. The source compares and converts
from the start of a field without a look at where it ends, so `data` is all the memory from the
description on.
-/

namespace Dyplo

/-- `memchr`: the offset of the first `c` among the first `size` bytes. -/
def memchr (data : List UInt8) (c : UInt8) (size : Nat) : Option Nat :=
  (data.take size).findIdx? (· == c)

/-- `!memcmp(data, text, strlen(text))` -/
def startsWith (data text : List UInt8) : Bool := data.take text.length == text

def isSpace (c : UInt8) : Bool := c == 32 || (9 ≤ c && c ≤ 13)

def hexDigit (c : UInt8) : Option Nat :=
  if 48 ≤ c && c ≤ 57 then some (c.toNat - 48)
  else if 65 ≤ c && c ≤ 70 then some (c.toNat - 55)
  else if 97 ≤ c && c ≤ 102 then some (c.toNat - 87)
  else none

/-- The digits at the start of a text, most significant first. -/
def hexDigits : List UInt8 → List Nat
  | [] => []
  | c :: text =>
      match hexDigit c with
      | some digit => digit :: hexDigits text
      | none => []

/-- `strtoul(text, NULL, 16)` with a 64-bit `unsigned long`: white space, a sign, a prefix and
digits, all of them optional. Too large a number gives `ULONG_MAX`. -/
def strtoul16 (text : List UInt8) : Nat :=
  let text := text.dropWhile isSpace
  let negative := text.head? == some 45
  let text := if text.head? == some 45 || text.head? == some 43 then text.drop 1 else text
  let digits :=
    if startsWith text [48, 120] || startsWith text [48, 88] then hexDigits (text.drop 2)
    else hexDigits text
  let value := digits.foldl (fun value digit => 16 * value + digit) 0
  if 2 ^ 64 ≤ value then 2 ^ 64 - 1
  else if negative then (2 ^ 64 - value) % 2 ^ 64
  else value

/-- What `parseDescriptionTag` returns and stores. A null pointer is `none`. -/
structure Description where
  result : Bool
  isPartial : Option Bool
  userId : Option Nat
  deriving DecidableEq

/-- `"UserID="` -/
def userIdKey : List UInt8 := [85, 115, 101, 114, 73, 68, 61]

/-- `"PARTIAL="` -/
def partialKey : List UInt8 := [80, 65, 82, 84, 73, 65, 76, 61]

/-- The body of the loop for the field that starts at `data`. -/
def Description.field (d : Description) (data : List UInt8) : Description :=
  if startsWith data userIdKey then
    { d with userId := d.userId.map fun _ => strtoul16 (data.drop 7) % 2 ^ 32, result := true }
  else if d.isPartial.isSome && startsWith data partialKey then
    { d with isPartial := some (byteAt data 8 == 84) }
  else d

/-- The loop over the fields. -/
def Description.fields (d : Description) (data : List UInt8) (size : Nat) : Description :=
  if h : size = 0 then d
  else
    let stop := (memchr data 59 size).getD size
    if size - stop = 0 then d.field data
    else (d.field data).fields (data.drop (stop + 1)) (size - stop - 1)
  termination_by size

def parseDescriptionTag (data : List UInt8) (size : Nat) (isPartial : Option Bool)
    (userId : Option Nat) : Description :=
  Description.fields { result := false, isPartial := isPartial, userId := userId } data size

end Dyplo
