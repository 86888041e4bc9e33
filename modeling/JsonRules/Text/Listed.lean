import JsonRules.Text.Unseen

/-!
Names in a listing.

A listed name stands between quotation marks.  Quotation marks and backslashes in it are escaped,
and characters without a picture are given by a letter or by their number in hexadecimal digits.
-/

namespace JsonRules.Text

/-- How a character of a listed name is written. -/
def listedChar (c : Char) : List Char :=
  match c with
  | '"' => ['\\', '"']
  | '\\' => ['\\', '\\']
  | '\n' => ['\\', 'n']
  | '\r' => ['\\', 'r']
  | '\t' => ['\\', 't']
  | '\x00' => ['\\', '0']
  | _ =>
    if isUnseen c then '\\' :: 'u' :: '\x7b' :: Nat.toDigits 16 c.toNat ++ ['\x7d'] else [c]

def listed (name : String) : String :=
  String.ofList ('"' :: name.toList.flatMap listedChar ++ ['"'])

end JsonRules.Text
