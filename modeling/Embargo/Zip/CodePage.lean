import Embargo.Text.Utf8

/-!
The character set of entry names that are not marked as UTF-8, code page 437.
-/
namespace Embargo.Zip.CodePage

/-- The characters of the bytes from `0x80` on. -/
def upper : Array Char :=
  ("ÇüéâäàåçêëèïîìÄÅÉæÆôöòûùÿÖÜ¢£¥₧ƒáíóúñÑªº¿⌐¬½¼¡«»░▒▓│┤╡╢╖╕╣║╗╝╜╛┐" ++
    "└┴┬├─┼╞╟╚╔╩╦╠═╬╧╨╤╥╙╘╒╓╫╪┘┌█▄▌▐▀αßΓπΣσµτΦΘΩδ∞φε∩≡±≥≤⌠⌡÷≈°∙·√ⁿ²■\u00A0").toList.toArray

def character (b : UInt8) : Char :=
  if b < 0x80 then Char.ofNat b.toNat else upper.getD (b.toNat - 0x80) ' '

def decode (bytes : List UInt8) : String := String.ofList (bytes.map character)

end Embargo.Zip.CodePage
