import WasmHost.Text.Hex

/-!
# WasmHost.Text.Quoted

Text between double quotes. Quotes, backslashes and control characters are escaped, so the quoted
text is one line and ends at its first quote that no backslash precedes.
-/

namespace WasmHost
namespace Text
namespace Quoted

/-- Characters that have no glyph: the two blocks of controls around the printable ones. -/
def isControl (c : Char) : Bool :=
  decide (c.toNat < 0x20) || (decide (0x7f ≤ c.toNat) && decide (c.toNat < 0xa0))

def escape (c : Char) : List Char :=
  if c = '"' then ['\\', '"']
  else if c = '\\' then ['\\', '\\']
  else if c = '\n' then ['\\', 'n']
  else if c = '\r' then ['\\', 'r']
  else if c = '\t' then ['\\', 't']
  else if c.toNat = 0 then ['\\', '0']
  else if isControl c then ['\\', 'u', '\x7b'] ++ Hex.digits c.toNat ++ ['\x7d']
  else [c]

def quote (s : String) : String := String.ofList ('"' :: s.toList.flatMap escape ++ ['"'])

end Quoted
end Text
end WasmHost
