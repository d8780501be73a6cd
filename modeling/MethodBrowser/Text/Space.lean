/-!
# White space in running text

The characters that Unicode calls white space, for texts that people write: categories and
expressions typed by a user. Method source has its own, narrower notion of white space.
-/

namespace MethodBrowser.Text

/-- The characters with the Unicode property `White_Space`. -/
def isSpace (c : Char) : Bool :=
  let n := c.toNat
  (9 ≤ n && n ≤ 13) || n == 0x20 || n == 0x85 || n == 0xa0 || n == 0x1680
    || (0x2000 ≤ n && n ≤ 0x200a) || n == 0x2028 || n == 0x2029 || n == 0x202f || n == 0x205f
    || n == 0x3000

/-- Drops the white space at both ends. -/
def trim (s : String) : String :=
  String.ofList ((s.toList.dropWhile isSpace).reverse.dropWhile isSpace).reverse

/-- Nothing but white space. -/
def isBlank (s : String) : Bool := s.toList.all isSpace

end MethodBrowser.Text
