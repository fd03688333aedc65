/-!
# White space

The blank characters of Unicode's White_Space property. The lexer, the
trimming of literals and the reading of search roots share this one class,
so a blank that separates two lexemes is also a blank that trimming removes.
-/

set_option autoImplicit false

namespace SchemaLang.Text

def isWhite (c : Char) : Bool :=
  let n := c.toNat
  (9 ≤ n && n ≤ 13) || n == 0x20 || n == 0x85 || n == 0xA0 || n == 0x1680 ||
    (0x2000 ≤ n && n ≤ 0x200A) || n == 0x2028 || n == 0x2029 || n == 0x202F ||
    n == 0x205F || n == 0x3000

theorem isWhite_of_isWhitespace (c : Char) (h : c.isWhitespace = true) : isWhite c = true := by
  simp only [Char.isWhitespace, Bool.or_eq_true, decide_eq_true_eq] at h
  rcases h with ((rfl | rfl) | rfl) | rfl <;> decide

def trimStart (cs : List Char) : List Char := cs.dropWhile isWhite

def trimEnd (cs : List Char) : List Char := (cs.reverse.dropWhile isWhite).reverse

def trim (s : String) : String := String.ofList (trimEnd (trimStart s.toList))

end SchemaLang.Text
