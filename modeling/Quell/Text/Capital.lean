/-!
# Text/Capital — comparing with a word in ASCII capitals

Capitalization can change the length of a text (`ß` gives `SS`).  Only the characters whose capital
form is ASCII matter in a comparison with an ASCII word, and all of them are here; any other
character keeps its own, different form.
-/

namespace Quell.Text

/-- The capital form of a character, where that form is ASCII. -/
def capital (c : Char) : List Char :=
  if c.isLower then [c.toUpper]
  else match c with
    | 'ı' => ['I']
    | 'ſ' => ['S']
    | 'ß' => ['S', 'S']
    | 'ﬀ' => ['F', 'F']
    | 'ﬁ' => ['F', 'I']
    | 'ﬂ' => ['F', 'L']
    | 'ﬃ' => ['F', 'F', 'I']
    | 'ﬄ' => ['F', 'F', 'L']
    | 'ﬅ' => ['S', 'T']
    | 'ﬆ' => ['S', 'T']
    | c => [c]

/-- A text reads as a word in ASCII capitals, whatever its case. -/
def readsAs (text word : String) : Bool := text.toList.flatMap capital == word.toList

end Quell.Text
