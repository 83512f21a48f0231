/-!
Class names in their two spellings: parts joined by dots in source text, by
slashes inside class files.
-/
namespace Embargo.Text.Name

/-- A text with one character in place of another. -/
def substitute (old new : Char) (text : String) : String :=
  String.ofList (text.toList.map fun c => if c = old then new else c)

def toInternal (name : String) : String := substitute '.' '/' name

def toDotted (name : String) : String := substitute '/' '.' name

def startsWith (start text : String) : Bool := start.toList.isPrefixOf text.toList

end Embargo.Text.Name
