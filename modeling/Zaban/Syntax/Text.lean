import Zaban.Syntax.Node
import Zaban.Token.Basic

/-!
# Programs as text

`Node.text` writes a tree in the notation of the language. Assignments and
operators stand in parentheses of their own, so the text shows how a chain of
operators was grouped, and a sequence stands in braces.
-/

namespace Zaban.Node

/-- A list in parentheses, its items separated by commas. -/
def inParens (items : List String) : String :=
  "(" ++ String.intercalate ", " items ++ ")"

mutual

/-- The tree in the notation of the language. -/
def text : Node → String
  | program body => "\x7b" ++ String.intercalate "; " (texts body) ++ "\x7d"
  | assignment target value => "(" ++ text target ++ " = " ++ text value ++ ")"
  | binary op left right => "(" ++ text left ++ " " ++ op.symbol ++ " " ++ text right ++ ")"
  | condition test yes no =>
    Keyword.yeli.text ++ " " ++ text test ++ " " ++ Keyword.teli.text ++ " " ++ text yes
      ++ elseText no
  | lambda params body => Keyword.banav.text ++ inParens params ++ " " ++ text body
  | call callee args => text callee ++ inParens (texts args)
  | var name => name
  | number value => Layout.plain.write value
  | string value => Text.quoted value
  | boolean true => Keyword.poz.text
  | boolean false => Keyword.apuz.text

/-- The trees in the notation of the language. -/
def texts : List Node → List String
  | [] => []
  | x :: xs => text x :: texts xs

/-- The second branch of a conditional, if there is one. -/
def elseText : Option Node → String
  | none => ""
  | some x => " " ++ Keyword.nate.text ++ " " ++ text x

end

end Zaban.Node
