import TopicIndex.Index
import TopicIndex.Text.Quoted

/-!
# Inspection text

An index with all it holds as one line of text. Siblings have no order of their own there, so only
an index in which no node has two children has an inspection text (`Index.inspect?`).
-/

namespace TopicIndex

open Text

universe u

variable {α : Type u} [ToString α]

def Dialect.inspect (d : Dialect) : String :=
  "TreeConfig \x7b separator: " ++ quoteChar d.separator ++
    ", single_level_wildcard: " ++ quote d.single ++
    ", multi_level_wildcard: " ++ quote d.multi ++ " \x7d"

/-- A node from its values and the texts of what is below it. -/
def inspectNode (values : List α) (below : List String) : String :=
  "TopicNode \x7b children: \x7b" ++ listed below ++ "\x7d, values: [" ++
    listed (values.map toString) ++ "] \x7d"

def Forest.inspect : Forest α → List String
  | nil => []
  | cons s vs below rest => (quote s ++ ": " ++ inspectNode vs (inspect below)) :: inspect rest

def Index.inspect? (t : Index α) : Option String :=
  if t.root.children.isForked then none
  else some ("TopicTree \x7b config: " ++ t.dialect.inspect ++ ", root: " ++
    inspectNode t.root.values t.root.children.inspect ++ " \x7d")

end TopicIndex
