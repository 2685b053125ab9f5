import ExtractionBench.EGraph.Basic
import ExtractionBench.Json.Decode
/-!
# E-graphs in JSON

The nodes by id, the roots, and the comment if there is one. Reading also takes the fields of a
record as a list, and leaves unknown members of objects aside. A node is looked at only when the
whole of the outer record is there.
-/

namespace ExtractionBench

open Json

namespace ENode

/-- The name that a node goes by in complaints about its form. -/
def recordName : String := "SerializedNode"

/-- The value of a node. -/
def toJson (n : ENode) : Json :=
  .object [("op", .text n.op), ("cost", .ofDouble n.cost), ("eclass", .text n.eclass),
    ("children", .array (n.children.map .text))]

/-- The fields of a node that have been read. -/
structure Fields where
  /-- The operator. -/
  op : Option String
  /-- The cost. -/
  cost : Option Double
  /-- The e-class. -/
  eclass : Option String
  /-- The children. -/
  children : Option (List String)

/-- No field. -/
def Fields.none : Fields := ⟨.none, .none, .none, .none⟩

/-- Reads a member of the object of a node. -/
def Fields.read (fs : Fields) (key : String) (v : Json) : Except Problem Fields :=
  if key = "op" then v.asText.map fun x => { fs with op := some x }
  else if key = "cost" then v.asDouble.map fun x => { fs with cost := some x }
  else if key = "eclass" then v.asText.map fun x => { fs with eclass := some x }
  else if key = "children" then v.asTexts.map fun x => { fs with children := some x }
  else .ok fs

/-- The node that complete fields make up, or the first field that is missing. -/
def Fields.complete (fs : Fields) : Except Problem ENode := do
  let op ← require "op" fs.op
  let cost ← require "cost" fs.cost
  let eclass ← require "eclass" fs.eclass
  let children ← require "children" fs.children
  return ⟨op, cost, eclass, children⟩

/-- Reads the fields of a node as the items of a list, as many as there are. -/
def Fields.ofItems (items : List Json) : Except Problem Fields :=
  readMembers Fields.read .none (["op", "cost", "eclass", "children"].zip items)

/-- The node that a value describes. -/
def ofJson : Json → Except Problem ENode
  | .object members => do (← readMembers Fields.read .none (merge members)).complete
  | .array items => do
    let fs ← Fields.ofItems items
    if items.length < 4 then throw (.tooShort items.length recordName 4)
    if 4 < items.length then throw (.tooLong items.length)
    fs.complete
  | v => v.refuse (.record recordName)

end ENode

namespace EGraph

/-- The name that an e-graph goes by in complaints about its form. -/
def recordName : String := "Raw"

/-- The value of an e-graph. Of two nodes with one id the last counts, in the place of the first. -/
def toJson (g : EGraph) : Json :=
  .object ([("nodes", .object (merge (g.nodes.map fun (id, n) => (id, n.toJson)))),
      ("root_eclasses", .array (g.roots.map .text))]
    ++ match g.comment with
      | some comment => [("comment", .text comment)]
      | none => [])

/-- The fields of an e-graph that have been read. -/
structure Fields where
  /-- The nodes. -/
  nodes : Option (List (String × Json))
  /-- The roots. -/
  roots : Option (List String)
  /-- The comment; it may be missing or `null`. -/
  comment : Option String

/-- No field. -/
def Fields.none : Fields := ⟨.none, .none, .none⟩

/-- Reads a member of the object of an e-graph. -/
def Fields.read (fs : Fields) (key : String) (v : Json) : Except Problem Fields :=
  if key = "nodes" then v.asMembers.map fun x => { fs with nodes := some x }
  else if key = "root_eclasses" then v.asTexts.map fun x => { fs with roots := some x }
  else if key = "comment" then v.asText?.map fun x => { fs with comment := x }
  else .ok fs

/-- The e-graph that complete fields make up, or the first field that is missing, or the first
complaint about a node. -/
def Fields.complete (fs : Fields) : Except Problem EGraph := do
  let members ← require "nodes" fs.nodes
  let roots ← require "root_eclasses" fs.roots
  let nodes ← members.mapM fun (id, v) => (ENode.ofJson v).map fun n => (id, n)
  return ⟨nodes, roots, fs.comment⟩

/-- Reads the fields of an e-graph as the items of a list, as many as there are. -/
def Fields.ofItems (items : List Json) : Except Problem Fields :=
  readMembers Fields.read .none (["nodes", "root_eclasses", "comment"].zip items)

/-- The e-graph that a value describes. A list must have an item for the comment too. -/
def ofJson : Json → Except Problem EGraph
  | .object members => do (← readMembers Fields.read .none (merge members)).complete
  | .array items => do
    let fs ← Fields.ofItems items
    if items.length < 3 then throw (.tooShort items.length recordName 3)
    if 3 < items.length then throw (.tooLong items.length)
    fs.complete
  | v => v.refuse (.record recordName)

end EGraph

end ExtractionBench
