import ConstraintNet.Instance
/-!
# Writing the text of an instance

The number of variables, which a comment repeats, the bounds of each variable
on a line, and for each block its indices and its pairs, one on a line.
-/

namespace ConstraintNet.Instance

/-- The lines of a list of pairs. -/
def pairLines (l : List (Int × Int)) : String :=
  String.join (l.map fun (x, y) => s!"{x}, {y}\n")

/-- The lines of a block. -/
def Block.text (b : Block) : String :=
  s!"\nc({b.first}, {b.second})\n" ++ pairLines b.tuples

/-- The text of an instance. -/
def text (c : Instance) : String :=
  s!"// {c.count} variables\n{c.count}\n" ++ pairLines c.bounds ++
    String.join (c.blocks.map Block.text)

end ConstraintNet.Instance
