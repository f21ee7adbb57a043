import ConstraintNet.Domain.Node
/-!
# Rows of subtrees

A row is a node above the bottom of a search tree: subtrees with keys between
them.  A row of nodes is a node again, so that a tree of any height comes from
leaves by making rows.  What looks a value up, puts it in its place or takes it
out is given what does so in a subtree.

To take a value out, a row finds the spot where the value is.  A value in a
subtree is taken out there, once the subtree has keys to spare.  A key is
replaced by its neighbour from the subtree below it or above it, whichever has
keys to spare, and if neither has, the two are merged first.  Most often the
subtree has keys to spare from the start, and then only the subtree changes.

On the right edge of a tree the walk down meets all there is in a row.  Off the
edge it goes from the topmost subtree straight to the second key, past the
first key and the subtree between the two.
-/

namespace ConstraintNet.Domain

/-- A node above the bottom of a tree. -/
structure Row (α : Type) where
  /-- The subtree of the greatest values. -/
  top : α
  /-- The keys, from the greatest down, each with the subtree of the values next
  below. -/
  rest : List (Int × α)
deriving Inhabited

/-- A subtree of a row, with what stands around it. -/
structure Spot (α : Type) where
  /-- The subtrees above, each with the key next below it, the closest first. -/
  above : List (α × Int)
  here : α
  /-- The keys below, each with the subtree next below it, the closest first. -/
  below : List (Int × α)

namespace Row

variable {α : Type} [Node α]

/-! ## Values -/

/-- The values of keys and of the subtrees next below them. -/
def downRest (l : List (Int × α)) : List Int :=
  l.flatMap fun p => p.1 :: Node.down p.2

/-- The values of subtrees and of the keys next below them, the last pair
first. -/
def downAbove : List (α × Int) → List Int
  | [] => []
  | (t, k) :: above => downAbove above ++ (Node.down t ++ [k])

/-- The values, from the greatest down. -/
def down (r : Row α) : List Int := Node.down r.top ++ downRest r.rest

/-- Whether a value is in a row of given parts; `inside` tells of subtrees. -/
@[specialize] def containsIn (inside : α → Bool) (v : Int) (top : α) :
    List (Int × α) → Bool
  | [] => inside top
  | p :: rest =>
    if p.1 < v then inside top
    else if v = p.1 then true
    else containsIn inside v p.2 rest

/-- The greatest value. -/
def greatest? (r : Row α) : Option Int :=
  Node.greatest? r.top <|> r.rest.head?.map (·.1)

/-- The least value. -/
def least? (r : Row α) : Option Int :=
  match r.rest.getLast? with
  | none => Node.least? r.top
  | some (k, t) => some ((Node.least? t).getD k)

/-! ## Inserting -/

/-- The row of what an insertion made of the topmost subtree and of the rest. -/
def ofGrown (rest : List (Int × α)) : Grown α → Row α
  | .one t => ⟨t, rest⟩
  | .two upper k lower => ⟨upper, (k, lower) :: rest⟩

/-- The pairs of a key and of what an insertion made of the subtree next below,
and of the rest. -/
def restOfGrown (k : Int) (rest : List (Int × α)) : Grown α → List (Int × α)
  | .one t => (k, t) :: rest
  | .two upper k' lower => (k, upper) :: (k', lower) :: rest

/-- Puts a value in its place below the key of a pair and among the rest, where
`insertion` puts it into a subtree. -/
@[specialize] def placeBelow (insertion : α → Grown α) (v : Int) (p : Int × α) :
    List (Int × α) → List (Int × α)
  | [] => restOfGrown p.1 [] (insertion p.2)
  | q :: rest =>
    if q.1 < v then restOfGrown p.1 (q :: rest) (insertion p.2)
    else if v = q.1 then p :: q :: rest
    else p :: placeBelow insertion v q rest

/-- Puts a value in its place in a row, which may become too long; `insertion`
puts it into a subtree. -/
@[specialize] def place (insertion : α → Grown α) (v : Int) (r : Row α) :
    Row α :=
  match r.rest with
  | [] => ofGrown [] (insertion r.top)
  | p :: rest =>
    if p.1 < v then ofGrown (p :: rest) (insertion r.top)
    else if v = p.1 then r
    else ⟨r.top, placeBelow insertion v p rest⟩

/-- Splits a row that is too long. -/
def split (r : Row α) : Grown (Row α) :=
  match overflow? r.rest with
  | none => .one r
  | some (upper, (k, t), lower) => .two ⟨r.top, upper⟩ k ⟨t, lower⟩

/-- Puts a value in its place, where `insertion` puts it into a subtree. -/
@[specialize] def insert (insertion : α → Grown α) (v : Int) (r : Row α) :
    Grown (Row α) :=
  (place insertion v r).split

/-! ## Taking out -/

/-- One row of two and the key between them. -/
def merge (upper : Row α) (k : Int) (lower : Row α) : Row α :=
  ⟨upper.top, upper.rest ++ (k, lower.top) :: lower.rest⟩

/-- Moves the least key of the upper of two rows up, and the key between them to
the lower row, together with the subtree next below. -/
def lend? (upper : Row α) (k : Int) (lower : Row α) :
    Option (Row α × Int × Row α) :=
  upper.rest.getLast?.map fun p =>
    (⟨upper.top, upper.rest.dropLast⟩, p.1, ⟨p.2, (k, lower.top) :: lower.rest⟩)

/-- Moves the greatest key of the lower of two rows up, and the key between them
to the upper row, together with the subtree next above. -/
def borrow? (upper : Row α) (k : Int) (lower : Row α) :
    Option (Row α × Int × Row α) :=
  match lower.rest with
  | [] => none
  | (greatest, t) :: rest =>
      some (⟨upper.top, upper.rest ++ [(k, lower.top)]⟩, greatest, ⟨t, rest⟩)

/-- The row around a subtree. -/
def rebuild (here : α) (below : List (Int × α)) : List (α × Int) → Row α
  | [] => ⟨here, below⟩
  | (t, k) :: above => rebuild t ((k, here) :: below) above

/-- The spot in a row of given parts where a value is: just above its key, or
else the subtree that would hold it. -/
def locate (v : Int) (above : List (α × Int)) (top : α) :
    List (Int × α) → Spot α
  | [] => ⟨above, top, []⟩
  | (k, t) :: rest =>
    if k ≤ v then ⟨above, top, (k, t) :: rest⟩
    else locate v ((top, k) :: above) t rest

/-- Takes a key from the subtree below, if that has keys to spare. -/
def fromBelow? (s : Spot α) : Option (Spot α) :=
  match s.below with
  | [] => none
  | (k, t) :: below =>
    if half ≤ Node.size t then
      (Node.borrow? s.here k t).map fun p =>
        ⟨s.above, p.1, (p.2.1, p.2.2) :: below⟩
    else none

/-- Takes a key from the subtree above, if that has keys to spare. -/
def fromAbove? (s : Spot α) : Option (Spot α) :=
  match s.above with
  | [] => none
  | (t, k) :: above =>
    if half ≤ Node.size t then
      (Node.lend? t k s.here).map fun p =>
        ⟨(p.1, p.2.1) :: above, p.2.2, s.below⟩
    else none

/-- Merges the subtree with the one above. -/
def withAbove? (s : Spot α) : Option (Spot α) :=
  match s.above with
  | [] => none
  | (t, k) :: above => some ⟨above, Node.merge t k s.here, s.below⟩

/-- Merges the subtree with the one below. -/
def withBelow? (s : Spot α) : Option (Spot α) :=
  match s.below with
  | [] => none
  | (k, t) :: below => some ⟨s.above, Node.merge s.here k t, below⟩

/-- Gives a subtree keys to spare. -/
def fill (s : Spot α) : Spot α :=
  if half ≤ Node.size s.here then s
  else (fromBelow? s <|> fromAbove? s <|> withAbove? s <|> withBelow? s).getD s

/-- Takes a value out of the subtree at a spot; `removal` takes a value out of a
subtree. -/
def eraseHere (removal : Int → α → α) (v : Int) (s : Spot α) : Row α :=
  let s := fill s
  rebuild (removal v s.here) s.below s.above

/-- Takes out the key next below a spot; `t` is the subtree next below the
key. -/
def eraseKey (removal : Int → α → α) (v : Int) (above : List (α × Int))
    (here t : α) (below : List (Int × α)) : Row α :=
  match if half ≤ Node.size t then Node.greatest? t else none with
  | some k => rebuild here ((k, removal k t) :: below) above
  | none =>
    match if half ≤ Node.size here then Node.least? here else none with
    | some k => rebuild (removal k here) ((k, t) :: below) above
    | none => rebuild (removal v (Node.merge here v t)) below above

/-- Takes out a value whose spot is known. -/
def eraseAt (removal : Int → α → α) (v : Int) (s : Spot α) : Row α :=
  match s.below with
  | [] => eraseHere removal v s
  | (k, t) :: below =>
    if k = v then eraseKey removal v s.above s.here t below
    else eraseHere removal v s

/-- Whether the value is no key of a row of given parts and its subtree has keys
to spare. -/
@[specialize] def spares (size : α → Nat) (v : Int) (top : α) :
    List (Int × α) → Bool
  | [] => half ≤ size top
  | p :: rest =>
    if p.1 < v then half ≤ size top
    else if v = p.1 then false
    else spares size v p.2 rest

/-- Takes a value out of the subtree where it is, below the key of a pair or
among the rest. -/
@[specialize] def eraseBelow (removal : Int → α → α) (v : Int) (p : Int × α) :
    List (Int × α) → List (Int × α)
  | [] => [(p.1, removal v p.2)]
  | q :: rest =>
    if q.1 < v then (p.1, removal v p.2) :: q :: rest
    else p :: eraseBelow removal v q rest

/-- Takes a value out of the subtree where it is. -/
@[specialize] def eraseInside (removal : Int → α → α) (v : Int) (r : Row α) :
    Row α :=
  match r.rest with
  | [] => ⟨removal v r.top, []⟩
  | p :: rest =>
    if p.1 < v then ⟨removal v r.top, p :: rest⟩
    else ⟨r.top, eraseBelow removal v p rest⟩

/-- Takes a value out; `size` tells the number of keys of a subtree. -/
@[specialize] def erase (size : α → Nat) (removal : Int → α → α) (v : Int)
    (r : Row α) : Row α :=
  if spares size v r.top r.rest then eraseInside removal v r
  else eraseAt removal v (locate v [] r.top r.rest)

/-! ## Walks -/

/-- The values that a walk down meets below the topmost subtree. -/
def skimRest (l : List (Int × α)) : List Int :=
  l.flatMap fun p => p.1 :: Node.skim p.2

/-- The values that a walk down meets on the right edge of a tree. -/
def walk (r : Row α) : List Int := Node.walk r.top ++ skimRest r.rest

/-- The values that a walk down meets off the right edge: the first key and the
subtree below it are passed over. -/
def skim (r : Row α) : List Int := Node.skim r.top ++ skimRest (r.rest.drop 1)

/-- The least value that passes a test in a row of given parts. -/
def findUpIn? (p : Int → Bool) (top : α) : List (Int × α) → Option Int
  | [] => Node.findUp? p top
  | (k, t) :: rest =>
      findUpIn? p t rest <|> ([k].find? p <|> Node.findUp? p top)

/-- The first value that passes a test on a walk below the topmost subtree. -/
def findSkimRest? (p : Int → Bool) : List (Int × α) → Option Int
  | [] => none
  | (k, t) :: rest =>
    if p k then some k
    else
      match Node.findSkim? p t with
      | some v => some v
      | none => findSkimRest? p rest

/-- The first value on `walk` that passes a test. -/
def findWalk? (p : Int → Bool) (r : Row α) : Option Int :=
  Node.findWalk? p r.top <|> findSkimRest? p r.rest

/-- The first value on `skim` that passes a test. -/
def findSkim? (p : Int → Bool) (r : Row α) : Option Int :=
  Node.findSkim? p r.top <|> findSkimRest? p (r.rest.drop 1)

instance node : Node (Row α) where
  down := down
  size r := r.rest.length
  greatest? := greatest?
  least? := least?
  merge := merge
  lend? := lend?
  borrow? := borrow?
  walk := walk
  skim := skim
  findUp? p r := findUpIn? p r.top r.rest
  findWalk? := findWalk?
  findSkim? := findSkim?

end Row

end ConstraintNet.Domain
