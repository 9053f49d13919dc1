import Typeahead.ParseTree

/-!
# ParseTree/Arena — finishing a tree in place

A tree can be stored as an arena of cells that refer to each other by number: every cell lists its
children and names its parent.  `Arena.finish` gives such a tree its finished shape without copying
it.  It visits the nodes from the bottom up, in an order that is fixed before anything is changed;
every node gives its children away and takes back those that its shaping keeps, or the children of
these.  No cell is ever removed: what is dropped can just not be reached from the root any more.
-/

namespace Typeahead

/-- A node in an arena. -/
structure Cell where
  label : Label
  children : List Nat := []
  parent : Option Nat := none

/-- The nodes of a tree, by number. -/
structure Arena where
  cells : Array Cell

namespace Arena

/-- The children of a node. -/
def children (a : Arena) (id : Nat) : List Nat := (a.cells[id]?.map (·.children)).getD []

/-- The node that a node is a child of. -/
def parent? (a : Arena) (id : Nat) : Option Nat := a.cells[id]?.bind (·.parent)

/-- What a node carries. -/
def label? (a : Arena) (id : Nat) : Option Label := a.cells[id]?.map (·.label)

/-- Changes one cell. -/
def modify (a : Arena) (id : Nat) (f : Cell → Cell) : Arena := ⟨a.cells.modify id f⟩

/-- Makes a node the last child of another. -/
def addChild (a : Arena) (parent child : Nat) : Arena :=
  (a.modify child fun c => { c with parent := some parent }).modify parent fun c =>
    { c with children := c.children ++ [child] }

/-- Makes nodes the last children of another. -/
def addChildren (a : Arena) (parent : Nat) (children : List Nat) : Arena :=
  children.foldl (·.addChild parent ·) a

/-- Takes the children of a node away from it. -/
def takeChildren (a : Arena) (id : Nat) : List Nat × Arena :=
  (a.children id, (a.children id).foldl (·.modify · fun c => { c with parent := none })
    (a.modify id fun c => { c with children := [] }))

/-- Takes the children of one node and gives them to another. -/
def moveChildren (a : Arena) (source parent : Nat) : Arena :=
  let (children, a) := a.takeChildren source
  a.addChildren parent children

/-- Gives a node the children that its shaping keeps, out of those it had. -/
def keep (a : Arena) (id : Nat) (shaping : Shaping) (children : List Nat) : Arena :=
  match shaping, children with
  | .keep, children => a.addChildren id children
  | .entryAndTail, [entry, tail] => (a.addChild id entry).moveChildren tail id
  | .second, [_, entry] => a.addChild id entry
  | .headed, [entry, rest] =>
    let (followers, a) := (a.addChild id entry).takeChildren rest
    followers.foldl (·.moveChildren · id) a
  | .spreadLast, children =>
    match children.getLast? with
    | some last => (a.addChildren id children.dropLast).moveChildren last id
    | none => a
  | .bracketed true, [opening, middle, closing] =>
    ((a.addChild id opening).moveChildren middle id).addChild id closing
  | .bracketed false, [_, middle, _] => a.moveChildren middle id
  | .wrapped, first :: _ => a.moveChildren first id
  | _, _ => a

/-- Gives one node its finished shape, if those below it have theirs. -/
def finishNode (a : Arena) (id : Nat) : Arena :=
  let shaping := match (a.label? id).bind (·.production) with
    | some p => p.shaping
    | none => .keep
  let (children, a) := a.takeChildren id
  a.keep id shaping children

/-- The nodes below those on a stack, the last one first, and then those seen already, if `n` visits
are enough. -/
def visits (a : Arena) : (n : Nat) → (stack seen : List Nat) → Option (List Nat)
  | _, [], seen => some seen
  | 0, _ :: _, _ => none
  | n + 1, id :: stack, seen => a.visits n ((a.children id).reverse ++ stack) (id :: seen)

/-- **All nodes below a root, children before parents.**  In a tree no node is visited twice. -/
def postOrder? (a : Arena) (root : Nat) : Option (List Nat) := a.visits a.cells.size [root] []

/-- **Gives the tree below a root its finished shape.** -/
def finish (a : Arena) (root : Nat) : Option Arena :=
  (a.postOrder? root).map fun order => order.foldl finishNode a

end Arena

end Typeahead
