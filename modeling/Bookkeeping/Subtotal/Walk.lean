import Bookkeeping.Subtotal.Tree

set_option autoImplicit false

/-! # Walking subtotal trees

A `Walk` is what is done at each place of a tree: at a last-level group without readings, at a
reading, on the way down to a child and back up from it, and when the results of a group are
brought together. `run` looks the level of each group up in the specification, so one walk
serves trees of any depth and any order of levels. The steps may have effects, which happen in
the order of the walk.

A walk whose steps only compute brings together the results of a group's children, or readings, as
a list: what is done at a child does not depend on what was done at the ones before it. -/

namespace Bookkeeping.Subtotal

/-- What lies below a visited group. -/
inductive Below where
  | nothing
  | level (level : Level)
  | readings (interval : Granularity)
deriving DecidableEq, Repr

/-- A group being visited, with its place in the tree. -/
structure Visit where
  tree : Tree
  /-- How many levels lie above; none above the group of everything. -/
  depth : Nat
  /-- The level that the group was formed by; none for the group of everything. -/
  level : Option Level
  below : Below

/-- The label of the visited group. -/
def Visit.label (v : Visit) : String :=
  v.tree.key.label ((v.level.bind Level.granularity?).getD .day)

/-- What lies below a group when these levels follow. -/
def below (levels : List Level) (interval : Option Granularity) : Below :=
  match levels, interval with
  | level :: _, _ => .level level
  | [], some interval => .readings interval
  | [], none => .nothing

/-- The steps of a walk with paths of type `π` and results of type `ω`. -/
structure Walk (m : Type → Type) (π ω : Type) where
  /-- At a last-level group without readings. -/
  leaf : π → Visit → m ω
  /-- At one reading of the visited group. -/
  reading : π → Visit → Reading → Granularity → m ω
  /-- The path of a child. -/
  down : π → Visit → m π
  /-- The result of a child as seen from its parent, from the paths of both. -/
  up : π → π → Visit → ω → m ω
  /-- The results of a group's children or readings brought together. -/
  combine : π → Visit → List ω → m ω
  /-- The order in which children are visited. -/
  order : Level → List Tree → List Tree

namespace Walk

variable {m : Type → Type} [Monad m] {π ω : Type}

/-- Walks the tree of a visit, below which the given levels follow. -/
def runFrom (w : Walk m π ω) (interval : Option Granularity) : List Level → π → Visit → m ω
  | [], path, v =>
      match interval with
      | none => w.leaf path v
      | some g => do
          let results ← v.tree.readings.mapM fun r => w.reading path v r g
          w.combine path v results
  | level :: rest, path, v => do
      let results ← (w.order level v.tree.children).mapM fun child => do
        let visit : Visit := ⟨child, v.depth + 1, some level, Subtotal.below rest interval⟩
        let childPath ← w.down path visit
        let result ← w.runFrom interval rest childPath visit
        w.up path childPath visit result
      w.combine path v results

/-- Walks a whole tree. -/
def run (w : Walk m π ω) (spec : Spec) (path : π) (tree : Tree) : m ω :=
  let levels := spec.effectiveLevels
  let interval := spec.series.interval?
  w.runFrom interval levels path ⟨tree, 0, none, Subtotal.below levels interval⟩

/-! ## Walks without effects -/

theorem mapM_id {α β : Type} (f : α → Id β) (l : List α) : (l.mapM f : Id (List β)) = l.map f :=
  List.idRun_mapM

/-- The result of a child. -/
def ofChild (w : Walk Id π ω) (interval : Option Granularity) (level : Level) (rest : List Level)
    (path : π) (depth : Nat) (child : Tree) : ω :=
  let visit : Visit := ⟨child, depth + 1, some level, Subtotal.below rest interval⟩
  w.up path (w.down path visit) visit (w.runFrom interval rest (w.down path visit) visit)

theorem runFrom_cons (w : Walk Id π ω) (interval : Option Granularity) (level : Level)
    (rest : List Level) (path : π) (v : Visit) :
    w.runFrom interval (level :: rest) path v =
      w.combine path v ((w.order level v.tree.children).map
        (w.ofChild interval level rest path v.depth)) := by
  rw [runFrom, mapM_id]
  rfl

theorem runFrom_readings (w : Walk Id π ω) (g : Granularity) (path : π) (v : Visit) :
    w.runFrom (some g) [] path v =
      w.combine path v (v.tree.readings.map fun r => w.reading path v r g) := by
  rw [runFrom, mapM_id]
  rfl

end Walk

end Bookkeeping.Subtotal
