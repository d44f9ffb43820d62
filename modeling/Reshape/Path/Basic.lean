import Reshape.Direction
import Reshape.Text.Numeral

/-!
# Path steps

A path is a list of steps. Each step makes a `Move` and carries an inversion flag: a plain step
reads in a forward run and builds in a reverse one, an inverted step does the opposite. A barrier
makes no move; it ends every run in the direction that it blocks.
-/

namespace Reshape

inductive Move where
  /-- The entry under a key. -/
  | field (name : String)
  /-- A slot of a sequence. -/
  | index (slot : Int64)
  /-- Sequence semantics for the neighbouring step. -/
  | each
  /-- One frame up the context. -/
  | parent
  /-- The lowest frame of the context. -/
  | root
  /-- A merge with the ambient target. -/
  | merge (prefer : Preference)
deriving DecidableEq, Inhabited

inductive PathStep where
  | move (move : Move) (inverted : Bool)
  | barrier (blocks : Direction)
deriving DecidableEq, Inhabited

/-- What a step does to the current value. -/
inductive Mode where
  | extract
  | construct
deriving DecidableEq, Inhabited

def Mode.opposite : Mode → Mode
  | extract => construct
  | construct => extract

namespace PathStep

def isInverted : PathStep → Bool
  | move _ inverted => inverted
  | barrier blocks => blocks.isReverse

def invert : PathStep → PathStep
  | move m inverted => move m (!inverted)
  | barrier blocks => barrier blocks.opposite

/-- The mode of a step in a run with effective direction `d`; barriers have none. -/
def mode (d : Direction) : PathStep → Option Mode
  | move _ inverted => some (if inverted == d.isReverse then .extract else .construct)
  | barrier _ => none

def isEach : PathStep → Bool
  | move .each _ => true
  | _ => false

def isMerge : PathStep → Bool
  | move (.merge _) _ => true
  | _ => false

def mergePreference : PathStep → Option Preference
  | move (.merge prefer) _ => some prefer
  | _ => none

@[simp] theorem invert_invert (s : PathStep) : s.invert.invert = s := by
  cases s <;> simp [invert]

end PathStep

/-! ### Written forms -/

/-- The characters that a name must escape. -/
def isPathSyntax (c : Char) : Bool :=
  c = '.' || c = '[' || c = ']' || c = '$' || c = '\\' || c = '^' || c = '>' || c = '|'

def escapeName (name : List Char) : List Char :=
  name.flatMap fun c => if isPathSyntax c then ['\\', c] else [c]

def Move.text : Move → List Char
  | field name => escapeName name.toList
  | index slot => '[' :: Text.ofInt slot.toInt ++ [']']
  | each => ['[', ']']
  | parent => ['^']
  | root => ['^', '^']
  | merge .current => ['.']
  | merge .target => ['.', '.', '.']

def PathStep.text (s : PathStep) : List Char :=
  let body := match s with
    | move m _ => m.text
    | barrier _ => ['|']
  if s.isInverted then '>' :: body else body

def PathStep.display (s : PathStep) : String :=
  String.ofList s.text

end Reshape
