import Formula.Plot.Basic

/-!
The five settings that a plot is made from. A setting has a default that holds until a value is
given; a setting whose default is given as its value still differs from one that is left alone.
-/

namespace Formula

structure Setting (α : Type) where
  label : String
  default : α
  /-- The value that was given, if any. -/
  current : Option α := none
  deriving BEq

namespace Setting

variable {α : Type}

/-- The value that holds. -/
def get (s : Setting α) : α := s.current.getD s.default

def set (s : Setting α) (value : α) : Setting α := { s with current := some value }

/-- Goes back to the default. -/
def unset (s : Setting α) : Setting α := { s with current := none }

def isSet (s : Setting α) : Bool := s.current.isSome

end Setting

structure Settings where
  function : Setting String := { label := "f(x) = ", default := "" }
  xMin : Setting Float := { label := "x minimum: ", default := -10.0 }
  xMax : Setting Float := { label := "x maximum: ", default := 10.0 }
  yMin : Setting Float := { label := "y minimum: ", default := -10.0 }
  yMax : Setting Float := { label := "y maximum: ", default := 10.0 }
  deriving BEq

namespace Settings

/-- The labels in the order in which they are shown. -/
def labels (s : Settings) : List String :=
  [s.function.label, s.xMin.label, s.xMax.label, s.yMin.label, s.yMax.label]

/-- The plot of the values that hold. -/
def plot (s : Settings) : Except PlotError Plot :=
  Plot.ofText s.function.get s.xMin.get s.xMax.get s.yMin.get s.yMax.get

end Settings
end Formula
