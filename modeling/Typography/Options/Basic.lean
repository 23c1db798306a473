import Typography.Length

/-!
# Options of an expansion

The one option is the root font size, with which font sizes in pixels become
lengths in `rem`. An empty root size counts as none. A root size that is used has
to be in pixels and greater than zero.
-/

namespace Typography

/-- The options of an expansion. -/
structure Options where
  rootSize : Option String
  deriving DecidableEq, Repr

/-- Why options are refused. -/
inductive OptionsError where
  | rootSizeNotPixels
  | rootSizeNotPositive
  deriving DecidableEq, Repr

/-- What is said about refused options. -/
def OptionsError.message : OptionsError → String
  | rootSizeNotPixels => "rootSize option must be in pixel unit."
  | rootSizeNotPositive => "rootSize option must be greater than zero."

namespace Options

/-- Options with nothing set. -/
def unset : Options := ⟨none⟩

/-- The root size that is used: the one that is set, unless it is empty. -/
def usedRootSize (options : Options) : Option String :=
  options.rootSize.filter fun size => !size.isEmpty

/-- Whether the number of a value is greater than zero. -/
def isPositive (value : String) : Bool :=
  match leadingNumber? value.toList with
  | some x => 0.0 < x
  | none => false

/-- Checks the root size that is used. -/
def validate (options : Options) : Except OptionsError Unit :=
  match options.usedRootSize with
  | none => .ok ()
  | some size =>
    if !isPixelLength size then .error .rootSizeNotPixels
    else if !isPositive size then .error .rootSizeNotPositive
    else .ok ()

end Options

end Typography
