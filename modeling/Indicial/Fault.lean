import Indicial.Text.Quoted

/-!
# Faults

A fault is a broken rule of the calculus: labels that do not fit, a denominator that is zero, an
expression used where its rank is not allowed. Each rule has its own constructor, carrying what the
message shows. The wording of all of them is in `Fault.message`.
-/

namespace Indicial

/-- A broken rule, with the values its message shows. Expressions are carried as their text. -/
inductive Fault where
  -- labels and coordinates
  | indexTooLong (labels : Bytes)
  | indexOverflow (labels : Bytes) (next : UInt8)
  | indexPosition (position : Int) (labels : Bytes)
  | noFreshLabel (used : Bytes)
  | coordTooLong (count : Nat)
  | coordOverflow
  | coordValue (value : Int)
  | coordPosition (position : Int)
  | radixNotPositive (radix : Int)
  -- literals, tensors and functions
  | zeroRational (numerator : Int)
  | literalDivision (dividend : Bytes)
  | zeroToNegative (exponent : Int)
  | tensorOrder (name : Bytes) (order : Int)
  | tensorUnnamed
  | tensorBare (name : Bytes) (order : Nat)
  | scalarComponent (name component : Bytes) (order : Nat)
  | unknownFunction (code : UInt8)
  -- building expressions
  | incompatible (operation left right : Bytes)
  | zeroDenominator (numerator : Bytes)
  | powerBase (labels : Bytes)
  | powerExponent (labels : Bytes)
  | functionArgument (name labels : Bytes)
  | bindCount (source target : Bytes)
  | bindChanged (source target : Bytes)
  | emptyDirection
  | broadcastRepeated (labels : Bytes)
  | leafLabels (name : Bytes) (order : Nat) (labels : Bytes)
  | deltaLabels (labels : Bytes)
  | epsilonLabels (labels : Bytes)
  | noTerms
  | noFactors
  -- differentiating and simplifying
  | derivativeOfPower (exponent : Bytes)
  | derivativeOfNode (kind node : Bytes)
  | divisionByZero (dividend : Bytes)
  -- components
  | unboundLabel (label : UInt8)
  | componentLabels (node labels free : Bytes)
  | epsilonDimension (labels : Bytes) (dim : Int)
  | componentsOfNode (kind node : Bytes)
  | leafReferences (kind : Bytes)
  | componentMap (source target : Bytes)
  -- flattening
  | missingScalar (key : Bytes)
  | unexpandedDerivative (node : Bytes)
  | ratioDenominator (node : Bytes) (rank : Nat)
  | epsilonFlattened (labels : Bytes) (dim : Int)
  | brokenLayout (reason : Bytes)
  -- planning and evaluating
  | missingLabel (label : UInt8) (target inner : Bytes)
  | frameWidth (width : Int)
  | arenaWidth (width : Int)
  | arenaDepth (depth : Int) (reason : Bytes)
  | storage
deriving DecidableEq

/-- What a fault says. -/
def Fault.message : Fault → Bytes
  | .indexTooLong labels => "index " ++ Quoted.text labels ++ " exceeds capacity 8"
  | .indexOverflow labels next =>
    "index " ++ Quoted.text labels ++ "+" ++ Quoted.text (Utf8.encode (Char.ofNat next.toNat))
      ++ " exceeds capacity 8"
  | .indexPosition position labels =>
    "index position " ++ Bytes.ofInt position ++ " out of range for " ++ Quoted.text labels
  | .noFreshLabel used => "no free index label left in " ++ Quoted.text used
  | .coordTooLong count => "coord of " ++ Bytes.ofNat count ++ " values exceeds capacity 8"
  | .coordOverflow => "coord exceeds capacity 8"
  | .coordValue value => "coord value " ++ Bytes.ofInt value ++ " out of range"
  | .coordPosition position => "coord position " ++ Bytes.ofInt position ++ " out of range"
  | .radixNotPositive radix => "odometer radix must be positive, got " ++ Bytes.ofInt radix
  | .zeroRational numerator => "rational literal " ++ Bytes.ofInt numerator ++ "/0"
  | .literalDivision dividend => "division of literal " ++ dividend ++ " by zero"
  | .zeroToNegative exponent => "zero raised to negative power " ++ Bytes.ofInt exponent
  | .tensorOrder name order => "tensor " ++ name ++ ": invalid order " ++ Bytes.ofInt order
  | .tensorUnnamed => "tensor name must not be empty"
  | .tensorBare name order =>
    "tensor " ++ name ++ " of order " ++ Bytes.ofNat order ++ " referenced without indices"
  | .scalarComponent name component order =>
    "scalar " ++ name ++ ": component " ++ component ++ " does not match order " ++ Bytes.ofNat order
  | .unknownFunction code => "unknown function " ++ Bytes.ofNat code.toNat
  | .incompatible operation left right =>
    operation ++ " of incompatible operands: " ++ Quoted.text left ++ " vs " ++ Quoted.text right
  | .zeroDenominator numerator => "ratio " ++ numerator ++ " with zero denominator"
  | .powerBase labels =>
    "power of rank-" ++ Bytes.ofNat labels.length ++ " base " ++ Quoted.text labels
  | .powerExponent labels =>
    "power with rank-" ++ Bytes.ofNat labels.length ++ " exponent " ++ Quoted.text labels
  | .functionArgument name labels =>
    name ++ " of rank-" ++ Bytes.ofNat labels.length ++ " argument " ++ Quoted.text labels
  | .bindCount source target =>
    "bind of " ++ Quoted.text source ++ " to " ++ Quoted.text target ++ ": label count mismatch"
  | .bindChanged source target =>
    "bind child labels changed from " ++ Quoted.text source ++ " to " ++ Quoted.text target
  | .emptyDirection => "partial with empty direction"
  | .broadcastRepeated labels => "broadcast literal over repeated labels " ++ Quoted.text labels
  | .leafLabels name order labels =>
    "tensor " ++ name ++ " of order " ++ Bytes.ofNat order ++ " bound to " ++ Quoted.text labels
  | .deltaLabels labels => "delta needs two labels, got " ++ Quoted.text labels
  | .epsilonLabels labels => "epsilon needs at least two labels, got " ++ Quoted.text labels
  | .noTerms => "add of no terms"
  | .noFactors => "mul of no factors"
  | .derivativeOfPower exponent => "derivative of power with non-rational exponent " ++ exponent
  | .derivativeOfNode kind node => "derivative of " ++ kind ++ " node " ++ node
  | .divisionByZero dividend => "division of " ++ dividend ++ " by zero"
  | .unboundLabel label => "index label " ++ Quoted.byte label ++ " is unbound"
  | .componentLabels node labels free =>
    "scalarize " ++ node ++ " over " ++ Quoted.text labels ++ ", free labels are " ++ Quoted.text free
  | .epsilonDimension labels dim =>
    "epsilon(" ++ labels ++ ") needs " ++ Bytes.ofInt dim ++ " labels for dimension " ++ Bytes.ofInt dim
  | .componentsOfNode kind node => "scalarize " ++ kind ++ " node " ++ node
  | .leafReferences kind => "leaf refs of " ++ kind ++ " node"
  | .componentMap source target =>
    "component map from " ++ Quoted.text source ++ " to " ++ Quoted.text target
  | .missingScalar key => "scalar " ++ key ++ " missing from catalog"
  | .unexpandedDerivative node => "serialize unexpanded derivative " ++ node
  | .ratioDenominator node rank => "ratio denominator " ++ node ++ " has rank " ++ Bytes.ofNat rank
  | .epsilonFlattened labels dim => "epsilon(" ++ labels ++ ") needs " ++ Bytes.ofInt dim ++ " labels"
  | .brokenLayout reason => "serialized tree breaks layout: " ++ reason
  | .missingLabel label target inner =>
    "label " ++ Quoted.byte label ++ " of " ++ Quoted.text target ++ " missing from "
      ++ Quoted.text inner
  | .frameWidth width => "frame width " ++ Bytes.ofInt width
  | .arenaWidth width => "arena has no frame of width " ++ Bytes.ofInt width
  | .arenaDepth depth reason => "arena for depth " ++ Bytes.ofInt depth ++ ": " ++ reason
  | .storage => "storage access out of range"

end Indicial
