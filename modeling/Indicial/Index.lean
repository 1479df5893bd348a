import Indicial.Fault

/-!
# Index labels

An index is an ordered sequence of one-byte labels, such as `ij`, of at most eight. The operations
are those of a multiset that remembers order: which labels occur once (the free ones), which repeat
(the summed ones), and how two indices combine. Only building an index and joining two can exceed
the capacity; every other operation gives at most as many labels as it takes.
-/

namespace Indicial

/-- An index label. -/
abbrev Label := UInt8

/-- An ordered sequence of labels. -/
abbrev Index := List Label

namespace Index

/-- The largest number of labels an index holds. -/
def capacity : Nat := 8

/-- The index spelled by a byte string. -/
def ofBytes (labels : Bytes) : Except Fault Index :=
  if labels.length ≤ capacity then .ok labels else .error (.indexTooLong labels)

/-- `a` followed by `b`. The fault names the first label that does not fit. -/
def concat (a b : Index) : Except Fault Index :=
  match (a ++ b).drop capacity with
  | [] => .ok (a ++ b)
  | next :: _ => .error (.indexOverflow ((a ++ b).take capacity) next)

/-- The label at a position. -/
def get (a : Index) (position : Int) : Except Fault Label :=
  match position with
  | .ofNat i => match a[i]? with
    | some c => .ok c
    | none => .error (.indexPosition position a)
  | .negSucc _ => .error (.indexPosition position a)

/-- The first position of a label. -/
def position? (a : Index) (c : Label) : Option Nat := a.findIdx? (· == c)

/-- The first position of a label, or -1. -/
def position (a : Index) (c : Label) : Int :=
  match a.position? c with
  | some i => i
  | none => -1

/-- The first occurrence of each label. -/
def unique : Index → Index
  | [] => []
  | c :: rest => c :: (unique rest).filter (· != c)

/-- The labels that occur more than once, each of them once. -/
def repeated (a : Index) : Index := unique (a.filter fun c => 1 < a.count c)

/-- The labels that occur exactly once. -/
def exclusive (a : Index) : Index := a.filter fun c => a.count c == 1

/-- The labels of `a` that occur in `b`, each of them once. -/
def intersect (a b : Index) : Index := unique (a.filter fun c => b.contains c)

/-- The labels of `a` that do not occur in `b`. -/
def minus (a b : Index) : Index := a.filter fun c => !b.contains c

/-- The labels of `a` not in `b`, then those of `b` not in `a`. -/
def symmetricDifference (a b : Index) : Index := minus a b ++ minus b a

/-- Whether the two hold the same labels equally often. -/
def isPermutation (a b : Index) : Bool :=
  a.length == b.length && a.all fun c => a.count c == b.count c

/-- Every occurrence of `old` replaced by `new`. -/
def rename (a : Index) (old new : Label) : Index := a.map fun c => if c == old then new else c

/-- The lowercase letters from the last to the first, in the order in which fresh labels are tried. -/
def candidates : List Label := (List.range 26).map fun i => (122 - i).toUInt8

/-- The last lowercase letter that occurs nowhere in `used`. -/
def fresh (used : Bytes) : Except Fault Label :=
  match candidates.find? fun c => !used.contains c with
  | some c => .ok c
  | none => .error (.noFreshLabel used)

/-- Every ordering of the labels; the first label varies slowest and the identity comes first. -/
def orderings : (fuel : Nat) → Index → List Index
  | 0, a => [a]
  | fuel + 1, a =>
    if a.length ≤ 1 then [a]
    else a.flatMap fun c => (orderings fuel (a.filter (· != c))).map (c :: ·)

/-- Every ordering of a repeat-free index. -/
def permutations (a : Index) : List Index := orderings a.length a

end Index

end Indicial
