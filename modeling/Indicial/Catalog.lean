import Indicial.Tensor

/-!
# The catalog of scalar unknowns

A catalog splits the scalars that a system reads into constants, bound once, and those that are read
at every point. Each table is sorted and without repetition, and programs refer to an entry by its
position.
-/

namespace Indicial

/-- Two tables of scalar references. -/
structure Catalog where
  constants : List ScalarRef
  scalars : List ScalarRef
deriving DecidableEq, Inhabited

namespace Catalog

/-- The references in ascending order, each of them once. -/
def table (refs : List ScalarRef) : List ScalarRef :=
  refs.eraseDups.mergeSort fun a b => !b.less a

/-- The catalog of all given references. -/
def ofRefs (refs : List ScalarRef) : Catalog where
  constants := table (refs.filter (·.constant))
  scalars := table (refs.filter (!·.constant))

/-- The table that a reference belongs to. -/
def tableOf (c : Catalog) (r : ScalarRef) : List ScalarRef :=
  if r.constant then c.constants else c.scalars

/-- The position of a reference in its table. -/
def lookup? (c : Catalog) (r : ScalarRef) : Option Nat := (c.tableOf r).findIdx? (· == r)

/-- The position of a reference that has to be in its table. -/
def id (c : Catalog) (r : ScalarRef) : Except Fault Nat :=
  match c.lookup? r with
  | some i => .ok i
  | none => .error (.missingScalar r.key)

/-- The binding names of the constants. -/
def constantKeys (c : Catalog) : List Bytes := c.constants.map ScalarRef.key

/-- The binding names of the scalars. -/
def scalarKeys (c : Catalog) : List Bytes := c.scalars.map ScalarRef.key

end Catalog

end Indicial
