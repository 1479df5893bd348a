import Indicial.Proofs.Tree.Valid
import Indicial.Tree.Flatten

/-!
# Trees as lists of entries

A tree that grew by `Tree.push` is a list of entries, one for each node, written into columns.
`Tree.Holds` says what each column then gives back for a node: its entry, its window of `D ^ rank`
slots, and its offset, the slots of all windows before it.

A tree holds its entries when its tables have less than `2 ^ 31` entries (`TablesFit`,
`holds_ofEntries`), and those of a checked tree do (`holds_of_validate`). No offset wraps around as long
as all windows together stay below `2 ^ 31` slots, which `Tree.totalWindow` counts in true numbers.
-/

namespace Indicial

variable {α : Type}

/-- What one node adds to a tree. -/
structure Tree.Entry (α : Type) where
  kind : Kind
  left : Int32
  outer : Index
  inner : Index
  binding : Index
  ids : List Int32
  value : α
  func : UInt8

namespace Tree

/-- The slots of all windows of a tree together, as a true number. -/
def totalWindow (t : Tree α) : Nat :=
  ((List.range t.nodes).map fun i => t.dim.toInt.toNat ^ (t.outer.row i).length).sum

/-- One more entry at the end. -/
def add (t : Tree α) (x : Entry α) : Tree α :=
  t.push x.kind.code x.left x.outer x.inner x.binding x.ids x.value x.func

/-- The tree of some entries. -/
def ofEntries (dim : Int64) (es : List (Entry α)) : Tree α := es.foldl add (empty dim)

/-- The slots of the windows before node `i`. -/
def below (D : Nat) (es : List (Entry α)) (i : Nat) : Nat :=
  ((es.take i).map fun x => D ^ x.outer.length).sum

section Below

variable {D : Nat} {es : List (Entry α)} {i : Nat} {x : Entry α}

/-- The next window begins where the one before ends. -/
lemma below_succ (h : es[i]? = some x) : below D es (i + 1) = below D es i + D ^ x.outer.length := by
  obtain ⟨hi, rfl⟩ := List.getElem?_eq_some_iff.1 h
  rw [below, List.take_succ_eq_append_getElem hi, List.map_append, List.sum_append, ← below]
  simp

/-- Later windows begin behind more slots. -/
lemma below_mono {j : Nat} (h : i ≤ j) : below D es i ≤ below D es j := by
  rw [below, below, ← List.take_append_drop i (es.take j), List.take_take, Nat.min_eq_left h,
    List.map_append, List.sum_append]
  exact Nat.le_add_right _ _

/-- The window of an earlier node ends before that of a later one begins. -/
lemma window_before {j : Nat} (h : es[i]? = some x) (hij : i < j) :
    below D es i + D ^ x.outer.length ≤ below D es j := by
  rw [← below_succ h]
  exact below_mono hij

/-- Every window has a slot, so there are no more nodes than slots. -/
lemma length_le_below (hD : 0 < D) : es.length ≤ below D es es.length := by
  rw [below, List.take_length]
  induction es with
  | nil => simp
  | cons x es ih =>
    have := Nat.pow_pos (n := x.outer.length) hD
    simp only [List.length_cons, List.map_cons, List.sum_cons]
    omega

end Below

/-! ### The columns -/

/-- The slots of some windows as a word. -/
def depthWord (dim : Int64) (es : List (Entry α)) : Int32 :=
  es.foldl (fun d x => d + (Layout.power dim (Int64.ofNat x.outer.length)).toInt32) 0

/-- One more entry is added at the end. -/
lemma ofEntries_append_singleton (dim : Int64) (es : List (Entry α)) (x : Entry α) :
    ofEntries dim (es ++ [x]) = (ofEntries dim es).add x := by
  simp [ofEntries]

/-- The arrays of a tree of entries, column by column. -/
lemma ofEntries_eq (dim : Int64) (es : List (Entry α)) :
    ofEntries dim es = {
      dim
      tags := (es.map fun x => x.kind.code).toArray
      left := (es.map fun x => x.left).toArray
      outer := Rows.ofList (es.map fun x => x.outer)
      inner := Rows.ofList (es.map fun x => x.inner)
      binding := Rows.ofList (es.map fun x => x.binding)
      ids := Rows.ofList (es.map fun x => x.ids)
      values := (es.map fun x => x.value).toArray
      funcs := (es.map fun x => x.func).toArray
      offsets := ((List.range es.length).map fun i => depthWord dim (es.take i)).toArray
      depth := depthWord dim es } := by
  induction es using List.reverseRecOn with
  | nil => rfl
  | append_singleton es x ih =>
    have hoffsets : ((List.range (es ++ [x]).length).map fun i =>
          depthWord dim ((es ++ [x]).take i)).toArray
        = ((List.range es.length).map fun i => depthWord dim (es.take i)).toArray.push
          (depthWord dim es) := by
      rw [List.length_append, List.length_singleton, List.range_succ, List.map_append]
      have hold : (List.range es.length).map (fun i => depthWord dim ((es ++ [x]).take i))
          = (List.range es.length).map (fun i => depthWord dim (es.take i)) := by
        apply List.map_congr_left
        intro i hi
        rw [List.take_append_of_le_length (Nat.le_of_lt (List.mem_range.1 hi))]
      rw [hold]
      simp
    rw [ofEntries_append_singleton, ih, hoffsets]
    simp [add, push, Rows.ofList_append_singleton, depthWord]

/-- The depth is the word of the slots of all windows. -/
lemma depthWord_eq {D : Nat} {es : List (Entry α)} (h : ∀ x ∈ es, x.outer.length ≤ Index.capacity) :
    depthWord (Int64.ofNat D) es = Int32.ofNat (below D es es.length) := by
  induction es using List.reverseRecOn with
  | nil => rfl
  | append_singleton es x ih =>
    have hx : x.outer.length < 2 ^ 63 :=
      Nat.lt_of_le_of_lt (h x (by simp)) (by decide)
    have hes := ih fun y hy => h y (by simp [hy])
    rw [depthWord, List.foldl_append, List.foldl_cons, List.foldl_nil, ← depthWord, hes,
      Layout.power_ofNat D hx, Int64.toInt32_ofNat', ← Int32.ofNat_add,
      List.length_append, List.length_singleton, below_succ (x := x) (by simp)]
    simp [below]

/-- The kind of a code is the kind it was made for. -/
lemma ofCode?_code (k : Kind) : Kind.ofCode? k.code = some k := by
  cases k <;> decide

/-! ### Reading a tree back -/

/-- The columns of a tree give back these entries, and windows of `D ^ rank` slots follow each
other. -/
structure Holds (t : Tree α) (D : Nat) (es : List (Entry α)) : Prop where
  dim : t.dim = Int64.ofNat D
  nodes : t.nodes = es.length
  kind : ∀ {i x}, es[i]? = some x → t.kind? i = some x.kind
  left : ∀ {i x}, es[i]? = some x → t.left.getD i 0 = x.left
  outer : ∀ {i x}, es[i]? = some x → t.outer.row i = x.outer
  binding : ∀ {i x}, es[i]? = some x → t.binding.row i = x.binding
  ids : ∀ {i x}, es[i]? = some x → t.ids.row i = x.ids
  value : ∀ {i x} (z : α), es[i]? = some x → t.values.getD i z = x.value
  func : ∀ {i x}, es[i]? = some x → t.funcs.getD i 0 = x.func
  offset : ∀ {i x}, es[i]? = some x → t.offset i = Int32.ofNat (below D es i)
  size : ∀ {i x}, es[i]? = some x → t.size i = Int64.ofNat (D ^ x.outer.length)
  depth : t.depth = Int32.ofNat (below D es es.length)

/-- What the columns have for a node, if they have it in every one. -/
def record? (t : Tree α) (i : Nat) : Option (Entry α) := do
  let kind ← t.kind? i
  let value ← t.values[i]?
  return ⟨kind, t.left.getD i 0, t.outer.row i, t.inner.row i, t.binding.row i, t.ids.row i, value,
    t.funcs.getD i 0⟩

/-- The record of a node has its kind and its left operand. -/
lemma columns_of_record? {t : Tree α} {i : Nat} {x : Entry α} (h : t.record? i = some x) :
    t.kind? i = some x.kind ∧ t.left.getD i 0 = x.left := by
  obtain ⟨kind, hkind, h⟩ := Option.bind_eq_some_iff.1 h
  obtain ⟨value, -, h⟩ := Option.bind_eq_some_iff.1 h
  cases h
  exact ⟨hkind, rfl⟩

/-- The tables have no more entries than an offset of 32 bits can count. -/
structure TablesFit (t : Tree α) : Prop where
  outer : t.outer.data.size < 2 ^ 31
  inner : t.inner.data.size < 2 ^ 31
  binding : t.binding.data.size < 2 ^ 31
  ids : t.ids.data.size < 2 ^ 31

section OfEntries

variable {D : Nat} {dim : Int64} {es : List (Entry α)}

/-- There is a node for each entry. -/
lemma nodes_ofEntries : (ofEntries dim es).nodes = es.length := by
  rw [nodes, ofEntries_eq]
  simp

/-- Every array has an entry for each node. -/
lemma sizes_ofEntries (dim : Int64) (es : List (Entry α)) :
    (ofEntries dim es).left.size = es.length ∧ (ofEntries dim es).values.size = es.length ∧
      (ofEntries dim es).funcs.size = es.length ∧ (ofEntries dim es).offsets.size = es.length := by
  rw [ofEntries_eq]
  simp

/-- The rows of tables that fit cover them. -/
lemma covers_ofEntries (hne : es ≠ []) (hfit : (ofEntries dim es).TablesFit) :
    (ofEntries dim es).outer.Covers es.length ∧ (ofEntries dim es).inner.Covers es.length ∧
      (ofEntries dim es).binding.Covers es.length ∧ (ofEntries dim es).ids.Covers es.length := by
  have hrows : ∀ {β : Type} {row : Entry α → List β}, (es.map row).flatten.length < 2 ^ 31 →
      (Rows.ofList (es.map row)).Covers es.length := by
    intro β row hsmall
    simpa using Rows.covers_ofList (by simpa using hne) hsmall
  obtain ⟨houter, hinner, hbinding, hids⟩ := hfit
  rw [ofEntries_eq, Rows.data_ofList, List.size_toArray] at houter hinner hbinding hids
  rw [ofEntries_eq]
  exact ⟨hrows houter, hrows hinner, hrows hbinding, hrows hids⟩

/-- A tree whose tables fit gives back the entries it was made of. -/
theorem holds_ofEntries (hranks : ∀ x ∈ es, x.outer.length ≤ Index.capacity)
    (hfit : (ofEntries (Int64.ofNat D) es).TablesFit) : (ofEntries (Int64.ofNat D) es).Holds D es := by
  obtain ⟨houter, -, hbinding, hids⟩ := hfit
  rw [ofEntries_eq, Rows.data_ofList, List.size_toArray] at houter hbinding hids
  constructor
  · rw [ofEntries_eq]
  · exact nodes_ofEntries
  · intro i x hx
    rw [kind?, tag, ofEntries_eq, ← ofCode?_code x.kind]
    simp [Array.getD_eq_getD_getElem?, hx]
  · intro i x hx
    rw [ofEntries_eq]
    simp [Array.getD_eq_getD_getElem?, hx]
  · intro i x hx
    rw [ofEntries_eq]
    exact Rows.row_ofList houter (by simp [hx])
  · intro i x hx
    rw [ofEntries_eq]
    exact Rows.row_ofList hbinding (by simp [hx])
  · intro i x hx
    rw [ofEntries_eq]
    exact Rows.row_ofList hids (by simp [hx])
  · intro i x z hx
    rw [ofEntries_eq]
    simp [Array.getD_eq_getD_getElem?, hx]
  · intro i x hx
    rw [ofEntries_eq]
    simp [Array.getD_eq_getD_getElem?, hx]
  · intro i x hx
    have hi : i < es.length := (List.getElem?_eq_some_iff.1 hx).1
    -- The windows start one after the other, at the slots that the entries before take.
    have hword : depthWord (Int64.ofNat D) (es.take i)
        = Int32.ofNat (below D (es.take i) (es.take i).length) :=
      depthWord_eq fun y hy => hranks y (List.mem_of_mem_take hy)
    rw [offset, ofEntries_eq]
    simp only [Array.getD_eq_getD_getElem?, List.getElem?_toArray, List.getElem?_map,
      List.getElem?_range hi, Option.map_some, Option.getD_some]
    rw [hword, below, below, List.take_length]
  · intro i x hx
    have hlen : (ofEntries (Int64.ofNat D) es).outer.length i = Int64.ofNat x.outer.length := by
      rw [ofEntries_eq]
      exact Rows.length_ofList houter (by simp [hx])
    have hx' := hranks x (List.mem_of_getElem? hx)
    have hdim : (ofEntries (Int64.ofNat D) es).dim = Int64.ofNat D := by rw [ofEntries_eq]
    rw [size, hlen, hdim]
    exact Layout.power_ofNat D (Nat.lt_of_le_of_lt hx' (by decide))
  · rw [ofEntries_eq]
    exact depthWord_eq hranks

/-- The inner labels of a node are those of its entry. -/
lemma row_inner_ofEntries (hfit : (ofEntries dim es).TablesFit) {i : Nat} {x : Entry α}
    (hx : es[i]? = some x) : (ofEntries dim es).inner.row i = x.inner := by
  have hinner := hfit.inner
  rw [ofEntries_eq, Rows.data_ofList, List.size_toArray] at hinner
  rw [ofEntries_eq]
  exact Rows.row_ofList hinner (by simp [hx])

/-- The columns of a tree whose tables fit have the entries it was made of. -/
theorem record?_ofEntries (hranks : ∀ x ∈ es, x.outer.length ≤ Index.capacity)
    (hfit : (ofEntries (Int64.ofNat D) es).TablesFit) {i : Nat} {x : Entry α} (hx : es[i]? = some x) :
    (ofEntries (Int64.ofNat D) es).record? i = some x := by
  have hholds := holds_ofEntries hranks hfit
  have hvalue : (ofEntries (Int64.ofNat D) es).values[i]? = some x.value := by
    rw [ofEntries_eq]
    simp [hx]
  rw [record?, hholds.kind hx, hvalue, hholds.left hx, hholds.outer hx, row_inner_ofEntries hfit hx,
    hholds.binding hx, hholds.ids hx, hholds.func hx]
  rfl

/-- The tables of a checked tree fit. -/
lemma Valid.tablesFit {t : Tree α} (h : t.Valid) : t.TablesFit :=
  ⟨h.outer.data_lt, h.inner.data_lt, h.binding.data_lt, h.ids.data_lt⟩

/-- A checked tree gives back the entries it was made of. -/
theorem holds_of_validate (h : (ofEntries dim es).validate = .ok ()) :
    ∃ D, 1 ≤ D ∧ D ≤ 16 ∧ (∀ x ∈ es, x.outer.length ≤ Index.capacity) ∧
      (ofEntries dim es).Holds D es := by
  have hvalid := valid_of_validate h
  have hfit := hvalid.tablesFit
  have hranks : ∀ x ∈ es, x.outer.length ≤ Index.capacity := by
    intro x hx
    obtain ⟨i, hi, hget⟩ := List.mem_iff_getElem.1 hx
    have hshort := hvalid.rank i (by rw [nodes_ofEntries]; exact hi)
    have hsmall := hfit.outer
    rw [ofEntries_eq] at hshort hsmall
    rw [Rows.data_ofList, List.size_toArray] at hsmall
    have hentry : (es.map fun x => x.outer)[i]? = some x.outer := by simp [hi, hget]
    rwa [Rows.row_ofList hsmall hentry] at hshort
  obtain ⟨hpos, hmax⟩ := hvalid.dim
  rw [show (ofEntries dim es).dim = dim by rw [ofEntries_eq]] at hpos hmax
  obtain ⟨D, hD, rfl⟩ := exists_eq_ofNat (show 0 ≤ dim.toInt from Int.le_trans (by decide) hpos)
  rw [show (Int64.ofNat D).toInt = D from Int64.toInt_ofNat_of_lt hD] at hpos hmax
  exact ⟨D, by omega, by omega, hranks, holds_ofEntries hranks hfit⟩

end OfEntries

/-- The windows of a tree are those of its entries. -/
lemma Holds.totalWindow_eq {t : Tree α} {D : Nat} {es : List (Entry α)} (h : t.Holds D es)
    (hD : D < 2 ^ 63) : t.totalWindow = below D es es.length := by
  have hrows : (List.range t.nodes).map (fun i => t.dim.toInt.toNat ^ (t.outer.row i).length)
      = es.map fun x => D ^ x.outer.length := by
    rw [h.nodes, h.dim, toNat_toInt_ofNat hD]
    apply List.ext_getElem
    · simp
    · intro i h₁ h₂
      have hi : i < es.length := by simpa using h₁
      simp [h.outer (List.getElem?_eq_getElem hi)]
  rw [totalWindow, hrows, below, List.take_length]

end Tree

end Indicial
