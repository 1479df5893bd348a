import Indicial.Engine.Constants
import Indicial.Proofs.Compile.References
import Indicial.Proofs.Model

/-!
# Binding constants by name

Constants whose tensors have different valid names, and whose directions are sorted, have different keys
(`KeyedByName.nodup_keys`). Taking a binding then leaves every constant with the value of the first
binding of its key so far (`bind_values`), so that the result depends on these values alone: not on
names that no constant has, on further bindings of a name, or on the order of different names
(`mapConstants_exact`). The programs that models are compiled to have such constants
(`build_keyedByName`).
-/

namespace Indicial

variable {α : Type}

namespace Catalog

/-- The constants are different references with sorted directions, to tensors of valid names that tell
them apart. -/
structure KeyedByName (c : Catalog) : Prop where
  distinct : (c.constants.map fun r => (r.tensor, r.component, r.derivs)).Nodup
  named : ∀ r ∈ c.constants, Model.isName r.tensor.name = true
  apart : ∀ r ∈ c.constants, ∀ r' ∈ c.constants,
    r.tensor.name = r'.tensor.name → r.tensor = r'.tensor
  sorted : ∀ r ∈ c.constants, r.derivs.sorted = r.derivs

variable {c : Catalog} {name : Bytes} {i : Nat}

/-- Constants with one key are one reference. -/
lemma KeyedByName.eq_of_key_eq (h : c.KeyedByName) {r r' : ScalarRef} (hr : r ∈ c.constants)
    (hr' : r' ∈ c.constants) (hkey : r.key = r'.key) : r = r' := by
  obtain ⟨hname, hcomponent, hperm⟩ := ScalarRef.keyOf_injective
    (Model.isName_bytes (h.named r hr)) (Model.isName_bytes (h.named r' hr')) hkey
  have hderivs : r.derivs = r'.derivs := by
    rw [← h.sorted r hr, ← h.sorted r' hr', Coord.sorted_eq_of_perm hperm]
  apply List.inj_on_of_nodup_map h.distinct hr hr'
  rw [h.apart r hr r' hr' hname, hcomponent, hderivs]

/-- Different constants have different keys. -/
lemma KeyedByName.nodup_keys (h : c.KeyedByName) : c.constantKeys.Nodup :=
  h.distinct.of_map.map_on fun _ hr _ hr' => h.eq_of_key_eq hr hr'

/-- A name that no constant has as its key finds none. -/
lemma constantOf?_eq_none_iff : c.constantOf? name = none ↔ name ∉ c.constantKeys := by
  rw [constantOf?, Option.map_eq_none_iff, List.find?_eq_none]
  constructor
  · intro h hname
    obtain ⟨i, hi⟩ := List.mem_iff_getElem?.1 hname
    exact h (name, i) (List.mem_reverse.2 (List.mem_zipIdx_iff_getElem?.2 hi)) (beq_self_eq_true name)
  · rintro h ⟨key, i⟩ hentry hkey
    have hi := List.mem_zipIdx_iff_getElem?.1 (List.mem_reverse.1 hentry)
    obtain rfl := eq_of_beq hkey
    exact h (List.mem_of_getElem? hi)

/-- A name stands for a constant of that key. -/
lemma getElem?_of_constantOf? (h : c.constantOf? name = some i) : c.constantKeys[i]? = some name := by
  obtain ⟨⟨key, j⟩, hentry, rfl⟩ := Option.map_eq_some_iff.1 h
  have hkey := List.find?_some hentry
  rw [← eq_of_beq hkey]
  exact List.mem_zipIdx_iff_getElem?.1 (List.mem_reverse.1 (List.mem_of_find?_eq_some hentry))

end Catalog

namespace Constants

variable {c : Catalog} {dim : Int64} {s : Progress α} {bs bs' : List (Binding α)} {b : Binding α}
  {name : Bytes}

/-- The value of the first binding of a name. -/
def firstValue? (bs : List (Binding α)) (name : Bytes) : Option α :=
  (bs.find? fun b => b.name == name).map (·.value)

/-- A name that is not bound has no value. -/
lemma firstValue?_eq_none_iff : firstValue? bs name = none ↔ name ∉ bs.map Binding.name := by
  rw [firstValue?, Option.map_eq_none_iff, List.find?_eq_none, List.mem_map]
  simp

/-- A name that is bound has a value. -/
lemma exists_firstValue? (h : name ∈ bs.map Binding.name) : ∃ x, firstValue? bs name = some x :=
  Option.ne_none_iff_exists'.1 fun hnone => firstValue?_eq_none_iff.1 hnone h

/-- Of two lists of bindings the first one counts. -/
lemma firstValue?_append :
    firstValue? (bs ++ bs') name = (firstValue? bs name).or (firstValue? bs' name) := by
  rw [firstValue?, List.find?_append]
  cases h : bs.find? fun b => b.name == name <;> simp [firstValue?, h]

/-- A binding of another name is passed over. -/
lemma firstValue?_cons_of_ne (h : b.name ≠ name) : firstValue? (b :: bs) name = firstValue? bs name := by
  simp [firstValue?, h]

/-- A binding in front gives its name its value. -/
lemma firstValue?_cons_self : firstValue? (b :: bs) b.name = some b.value := by
  simp [firstValue?]

/-- A binding of another name, or of one that is bound further in front, changes no first value. -/
lemma firstValue?_insert {front back : List (Binding α)}
    (h : b.name = name → name ∈ front.map Binding.name) :
    firstValue? (front ++ b :: back) name = firstValue? (front ++ back) name := by
  rw [firstValue?_append, firstValue?_append]
  by_cases hname : b.name = name
  · obtain ⟨x, hx⟩ := exists_firstValue? (h hname)
    rw [hx]
    rfl
  · rw [firstValue?_cons_of_ne hname]

/-- Only the bindings of a name count for its first value. -/
lemma firstValue?_filter :
    firstValue? (bs.filter fun b => b.name == name) name = firstValue? bs name := by
  simp only [firstValue?, List.find?_filter, and_self, Bool.decide_eq_true]

/-- Setting the entry of one key changes the function at that key. -/
lemma set_map_of_nodup {β : Type} {keys : List Bytes} {f g : Bytes → β} {i : Nat} {x : β}
    (hkeys : keys.Nodup) (hi : keys[i]? = some name) (hname : g name = x)
    (hother : ∀ key, key ≠ name → g key = f key) : (keys.map f).set i x = keys.map g := by
  have hlt := (List.getElem?_eq_some_iff.1 hi).1
  apply List.ext_getElem?
  intro j
  by_cases hij : i = j
  · subst hij
    rw [List.getElem?_set_self (by simpa using hlt), List.getElem?_map, hi, Option.map_some, hname]
  · rw [List.getElem?_set_ne hij, List.getElem?_map, List.getElem?_map]
    cases hj : keys[j]? with
    | none => rfl
    | some key =>
      have hkey : key ≠ name := by
        rintro rfl
        exact hij ((List.getElem?_inj hlt hkeys).1 (hi.trans hj.symm))
      rw [Option.map_some, Option.map_some, hother key hkey]

/-- One more binding gives a value to its constant if that has none, and changes no other. -/
lemma bind_values (hkeys : c.constantKeys.Nodup) (hs : s.values = c.constantKeys.map (firstValue? bs)) :
    (bind c dim s b).values = c.constantKeys.map (firstValue? (bs ++ [b])) := by
  have hother : ∀ key, key ≠ b.name → firstValue? (bs ++ [b]) key = firstValue? bs key := by
    intro key hkey
    rw [firstValue?_append, firstValue?_cons_of_ne hkey.symm]
    exact Option.or_none
  rw [bind]
  cases hid : c.constantOf? b.name with
  | none =>
    have hnew := Catalog.constantOf?_eq_none_iff.1 hid
    show s.values = _
    rw [hs]
    exact List.map_congr_left fun key hkey => (hother key (ne_of_mem_of_not_mem hkey hnew)).symm
  | some i =>
    have hi := Catalog.getElem?_of_constantOf? hid
    have hvalue : (s.values[i]?).getD none = firstValue? bs b.name := by
      rw [hs, List.getElem?_map, hi]
      rfl
    dsimp only
    rw [hvalue]
    cases hfirst : firstValue? bs b.name with
    | some kept =>
      show s.values = _
      rw [hs]
      refine List.map_congr_left fun key _ => ?_
      by_cases hkey : key = b.name
      · rw [hkey, firstValue?_append, hfirst]
        rfl
      · exact (hother key hkey).symm
    | none =>
      show s.values.set i (some b.value) = _
      rw [hs]
      refine set_map_of_nodup hkeys hi ?_ hother
      rw [firstValue?_append, hfirst, firstValue?_cons_self]
      rfl

/-- After all bindings every constant has the value of the first binding of its key. -/
lemma bindAll_values (hkeys : c.constantKeys.Nodup) (bs : List (Binding α)) :
    (bindAll c dim bs).values = c.constantKeys.map (firstValue? bs) := by
  induction bs using List.reverseRecOn with
  | nil =>
    rw [Catalog.constantKeys, List.map_map]
    rfl
  | append_singleton bs b ih =>
    rw [bindAll, List.foldl_append]
    exact bind_values hkeys ih

/-- A value is missing exactly if the name is not bound. -/
lemma isNone_firstValue? : (firstValue? bs name).isNone = decide (name ∉ bs.map Binding.name) := by
  rw [Bool.eq_iff_iff, Option.isNone_iff_eq_none, firstValue?_eq_none_iff, decide_eq_true_eq]

/-- The constants without a value are those whose keys are not bound. -/
lemma missing_firstValue? (c : Catalog) (bs : List (Binding α)) :
    missing c (c.constantKeys.map (firstValue? bs))
      = c.constantKeys.filter fun key => key ∉ bs.map Binding.name := by
  rw [missing, List.zip_map_right]
  induction c.constantKeys with
  | nil => rfl
  | cons key keys ih =>
    rw [List.filter_cons, ← ih, ← isNone_firstValue?]
    cases h : firstValue? bs key <;> simp [h]

/-- If all keys are bound, the values are found key by key. -/
lemma map_some_filterMap_firstValue? {keys : List Bytes} (h : keys ⊆ bs.map Binding.name) :
    (keys.filterMap (firstValue? bs)).map some = keys.map (firstValue? bs) := by
  induction keys with
  | nil => rfl
  | cons key keys ih =>
    obtain ⟨hkey, hkeys⟩ := List.cons_subset.1 h
    obtain ⟨x, hx⟩ := exists_firstValue? hkey
    rw [List.filterMap_cons_some hx, List.map_cons, List.map_cons, ih hkeys, hx]

end Constants

namespace Program

open Constants

variable {p : Program α} {c : Catalog} {bs bs' : List (Binding α)}

/-- The outcome is told by the keys without a binding and by the first values of keys. -/
lemma mapConstants_outcome (hcatalog : p.catalog = some c) (hkeys : c.constantKeys.Nodup) :
    (p.mapConstants bs).2 = match c.constantKeys.filter fun key => key ∉ bs.map Binding.name with
      | [] => .ok (c.constantKeys.filterMap (firstValue? bs))
      | keys => .error (.unbound keys) := by
  rw [mapConstants, hcatalog]
  dsimp only [Option.getD_some]
  rw [bindAll_values hkeys, missing_firstValue?, List.filterMap_map]
  rfl

/-- If all keys are bound, each constant gets its first value. -/
lemma mapConstants_of_bound (hcatalog : p.catalog = some c) (hkeys : c.constantKeys.Nodup)
    (hbound : c.constantKeys ⊆ bs.map Binding.name) :
    (p.mapConstants bs).2 = .ok (c.constantKeys.filterMap (firstValue? bs)) := by
  have hall : (c.constantKeys.filter fun key => key ∉ bs.map Binding.name) = [] := by
    rw [List.filter_eq_nil_iff]
    intro key hkey
    simpa using hbound hkey
  rw [mapConstants_outcome hcatalog hkeys, hall]

/-- If keys are unbound, the error lists them in the order of the table. -/
lemma mapConstants_of_unbound (hcatalog : p.catalog = some c) (hkeys : c.constantKeys.Nodup)
    (hbound : ¬c.constantKeys ⊆ bs.map Binding.name) : (p.mapConstants bs).2
      = .error (.unbound (c.constantKeys.filter fun key => key ∉ bs.map Binding.name)) := by
  rw [mapConstants_outcome hcatalog hkeys]
  cases hfilter : c.constantKeys.filter fun key => key ∉ bs.map Binding.name with
  | nil =>
    rw [List.filter_eq_nil_iff] at hfilter
    exact absurd (fun key hkey => by simpa using hfilter key hkey) hbound
  | cons key keys => rfl

/-- Bindings with the same first values of keys have one outcome. -/
lemma mapConstants_congr (hcatalog : p.catalog = some c) (hkeys : c.constantKeys.Nodup)
    (h : ∀ key ∈ c.constantKeys, firstValue? bs key = firstValue? bs' key) :
    (p.mapConstants bs).2 = (p.mapConstants bs').2 := by
  have hfilter : (c.constantKeys.filter fun key => key ∉ bs.map Binding.name)
      = c.constantKeys.filter fun key => key ∉ bs'.map Binding.name := by
    refine List.filter_congr fun key hkey => ?_
    rw [← isNone_firstValue?, ← isNone_firstValue?, h key hkey]
  rw [mapConstants_outcome hcatalog hkeys, mapConstants_outcome hcatalog hkeys, hfilter,
    List.filterMap_congr h]

end Program

/-! ### Compiled models -/

/-- References that are made into a catalog are different constants. -/
lemma Catalog.distinct_ofRefs (refs : List ScalarRef) :
    ((ofRefs refs).constants.map fun r => (r.tensor, r.component, r.derivs)).Nodup := by
  refine (nodup_table _).map_on fun r hr r' hr' hsame => ?_
  have hconstant := constant_of_mem_constants hr
  have hconstant' := constant_of_mem_constants hr'
  cases r
  cases r'
  simp_all

/-- A program that a built model is compiled to has constants that are told apart by their keys. -/
theorem Model.build_keyedByName {value : Literal → α} {options : Compile.Options} {id : Bytes}
    {src : Model.Source} {m : Model} {p : Program α} (hbuild : src.build = .ok m)
    (hcompile : m.system.compile value options id = .ok p) :
    ∃ c, p.catalog = some c ∧ c.KeyedByName := by
  obtain ⟨scope, hscope, hover⟩ := Model.build_over hbuild
  obtain ⟨sides, pending, c, h⟩ := m.system.compile_eq_ok hcompile
  have hsides := hover fun r => r.tensor ∈ scope.map (·.2) ∧ r.derivs.sorted = r.derivs
  have hrefs : ∀ r ∈ c.constants, r.tensor ∈ scope.map (·.2) ∧ r.derivs.sorted = r.derivs :=
    fun r hr => h.references_in (Expr.ComponentsIn.sorted _)
      (fun eq heq => (hsides eq heq).built.wellFormed) (fun eq heq => (hsides eq heq).reads)
      (List.mem_append_left _ hr)
  refine ⟨c, h.catalog, ?_, ?_, ?_, fun r hr => (hrefs r hr).2⟩
  · obtain ⟨refs, -, rfl⟩ := h.references
    exact Catalog.distinct_ofRefs _
  · exact fun r hr => hscope.isName_of_mem (hrefs r hr).1
  · exact fun r hr r' hr' => hscope.eq_of_name_eq (hrefs r hr).1 (hrefs r' hr').1

/-! ### Binding by name -/

namespace Program

open Constants

/-- Binding constants by name is exact where their keys are made of valid names that tell tensors apart
and of sorted directions, as in every program that a built model is compiled to. It succeeds exactly if
every key is bound, with the value of the first binding of each key, and otherwise it tells the keys
that are not bound. Names without a constant, further bindings of a name and the order of different
names do not matter. Keys themselves tell names, components and multisets of directions apart. -/
theorem mapConstants_exact {p : Program α} {c : Catalog} (hcatalog : p.catalog = some c)
    (hkeyed : c.KeyedByName) :
    (∀ bs : List (Binding α),
      ((∃ values, (p.mapConstants bs).2 = .ok values) ↔ c.constantKeys ⊆ bs.map Binding.name) ∧
      (∀ values, (p.mapConstants bs).2 = .ok values →
        values.map some = c.constantKeys.map (firstValue? bs)) ∧
      (¬c.constantKeys ⊆ bs.map Binding.name → (p.mapConstants bs).2
        = .error (.unbound (c.constantKeys.filter fun key => key ∉ bs.map Binding.name)))) ∧
    (∀ (front back : List (Binding α)) (b : Binding α),
      b.name ∉ c.constantKeys ∨ b.name ∈ front.map Binding.name →
      (p.mapConstants (front ++ b :: back)).2 = (p.mapConstants (front ++ back)).2) ∧
    (∀ bs bs' : List (Binding α),
      (∀ name, (bs.filter fun b => b.name == name) = bs'.filter fun b => b.name == name) →
      (p.mapConstants bs).2 = (p.mapConstants bs').2) ∧
    (∀ (name name' : Bytes) (component component' derivs derivs' : Coord),
      Model.isName name = true → Model.isName name' = true →
      (ScalarRef.keyOf name component derivs = ScalarRef.keyOf name' component' derivs' ↔
        name = name' ∧ component = component' ∧ derivs.values.Perm derivs'.values)) ∧
    ∀ (src : Model.Source) (m : Model) (value : Literal → α) (options : Compile.Options) (id : Bytes)
      (q : Program α), src.build = .ok m → m.system.compile value options id = .ok q →
      ∃ c, q.catalog = some c ∧ c.KeyedByName := by
  have hkeys := hkeyed.nodup_keys
  refine ⟨fun bs => ⟨⟨?_, ?_⟩, ?_, mapConstants_of_unbound hcatalog hkeys⟩, ?_, ?_, ?_, ?_⟩
  · rintro ⟨values, hvalues⟩
    by_contra hbound
    rw [mapConstants_of_unbound hcatalog hkeys hbound] at hvalues
    cases hvalues
  · exact fun hbound => ⟨_, mapConstants_of_bound hcatalog hkeys hbound⟩
  · intro values hvalues
    by_cases hbound : c.constantKeys ⊆ bs.map Binding.name
    · rw [mapConstants_of_bound hcatalog hkeys hbound] at hvalues
      cases hvalues
      exact map_some_filterMap_firstValue? hbound
    · rw [mapConstants_of_unbound hcatalog hkeys hbound] at hvalues
      cases hvalues
  · intro front back b hb
    refine mapConstants_congr hcatalog hkeys fun key hkey => firstValue?_insert ?_
    rintro rfl
    exact hb.resolve_left (not_not_intro hkey)
  · intro bs bs' hsame
    refine mapConstants_congr hcatalog hkeys fun key _ => ?_
    -- The first value of a key is that among the bindings of the key.
    rw [← firstValue?_filter, hsame key, firstValue?_filter]
  · intro name name' component component' derivs derivs' hname hname'
    constructor
    · exact ScalarRef.keyOf_injective (Model.isName_bytes hname) (Model.isName_bytes hname')
    · rintro ⟨rfl, rfl, hperm⟩
      exact ScalarRef.keyOf_congr hperm
  · exact fun src m value options id q => Model.build_keyedByName

/-- A scalar and a component of a matrix. -/
def conduction : Catalog where
  constants := [⟨⟨Bytes.ofString "kappa", 0, 0⟩, ⟨[]⟩, ⟨[]⟩, true⟩,
    ⟨⟨Bytes.ofString "c", 2, 1⟩, ⟨[0, 1]⟩, ⟨[]⟩, true⟩]
  scalars := []

/-- The two keys are different. -/
lemma conduction_keyedByName : conduction.KeyedByName where
  distinct := by decide
  named := by decide
  apart := by decide
  sorted := by simp [conduction, Coord.sorted]

/-- The keys are the name of the scalar, and name and component of the matrix. -/
lemma constantKeys_conduction :
    conduction.constantKeys = [Bytes.ofString "kappa", Bytes.ofString "c[0,1]"] := by
  decide

/-- The first value of a name is taken, and a key without a binding is told. -/
theorem mapConstants_exact_conduction : ∃ values : List Nat,
    (mapConstants ⟨[], [], 2, some conduction, [], []⟩
      [⟨Bytes.ofString "c[0,1]", 7⟩, ⟨Bytes.ofString "mu", 1⟩, ⟨Bytes.ofString "kappa", 5⟩,
        ⟨Bytes.ofString "kappa", 9⟩]).2 = .ok values ∧ values.map some = [some 5, some 7] ∧
    (mapConstants ⟨[], [], 2, some conduction, [], []⟩ [⟨Bytes.ofString "kappa", 5⟩]).2
      = .error (.unbound [Bytes.ofString "c[0,1]"]) := by
  obtain ⟨hbind, -⟩ := mapConstants_exact (p := ⟨[], [], 2, some conduction, [], []⟩) rfl
    conduction_keyedByName
  rw [constantKeys_conduction] at hbind
  obtain ⟨hok, hvalues, -⟩ := hbind [⟨Bytes.ofString "c[0,1]", 7⟩, ⟨Bytes.ofString "mu", 1⟩,
    ⟨Bytes.ofString "kappa", 5⟩, ⟨Bytes.ofString "kappa", 9⟩]
  obtain ⟨values, hmap⟩ := hok.2 (by decide)
  obtain ⟨-, -, herror⟩ := hbind [⟨Bytes.ofString "kappa", 5⟩]
  refine ⟨values, hmap, (hvalues values hmap).trans (by decide), ?_⟩
  rw [herror (by decide)]
  decide

end Program

end Indicial
