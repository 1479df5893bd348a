import Indicial.Proofs.Engine.Sink
import Indicial.Proofs.Plan.Run

/-!
# Kernels at work

A job is a kernel together with what is known of it: its plan computes the window of an expression,
and each root component has an output slot of its own. Run at the points of a frame, an engine whose
kernels are jobs writes, for every point and every slot, the component that owns the slot
(`Staffed.run`). What it writes depends on the point alone, not on the frame, its lanes or what
storage held before.
-/

namespace Indicial

open Indicial.Expr

variable {α : Type}

/-- What an evaluation reads at a point. -/
def Catalog.reading (c : Catalog) (field : Field α) (constants : Array α) (default : α)
    (point : Int64) : ScalarRef → α :=
  (⟨field, constants, point⟩ : Inputs α).readRef c default 0

/-- Each lane reads at its own point. -/
lemma readRef_eq_reading (c : Catalog) (inputs : Inputs α) (default : α) (lane : Nat) :
    inputs.readRef c default lane
      = c.reading inputs.field inputs.constants default (inputs.point + Int64.ofNat lane) := by
  funext r
  have hzero : inputs.point + Int64.ofNat lane + Int64.ofNat 0 = inputs.point + Int64.ofNat lane :=
    Int64.add_zero _
  simp only [Catalog.reading, Inputs.readRef, hzero]

/-- A kernel that computes an expression. There are `W` outputs, storage of `S` slots and `C`
constants. -/
structure Job (A : Arith α) (D : Nat) (w : Lowering α) (W S C : Nat) where
  expr : Expr
  tree : Tree α
  plan : Plan α
  targets : List Int32
  evaluates : plan.Evaluates A D w tree expr
  depth_le : tree.depth.toInt ≤ S
  length_targets : targets.length = D ^ expr.outer.length
  target_lt : ∀ t ∈ targets, 0 ≤ t.toInt ∧ t.toInt < W
  cover : ∀ inputs : Inputs α, inputs.constants.size = C → inputs.CoverTree tree

/-- As many points from `point` on. -/
def successive (n : Nat) (point : Int64) : List Int64 :=
  (List.range n).map fun l => point + Int64.ofNat l

/-- All outputs of some points. -/
def pointCells (W : Nat) (points : List Int64) : List (Nat × Int64) :=
  points.flatMap fun p => (List.range W).map fun slot => (slot, p)

/-- The cells of some points are all slots of each. -/
lemma mem_pointCells {W : Nat} {points : List Int64} {c : Nat × Int64} :
    c ∈ pointCells W points ↔ c.1 < W ∧ c.2 ∈ points := by
  obtain ⟨slot, p⟩ := c
  simp only [pointCells, List.mem_flatMap, List.mem_map, List.mem_range, Prod.mk.injEq]
  constructor
  · rintro ⟨p', hp', slot', hslot', rfl, rfl⟩
    exact ⟨hslot', hp'⟩
  · rintro ⟨hslot, hp⟩
    exact ⟨p, hp, slot, hslot, rfl, rfl⟩

/-- The order in which cells are written does not count. -/
lemma Sink.Written.congr_cells {W : Nat} {F : Int64 → Nat → α} {cells cells' : List (Nat × Int64)}
    {s s' : Sink α} (h : Written W F cells s s') (hc : ∀ c, c ∈ cells ↔ c ∈ cells') :
    Written W F cells' s s' :=
  ⟨h.layout, fun c hmem => h.valid c ((hc c).2 hmem), fun c hmem => h.hit c ((hc c).2 hmem),
    fun a ha => h.miss a fun c hmem => ha c ((hc c).1 hmem)⟩

section Output

variable {A : Arith α} {D W S C : Nat} {w : Lowering α}

/-- The owner of each slot that some jobs write. -/
def owners (jobs : List (Job A D w W S C)) : List (Int32 × Expr × Nat) :=
  jobs.flatMap fun j => j.targets.zipIdx.map fun entry => (entry.1, j.expr, entry.2)

/-- The number that some jobs write to a slot: the component that owns it. -/
def output (jobs : List (Job A D w W S C)) (read : ScalarRef → α) (slot : Nat) : α :=
  match (owners jobs).find? fun owner => owner.1.toInt.toNat == slot with
  | some (_, e, q) => e.window A D w read q
  | none => A.zero

/-- Of entries with different keys, the one with the key is found. -/
lemma find?_of_nodup {β γ : Type} [DecidableEq γ] {l : List β} {key : β → γ}
    (hnodup : (l.map key).Nodup) {b : β} (hb : b ∈ l) :
    l.find? (fun x => key x == key b) = some b := by
  induction l with
  | nil => cases hb
  | cons x l ih =>
    obtain ⟨hx, hl⟩ := List.nodup_cons.1 hnodup
    by_cases hkey : key x = key b
    · rcases List.mem_cons.1 hb with rfl | hmem
      · simp
      · exact absurd (hkey ▸ List.mem_map_of_mem hmem) hx
    · have hmem : b ∈ l := by
        rcases List.mem_cons.1 hb with rfl | hmem
        · exact absurd rfl hkey
        · exact hmem
      rw [List.find?_cons_of_neg (by simpa using hkey), ih hl hmem]

/-- The owners are listed by their targets. -/
lemma map_fst_owners (jobs : List (Job A D w W S C)) :
    (owners jobs).map (fun owner => owner.1) = jobs.flatMap fun j => j.targets := by
  rw [owners, List.map_flatMap]
  congr 1
  funext j
  rw [List.map_map]
  exact List.zipIdx_map_fst 0 j.targets

/-- Different slots have different owners, so a job's components are what is put out. -/
lemma output_eq {jobs : List (Job A D w W S C)}
    (hnodup : (jobs.flatMap fun j => j.targets).Nodup) {j : Job A D w W S C} (hj : j ∈ jobs)
    {q : Nat} {t : Int32} (ht : j.targets[q]? = some t) (read : ScalarRef → α) :
    output jobs read t.toInt.toNat = j.expr.window A D w read q := by
  have howner : (t, j.expr, q) ∈ owners jobs := by
    rw [owners, List.mem_flatMap]
    refine ⟨j, hj, List.mem_map.2 ⟨(t, q), ?_, rfl⟩⟩
    rwa [List.mem_zipIdx_iff_getElem?]
  have hpos : ∀ owner ∈ owners jobs, 0 ≤ owner.1.toInt := by
    intro owner hmem
    have hfst : owner.1 ∈ (owners jobs).map fun owner => owner.1 := List.mem_map_of_mem hmem
    rw [map_fst_owners, List.mem_flatMap] at hfst
    obtain ⟨j', -, ht'⟩ := hfst
    exact (j'.target_lt _ ht').1
  have hkeys : ((owners jobs).map fun owner => owner.1.toInt.toNat).Nodup := by
    have hmap : (owners jobs).map (fun owner => owner.1.toInt.toNat)
        = ((owners jobs).map fun owner => owner.1).map fun t => t.toInt.toNat := by
      rw [List.map_map]
      rfl
    rw [hmap]
    refine List.Nodup.map_on ?_ (by rw [map_fst_owners]; exact hnodup)
    intro a ha b hb hab
    obtain ⟨x, hx, rfl⟩ := List.mem_map.1 ha
    obtain ⟨y, hy, rfl⟩ := List.mem_map.1 hb
    have := hpos x hx
    have := hpos y hy
    exact Int32.toInt_inj.1 (by omega)
  rw [output, find?_of_nodup hkeys howner]

end Output

/-! ### A round of all kernels -/

/-- The cells of more points are more cells. -/
lemma pointCells_append (W : Nat) (points more : List Int64) :
    pointCells W (points ++ more) = pointCells W points ++ pointCells W more :=
  List.flatMap_append

/-- The cells of several lists of points follow one another. -/
lemma pointCells_flatMap {β : Type} (W : Nat) (l : List β) (points : β → List Int64) :
    pointCells W (l.flatMap points) = l.flatMap fun b => pointCells W (points b) :=
  List.flatMap_assoc

/-- The kernels of an engine are these jobs, and each of the `W` outputs belongs to just one. -/
structure Staffed {A : Arith α} {D W S C : Nat} {w : Lowering α} (e : Engine α)
    (jobs : List (Job A D w W S C)) : Prop where
  width : e.width = Int64.ofNat W
  catalog : e.catalog = w.catalog
  crew : (e.plans.zip e.program.kernels).map (fun entry => (entry.1, entry.2.targets))
    = jobs.map fun j => (j.plan, j.targets)
  nodup : (jobs.flatMap fun j => j.targets).Nodup
  full : ∀ slot < W, ∃ j ∈ jobs, ∃ t ∈ j.targets, t.toInt.toNat = slot
  storage : S < 2 ^ 63

section Round

variable {A : Arith α} {D W S C lanes : Nat} {w : Lowering α} {e : Engine α}
  {jobs : List (Job A D w W S C)} {field : Field α} {constants : Array α} {point : Int64}
  {f : Frame α} {s : Sink α} {v : Nat → Nat → α}

/-- What some jobs put out at a point. -/
def outputAt (jobs : List (Job A D w W S C)) (field : Field α) (constants : Array α) (p : Int64)
    (slot : Nat) : α :=
  output jobs (w.catalog.reading field constants A.zero p) slot

/-- The cells of one kernel at the points of a frame. -/
def targetCells (targets : List Int32) (points : List Int64) : List (Nat × Int64) :=
  targets.zipIdx.flatMap fun entry => points.map fun p => (entry.1.toInt.toNat, p)

/-- The cells of some targets are these slots of each point. -/
lemma mem_targetCells {targets : List Int32} {points : List Int64} {c : Nat × Int64} :
    c ∈ targetCells targets points ↔ (∃ t ∈ targets, t.toInt.toNat = c.1) ∧ c.2 ∈ points := by
  obtain ⟨slot, p⟩ := c
  simp only [targetCells, List.mem_flatMap, List.mem_map, Prod.mk.injEq]
  constructor
  · rintro ⟨entry, hentry, p', hp', rfl, rfl⟩
    exact ⟨⟨entry.1, List.fst_mem_of_mem_zipIdx hentry, rfl⟩, hp'⟩
  · rintro ⟨⟨t, ht, rfl⟩, hp⟩
    obtain ⟨q, hq⟩ := List.mem_iff_getElem?.1 ht
    exact ⟨(t, q), List.mem_zipIdx_iff_getElem?.2 hq, p, hp, rfl, rfl⟩

/-- Once a kernel has run, its components reach their slots in every lane. -/
lemma Job.scatter_written {j : Job A D w W S C} (hj : j ∈ jobs)
    (hnodup : (jobs.flatMap fun j => j.targets).Nodup) (hwidth : f.width = lanes)
    (hwindow : f.window j.plan.root j.plan.rootSize = .ok ())
    (hresult : ∀ q < D ^ j.expr.outer.length, ∀ l < lanes, j.plan.result f q l
      = .ok (j.expr.window A D w
          ((⟨field, constants, point⟩ : Inputs α).readRef w.catalog A.zero l) q))
    (hroom : ∀ p ∈ successive lanes point, s.Holds W p) :
    ∃ s', Engine.scatter j.plan j.targets f point s = .ok s' ∧
      Sink.Written W (outputAt jobs field constants) (targetCells j.targets (successive lanes point))
        s s' := by
  -- Two nested loops, over the components and over the lanes: one cell is written after the other,
  -- and no cell twice, as the targets are apart.
  have hrow : ∀ entry ∈ j.targets.zipIdx, ∀ y : Sink α, True → s.SameLayout y →
      ∃ y', (List.range f.width).foldlM (fun s l => do
          let x ← j.plan.result f entry.2 l
          s.put entry.1 (point + Int64.ofNat l) x) y = .ok y' ∧ True ∧
        Sink.Written W (outputAt jobs field constants)
          ((successive lanes point).map fun p => (entry.1.toInt.toNat, p)) y y' := by
    intro entry hentry y _ hlayout
    obtain ⟨t, q⟩ := entry
    have hq : j.targets[q]? = some t := List.mem_zipIdx_iff_getElem?.1 hentry
    have hqlt : q < D ^ j.expr.outer.length := by
      rw [← j.length_targets]
      exact (List.getElem?_eq_some_iff.1 hq).1
    obtain ⟨htpos, htlt⟩ := j.target_lt t (List.mem_of_getElem? hq)
    have hcell : ∀ l ∈ List.range f.width, ∀ z : Sink α, True → y.SameLayout z →
        ∃ z', (do
            let x ← j.plan.result f q l
            z.put t (point + Int64.ofNat l) x) = .ok z' ∧ True ∧
          Sink.Written W (outputAt jobs field constants) [(t.toInt.toNat, point + Int64.ofNat l)]
            z z' := by
      intro l hl z _ hz
      rw [List.mem_range, hwidth] at hl
      have hholds : z.Holds W (point + Int64.ofNat l) := by
        rw [hz.holds_eq, hlayout.holds_eq]
        exact hroom _ (List.mem_map_of_mem (List.mem_range.2 hl))
      have hvalue : outputAt jobs field constants (point + Int64.ofNat l) t.toInt.toNat
          = j.expr.window A D w
            ((⟨field, constants, point⟩ : Inputs α).readRef w.catalog A.zero l) q := by
        rw [outputAt, output_eq hnodup hj hq, readRef_eq_reading]
      obtain ⟨z', hput, hz'⟩ := Sink.Written.of_put (F := outputAt jobs field constants) hholds
        (show t.toInt.toNat < W by omega) (by omega : t.toInt = t.toInt.toNat)
      refine ⟨z', ?_, trivial, hz'⟩
      rw [hresult q hqlt l hl, ok_bind, ← hvalue, hput]
    obtain ⟨y', hrun, -, hwritten⟩ := Sink.foldlM_written (fun s => s) trivial hcell
    refine ⟨y', hrun, trivial, ?_⟩
    rw [hwidth, ← List.map_eq_flatMap] at hwritten
    rwa [successive, List.map_map]
  obtain ⟨s', hrun, -, hwritten⟩ := Sink.foldlM_written (fun s => s) trivial hrow
  exact ⟨s', by rw [Engine.scatter, hwindow, ok_bind, hrun], hwritten⟩

/-- Every entry of the engine is a job. -/
lemma Staffed.exists_job (h : Staffed e jobs) {entry : Plan α × Kernel α}
    (hentry : entry ∈ e.plans.zip e.program.kernels) :
    ∃ j ∈ jobs, j.plan = entry.1 ∧ j.targets = entry.2.targets := by
  have hmem : (entry.1, entry.2.targets) ∈ jobs.map fun j => (j.plan, j.targets) := by
    rw [← h.crew]
    exact List.mem_map.2 ⟨entry, hentry, rfl⟩
  obtain ⟨j, hj, heq⟩ := List.mem_map.1 hmem
  exact ⟨j, hj, Prod.mk.inj heq⟩

/-- Every job is an entry of the engine. -/
lemma Staffed.exists_entry (h : Staffed e jobs) {j : Job A D w W S C} (hj : j ∈ jobs) :
    ∃ entry ∈ e.plans.zip e.program.kernels, entry.1 = j.plan ∧ entry.2.targets = j.targets := by
  have hmem : (j.plan, j.targets) ∈ (e.plans.zip e.program.kernels).map
      fun entry => (entry.1, entry.2.targets) := by
    rw [h.crew]
    exact List.mem_map.2 ⟨j, hj, rfl⟩
  obtain ⟨entry, hentry, heq⟩ := List.mem_map.1 hmem
  exact ⟨entry, hentry, Prod.mk.inj heq⟩

/-- All kernels, one after the other, write all outputs of the points of a frame. -/
theorem Staffed.run (h : Staffed e jobs) (field : Field α) (hconstants : constants.size = C)
    (hf : ∃ v, f.Shows lanes S v) (hroom : ∀ p ∈ successive lanes point, s.Holds W p) :
    ∃ f' s', e.run A field constants point f s = .ok (f', s') ∧ (∃ v, f'.Shows lanes S v) ∧
      Sink.Written W (outputAt jobs field constants) (pointCells W (successive lanes point)) s s' := by
  have hstep : ∀ entry ∈ e.plans.zip e.program.kernels, ∀ y : Frame α × Sink α,
      (∃ v, y.1.Shows lanes S v) → s.SameLayout y.2 →
      ∃ y', (do
          let f ← entry.1.run A ⟨field, constants, point⟩ y.1
          let s ← Engine.scatter entry.1 entry.2.targets f point y.2
          return (f, s)) = .ok y' ∧ (∃ v, y'.1.Shows lanes S v) ∧
        Sink.Written W (outputAt jobs field constants)
          (targetCells entry.2.targets (successive lanes point)) y.2 y'.2 := by
    rintro entry hentry ⟨g, y⟩ ⟨v, hg⟩ hlayout
    obtain ⟨j, hj, hplan, htargets⟩ := h.exists_job hentry
    obtain ⟨g', v', hrun, hg', hwindow, hresult⟩ := j.evaluates.run lanes S
      ⟨field, constants, point⟩ g v j.depth_le h.storage (j.cover _ hconstants) hg
    obtain ⟨y', hscatter, hwritten⟩ := j.scatter_written hj h.nodup hg'.width hwindow hresult
      (s := y) fun p hp => by
        rw [hlayout.holds_eq]
        exact hroom p hp
    refine ⟨(g', y'), ?_, ⟨v', hg'⟩, ?_⟩
    · rw [← hplan, ← htargets, hrun, ok_bind, hscatter, ok_bind, pure_eq_ok]
    · rw [← htargets]
      exact hwritten
  obtain ⟨⟨f', s'⟩, hrun, hf', hwritten⟩ :=
    Sink.foldlM_written (x := (f, s)) (fun y => y.2) hf hstep
  refine ⟨f', s', hrun, hf', hwritten.congr_cells fun c => ?_⟩
  rw [mem_pointCells, List.mem_flatMap]
  constructor
  · rintro ⟨entry, hentry, hc⟩
    obtain ⟨j, -, -, htargets⟩ := h.exists_job hentry
    obtain ⟨⟨t, ht, hslot⟩, hp⟩ := mem_targetCells.1 hc
    have hlt := j.target_lt t (htargets.symm ▸ ht)
    exact ⟨by omega, hp⟩
  · rintro ⟨hslot, hp⟩
    obtain ⟨j, hj, t, ht, heq⟩ := h.full c.1 hslot
    obtain ⟨entry, hentry, -, htargets⟩ := h.exists_entry hj
    exact ⟨entry, hentry, mem_targetCells.2 ⟨⟨t, by rwa [htargets], heq⟩, hp⟩⟩

/-- Frame after frame. -/
theorem Staffed.runAll (h : Staffed e jobs) (field : Field α) (hconstants : constants.size = C)
    (points : List Int64) (hf : ∃ v, f.Shows lanes S v)
    (hroom : ∀ p ∈ points.flatMap (successive lanes), s.Holds W p) :
    ∃ f' s', e.runAll A field constants points f s = .ok (f', s') ∧ (∃ v, f'.Shows lanes S v) ∧
      Sink.Written W (outputAt jobs field constants)
        (pointCells W (points.flatMap (successive lanes))) s s' := by
  have hstep : ∀ p ∈ points, ∀ y : Frame α × Sink α, (∃ v, y.1.Shows lanes S v) →
      s.SameLayout y.2 →
      ∃ y', e.run A field constants p y.1 y.2 = .ok y' ∧ (∃ v, y'.1.Shows lanes S v) ∧
        Sink.Written W (outputAt jobs field constants) (pointCells W (successive lanes p))
          y.2 y'.2 := by
    rintro p hp ⟨g, y⟩ hg hlayout
    have hroom' : ∀ p' ∈ successive lanes p, y.Holds W p' := by
      intro p' hp'
      rw [hlayout.holds_eq]
      exact hroom p' (List.mem_flatMap.2 ⟨p, hp, hp'⟩)
    obtain ⟨g', y', hrun, hg', hwritten⟩ := h.run field hconstants hg hroom'
    exact ⟨(g', y'), hrun, hg', hwritten⟩
  obtain ⟨⟨f', s'⟩, hrun, hf', hwritten⟩ :=
    Sink.foldlM_written (x := (f, s)) (fun y => y.2) hf hstep
  rw [pointCells_flatMap]
  exact ⟨f', s', hrun, hf', hwritten⟩

end Round

end Indicial
