import Indicial.Proofs.Engine.Span
import Indicial.Proofs.Plan.Size

/-!
# Ranges of points, action by action

While a range is evaluated, most of the work happens in the arena, which nobody else sees; now and then
a number of a finished window is written to the output. `Engine.actions` lists what is done, in order:
computing a kernel in one of the frames of the arena, or writing one number. Doing all of it without
interruption is evaluating the range (`foldlM_actions`).

What an action finds in the arena does not depend on the output. So the actions of a staffed engine
proceed whatever happens to the output in between, and each of them writes what belongs in its place
(`Staffed.actions_proceed`).
-/

namespace Indicial

variable {α : Type}

/-! ### Actions -/

/-- One of the two frames of an arena. -/
inductive Arena.Part where
  | point | batch
deriving DecidableEq

namespace Arena

/-- The number of points that a frame takes at once. -/
def Part.lanes : Part → Nat
  | .point => 1
  | .batch => 4

/-- The frame. -/
def get (a : Arena α) : Part → Frame α
  | .point => a.point
  | .batch => a.batch

/-- The arena with the frame replaced. -/
def set (a : Arena α) (f : Frame α) : Part → Arena α
  | .point => ⟨f, a.batch⟩
  | .batch => ⟨a.point, f⟩

/-- A frame that was put into an arena is its frame. -/
@[simp] lemma get_set (a : Arena α) (f : Frame α) (part : Part) : (a.set f part).get part = f := by
  cases part <;> rfl

/-- Of two frames that are put in the same place, the second one counts. -/
@[simp] lemma set_set (a : Arena α) (f g : Frame α) (part : Part) :
    (a.set f part).set g part = a.set g part := by
  cases part <;> rfl

/-- Putting back the frame that is there changes nothing. -/
@[simp] lemma set_get (a : Arena α) (part : Part) : a.set (a.get part) part = a := by
  cases part <;> rfl

end Arena

/-- What is done in one go: nothing of it can be seen half done. -/
inductive Action (α : Type) where
  /-- Computes a kernel for the points from `point` on. -/
  | compute (part : Arena.Part) (plan : Plan α) (point : Int64)
  /-- Writes a component of a computed kernel in a lane to an output of a point. -/
  | write (part : Arena.Part) (plan : Plan α) (component lane : Nat) (slot : Int32) (point : Int64)

namespace Action

/-- Does the action. -/
def exec (A : Arith α) (field : Field α) (constants : Array α) :
    Arena α × Sink α → Action α → Except Fault (Arena α × Sink α)
  | (a, s), compute part plan point => do
    let f ← plan.run A ⟨field, constants, point⟩ (a.get part)
    f.window plan.root plan.rootSize
    return (a.set f part, s)
  | (a, s), write part plan component lane slot point => do
    let x ← plan.result (a.get part) component lane
    let s ← s.put slot point x
    return (a, s)

/-- The output that is written. -/
def cell? : Action α → Option (Int32 × Int64)
  | compute .. => none
  | write _ _ _ _ slot point => some (slot, point)

end Action

namespace Engine

/-- Writing the components of a computed kernel in all lanes. -/
def writes (part : Arena.Part) (plan : Plan α) (targets : List Int32) (point : Int64) :
    List (Action α) :=
  targets.zipIdx.flatMap fun entry => (List.range part.lanes).flatMap fun l =>
    [.write part plan entry.2 l entry.1 (point + Int64.ofNat l)]

/-- Evaluating every kernel for the points of a frame. -/
def round (e : Engine α) (part : Arena.Part) (point : Int64) : List (Action α) :=
  (e.plans.zip e.program.kernels).flatMap fun entry =>
    .compute part entry.1 point :: writes part entry.1 entry.2.targets point

/-- Evaluating the points from `start` up to `stop`. -/
def actions (e : Engine α) (start stop align : Int64) : List (Action α) :=
  let (first, last) := body start stop align
  (pointsFrom start first 1).flatMap (e.round .point)
    ++ (pointsFrom first last Layout.lanes).flatMap (e.round .batch)
    ++ (pointsFrom last stop 1).flatMap (e.round .point)

section Sequence

variable {A : Arith α} {e : Engine α} {field : Field α} {constants : Array α} {a : Arena α}
  {s : Sink α} {part : Arena.Part}

/-- The writes of a kernel together are what scattering its results does. -/
lemma foldlM_writes (A : Arith α) (field : Field α) (constants : Array α) (s : Sink α)
    (plan : Plan α) (targets : List Int32) (point : Int64)
    (hlanes : (a.get part).width = part.lanes)
    (hwindow : (a.get part).window plan.root plan.rootSize = .ok ()) :
    (writes part plan targets point).foldlM (Action.exec A field constants) (a, s)
      = (fun s => (a, s)) <$> scatter plan targets (a.get part) point s := by
  rw [writes, scatter, hwindow, ok_bind, hlanes]
  refine foldlM_flatMap_eq (fun s => (a, s)) (fun _ => True) trivial
    (fun _ _ _ _ _ => trivial) fun entry s _ => ?_
  refine foldlM_flatMap_eq (fun s => (a, s)) (fun _ => True) trivial
    (fun _ _ _ _ _ => trivial) fun l s _ => ?_
  rw [List.foldlM_cons, Action.exec]
  cases plan.result (a.get part) entry.2 l with
  | error f => rfl
  | ok x =>
    rw [ok_bind, ok_bind]
    cases s.put entry.1 (point + Int64.ofNat l) x with
    | error f => rfl
    | ok s => rfl

/-- One kernel, as an evaluation does it. -/
lemma kernel_width {plan : Plan α} {targets : List Int32} {point : Int64} {x x' : Frame α × Sink α}
    (h : (do
      let f ← plan.run A ⟨field, constants, point⟩ x.1
      let s ← scatter plan targets f point x.2
      return (f, s)) = Except.ok x') : x'.1.width = x.1.width := by
  obtain ⟨f, hrun, h⟩ := bind_eq_ok_iff.1 h
  obtain ⟨s, -, h⟩ := bind_eq_ok_iff.1 h
  cases h
  exact (Plan.sameSize_run hrun).width

/-- Running all kernels at a point keeps the number of lanes. -/
lemma run_width {point : Int64} {x x' : Frame α × Sink α}
    (h : e.run A field constants point x.1 x.2 = .ok x') : x'.1.width = x.1.width :=
  foldlM_preserves (P := fun y => y.1.width = x.1.width)
    (fun _ _ _ _ hy hstep => (kernel_width hstep).trans hy) rfl h

/-- Running all kernels at several points keeps the number of lanes. -/
lemma runAll_width {points : List Int64} {f : Frame α} {x : Frame α × Sink α}
    (h : e.runAll A field constants points f s = .ok x) : x.1.width = f.width :=
  foldlM_preserves (P := fun y => y.1.width = f.width)
    (fun _ _ _ _ hy hstep => (run_width hstep).trans hy) rfl h

/-- The actions of a round are a run of all kernels at a point. -/
lemma foldlM_round (e : Engine α) (point : Int64) {x : Frame α × Sink α}
    (hx : x.1.width = part.lanes) :
    (e.round part point).foldlM (Action.exec A field constants) (a.set x.1 part, x.2)
      = (fun x => (a.set x.1 part, x.2)) <$> e.run A field constants point x.1 x.2 := by
  rw [round, run]
  refine foldlM_flatMap_eq (fun x : Frame α × Sink α => (a.set x.1 part, x.2))
    (fun x => x.1.width = part.lanes) hx (fun _ _ _ hx h => (kernel_width h).trans hx) ?_
  rintro ⟨plan, k⟩ ⟨f, s⟩ hf
  rw [List.foldlM_cons, Action.exec, Arena.get_set]
  simp only
  cases hrun : plan.run A ⟨field, constants, point⟩ f with
  | error g => rfl
  | ok f' =>
    rw [ok_bind, ok_bind]
    cases hwindow : f'.window plan.root plan.rootSize with
    | error g =>
      rw [scatter, hwindow]
      rfl
    | ok u =>
      have hget : (a.set f' part).get part = f' := a.get_set f' part
      have hlanes : f'.width = part.lanes := (Plan.sameSize_run hrun).width.trans hf
      rw [ok_bind, Arena.set_set, pure_eq_ok, ok_bind, foldlM_writes A field constants s plan
        k.targets point (by rw [hget, hlanes]) (by rw [hget, hwindow]), hget]
      cases scatter plan k.targets f' point s with
      | error g => rfl
      | ok s => rfl

/-- The actions of several rounds are a run of all kernels at these points. -/
lemma foldlM_rounds (e : Engine α) (part : Arena.Part) (points : List Int64) (s : Sink α)
    (ha : (a.get part).width = part.lanes) :
    (points.flatMap (e.round part)).foldlM (Action.exec A field constants) (a, s)
      = (fun x => (a.set x.1 part, x.2)) <$> e.runAll A field constants points (a.get part) s := by
  have hrounds := foldlM_flatMap_eq (l := points) (x := (a.get part, s))
    (f := Action.exec A field constants) (g := fun x point => e.run A field constants point x.1 x.2)
    (fun x : Frame α × Sink α => (a.set x.1 part, x.2)) (fun x => x.1.width = part.lanes) ha
    (fun point x x' hx h => (run_width h).trans hx) fun point x hx => foldlM_round e point hx
  rwa [Arena.set_get] at hrounds

/-- Done in sequence, the actions are the evaluation of the range. -/
theorem foldlM_actions (e : Engine α) (start stop align : Int64) (s : Sink α)
    (hpoint : a.point.width = 1) (hbatch : a.batch.width = 4) :
    (e.actions start stop align).foldlM (Action.exec A field constants) (a, s)
      = (fun r => (r.1, r.2.1)) <$> e.span A field constants start stop align a s := by
  rw [actions, span]
  simp only
  generalize (body start stop align).1 = first
  generalize (body start stop align).2 = last
  rw [List.foldlM_append, List.foldlM_append, foldlM_rounds e .point _ s hpoint, Arena.get]
  cases hfirst : e.runAll A field constants (pointsFrom start first 1) a.point s with
  | error f => rfl
  | ok x =>
    obtain ⟨f, s⟩ := x
    rw [map_ok, ok_bind, ok_bind, foldlM_rounds (a := a.set f .point) e .batch _ s hbatch,
      Arena.set, Arena.get]
    simp only
    cases e.runAll A field constants (pointsFrom first last Layout.lanes) a.batch s with
    | error g => rfl
    | ok x =>
      obtain ⟨g, s⟩ := x
      have hlanes : f.width = 1 := (runAll_width hfirst).trans hpoint
      rw [map_ok, ok_bind, ok_bind, Arena.set,
        foldlM_rounds (a := ⟨f, g⟩) e .point _ s hlanes, Arena.get]
      simp only
      cases e.runAll A field constants (pointsFrom last stop 1) f s with
      | error h => rfl
      | ok x => rfl

end Sequence

end Engine

/-! ### Actions that proceed -/

/-- Beginning with a given arena, the actions proceed whatever happens to the output: what they write
is as `P` says, and so is, by `Q`, the arena that they leave. -/
inductive Action.Proceed (A : Arith α) (field : Field α) (constants : Array α)
    (P : Int32 → Int64 → α → Prop) (Q : Arena α → Prop) : List (Action α) → Arena α → Prop where
  | nil {a : Arena α} (ha : Q a) : Proceed A field constants P Q [] a
  | compute {part : Arena.Part} {plan : Plan α} {point : Int64} {rest : List (Action α)}
      {a : Arena α} {f : Frame α} (hrun : plan.run A ⟨field, constants, point⟩ (a.get part) = .ok f)
      (hwindow : f.window plan.root plan.rootSize = .ok ())
      (hrest : Proceed A field constants P Q rest (a.set f part)) :
      Proceed A field constants P Q (compute part plan point :: rest) a
  | write {part : Arena.Part} {plan : Plan α} {component lane : Nat} {slot : Int32} {point : Int64}
      {rest : List (Action α)} {a : Arena α} {x : α}
      (hresult : plan.result (a.get part) component lane = .ok x) (hx : P slot point x)
      (hrest : Proceed A field constants P Q rest a) :
      Proceed A field constants P Q (write part plan component lane slot point :: rest) a

namespace Action

variable {A : Arith α} {field : Field α} {constants : Array α} {P P' : Int32 → Int64 → α → Prop}
  {Q Q' : Arena α → Prop} {l m : List (Action α)} {a : Arena α}

/-- Weaker conditions are kept as well. -/
lemma Proceed.mono (h : Proceed A field constants P Q l a)
    (hP : ∀ slot point x, P slot point x → P' slot point x) (hQ : ∀ a, Q a → Q' a) :
    Proceed A field constants P' Q' l a := by
  induction h with
  | nil ha => exact .nil (hQ _ ha)
  | compute hrun hwindow _ ih => exact .compute hrun hwindow ih
  | write hresult hx _ ih => exact .write hresult (hP _ _ _ hx) ih

/-- Actions that can be carried out one after the other can be carried out together. -/
lemma Proceed.append (h : Proceed A field constants P Q l a)
    (hm : ∀ a, Q a → Proceed A field constants P Q' m a) :
    Proceed A field constants P Q' (l ++ m) a := by
  induction h with
  | nil ha => exact hm _ ha
  | compute hrun hwindow _ ih => exact .compute hrun hwindow ih
  | write hresult hx _ ih => exact .write hresult hx ih

/-- Lists of actions that keep a condition can be carried out one after the other under it. -/
lemma Proceed.flatMap {β : Type} {l : List β} {parts : β → List (Action α)} (ha : Q a)
    (h : ∀ b ∈ l, ∀ a, Q a → Proceed A field constants P Q (parts b) a) :
    Proceed A field constants P Q (l.flatMap parts) a := by
  induction l generalizing a with
  | nil => exact .nil ha
  | cons b l ih =>
    rw [List.forall_mem_cons] at h
    rw [List.flatMap_cons]
    exact (h.1 a ha).append fun a ha => ih ha h.2

end Action

section Staffed

open Indicial.Expr

variable {A : Arith α} {D W S C : Nat} {w : Lowering α} {e : Engine α}
  {jobs : List (Job A D w W S C)} {field : Field α} {constants : Array α} {a : Arena α}
  {start stop align : Int64}

/-- A number in its place: output `slot` of one of the points. -/
def Belongs (W : Nat) (F : Int64 → Nat → α) (points : List Int64) (slot : Int32) (point : Int64)
    (x : α) : Prop :=
  0 ≤ slot.toInt ∧ slot.toInt < W ∧ point ∈ points ∧ x = F point slot.toInt.toNat

/-- The frames of an arena that is ready show some contents. -/
lemma Arena.Ready.get (ha : a.Ready S) (part : Arena.Part) :
    ∃ v, (a.get part).Shows part.lanes S v := by
  cases part with
  | point => exact ha.point
  | batch => exact ha.batch

/-- An arena stays ready with another frame of that size. -/
lemma Arena.Ready.set {part : Arena.Part} (ha : a.Ready S) {f : Frame α} {v : Nat → Nat → α}
    (hf : f.Shows part.lanes S v) : (a.set f part).Ready S := by
  cases part with
  | point => exact ⟨⟨v, hf⟩, ha.batch⟩
  | batch => exact ⟨ha.point, ⟨v, hf⟩⟩

/-- A round proceeds, and it leaves an arena that is ready for the next one. -/
lemma Staffed.round_proceeds (h : Staffed e jobs) (hconstants : constants.size = C)
    (part : Arena.Part) (point : Int64) (ha : a.Ready S) :
    Action.Proceed A field constants
      (Belongs W (outputAt jobs field constants) (successive part.lanes point)) (·.Ready S)
      (e.round part point) a := by
  refine Action.Proceed.flatMap ha fun entry hentry a ha => ?_
  obtain ⟨j, hj, hplan, htargets⟩ := h.exists_job hentry
  obtain ⟨v, hv⟩ := ha.get part
  obtain ⟨f, v', hrun, hf, hwindow, hresult⟩ := j.evaluates.run part.lanes S
    ⟨field, constants, point⟩ (a.get part) v j.depth_le h.storage (j.cover _ hconstants) hv
  rw [← hplan, ← htargets]
  refine .compute hrun hwindow ?_
  -- The writes do not change the arena.
  refine Action.Proceed.mono (Q := fun b => b = a.set f part) (Action.Proceed.flatMap rfl ?_)
    (fun _ _ _ hx => hx) fun b hb => hb ▸ ha.set hf
  rintro ⟨t, q⟩ hentry b rfl
  refine Action.Proceed.flatMap rfl ?_
  rintro l hl b rfl
  have hq : j.targets[q]? = some t := List.mem_zipIdx_iff_getElem?.1 hentry
  have hqlt : q < D ^ j.expr.outer.length := by
    rw [← j.length_targets]
    exact (List.getElem?_eq_some_iff.1 hq).1
  obtain ⟨hpos, hlt⟩ := j.target_lt t (List.mem_of_getElem? hq)
  refine .write ?_ ⟨hpos, hlt, List.mem_map_of_mem hl, rfl⟩ (.nil rfl)
  rw [Arena.get_set, hresult q hqlt l (List.mem_range.1 hl), outputAt, output_eq h.nodup hj hq,
    readRef_eq_reading]

/-- Rounds put the outputs of their points in place and leave the arena ready. -/
lemma Staffed.rounds_proceed (h : Staffed e jobs) (hconstants : constants.size = C)
    (part : Arena.Part) {points all : List Int64}
    (hpoints : ∀ p ∈ points.flatMap (successive part.lanes), p ∈ all) (ha : a.Ready S) :
    Action.Proceed A field constants (Belongs W (outputAt jobs field constants) all) (·.Ready S)
      (points.flatMap (e.round part)) a := by
  refine Action.Proceed.flatMap ha fun point hpoint a ha => ?_
  refine (h.round_proceeds hconstants part point ha).mono ?_ fun _ ha => ha
  rintro slot p x ⟨hpos, hlt, hp, hx⟩
  exact ⟨hpos, hlt, hpoints p (List.mem_flatMap.2 ⟨point, hpoint, hp⟩), hx⟩

/-- The actions for a range proceed from any arena that is ready. -/
theorem Staffed.actions_proceed (h : Staffed e jobs) (field : Field α)
    (hconstants : constants.size = C) (start stop align : Int64) (ha : a.Ready S) :
    Action.Proceed A field constants
      (Belongs W (outputAt jobs field constants) (Engine.visited start stop align)) (·.Ready S)
      (e.actions start stop align) a := by
  rw [Engine.actions, Engine.visited]
  simp only
  generalize (Engine.body start stop align).1 = first
  generalize (Engine.body start stop align).2 = last
  refine ((h.rounds_proceed hconstants .point (fun p hp => ?_) ha).append fun a ha =>
    h.rounds_proceed hconstants .batch (fun p hp => ?_) ha).append fun a ha =>
    h.rounds_proceed hconstants .point (fun p hp => ?_) ha
  · exact List.mem_append_left _ (List.mem_append_left _ hp)
  · exact List.mem_append_left _ (List.mem_append_right _ hp)
  · exact List.mem_append_right _ hp

/-- What a kernel puts out is written for every point of a range. -/
lemma Engine.mem_cells {entry : Plan α × Kernel α} (hentry : entry ∈ e.plans.zip e.program.kernels)
    {t : Int32} (ht : t ∈ entry.2.targets) {p : Int64} (hp : p ∈ visited start stop align) :
    (t, p) ∈ (e.actions start stop align).filterMap Action.cell? := by
  have hround : ∀ (part : Arena.Part) (points : List Int64),
      p ∈ points.flatMap (successive part.lanes) →
      (t, p) ∈ (points.flatMap (e.round part)).filterMap Action.cell? := by
    intro part points hp
    obtain ⟨point, hpoint, hp⟩ := List.mem_flatMap.1 hp
    obtain ⟨l, hl, rfl⟩ := List.mem_map.1 hp
    obtain ⟨q, hq⟩ := List.mem_iff_getElem?.1 ht
    refine List.mem_filterMap.2 ⟨.write part entry.1 q l t (point + Int64.ofNat l), ?_, rfl⟩
    refine List.mem_flatMap.2 ⟨point, hpoint, List.mem_flatMap.2 ⟨entry, hentry, ?_⟩⟩
    refine List.mem_cons_of_mem _ (List.mem_flatMap.2 ⟨(t, q), ?_, ?_⟩)
    · exact List.mem_zipIdx_iff_getElem?.2 hq
    · exact List.mem_flatMap.2 ⟨l, hl, List.mem_singleton.2 rfl⟩
  rw [visited] at hp
  rw [actions]
  simp only [List.mem_append, List.filterMap_append] at hp ⊢
  rcases hp with (hp | hp) | hp
  · exact .inl (.inl (hround .point _ hp))
  · exact .inl (.inr (hround .batch _ hp))
  · exact .inr (hround .point _ hp)

/-- Every output of every point of a range is written. -/
lemma Staffed.mem_cells (h : Staffed e jobs) {slot : Nat} (hslot : slot < W) {p : Int64}
    (hp : p ∈ Engine.visited start stop align) :
    ∃ t : Int32, t.toInt.toNat = slot ∧
      (t, p) ∈ (e.actions start stop align).filterMap Action.cell? := by
  obtain ⟨j, hj, t, ht, heq⟩ := h.full slot hslot
  obtain ⟨entry, hentry, -, htargets⟩ := h.exists_entry hj
  rw [← htargets] at ht
  exact ⟨t, heq, Engine.mem_cells hentry ht hp⟩

end Staffed

end Indicial
