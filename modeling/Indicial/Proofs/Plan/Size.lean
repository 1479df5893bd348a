import Indicial.Plan.Run
import Indicial.Proofs.Outcome

/-!
# Runs keep the size of storage

A run writes to the storage of a frame, and nothing else changes there: the frame that comes out has as
many lanes and as much room as the one that goes in (`Plan.sameSize_run`).
-/

namespace Indicial

variable {α : Type} {A : Arith α}

namespace Frame

/-- As many lanes and as much room. -/
structure SameSize (f g : Frame α) : Prop where
  width : g.width = f.width
  stack : g.stack.size = f.stack.size

variable {f g : Frame α} {body : Nat → Frame α → Except Fault (Frame α)}

/-- A frame has its own size. -/
lemma SameSize.refl (f : Frame α) : f.SameSize f := ⟨rfl, rfl⟩

/-- Sizes are kept from frame to frame. -/
lemma SameSize.trans {k : Frame α} (h : f.SameSize g) (h' : g.SameSize k) : f.SameSize k :=
  ⟨h'.width.trans h.width, h'.stack.trans h.stack⟩

/-- A loop over steps that keep the size keeps it. -/
lemma sameSize_foldlM {β : Type} {l : List β} {step : Frame α → β → Except Fault (Frame α)}
    (hstep : ∀ f b g, step f b = .ok g → f.SameSize g) (h : l.foldlM step f = .ok g) :
    f.SameSize g :=
  foldlM_preserves (P := f.SameSize) (fun b _ k _ hk hrun => hk.trans (hstep k b _ hrun)) (.refl f) h

/-- Writing a slot keeps the size. -/
lemma sameSize_write {slot : Int} {lane : Nat} {x : α} (h : f.write slot lane x = .ok g) :
    f.SameSize g := by
  rw [write] at h
  split at h
  · cases h
  · cases h
    exact ⟨rfl, Array.size_setIfInBounds⟩

/-- Accumulating into a slot keeps the size. -/
lemma sameSize_accumulate {slot : Int} {lane : Nat} {x : α}
    (h : f.accumulate A slot lane x = .ok g) : f.SameSize g := by
  obtain ⟨y, -, h⟩ := bind_eq_ok_iff.1 h
  exact sameSize_write h

/-- Repeating what keeps the size keeps it. -/
lemma sameSize_repeatM {n : Nat} (hbody : ∀ k f g, body k f = .ok g → f.SameSize g)
    (h : repeatM n body f = .ok g) : f.SameSize g :=
  sameSize_foldlM (fun f k g => hbody k f g) h

/-- Doing in each lane what keeps the size keeps it. -/
lemma sameSize_eachLane (hbody : ∀ l f g, body l f = .ok g → f.SameSize g)
    (h : eachLane body f = .ok g) : f.SameSize g :=
  sameSize_repeatM hbody h

/-- Clearing a window keeps the size. -/
lemma sameSize_clear {offset size : Int64} (h : f.clear A offset size = .ok g) : f.SameSize g :=
  sameSize_repeatM (fun _ _ _ => sameSize_eachLane fun _ _ _ => sameSize_write) h

end Frame

namespace Plan

open Indicial.Frame

variable {f g : Frame α} {offset size a b : Int64} {own left right : IndexMap}

/-- An elementwise step keeps the size. -/
lemma sameSize_runElementwise {op : α → α → α}
    (h : runElementwise op offset size a b right f = .ok g) : f.SameSize g := by
  obtain ⟨⟨⟩, -, h⟩ := bind_eq_ok_iff.1 h
  obtain ⟨⟨⟩, -, h⟩ := bind_eq_ok_iff.1 h
  obtain ⟨⟨⟩, -, h⟩ := bind_eq_ok_iff.1 h
  refine sameSize_repeatM (fun k f g h => ?_) h
  obtain ⟨q, -, h⟩ := bind_eq_ok_iff.1 h
  refine sameSize_eachLane (fun l f g h => ?_) h
  obtain ⟨x, -, h⟩ := bind_eq_ok_iff.1 h
  obtain ⟨y, -, h⟩ := bind_eq_ok_iff.1 h
  exact sameSize_write h

/-- A contraction keeps the size. -/
lemma sameSize_runContraction {op : α → α → α}
    (h : runContraction A op offset size a b own left right f = .ok g) : f.SameSize g := by
  obtain ⟨⟨⟩, -, h⟩ := bind_eq_ok_iff.1 h
  obtain ⟨f', hclear, h⟩ := bind_eq_ok_iff.1 h
  refine (sameSize_clear hclear).trans (sameSize_repeatM (fun k f g h => ?_) h)
  obtain ⟨o, -, h⟩ := bind_eq_ok_iff.1 h
  obtain ⟨p, -, h⟩ := bind_eq_ok_iff.1 h
  obtain ⟨q, -, h⟩ := bind_eq_ok_iff.1 h
  refine sameSize_eachLane (fun l f g h => ?_) h
  obtain ⟨x, -, h⟩ := bind_eq_ok_iff.1 h
  obtain ⟨y, -, h⟩ := bind_eq_ok_iff.1 h
  exact sameSize_accumulate h

/-- A relabelling keeps the size. -/
lemma sameSize_runRelabel (h : runRelabel A offset size a own left f = .ok g) : f.SameSize g := by
  obtain ⟨⟨⟩, -, h⟩ := bind_eq_ok_iff.1 h
  obtain ⟨f', hclear, h⟩ := bind_eq_ok_iff.1 h
  refine (sameSize_clear hclear).trans (sameSize_repeatM (fun k f g h => ?_) h)
  obtain ⟨o, -, h⟩ := bind_eq_ok_iff.1 h
  obtain ⟨p, -, h⟩ := bind_eq_ok_iff.1 h
  refine sameSize_eachLane (fun l f g h => ?_) h
  obtain ⟨x, -, h⟩ := bind_eq_ok_iff.1 h
  exact sameSize_accumulate h

/-- Reading a leaf keeps the size. -/
lemma sameSize_runLeaf {value : Int32 → Nat → Except Fault α} {ids : List Int32}
    (h : runLeaf A value offset size ids own f = .ok g) : f.SameSize g := by
  obtain ⟨⟨⟩, -, h⟩ := bind_eq_ok_iff.1 h
  obtain ⟨f', hclear, h⟩ := bind_eq_ok_iff.1 h
  refine (sameSize_clear hclear).trans (sameSize_foldlM (fun f entry g h => ?_) h)
  obtain ⟨o, -, h⟩ := bind_eq_ok_iff.1 h
  refine sameSize_eachLane (fun l f g h => ?_) h
  obtain ⟨x, -, h⟩ := bind_eq_ok_iff.1 h
  exact sameSize_accumulate h

/-- No step changes the size of storage. -/
lemma Node.sameSize_run {inputs : Inputs α} {n : Node α} (h : n.run A inputs f = .ok g) :
    f.SameSize g := by
  rw [Node.run] at h
  cases hstep : n.step with
  | add | subtract =>
    rw [hstep] at h
    exact sameSize_runElementwise h
  | multiply | divide =>
    rw [hstep] at h
    exact sameSize_runContraction h
  | relabel =>
    rw [hstep] at h
    exact sameSize_runRelabel h
  | readScalars | readConstants =>
    rw [hstep] at h
    exact sameSize_runLeaf h
  | negate a =>
    rw [hstep] at h
    obtain ⟨⟨⟩, -, h⟩ := bind_eq_ok_iff.1 h
    obtain ⟨⟨⟩, -, h⟩ := bind_eq_ok_iff.1 h
    refine sameSize_repeatM (fun k f g h => sameSize_eachLane (fun l f g h => ?_) h) h
    obtain ⟨x, -, h⟩ := bind_eq_ok_iff.1 h
    exact sameSize_write h
  | power a b =>
    rw [hstep] at h
    obtain ⟨⟨⟩, -, h⟩ := bind_eq_ok_iff.1 h
    obtain ⟨⟨⟩, -, h⟩ := bind_eq_ok_iff.1 h
    obtain ⟨⟨⟩, -, h⟩ := bind_eq_ok_iff.1 h
    refine sameSize_eachLane (fun l f g h => ?_) h
    obtain ⟨x, -, h⟩ := bind_eq_ok_iff.1 h
    obtain ⟨y, -, h⟩ := bind_eq_ok_iff.1 h
    exact sameSize_write h
  | apply code a =>
    rw [hstep] at h
    obtain ⟨⟨⟩, -, h⟩ := bind_eq_ok_iff.1 h
    obtain ⟨⟨⟩, -, h⟩ := bind_eq_ok_iff.1 h
    refine sameSize_eachLane (fun l f g h => ?_) h
    obtain ⟨x, -, h⟩ := bind_eq_ok_iff.1 h
    obtain ⟨func, -, h⟩ := bind_eq_ok_iff.1 h
    exact sameSize_write h
  | fill values =>
    rw [hstep] at h
    obtain ⟨⟨⟩, -, h⟩ := bind_eq_ok_iff.1 h
    exact sameSize_foldlM (fun f entry g => sameSize_eachLane fun _ _ _ => sameSize_write) h

/-- Running a plan keeps the size. -/
lemma sameSize_run {plan : Plan α} {inputs : Inputs α} (h : plan.run A inputs f = .ok g) :
    f.SameSize g :=
  sameSize_foldlM (fun _ _ _ => Node.sameSize_run) h

end Plan

end Indicial
