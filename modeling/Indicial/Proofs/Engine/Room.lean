import Indicial.Proofs.Engine.Batch

/-!
# Room for the outputs of a range

Before a range of points is evaluated, the length of the output is compared with the number of values
up to the end of the range, the end times the width. The product is a word. As long as the true product
is a word too, the range is refused exactly when it is out of order or the output is shorter than that,
and then no write of an output misses (`range_check_exact_iff`). Past it the product wraps around and
the check lets outputs through that are too short, even an empty one (`wrapped_product_passes`).
-/

namespace Indicial

variable {α β γ : Type} {A : Arith α}

/-! ### Errors about the range -/

/-- The errors about a range of points and the length of its output. -/
inductive Error.AboutRange : Error → Prop where
  | range (start stop : Int64) : AboutRange (.shape (.range start stop))
  | outputRange (size : Nat) (points width : Int64) :
    AboutRange (.shape (.outputRange size points width))

/-- Something ends with an error about the range. -/
def Refused (r : Except Error β) : Prop := ∃ err, err.AboutRange ∧ r = .error err

section Refused

variable {x : Except Error β} {f : β → Except Error γ}

/-- A result is no refusal. -/
lemma not_refused_ok (b : β) : ¬Refused (.ok b) := by
  rintro ⟨err, -, h⟩
  cases h

/-- An error is a refusal if it is about the range. -/
lemma refused_error_iff {err : Error} : Refused (.error err : Except Error β) ↔ err.AboutRange := by
  constructor
  · rintro ⟨err', habout, h⟩
    cases h
    exact habout
  · exact fun habout => ⟨err, habout, rfl⟩

/-- A fault is no refusal. -/
lemma not_refused_liftM (x : Except Fault β) : ¬Refused (liftM x : Except Error β) := by
  cases x with
  | ok b => exact not_refused_ok b
  | error fault =>
    rintro ⟨err, habout, h⟩
    cases h
    cases habout

/-- A sequence is refused at its first step, or at its second after a result of the first. -/
lemma refused_bind_iff : Refused (x >>= f) ↔ Refused x ∨ ∃ b, x = .ok b ∧ Refused (f b) := by
  cases x with
  | error err => simp [refused_error_iff]
  | ok b => simp [not_refused_ok]

/-- Steps that do not refuse make a sequence that does not. -/
lemma not_refused_bind (hx : ¬Refused x) (hf : ∀ b, ¬Refused (f b)) : ¬Refused (x >>= f) := by
  rw [refused_bind_iff]
  rintro (h | ⟨b, -, h⟩)
  · exact hx h
  · exact hf b h

/-- A loop over steps that do not refuse does not. -/
lemma not_refused_foldlM {step : β → γ → Except Error β} (h : ∀ b c, ¬Refused (step b c))
    (l : List γ) (b : β) : ¬Refused (l.foldlM step b) := by
  induction l generalizing b with
  | nil => exact not_refused_ok b
  | cons c l ih => exact not_refused_bind (h b c) fun b' => ih b'

end Refused

namespace Engine

variable {e : Engine α} {p : Program α} {workers chunk start stop n : Int64} {a : Arena α}
  {field : Option (Field α)} {constants out : Array α}

/-- The check of the inputs says nothing about the range. -/
lemma not_refused_check : ¬Refused (e.check field constants) := by
  rw [check]
  split
  · rw [refused_error_iff]
    rintro ⟨⟩
  · split
    · rw [refused_error_iff]
      rintro ⟨⟩
    · exact not_refused_ok ()

/-- Only the check of the range is about the range. -/
lemma refused_bind_checkRange_iff {f : Unit → Except Error β} (hf : ∀ u, ¬Refused (f u)) :
    Refused (e.checkRange start stop out.size >>= f) ↔ e.checkRange start stop out.size ≠ .ok () := by
  rw [refused_bind_iff, checkRange]
  split
  · simp [refused_error_iff, Error.AboutRange.range]
  · split
    · simp [refused_error_iff, Error.AboutRange.outputRange]
    · simp [not_refused_ok, hf]

/-- An evaluation of a range is refused exactly if the check of the range fails. -/
lemma refused_evaluateRange_iff :
    Refused (e.evaluateRange A a start stop field constants out) ↔
      e.checkRange start stop out.size ≠ .ok () := by
  refine refused_bind_checkRange_iff fun _ => not_refused_bind not_refused_check fun _ => ?_
  exact not_refused_bind (not_refused_liftM _) fun _ => not_refused_ok _

/-- A parallel evaluation is refused exactly if the check of its range fails, even when it is cancelled.
-/
lemma refused_evaluateParallel_iff {cancelled : Bool} :
    Refused (e.evaluateParallel A a cancelled n field constants out) ↔
      e.checkRange 0 n out.size ≠ .ok () := by
  refine refused_bind_checkRange_iff fun _ => not_refused_bind not_refused_check fun _ => ?_
  dsimp only
  split
  · exact not_refused_ok _
  · split
    · rw [throw_eq_error, error_bind, refused_error_iff]
      rintro ⟨⟩
    · refine not_refused_bind (not_refused_foldlM (fun _ _ => ?_) _ _) fun _ => not_refused_ok _
      exact not_refused_bind (not_refused_liftM _) fun _ => not_refused_ok _

/-! ### The check of the range -/

/-- The range is in order and the output holds the true number of values up to its end. -/
structure HasRoom (e : Engine α) (start stop : Int64) (size : Nat) : Prop where
  nonneg : 0 ≤ start.toInt
  ordered : start.toInt ≤ stop.toInt
  room : stop.toInt * e.width.toInt ≤ size

/-- The check takes ranges that are in order and end, after wrapping around, within the output. -/
lemma checkRange_eq_ok_iff {size : Nat} : e.checkRange start stop size = .ok () ↔
    0 ≤ start.toInt ∧ start.toInt ≤ stop.toInt ∧ (stop * e.width).toInt ≤ size := by
  rw [checkRange]
  split
  case isTrue h =>
    simp only [Bool.or_eq_true, decide_eq_true_eq, Int64.lt_iff_toInt_lt, Int64.toInt_zero] at h
    refine ⟨fun hok => ?_, fun hok => ?_⟩
    · cases hok
    · omega
  case isFalse h =>
    simp only [Bool.or_eq_true, decide_eq_true_eq, Int64.lt_iff_toInt_lt, Int64.toInt_zero] at h
    split
    case isTrue hshort =>
      refine ⟨fun hok => ?_, fun hok => ?_⟩
      · cases hok
      · omega
    case isFalse hlong =>
      refine ⟨fun _ => ?_, fun _ => rfl⟩
      omega

/-- An evaluation of the points from `start` up to `stop` refuses exactly the outputs without room. -/
def Exact (e : Engine α) (start stop : Int64) (evaluation : Array α → Except Error β) : Prop :=
  ∀ out : Array α, out.size < 2 ^ 63 → (Refused (evaluation out) ↔ ¬e.HasRoom start stop out.size)

/-- The number of values up to the end of a range in order is a word. -/
def ProductFits (e : Engine α) (start stop : Int64) : Prop :=
  0 ≤ start.toInt → start.toInt ≤ stop.toInt → stop.toInt * e.width.toInt < 2 ^ 63

/-- If products fit words, the check takes exactly the ranges with room. -/
lemma checkRange_eq_ok_iff_hasRoom (hwidth : 0 ≤ e.width.toInt) (hfits : e.ProductFits start stop)
    {size : Nat} : e.checkRange start stop size = .ok () ↔ e.HasRoom start stop size := by
  rw [checkRange_eq_ok_iff]
  constructor
  · rintro ⟨hstart, hstop, hsize⟩
    have hpos : 0 ≤ stop.toInt * e.width.toInt := Int.mul_nonneg (by omega) hwidth
    rw [toInt_mul_of_lt (by omega) (hfits hstart hstop)] at hsize
    exact ⟨hstart, hstop, hsize⟩
  · rintro ⟨hstart, hstop, hsize⟩
    have hpos : 0 ≤ stop.toInt * e.width.toInt := Int.mul_nonneg (by omega) hwidth
    rw [toInt_mul_of_lt (by omega) (hfits hstart hstop)]
    exact ⟨hstart, hstop, hsize⟩

/-- An evaluation that begins with the check is exact if and only if products do not wrap around. -/
lemma exact_iff (hwidth : 0 ≤ e.width.toInt) (x : α) {evaluation : Array α → Except Error β}
    (h : ∀ out, Refused (evaluation out) ↔ e.checkRange start stop out.size ≠ .ok ()) :
    e.Exact start stop evaluation ↔ e.ProductFits start stop := by
  constructor
  · intro hexact hstart hstop
    by_contra hlarge
    -- The shortest output that passes the check is shorter than the true product.
    have hword := (stop * e.width).toInt_lt
    have hout := hexact (Array.replicate (stop * e.width).toInt.toNat x)
      (by rw [Array.size_replicate]; omega)
    rw [h, Array.size_replicate, Ne, checkRange_eq_ok_iff, not_iff_not] at hout
    have hroom := (hout.1 ⟨hstart, hstop, Int.self_le_toNat _⟩).room
    omega
  · intro hfits out _
    rw [h, Ne, checkRange_eq_ok_iff_hasRoom hwidth hfits]

/-- With room for the range, every output of its points has a place. -/
lemma HasRoom.put (h : e.HasRoom start stop out.size) (hfits : e.ProductFits start stop)
    {point : Int64} {slot : Int32} (hlow : start.toInt ≤ point.toInt) (hhigh : point.toInt < stop.toInt)
    (hpos : 0 ≤ slot.toInt) (hslot : slot.toInt < e.width.toInt) (x : α) :
    ∃ i, ∃ hi : i < out.size, (i : Int) = point.toInt * e.width.toInt + slot.toInt ∧
      Sink.put (.flat out e.width 0) slot point x = .ok (.flat (out.set i x hi) e.width 0) := by
  have hword := hfits h.nonneg h.ordered
  have hstart := h.nonneg
  have hroom := h.room
  have hfirst : 0 ≤ point.toInt * e.width.toInt := Int.mul_nonneg (by omega) (by omega)
  have hrow : point.toInt * e.width.toInt + e.width.toInt ≤ stop.toInt * e.width.toInt :=
    calc point.toInt * e.width.toInt + e.width.toInt = (point.toInt + 1) * e.width.toInt := by ring
      _ ≤ stop.toInt * e.width.toInt := Int.mul_le_mul_of_nonneg_right (by omega) (by omega)
  have hplace : ((point - 0) * e.width + slot.toInt64).toInt
      = point.toInt * e.width.toInt + slot.toInt := by
    have hproduct : (point * e.width).toInt = point.toInt * e.width.toInt :=
      toInt_mul_of_lt (by omega) (by omega)
    rw [Int64.sub_zero, toInt_add_of_lt, hproduct, Int32.toInt_toInt64]
    all_goals
      rw [hproduct, Int32.toInt_toInt64]
      omega
  refine ⟨(point.toInt * e.width.toInt + slot.toInt).toNat, by omega, by omega, ?_⟩
  rw [Sink.put]
  simp only [hplace]
  rw [if_neg (by simp; omega), Array.setIfInBounds, dif_pos]

/-- Ranges are refused exactly if they are out of order or the output is too short for them, provided
that the number of values is a word and only then. Writes into outputs that are not refused do not
miss. -/
theorem range_check_exact_iff (hmake : make A p workers chunk = .ok e) (a : Arena α)
    (field : Option (Field α)) (constants : Array α) :
    (∀ start stop, e.Exact start stop
        (fun out => e.evaluateRange A a start stop field constants out) ↔ e.ProductFits start stop) ∧
      (∀ n, e.Exact 0 n (fun out => e.evaluateArray A a n field constants out) ↔ e.ProductFits 0 n) ∧
      (∀ n cancelled, e.Exact 0 n
        (fun out => e.evaluateParallel A a cancelled n field constants out) ↔ e.ProductFits 0 n) ∧
      ∀ start stop (out : Array α), e.ProductFits start stop →
        e.checkRange start stop out.size = .ok () → ∀ (point : Int64) (slot : Int32) (x : α),
          start.toInt ≤ point.toInt → point.toInt < stop.toInt → 0 ≤ slot.toInt →
          slot.toInt < e.width.toInt →
          ∃ i, ∃ hi : i < out.size, (i : Int) = point.toInt * e.width.toInt + slot.toInt ∧
            Sink.put (.flat out e.width 0) slot point x = .ok (.flat (out.set i x hi) e.width 0) := by
  have hwidth : 0 ≤ e.width.toInt := by
    obtain ⟨hprogram, -, c, hvalid, -⟩ := make_eq_ok hmake
    rw [width, hprogram]
    exact hvalid.width
  refine ⟨fun start stop => ?_, fun n => ?_, fun n cancelled => ?_, ?_⟩
  · exact exact_iff hwidth A.zero fun _ => refused_evaluateRange_iff
  · exact exact_iff hwidth A.zero fun _ => refused_evaluateRange_iff
  · exact exact_iff hwidth A.zero fun _ => refused_evaluateParallel_iff
  · intro start stop out hfits hcheck point slot x hlow hhigh hpos hslot
    have hroom := (checkRange_eq_ok_iff_hasRoom hwidth hfits).1 hcheck
    exact hroom.put hfits hlow hhigh hpos hslot x

/-- Two outputs up to point nine need twenty cells, so an output of nineteen is refused. -/
theorem range_check_exact_transport :
    ∃ p e fresh, make integers p 0 0 = .ok e ∧ e.width = 2 ∧
      Refused (e.evaluateRange integers fresh 1 10 none #[1, 2, 3, 4] (Array.replicate 19 7)) ∧
      ¬Refused (e.evaluateRange integers fresh 1 10 none #[1, 2, 3, 4] (Array.replicate 20 7)) := by
  obtain ⟨p, e, fresh, -, -, hmake, -, -, hwidth⟩ := transport_accepted 0 0
  obtain ⟨hrange, -, -⟩ := range_check_exact_iff hmake fresh none #[1, 2, 3, 4]
  have hexact := (hrange 1 10).2 (by rw [ProductFits, hwidth]; decide)
  refine ⟨p, e, fresh, hmake, Int64.toInt_inj.1 hwidth, (hexact _ (by simp)).2 fun h => ?_, fun h => ?_⟩
  · have hroom := h.room
    rw [hwidth, Array.size_replicate] at hroom
    exact absurd hroom (by decide)
  · exact (hexact _ (by simp)).1 h ⟨by decide, by decide, by rw [hwidth, Array.size_replicate]; decide⟩

/-- Twice `2 ^ 62` wraps around below zero: the empty output passes for a range that ends there. -/
theorem wrapped_product_passes :
    ∃ p e fresh, transport.compile (fun _ => (0 : Int)) ⟨false, true⟩ [] = .ok p ∧
      make integers p 0 0 = .ok e ∧ e.width = 2 ∧
      ¬e.HasRoom 4611686018427387904 4611686018427387904 0 ∧
      e.evaluateRange integers fresh 4611686018427387904 4611686018427387904 (some fun _ _ => 0)
        #[1, 2, 3, 4] #[] = .ok (#[], Stats.zero) := by
  obtain ⟨p, e, fresh, hcompile, -, hmake, -, hsize, hwidth⟩ := transport_accepted 0 0
  have hwidth' : e.width = 2 := Int64.toInt_inj.1 hwidth
  refine ⟨p, e, fresh, hcompile, hmake, hwidth', fun h => ?_, ?_⟩
  · have hroom := h.room
    rw [hwidth] at hroom
    exact absurd hroom (by decide)
  · have hcheck : e.checkRange 4611686018427387904 4611686018427387904 0 = .ok () := by
      rw [checkRange, hwidth']
      decide
    have hinputs : e.check (some fun _ _ => 0) (#[1, 2, 3, 4] : Array Int) = .ok () := by
      rw [check, if_neg (by simp), if_neg (not_not.2 hsize)]
    rw [evaluateRange, Array.size_empty, hcheck, ok_bind, hinputs, ok_bind]
    rfl

end Engine

end Indicial
