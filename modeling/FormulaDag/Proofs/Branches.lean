import FormulaDag.Branches
import FormulaDag.Proofs.Decimal.Written

/-!
# How values are rounded

A value is rounded to the nearest decimal with a given last place, the even one of two, and that is read as the nearest double. The last
place is counted behind the point when an answer is rounded, and from the leading digit when a result is normalized. With seventeen
significant digits a value stays what it is.
-/

namespace FormulaDag.Branches

/-- A decimal is the nearest to a double among those with the given last place, the even one of two. No double is nearer to the decimal
than the one that it is read as. -/
structure RoundsTo (x : Float) (last : Int) (d : Decimal) : Prop where
  negative : d.negative = (Binary.ofFloat x).negative
  nearest : ∃ k, NearestEven k ((Binary.ofFloat x).magnitude / 10 ^ last) ∧ d.magnitude = k * 10 ^ last
  read : ∀ y : Float, |d.magnitude - (Binary.ofFloat d.toFloat).magnitude| ≤ |d.magnitude - (Binary.ofFloat y).magnitude|

variable {x : Float} (hx : x.isFinite = true)
include hx

/-- A finite value is rounded to places, and what becomes a zero is the positive one. -/
theorem exists_roundsTo_toPlaces (places : Nat) :
    ∃ d, RoundsTo x (-places) d ∧ toPlaces places x = if d.toFloat == 0.0 then 0.0 else d.toFloat := by
  refine ⟨(Binary.ofFloat x).toPlaces places, ⟨rfl, Binary.exists_nearestEven_toPlaces (Binary.ofFloat_bounds x).2 places, ?_⟩, ?_⟩
  · exact Decimal.abs_sub_toFloat_le (Binary.isFinite_toPlaces hx places)
  · rw [toPlaces, if_pos hx]

/-- A finite value that is not zero is normalized to significant digits, unless it is so close to the end of the range that it may be
rounded beyond it. -/
theorem exists_roundsTo_normalize (hzero : (x == 0.0) = false) (hedge : ¬ (Binary.ofFloat x).NearEdge) {precision : Nat}
    (hpos : 1 ≤ precision) (hle : precision ≤ 800) :
    ∃ d, RoundsTo x ((Binary.ofFloat x).lastExponent precision) d ∧ normalize precision x = d.toFloat := by
  refine ⟨(Binary.ofFloat x).toSignificant precision, ⟨rfl, Binary.exists_nearestEven_toSignificant _ hpos hle, ?_⟩, ?_⟩
  · exact Decimal.abs_sub_toFloat_le (Binary.isFinite_toSignificant hedge precision)
  · rw [normalize, hzero, if_neg Bool.false_ne_true, if_pos hx]

/-- Seventeen significant digits change no finite value but a zero. -/
theorem normalize_eq_self (hzero : (x == 0.0) = false) {precision : Nat} (h : 17 ≤ precision) : normalize precision x = x := by
  rw [normalize, hzero, if_neg Bool.false_ne_true, if_pos hx, Binary.toFloat_toSignificant hx hzero h]

end FormulaDag.Branches
