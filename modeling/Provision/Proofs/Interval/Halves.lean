import Mathlib.Data.Finset.Card
import Provision.Interval.Machine

/-!
# Halves of machine intervals

The ends of an interval over a fixed-width type fit the type, and so does everything between them:
the middle point, and the ends of both halves. What need not fit is the distance between the ends,
and it is computed on the way to all the others. It fits every unsigned type. In a signed type it
fits as long as it is no greater than the greatest value of the type, and the interval then has a
size, a middle point and halves as it should; a wider interval has none of them.

## Main definitions

* `Interval.points i`: the points of an interval, as a finite set.
* `Interval.SharesOut i l u`: the points of `i` are shared out evenly between `l` and `u`.

## Main results

* `Interval.machine_exact`: when there is a width, and what follows from it.
* `Interval.not_machine_exact_byte`: the interval of all signed bytes.
-/

namespace Provision.Interval
variable {k : IntKind} {i l u : Interval Int} {z : Int}

/-! ## Points -/

/-- The points of an interval. -/
def points (i : Interval Int) : Finset Int :=
  (Finset.range ((i.hi - i.lo).toNat + 1)).image fun j : Nat => i.lo + j

@[simp] theorem mem_points : z ∈ i.points ↔ z ∈ i := by
  have hends := i.lo_le_hi
  rw [points, Finset.mem_image, mem_def]
  constructor
  · rintro ⟨j, hj, rfl⟩
    rw [Finset.mem_range] at hj
    omega
  · intro hz
    refine ⟨(z - i.lo).toNat, ?_, ?_⟩
    · rw [Finset.mem_range]
      omega
    · omega

theorem nonempty_points (i : Interval Int) : i.points.Nonempty :=
  ⟨i.lo, mem_points.mpr ⟨Int.le_refl i.lo, i.lo_le_hi⟩⟩

theorem card_points (i : Interval Int) : (i.points.card : Int) = i.hi - i.lo + 1 := by
  have hends := i.lo_le_hi
  have hinj : Function.Injective fun j : Nat => i.lo + (j : Int) := by
    intro j j' h
    simp only at h
    omega
  rw [points, Finset.card_image_of_injective _ hinj, Finset.card_range]
  omega

/-- The points of an interval are shared out between two intervals, so that both have some and
neither has more than one point more than the other. -/
structure SharesOut (i l u : Interval Int) : Prop where
  nonempty : l.points.Nonempty ∧ u.points.Nonempty
  disjoint : Disjoint l.points u.points
  union : l.points ∪ u.points = i.points
  even : l.points.card ≤ u.points.card + 1 ∧ u.points.card ≤ l.points.card + 1

/-- An interval may be cut after any of its points but the last. -/
theorem points_of_cut (hl : l.lo = i.lo) (hcut : u.lo = l.hi + 1) (hu : u.hi = i.hi) :
    Disjoint l.points u.points ∧ l.points ∪ u.points = i.points := by
  have hlends := l.lo_le_hi
  have huends := u.lo_le_hi
  refine ⟨Finset.disjoint_left.mpr fun z hzl hzu => ?_, Finset.ext fun z => ?_⟩
  · rw [mem_points, mem_def] at hzl hzu
    omega
  · rw [Finset.mem_union, mem_points, mem_points, mem_points, mem_def, mem_def, mem_def]
    omega

/-! ## The middle -/

/-- The middle point is in the middle, or just before it. -/
theorem middle_cases (i : Interval Int) :
    2 * i.middle ≤ i.lo + i.hi ∧ i.lo + i.hi ≤ 2 * i.middle + 1 := by
  rw [middle]
  omega

theorem middle_mem (i : Interval Int) : i.middle ∈ i := by
  have hends := i.lo_le_hi
  have hmiddle := i.middle_cases
  rw [mem_def]
  omega

/-- A cut after the middle point shares out the points. -/
theorem sharesOut_of_middle (hl : l.lo = i.lo ∧ l.hi = i.middle)
    (hu : u.lo = i.middle + 1 ∧ u.hi = i.hi) : i.SharesOut l u := by
  have hmiddle := i.middle_cases
  obtain ⟨hdisjoint, hunion⟩ := points_of_cut (i := i) hl.1 (hu.1.trans (hl.2 ▸ rfl)) hu.2
  refine ⟨⟨l.nonempty_points, u.nonempty_points⟩, hdisjoint, hunion, ?_⟩
  have hlcard := l.card_points
  have hucard := u.card_points
  omega

/-! ## Inside a type -/

theorem fits_of_mem (hlo : k.Fits i.lo) (hhi : k.Fits i.hi) (hz : z ∈ i) : k.Fits z :=
  ⟨Int.le_trans hlo.1 hz.1, Int.le_trans hz.2 hhi.2⟩

/-- A width is never below a type. -/
theorem fits_width_iff : k.Fits (i.hi - i.lo) ↔ i.hi - i.lo ≤ k.max := by
  have hmin := k.min_nonpos
  have hends := i.lo_le_hi
  rw [IntKind.Fits]
  omega

/-- An unsigned type holds the width of every interval over it. -/
theorem width_le_max (hunsigned : k.signed = false) (hlo : k.Fits i.lo) (hhi : k.Fits i.hi) :
    i.hi - i.lo ≤ k.max := by
  have hzero : k.min = 0 := by rw [IntKind.min, hunsigned]; rfl
  have hlo' := hlo.1
  have hhi' := hhi.2
  omega

theorem widthIn_eq_ok (h : i.hi - i.lo ≤ k.max) : i.widthIn k = .ok (i.hi - i.lo) :=
  if_pos (fits_width_iff.mpr h)

theorem widthIn_eq_error (h : k.max < i.hi - i.lo) : i.widthIn k = .error {} :=
  if_neg (mt fits_width_iff.mp (Int.not_le.mpr h))

/-- The size is the number of points, or the greatest value of the type. -/
theorem sizeIn_eq_ok (h : i.hi - i.lo ≤ k.max) :
    i.sizeIn k = .ok (min (i.points.card : Int) k.max) := by
  have hclamp : k.satAdd (i.hi - i.lo) 1 = min (i.points.card : Int) k.max := by
    have hmin := k.min_nonpos
    have hends := i.lo_le_hi
    rw [IntKind.satAdd, IntKind.clamp, card_points]
    split
    · omega
    · split <;> omega
  rw [sizeIn, widthIn_eq_ok h, ← hclamp]
  rfl

theorem midpointIn_eq_ok (h : i.hi - i.lo ≤ k.max) : i.midpointIn k = .ok i.middle := by
  rw [midpointIn_eq, widthIn_eq_ok h]
  rfl

/-- A single point has no halves, whatever the type. -/
theorem halvesIn_of_fixed (h : i.lo = i.hi) : i.halvesIn k = .ok none := by
  rw [halvesIn, dif_pos h]

theorem halvesIn_eq_ok (hne : i.lo ≠ i.hi) (h : i.hi - i.lo ≤ k.max) :
    ∃ l u, i.halvesIn k = .ok (some (l, u)) ∧ (l.lo = i.lo ∧ l.hi = i.middle) ∧
      (u.lo = i.middle + 1 ∧ u.hi = i.hi) := by
  rw [halvesIn, dif_neg hne, widthIn_eq_ok h]
  exact ⟨_, _, rfl, ⟨rfl, rfl⟩, ⟨rfl, rfl⟩⟩

theorem halvesIn_eq_error (hne : i.lo ≠ i.hi) (h : k.max < i.hi - i.lo) :
    i.halvesIn k = .error {} := by
  rw [halvesIn, dif_neg hne, widthIn_eq_error h]
  rfl

/-- **A machine interval whose width fits the type is split exactly.** Its size is the number of its
points, clamped to the type; its middle point is one of its points; and unless it is a single point
its halves share out its points. The middle point and all ends of halves fit the type, so that
nothing overflows on the way. The width fits every unsigned type. If it does not fit, none of these
is there. -/
theorem machine_exact (k : IntKind) (i : Interval Int) (hlo : k.Fits i.lo) (hhi : k.Fits i.hi) :
    (k.signed = false → i.hi - i.lo ≤ k.max) ∧
      (i.hi - i.lo ≤ k.max →
        i.widthIn k = .ok (i.hi - i.lo) ∧ i.sizeIn k = .ok (min (i.points.card : Int) k.max) ∧
        (∃ z ∈ i, i.midpointIn k = .ok z ∧ k.Fits z ∧
          2 * z ≤ i.lo + i.hi ∧ i.lo + i.hi ≤ 2 * z + 1) ∧
        (i.halvesIn k = .ok none ↔ i.lo = i.hi) ∧
        (i.lo ≠ i.hi → ∃ l u, i.halvesIn k = .ok (some (l, u)) ∧ i.SharesOut l u ∧
          (k.Fits l.lo ∧ k.Fits l.hi) ∧ k.Fits u.lo ∧ k.Fits u.hi)) ∧
      (k.max < i.hi - i.lo →
        i.widthIn k = .error {} ∧ i.sizeIn k = .error {} ∧ i.midpointIn k = .error {} ∧
        i.halvesIn k = .error {}) := by
  have hfits : ∀ {z}, z ∈ i → k.Fits z := fits_of_mem hlo hhi
  refine ⟨fun hunsigned => width_le_max hunsigned hlo hhi, fun h => ?_, fun h => ?_⟩
  · refine ⟨widthIn_eq_ok h, sizeIn_eq_ok h,
      ⟨i.middle, i.middle_mem, midpointIn_eq_ok h, hfits i.middle_mem, i.middle_cases⟩,
      ⟨fun hnone => ?_, halvesIn_of_fixed⟩, fun hne => ?_⟩
    · by_contra hne
      obtain ⟨l, u, hsome, -⟩ := halvesIn_eq_ok hne h
      rw [hsome] at hnone
      cases hnone
    · obtain ⟨l, u, hsome, hl, hu⟩ := halvesIn_eq_ok hne h
      have hupper : i.middle + 1 ∈ i := by
        have hends := i.lo_le_hi
        have hmiddle := i.middle_cases
        rw [mem_def]
        omega
      refine ⟨l, u, hsome, sharesOut_of_middle hl hu, ⟨hl.1 ▸ hlo, hl.2 ▸ hfits i.middle_mem⟩,
        hu.1 ▸ hfits hupper, hu.2 ▸ hhi⟩
  · have hwidth : i.widthIn k = .error {} := widthIn_eq_error h
    have hne : i.lo ≠ i.hi := by
      have hmax := k.max_nonneg
      omega
    refine ⟨hwidth, ?_, ?_, halvesIn_eq_error hne h⟩
    · rw [sizeIn, hwidth]
      rfl
    · rw [midpointIn, hwidth]
      rfl

/-- Signed bytes that lie as far apart as a width can be. They are one more than a size can be. -/
theorem machine_exact_byte :
    let k := IntKind.twos 8
    let i : Interval Int := ⟨-100, 27, by decide⟩
    (k.Fits i.lo ∧ k.Fits i.hi) ∧ i.hi - i.lo ≤ k.max ∧ i.lo ≠ i.hi ∧
      i.sizeIn k = .ok (min (i.points.card : Int) k.max) ∧
      ∃ l u, i.halvesIn k = .ok (some (l, u)) ∧ i.SharesOut l u := by
  intro k i
  have hlo : k.Fits i.lo := by decide
  have hhi : k.Fits i.hi := by decide
  have hwidth : i.hi - i.lo ≤ k.max := by decide
  have hne : i.lo ≠ i.hi := by decide
  obtain ⟨-, hexact, -⟩ := machine_exact k i hlo hhi
  obtain ⟨-, hsize, -, -, hhalves⟩ := hexact hwidth
  obtain ⟨l, u, hsome, hshares, -⟩ := hhalves hne
  exact ⟨⟨hlo, hhi⟩, hwidth, hne, hsize, l, u, hsome, hshares⟩

/-- All signed bytes together have no width that is a signed byte, and so they are not split,
although their halves are made of signed bytes. -/
theorem not_machine_exact_byte : ¬∀ i : Interval Int,
    (IntKind.twos 8).Fits i.lo → (IntKind.twos 8).Fits i.hi →
      (∃ width, i.widthIn (.twos 8) = .ok width) ∧
      i.sizeIn (.twos 8) = .ok (min (i.points.card : Int) (IntKind.twos 8).max) ∧
      (∃ z ∈ i, i.midpointIn (.twos 8) = .ok z) ∧
      (i.halvesIn (.twos 8) = .ok none ↔ i.lo = i.hi) ∧
      (i.lo ≠ i.hi → ∃ l u, i.halvesIn (.twos 8) = .ok (some (l, u)) ∧ i.SharesOut l u) := by
  intro h
  obtain ⟨-, -, ⟨z, -, hz⟩, -⟩ := h ⟨-128, 127, by decide⟩ (by decide) (by decide)
  have herror : midpointIn (.twos 8) ⟨-128, 127, by decide⟩ = .error {} := by decide
  rw [herror] at hz
  cases hz

end Provision.Interval
