import AccAsm.Image
import Mathlib.Algebra.Ring.Int.Defs

/-! # Padding of images

`PadsTo img words size`: a request for `words` words fills the image up to `size` bytes, and is refused if the
image is larger than that. Requests of at least `-2 ^ 62` and less than `2 ^ 62` words pad to `2 * words` bytes,
and no others do: the size is computed in 64 bits and wraps around at both ends (`toInt_double`). A larger
request is always refused, and a smaller one, which no image can meet, is granted to small images
(`pad_exact`). -/

namespace AccAsm
namespace Image
variable {img padded : Image} {words : Int64} {e : Oversized}

/-- The image with `n` zeros behind it, which carry no labels. -/
def extended (img : Image) (n : Nat) : Image :=
  { img with bytes := img.bytes ++ List.replicate n { value := 0, label := [] } }

/-- Padding to the number of words makes the image `size` bytes long, or is refused and leaves it as it is. -/
structure PadsTo (img : Image) (words : Int64) (size : Int) : Prop where
  accepts : (∃ padded, img.pad words = .ok padded) ↔ img.bytes.length ≤ size
  accepted : ∀ padded, img.pad words = .ok padded → padded.bytes.length = size ∧
    (∃ n, padded = img.extended n) ∧ (img.padInPlace words).1 = padded ∧ padded.pad words = .ok padded
  refused : ∀ e, img.pad words = .error e → e.size = img.bytes.length ∧ (img.padInPlace words).1 = img

theorem padInPlace_of_le (h : img.bytes.length ≤ (words * 2).toInt) :
    img.padInPlace words = (img.extended ((words * 2).toInt.toNat - img.bytes.length), none) :=
  if_neg (Int.not_lt.mpr h)

theorem padInPlace_of_lt (h : (words * 2).toInt < img.bytes.length) :
    img.padInPlace words = (img, some ⟨(words * 2).toInt, img.bytes.length⟩) :=
  if_pos h

theorem pad_eq_ok :
    img.pad words = .ok padded ↔ img.bytes.length ≤ (words * 2).toInt ∧
      padded = img.extended ((words * 2).toInt.toNat - img.bytes.length) := by
  rw [pad]
  rcases Int.lt_or_le (words * 2).toInt img.bytes.length with h | h
  · rw [padInPlace_of_lt h]
    simp only [reduceCtorEq, Int.not_le.mpr h, false_and]
  · rw [padInPlace_of_le h, and_iff_right h]
    simp only [Except.ok.injEq, eq_comm]

theorem pad_eq_error :
    img.pad words = .error e ↔ (words * 2).toInt < img.bytes.length ∧
      e = ⟨(words * 2).toInt, img.bytes.length⟩ := by
  rw [pad]
  rcases Int.lt_or_le (words * 2).toInt img.bytes.length with h | h
  · rw [padInPlace_of_lt h, and_iff_right h]
    simp only [Except.error.injEq, eq_comm]
  · rw [padInPlace_of_le h]
    simp only [reduceCtorEq, Int.not_lt.mpr h, false_and]

theorem padsTo (img : Image) (words : Int64) : img.PadsTo words (words * 2).toInt := by
  refine ⟨?_, ?_, ?_⟩
  · simp only [pad_eq_ok, exists_and_left, exists_eq, and_true]
  · intro padded h
    obtain ⟨hle, hpadded⟩ := pad_eq_ok.mp h
    have hlen : padded.bytes.length = (words * 2).toInt := by
      rw [hpadded, extended, List.length_append, List.length_replicate]
      omega
    -- nothing is missing the second time
    have hnone : (words * 2).toInt.toNat - padded.bytes.length = 0 := by omega
    refine ⟨hlen, ⟨_, hpadded⟩, by rw [padInPlace_of_le hle, hpadded], pad_eq_ok.mpr ⟨Int.le_of_eq hlen, ?_⟩⟩
    rw [hnone]
    simp [extended]
  · intro e h
    obtain ⟨hlt, rfl⟩ := pad_eq_error.mp h
    exact ⟨rfl, by rw [padInPlace_of_lt hlt]⟩

theorem toInt_double (words : Int64) :
    (-2 ^ 62 ≤ words.toInt ∧ words.toInt < 2 ^ 62 → (words * 2).toInt = 2 * words.toInt) ∧
    (2 ^ 62 ≤ words.toInt → (words * 2).toInt = 2 * words.toInt - 2 ^ 64) ∧
    (words.toInt < -2 ^ 62 → (words * 2).toInt = 2 * words.toInt + 2 ^ 64) := by
  have htwo : (2 : Int64).toInt = 2 := by decide
  have hlow := words.le_toInt
  have hhigh := words.toInt_lt
  rw [Int64.toInt_mul, htwo, Int.bmod_def]
  omega

/-- Exactly the requests whose size in bytes fits into 64 bits are met as they are meant. -/
theorem pad_exact (words : Int64) :
    ((∀ img : Image, img.PadsTo words (2 * words.toInt)) ↔ -2 ^ 62 ≤ words.toInt ∧ words.toInt < 2 ^ 62) ∧
    (2 ^ 62 ≤ words.toInt →
      ∀ img : Image, img.pad words = .error ⟨2 * words.toInt - 2 ^ 64, img.bytes.length⟩) ∧
    (words.toInt < -2 ^ 62 → ∀ img : Image, img.PadsTo words (2 * words.toInt + 2 ^ 64)) := by
  obtain ⟨hfits, hlarge, hsmall⟩ := toInt_double words
  have hlow := words.le_toInt
  have hhigh := words.toInt_lt
  refine ⟨⟨?_, ?_⟩, ?_, ?_⟩
  · intro h
    -- the empty image tells the two sizes apart, as only one of them is negative
    have hmeant := (h {}).accepts
    have hdone := (padsTo {} words).accepts
    have hsize : 0 ≤ 2 * words.toInt ↔ 0 ≤ (words * 2).toInt := hmeant.symm.trans hdone
    omega
  · intro h img
    rw [← hfits h]
    exact padsTo img words
  · intro h img
    rw [← hlarge h]
    refine pad_eq_error.mpr ⟨?_, rfl⟩
    omega
  · intro h img
    rw [← hsmall h]
    exact padsTo img words

/-- A request for fewer words than none fills up the empty image, and one for many words is refused as too
small for it. -/
theorem pad_wraps :
    let few : Int64 := -9223372036854775807
    let many : Int64 := 4611686018427387904
    ({} : Image).pad few = .ok (extended {} 2) ∧ ¬ PadsTo {} few (2 * few.toInt) ∧
      ({} : Image).pad many = .error ⟨-9223372036854775808, 0⟩ ∧ ¬ PadsTo {} many (2 * many.toInt) := by
  intro few many
  have hfew : ({} : Image).pad few = .ok (extended {} 2) := by decide
  have hmany : ({} : Image).pad many = .error ⟨-9223372036854775808, 0⟩ := by decide
  refine ⟨hfew, fun h => ?_, hmany, fun h => ?_⟩
  · have hsize : (0 : Int) ≤ 2 * few.toInt := h.accepts.mp ⟨_, hfew⟩
    revert hsize
    decide
  · obtain ⟨padded, hpadded⟩ := h.accepts.mpr (by decide)
    rw [hmany] at hpadded
    cases hpadded

end Image
end AccAsm
