import FemAssembly.SignedIndex
import Mathlib.Logic.Function.Basic

/-!
# Signed indices and machine words

The signed indices are all words, and they correspond to the indices below `2 ^ 63` with an
orientation. An index past these wraps around into a word that stands for a smaller index with the
other orientation.

* `SignedIndex.index_lt_signedBound`, `SignedIndex.encode_index_isReversed`: every word is the
  encoding of its parts.
* `SignedIndex.encode_complement`: the two encodings of a word.
* `SignedIndex.encode_exact`: encoding and its parts over the whole machine range.
-/

namespace FemAssembly

namespace SignedIndex

/-! ## Words and their parts -/

theorem ext_toInt {s t : SignedIndex} (h : s.raw.toInt = t.raw.toInt) : s = t := by
  obtain ⟨v⟩ := s
  obtain ⟨w⟩ := t
  obtain rfl : v = w := Int64.toInt_inj.mp h
  rfl

theorem index_lt_signedBound (s : SignedIndex) : s.index < Word.signedBound := by
  have h1 := Int64.le_toInt s.raw
  have h2 := Int64.toInt_lt s.raw
  unfold Word.signedBound index
  split
  · omega
  · omega

/-- A signed index `s` is the encoding of its two parts. -/
theorem encode_index_isReversed (s : SignedIndex) : encode s.index s.isReversed = s := by
  refine ext_toInt ?_
  rw [toInt_encode s.index_lt_signedBound, index, isReversed]
  by_cases h : s.raw.toInt < 0
  · simp only [h, decide_true, if_true]
    omega
  · simp only [h, decide_false, Bool.false_eq_true, if_false]
    omega

/-- The function `encode` is one-to-one between the pairs of an index below `2 ^ 63` and an
orientation, and the signed indices. -/
theorem bijective_encode :
    Function.Bijective fun part : Fin Word.signedBound × Bool => encode part.1 part.2 := by
  constructor
  · rintro ⟨i, r⟩ ⟨j, q⟩ h
    have hindex := congrArg index h
    have hreversed := congrArg isReversed h
    simp only [index_encode i.isLt, index_encode j.isLt] at hindex
    simp only [isReversed_encode i.isLt, isReversed_encode j.isLt] at hreversed
    exact Prod.ext (Fin.ext hindex) hreversed
  · exact fun s => ⟨(⟨s.index, s.index_lt_signedBound⟩, s.isReversed), s.encode_index_isReversed⟩

/-! ## Indices past the signed range -/

/-- The bits of `Word.bound - 1 - index` are those of the word `index`, each the other way. -/
theorem ofNat_complement {index : Nat} (h : index < Word.bound) :
    Int64.ofNat (Word.bound - 1 - index) = ~~~(Int64.ofNat index) := by
  refine Int64.toInt_inj.mp ?_
  rw [Int64.toInt_not, Int64.toInt_ofNat', Int64.toInt_ofNat']
  unfold Word.bound at h ⊢
  simp only [Int.bmod_def, Int64.size]
  omega

/-- A word `index` with orientation `r` and its complement `Word.bound - 1 - index` with the other
orientation have one encoding. -/
theorem encode_complement {index : Nat} (h : index < Word.bound) (r : Bool) :
    encode (Word.bound - 1 - index) (!r) = encode index r := by
  cases r with
  | false => simp [encode, ofNat_complement h]
  | true => simp [encode, ofNat_complement h]

/-- The function `encode` over the whole machine range. An `index` below `2 ^ 63` and an orientation
`r` are read back from their word, and every word `raw` comes from one such pair. An `index` from
`2 ^ 63` on wraps around to its complement with the other orientation. To replace the index of `raw`
by `withIndex` leaves the orientation, whatever the word was. -/
theorem encode_exact :
    (∀ index < Word.signedBound, ∀ r, (encode index r).index = index ∧
      (encode index r).isReversed = r) ∧
    (∀ raw : Int64, encode (SignedIndex.mk raw).index (SignedIndex.mk raw).isReversed = ⟨raw⟩) ∧
    (Function.Bijective fun part : Fin Word.signedBound × Bool => encode part.1 part.2) ∧
    (∀ index, Word.signedBound ≤ index → index < Word.bound → ∀ r,
      encode index r = encode (Word.bound - 1 - index) (!r)) ∧
    ∀ raw : Int64, ∀ index < Word.signedBound,
      ((SignedIndex.mk raw).withIndex index).isReversed = (SignedIndex.mk raw).isReversed ∧
      ((SignedIndex.mk raw).withIndex index).index = index := by
  refine ⟨fun index h r => ⟨index_encode h r, isReversed_encode h r⟩, fun raw => ?_,
    bijective_encode, fun index _ h r => ?_, fun raw index h => ⟨?_, ?_⟩⟩
  · exact encode_index_isReversed ⟨raw⟩
  · exact (encode_complement h r).symm
  · exact isReversed_withIndex ⟨raw⟩ h
  · exact index_withIndex ⟨raw⟩ h

/-- The ends of the machine range. Index `0` and the largest signed word with reversed orientation
are the words `-1` and the least one; the next index and the last one of all wrap around. -/
theorem encode_exact_ends :
    (encode 0 true = ⟨-1⟩ ∧ (encode 0 true).index = 0 ∧ (encode 0 true).isReversed = true) ∧
    (encode 9223372036854775807 true = ⟨Int64.minValue⟩ ∧
      (SignedIndex.mk Int64.minValue).index = 9223372036854775807 ∧
      (SignedIndex.mk Int64.minValue).isReversed = true) ∧
    encode 9223372036854775808 false = ⟨Int64.minValue⟩ ∧
    encode 18446744073709551615 true = encode 0 false ∧
    ((SignedIndex.mk Int64.minValue).withIndex 5).isReversed = true ∧
    ((SignedIndex.mk Int64.minValue).withIndex 5).index = 5 := by
  obtain ⟨hparts, -, -, hwraps, hwith⟩ := encode_exact
  have hleast : encode 9223372036854775807 true = ⟨Int64.minValue⟩ := by decide
  have hlargest := hparts 9223372036854775807 (by decide) true
  rw [hleast] at hlargest
  obtain ⟨hreversed, hindex⟩ := hwith Int64.minValue 5 (by decide)
  refine ⟨⟨by decide, hparts 0 (by decide) true⟩, ⟨hleast, hlargest⟩, ?_,
    hwraps 18446744073709551615 (by decide) (by decide) true, hreversed.trans hlargest.2, hindex⟩
  exact (hwraps 9223372036854775808 (by decide) (by decide) false).trans hleast

end SignedIndex

end FemAssembly
