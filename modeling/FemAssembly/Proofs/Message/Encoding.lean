import FemAssembly.Message.Encoding
import FemAssembly.Proofs.Grid.Coordinates
import Mathlib

/-!
# Lists of values and messages

Writing and reading undo each other in both directions: a list of values is read back from its
message, and a message of whole values is what its values write.

* `CoversUnits`: every piece of the right width is what one value writes, and no other value writes
  it. `CoversUnits.transport`: from one type to another that is written in the same way.
* `decode_eq_ok_iff`, `decode_eq_error`: which messages are read.
* `EncodesExactly`, `CoversUnits.encodesExactly`: the correspondence of lists and messages.
* `littleEndian_ofLittleEndian`, `coversUnits_bitVec`: integers of any whole number of bytes.
* `encode_bijective`: the correspondence for all plain types.
-/

namespace FemAssembly

/-! ## Single values -/

section

variable {β α γ : Type} [Plain β α] [Plain β γ]

/-- The values in `Values` read back, and they cover all pieces of messages that have the width of
the type. -/
structure CoversUnits (β : Type) {α : Type} [Plain β α] (Values : Set α) : Prop where
  width_pos : 0 < Plain.width β α
  readsBack : ∀ a ∈ Values, ReadsBack β a
  read_mem : ∀ units : List β, units.length = Plain.width β α → Plain.read units ∈ Values
  writesBack : ∀ units : List β, units.length = Plain.width β α →
    Plain.write (Plain.read units : α) = units

/-- The values in `Values` cover the units where they are written and read by way of `f` and `g` as
the values of another type are, which do so. -/
theorem CoversUnits.transport {Values : Set α} (h : CoversUnits β (Set.univ : Set γ))
    (f : α → γ) (g : γ → α) (hwidth : Plain.width β α = Plain.width β γ)
    (hwrite : ∀ a ∈ Values, Plain.write (β := β) a = Plain.write (f a))
    (hread : ∀ units : List β, units.length = Plain.width β γ →
      (Plain.read units : α) = g (Plain.read units))
    (hgf : ∀ a ∈ Values, g (f a) = a) (hfg : ∀ c, f (g c) = c) (hmem : ∀ c, g c ∈ Values) :
    CoversUnits β Values where
  width_pos := hwidth ▸ h.width_pos
  readsBack a ha := by
    obtain ⟨hlength, hback⟩ := h.readsBack (f a) (Set.mem_univ _)
    refine ⟨by rw [hwrite a ha, hlength, hwidth], ?_⟩
    rw [hwrite a ha, hread _ hlength, hback, hgf a ha]
  read_mem units hunits := hread units (hunits.trans hwidth) ▸ hmem _
  writesBack units hunits := by
    have hunits' := hunits.trans hwidth
    rw [hread units hunits', hwrite _ (hmem _), hfg, h.writesBack units hunits']

/-! ## Lists of values -/

/-- A `message` that is read, and the `values` it holds. -/
theorem decode_eq_ok_iff (hw : 0 < Plain.width β α) {message : List β} {values : List α} :
    decode message = .ok values ↔ Plain.width β α ∣ message.length ∧
      (chunks (Plain.width β α) message).map Plain.read = values := by
  rw [decode, Nat.dvd_iff_mod_eq_zero]
  by_cases hmod : message.length % Plain.width β α = 0
  · rw [if_neg (by omega), Except.ok.injEq]
    simp only [hmod, true_and]
  · rw [if_pos (.inr hmod)]
    simp only [reduceCtorEq, hmod, false_and]

/-- A `message` that is not a whole number of values is refused. -/
theorem decode_eq_error {message : List β} (h : ¬ Plain.width β α ∣ message.length) :
    (decode message : Except Error (List α)) =
      .error (.communication (.partialValues message.length (Plain.width β α))) :=
  if_pos (.inr fun hmod => h (Nat.dvd_of_mod_eq_zero hmod))

/-- Lists of values in `Values` and messages of whole values of `width` units correspond to each
other. -/
structure EncodesExactly (β : Type) {α : Type} [Plain β α] (Values : Set α) (width : Nat) :
    Prop where
  length_encode : ∀ values : List α, (∀ a ∈ values, a ∈ Values) →
    (encode values : List β).length = width * values.length
  decode_encode : ∀ values : List α, (∀ a ∈ values, a ∈ Values) →
    decode (encode values : List β) = .ok values
  exists_decode_iff : ∀ message : List β,
    (∃ values : List α, decode message = .ok values) ↔ width ∣ message.length
  decode_error : ∀ message : List β, ¬ width ∣ message.length →
    (decode message : Except Error (List α)) =
      .error (.communication (.partialValues message.length width))
  encode_decode : ∀ (message : List β) (values : List α), decode message = .ok values →
    (∀ a ∈ values, a ∈ Values) ∧ encode values = message

theorem CoversUnits.encodesExactly {Values : Set α} (h : CoversUnits β Values) :
    EncodesExactly β Values (Plain.width β α) where
  length_encode values hvalues := length_encode fun a ha => h.readsBack a (hvalues a ha)
  decode_encode values hvalues :=
    decode_encode_of_readsBack h.width_pos fun a ha => h.readsBack a (hvalues a ha)
  exists_decode_iff message := by
    simp only [decode_eq_ok_iff h.width_pos, exists_and_left, exists_eq', and_true]
  decode_error _ hmessage := decode_eq_error hmessage
  encode_decode message values hdecode := by
    obtain ⟨hdvd, rfl⟩ := (decode_eq_ok_iff h.width_pos).mp hdecode
    have hlength : ∀ piece ∈ chunks (Plain.width β α) message, piece.length = Plain.width β α :=
      fun piece hpiece => length_of_mem_chunks hdvd hpiece
    constructor
    · intro a ha
      obtain ⟨piece, hpiece, rfl⟩ := List.mem_map.mp ha
      exact h.read_mem piece (hlength piece hpiece)
    · calc encode ((chunks (Plain.width β α) message).map (Plain.read : List β → α))
          = (chunks (Plain.width β α) message).flatMap fun piece =>
              Plain.write (Plain.read piece : α) := by rw [encode, List.flatMap_map]
        _ = (chunks (Plain.width β α) message).flatten := by
            rw [List.flatMap_def, List.map_congr_left fun piece hpiece =>
              h.writesBack piece (hlength piece hpiece), List.map_id']
        _ = message := flatten_chunks h.width_pos message

end

/-! ## Bytes -/

/-- A list of `bytes` is a number of so many bytes. -/
theorem ofLittleEndian_lt (bytes : List UInt8) :
    ofLittleEndian bytes < Grid.volume 256 bytes.length := by
  have hlt := @Grid.index_lt 256 (bytes.map UInt8.toNat) fun c hc => by
    obtain ⟨byte, -, rfl⟩ := List.mem_map.mp hc
    exact byte.toNat_lt
  rwa [List.length_map] at hlt

theorem littleEndian_ofLittleEndian (bytes : List UInt8) :
    littleEndian bytes.length (ofLittleEndian bytes) = bytes := by
  have hcoords := @Grid.coords_index 256 (bytes.map UInt8.toNat) fun c hc => by
    obtain ⟨byte, -, rfl⟩ := List.mem_map.mp hc
    exact byte.toNat_lt
  rw [List.length_map] at hcoords
  rw [littleEndian, ofLittleEndian, hcoords, List.map_map]
  simp only [Function.comp_def, UInt8.ofNat_toNat, List.map_id']

theorem volume_bytes (width : Nat) : Grid.volume 256 width = 2 ^ (8 * width) := by
  rw [Nat.pow_mul]
  rfl

/-- All integers of `width` bytes, in their bits. -/
theorem coversUnits_bitVec {width : Nat} (hwidth : 0 < width) :
    CoversUnits UInt8 (Set.univ : Set (BitVec (8 * width))) where
  width_pos := hwidth
  readsBack a _ := by
    refine ⟨length_littleEndian _ _, ?_⟩
    change BitVec.ofNat (8 * width) (ofLittleEndian (littleEndian width a.toNat)) = a
    rw [ofLittleEndian_littleEndian (volume_bytes width ▸ a.isLt), BitVec.ofNat_toNat,
      BitVec.setWidth_eq]
  read_mem _ _ := Set.mem_univ _
  writesBack bytes hbytes := by
    obtain rfl : bytes.length = width := hbytes
    change littleEndian bytes.length (BitVec.ofNat _ (ofLittleEndian bytes)).toNat = bytes
    have hlt := ofLittleEndian_lt bytes
    rw [volume_bytes] at hlt
    rw [BitVec.toNat_ofNat, Nat.mod_eq_of_lt hlt, littleEndian_ofLittleEndian]

section

variable {α : Type} [Plain UInt8 α]

/-- The correspondence for a type whose `Values` travel as their `bits`, which are words of `width`
bytes. -/
theorem encodesExactly_of_bits {width : Nat} (hwidth : 0 < width) {Values : Set α}
    (bits : α → BitVec (8 * width)) (ofBits : BitVec (8 * width) → α)
    (hw : Plain.width UInt8 α = width)
    (hwrite : ∀ a ∈ Values, Plain.write (β := UInt8) a = Plain.write (bits a))
    (hread : ∀ bytes : List UInt8, bytes.length = width →
      (Plain.read bytes : α) = ofBits (Plain.read bytes))
    (hback : ∀ a ∈ Values, ofBits (bits a) = a) (hbits : ∀ c, bits (ofBits c) = c)
    (hmem : ∀ c, ofBits c ∈ Values) : EncodesExactly UInt8 Values width := by
  have h := ((coversUnits_bitVec hwidth).transport bits ofBits hw hwrite hread hback hbits
    hmem).encodesExactly
  rwa [hw] at h

/-- The correspondence for all values of a type that travel as their `bits`. -/
theorem encodesExactly_univ {width : Nat} (hwidth : 0 < width)
    (bits : α → BitVec (8 * width)) (ofBits : BitVec (8 * width) → α)
    (hw : Plain.width UInt8 α = width)
    (hwrite : ∀ a : α, Plain.write (β := UInt8) a = Plain.write (bits a))
    (hread : ∀ bytes : List UInt8, (Plain.read bytes : α) = ofBits (Plain.read bytes))
    (hback : ∀ a, ofBits (bits a) = a) (hbits : ∀ c, bits (ofBits c) = c) :
    EncodesExactly UInt8 (Set.univ : Set α) width :=
  encodesExactly_of_bits hwidth bits ofBits hw (fun a _ => hwrite a) (fun bytes _ => hread bytes)
    (fun a _ => hback a) hbits fun _ => Set.mem_univ _

end

/-- Indices travel as words of 64 bits, where they are below `Word.bound`. -/
theorem encodesExactly_indices : EncodesExactly UInt8 {n : Nat | n < Word.bound} 8 := by
  have hbits : ∀ n < Word.bound, (BitVec.ofNat (8 * 8) n).toNat = n := fun n hn =>
    (BitVec.toNat_ofNat ..).trans (Nat.mod_eq_of_lt hn)
  refine encodesExactly_of_bits (by decide) (BitVec.ofNat (8 * 8)) BitVec.toNat rfl
    (fun n hn => ?_) (fun bytes hbytes => ?_) hbits (fun c => ?_) fun c => c.isLt
  · change littleEndian 8 n = littleEndian 8 (BitVec.ofNat (8 * 8) n).toNat
    rw [hbits n hn]
  · have hlt := ofLittleEndian_lt bytes
    rw [hbytes] at hlt
    exact (hbits _ hlt).symm
  · rw [BitVec.ofNat_toNat, BitVec.setWidth_eq]

/-- Encoding is exact for all plain types of a positive `width`: integers of any whole number of
bytes, indices that are machine words, and floating-point numbers, told apart by their bits. -/
theorem encode_bijective :
    (∀ width > 0, EncodesExactly UInt8 (Set.univ : Set (BitVec (8 * width))) width) ∧
    EncodesExactly UInt8 (Set.univ : Set UInt8) 1 ∧
    EncodesExactly UInt8 (Set.univ : Set UInt16) 2 ∧
    EncodesExactly UInt8 (Set.univ : Set UInt32) 4 ∧
    EncodesExactly UInt8 (Set.univ : Set UInt64) 8 ∧
    EncodesExactly UInt8 (Set.univ : Set Int8) 1 ∧
    EncodesExactly UInt8 (Set.univ : Set Int16) 2 ∧
    EncodesExactly UInt8 (Set.univ : Set Int32) 4 ∧
    EncodesExactly UInt8 (Set.univ : Set Int64) 8 ∧
    EncodesExactly UInt8 {n : Nat | n < Word.bound} 8 ∧
    EncodesExactly UInt8 (Set.univ : Set Binary64) 8 := by
  refine ⟨fun width hwidth => (coversUnits_bitVec hwidth).encodesExactly, ?_, ?_, ?_, ?_, ?_, ?_,
    ?_, ?_, encodesExactly_indices, ?_⟩
  · exact encodesExactly_univ (by decide) UInt8.toBitVec UInt8.ofBitVec rfl (fun _ => rfl)
      (fun _ => rfl) (fun _ => rfl) fun _ => rfl
  · exact encodesExactly_univ (by decide) UInt16.toBitVec UInt16.ofBitVec rfl (fun _ => rfl)
      (fun _ => rfl) (fun _ => rfl) fun _ => rfl
  · exact encodesExactly_univ (by decide) UInt32.toBitVec UInt32.ofBitVec rfl (fun _ => rfl)
      (fun _ => rfl) (fun _ => rfl) fun _ => rfl
  · exact encodesExactly_univ (by decide) UInt64.toBitVec UInt64.ofBitVec rfl (fun _ => rfl)
      (fun _ => rfl) (fun _ => rfl) fun _ => rfl
  · exact encodesExactly_univ (by decide) Int8.toBitVec Int8.ofBitVec rfl (fun _ => rfl)
      (fun _ => rfl) (fun _ => rfl) fun _ => rfl
  · exact encodesExactly_univ (by decide) Int16.toBitVec Int16.ofBitVec rfl (fun _ => rfl)
      (fun _ => rfl) (fun _ => rfl) fun _ => rfl
  · exact encodesExactly_univ (by decide) Int32.toBitVec Int32.ofBitVec rfl (fun _ => rfl)
      (fun _ => rfl) (fun _ => rfl) fun _ => rfl
  · exact encodesExactly_univ (by decide) Int64.toBitVec Int64.ofBitVec rfl (fun _ => rfl)
      (fun _ => rfl) (fun _ => rfl) fun _ => rfl
  · exact encodesExactly_univ (by decide) (fun x => x.bits.toBitVec) (fun bits => ⟨⟨bits⟩⟩) rfl
      (fun _ => rfl) (fun _ => rfl) (fun _ => rfl) fun _ => rfl

/-- A NaN with a payload and an infinity, two integers of three bytes, and twelve bytes, which are
not a whole number of words of eight bytes. -/
theorem encode_bijective_nan :
    (encode [⟨0x7FF8000000000001⟩, (⟨0xFFF0000000000000⟩ : Binary64)] : List UInt8) =
      [1, 0, 0, 0, 0, 0, 0xF8, 0x7F, 0, 0, 0, 0, 0, 0, 0xF0, 0xFF] ∧
    (decode ([1, 0, 0, 0, 0, 0, 0xF8, 0x7F, 0, 0, 0, 0, 0, 0, 0xF0, 0xFF] : List UInt8) =
      .ok [⟨0x7FF8000000000001⟩, (⟨0xFFF0000000000000⟩ : Binary64)]) ∧
    (∃ values : List (BitVec (8 * 3)), decode ([1, 2, 3, 4, 5, 6] : List UInt8) = .ok values ∧
      (encode values : List UInt8) = [1, 2, 3, 4, 5, 6]) ∧
    ¬ 8 ∣ (List.replicate 12 (0 : UInt8)).length ∧
    (decode (List.replicate 12 (0 : UInt8)) : Except Error (List UInt64)) =
      .error (.communication (.partialValues 12 8)) := by
  obtain ⟨hbits, -, -, -, hwords, -, -, -, -, -, hnumbers⟩ := encode_bijective
  have hmessage : (encode [⟨0x7FF8000000000001⟩, (⟨0xFFF0000000000000⟩ : Binary64)] : List UInt8) =
      [1, 0, 0, 0, 0, 0, 0xF8, 0x7F, 0, 0, 0, 0, 0, 0, 0xF0, 0xFF] := by decide
  have h24 := hbits 3 (by decide)
  obtain ⟨values, hvalues⟩ := (h24.exists_decode_iff [1, 2, 3, 4, 5, 6]).mpr (by decide)
  refine ⟨hmessage, hmessage ▸ hnumbers.decode_encode _ fun _ _ => Set.mem_univ _,
    ⟨values, hvalues, (h24.encode_decode _ _ hvalues).2⟩, by decide,
    hwords.decode_error _ (by decide)⟩

end FemAssembly
