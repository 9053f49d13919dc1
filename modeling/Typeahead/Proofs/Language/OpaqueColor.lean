import Mathlib.Algebra.Order.Ring.Int
import Typeahead.Evaluation

/-!
# Proofs/Language/OpaqueColor — the numbers of opaque colours

The number of an opaque colour is put together from the lowest eight bits of its parts by masks and
shifts of signed numbers of 64 bits.  What comes of this is a sum (`Value.opaqueColor_eq`), which
says what the bits of the parts are (`Value.opaqueColor_eq_iff`).
-/

namespace Typeahead.Value

/-! ## Masks and shifts -/

/-- A number below a power of two is put into the zeros of a multiple of that power. -/
theorem or_eq_add {x y : Nat} (i : Nat) (hx : 2 ^ i ∣ x) (hy : y < 2 ^ i) : x ||| y = x + y := by
  obtain ⟨a, rfl⟩ := hx
  exact (Nat.two_pow_add_eq_or_of_lt hy a).symm

/-- The lowest eight bits of a number, also of a negative one, are its remainder. -/
theorem toNat_lowByte (n : Int) : ((Int64.ofInt n &&& 0xff).toBitVec.toNat : Int) = n % 256 := by
  have hbits : (Int64.ofInt n).toBitVec.toNat = (n % 2 ^ 64).toNat := BitVec.toNat_ofInt ..
  have hmask : (Int64.ofInt n &&& 0xff).toBitVec.toNat = (n % 2 ^ 64).toNat % 2 ^ 8 := by
    rw [Int64.toBitVec_and, BitVec.toNat_and, hbits]
    exact Nat.and_two_pow_sub_one_eq_mod _ 8
  rw [hmask]
  omega

/-- A shift that loses no bits multiplies. -/
theorem toNat_shiftLeft {n : Int64} (i : Nat) (hn : n.toBitVec.toNat < 2 ^ 8) (hi : i ≤ 48) :
    (n.toBitVec <<< i).toNat = n.toBitVec.toNat * 2 ^ i := by
  have hfits : n.toBitVec.toNat * 2 ^ i < 2 ^ 64 :=
    calc n.toBitVec.toNat * 2 ^ i
      _ < 2 ^ 8 * 2 ^ i := Nat.mul_lt_mul_of_pos_right hn (Nat.two_pow_pos i)
      _ ≤ 2 ^ 8 * 2 ^ 48 := Nat.mul_le_mul_left _ (Nat.pow_le_pow_right Nat.two_pos hi)
      _ < 2 ^ 64 := by decide
  rw [BitVec.toNat_shiftLeft, Nat.shiftLeft_eq, Nat.mod_eq_of_lt hfits]

/-- **What masks and shifts make up** of the parts of a colour. -/
theorem opaqueColor_eq (red green blue : Int) : opaqueColor red green blue =
    0xff000000 + red % 256 * 0x10000 + green % 256 * 0x100 + blue % 256 := by
  have hred := toNat_lowByte red
  have hgreen := toNat_lowByte green
  have hblue := toNat_lowByte blue
  rw [opaqueColor]
  dsimp only
  generalize Int64.ofInt red &&& 0xff = r at hred ⊢
  generalize Int64.ofInt green &&& 0xff = g at hgreen ⊢
  generalize Int64.ofInt blue &&& 0xff = b at hblue ⊢
  have halpha : ((0xff : Int64) <<< 24).toBitVec.toNat = 255 * 2 ^ 24 := rfl
  have hr : (r <<< 16).toBitVec.toNat = r.toBitVec.toNat * 2 ^ 16 :=
    toNat_shiftLeft 16 (by omega) (by decide)
  have hg : (g <<< 8).toBitVec.toNat = g.toBitVec.toNat * 2 ^ 8 :=
    toNat_shiftLeft 8 (by omega) (by decide)
  have hbits : ((0xff : Int64) <<< 24 ||| r <<< 16 ||| g <<< 8 ||| b).toBitVec.toNat =
      255 * 2 ^ 24 + r.toBitVec.toNat * 2 ^ 16 + g.toBitVec.toNat * 2 ^ 8 + b.toBitVec.toNat := by
    simp only [Int64.toBitVec_or, BitVec.toNat_or, halpha, hr, hg]
    rw [or_eq_add (y := r.toBitVec.toNat * 2 ^ 16) 24 (by omega) (by omega),
      or_eq_add (y := g.toBitVec.toNat * 2 ^ 8) 16 (by omega) (by omega),
      or_eq_add (y := b.toBitVec.toNat) 8 (by omega) (by omega)]
  have htoInt : ∀ n : Int64, n.toBitVec.toNat < 2 ^ 63 → n.toInt = n.toBitVec.toNat :=
    fun n hn => BitVec.toInt_eq_toNat_of_lt (by omega)
  rw [htoInt _ (by omega), hbits]
  omega

/-! ## Different colours -/

/-- **Colours are the same number** just if the lowest eight bits of their parts are the same. -/
theorem opaqueColor_eq_iff {red green blue red' green' blue' : Int} :
    opaqueColor red green blue = opaqueColor red' green' blue' ↔
      red % 256 = red' % 256 ∧ green % 256 = green' % 256 ∧ blue % 256 = blue' % 256 := by
  rw [opaqueColor_eq, opaqueColor_eq]
  omega

/-- Parts of eight bits each are told apart. -/
theorem opaqueColor_injective : Function.Injective fun p : UInt8 × UInt8 × UInt8 =>
    opaqueColor p.1.toNat p.2.1.toNat p.2.2.toNat := by
  rintro ⟨r, g, b⟩ ⟨r', g', b'⟩ h
  obtain ⟨hr, hg, hb⟩ := opaqueColor_eq_iff.1 h
  have hbytes : ∀ n n' : UInt8, (n.toNat : Int) % 256 = (n'.toNat : Int) % 256 → n = n' := by
    intro n n' h
    have hn := n.toNat_lt
    have hn' := n'.toNat_lt
    exact UInt8.toNat_inj.1 (by omega)
  rw [hbytes r r' hr, hbytes g g' hg, hbytes b b' hb]

/-- Opaque colours have 32 bits, the highest eight of which are set. -/
theorem opaqueColor_bounds (red green blue : Int) :
    0xff000000 ≤ opaqueColor red green blue ∧ opaqueColor red green blue ≤ 0xffffffff := by
  rw [opaqueColor_eq]
  omega

end Typeahead.Value
