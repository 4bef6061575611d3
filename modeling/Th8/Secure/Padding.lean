import Th8.Secure.KeyStore

/-!
# Padding

A plaintext is filled up to the next multiple of 64 bytes, with at least one byte, and each
byte says how many there are.  They are taken off again unless the padded length is a
multiple of 256: the length is compared as a single byte, which is zero then.
-/

namespace Th8.Secure

open List UInt8

def padCount (nPlain : ℕ) : ℕ := padBlock - nPlain % padBlock

theorem padCount_bounds (nPlain : ℕ) : 0 < padCount nPlain ∧ padCount nPlain ≤ 64 := by
  unfold padCount padBlock
  omega

theorem securePadSize_eq (nPlain : ℕ) : securePadSize nPlain = nPlain + padCount nPlain := by
  have hpos := (padCount_bounds nPlain).1
  rw [securePadSize]
  exact if_neg hpos.ne' ▸ rfl

theorem padText_eq (zPlain : Bytes) : padText zPlain =
    zPlain ++ List.replicate (padCount zPlain.length) (UInt8.ofNat (padCount zPlain.length)) := by
  simp only [padText, securePadSize_eq, Nat.add_sub_cancel_left]

theorem padText_length (zPlain : Bytes) :
    (padText zPlain).length = zPlain.length + padCount zPlain.length := by
  rw [padText_eq, length_append, length_replicate]

theorem padText_length_pos (zPlain : Bytes) : 0 < (padText zPlain).length := by
  have hpos := (padCount_bounds zPlain.length).1
  rw [padText_length]
  omega

theorem padText_getD (zPlain : Bytes) {i : ℕ} (h : i < padCount zPlain.length) :
    (padText zPlain).getD ((padText zPlain).length - 1 - i) 0 =
      UInt8.ofNat (padCount zPlain.length) := by
  have hindex : zPlain.length ≤ (padText zPlain).length - 1 - i := by
    rw [padText_length]
    omega
  have hlt : (padText zPlain).length - 1 - i - zPlain.length < padCount zPlain.length := by
    rw [padText_length]
    omega
  rw [getD_eq_getElem?_getD, padText_eq, getElem?_append_right (by rwa [padText_eq] at hindex),
    getElem?_replicate_of_lt (by rwa [padText_eq] at hlt), Option.getD_some]

theorem foldl_or_zero {f : ℕ → Byte} {l : List ℕ} (h : ∀ i ∈ l, f i = 0) :
    l.foldl (fun m i => m ||| f i) 0 = 0 := by
  induction l with
  | nil => rfl
  | cons i l ih =>
    rw [foldl_cons, h i mem_cons_self]
    exact ih fun j hj => h j (mem_cons_of_mem _ hj)

theorem stripPadding_padText (zPlain : Bytes) : stripPadding (padText zPlain) =
    if (padText zPlain).length % 256 = 0 then padText zPlain else zPlain := by
  obtain ⟨hpos, hle⟩ := padCount_bounds zPlain.length
  have hlen := padText_length zPlain
  have hval : (UInt8.ofNat (padCount zPlain.length)).toNat = padCount zPlain.length := by
    rw [toNat_ofNat']
    omega
  have hlast := padText_getD zPlain hpos
  rw [Nat.sub_zero] at hlast
  have hmask : (List.range (min (padCount zPlain.length) (padText zPlain).length)).foldl
      (fun m i => m ||| ((padText zPlain).getD ((padText zPlain).length - 1 - i) 0 ^^^
        UInt8.ofNat (padCount zPlain.length))) (0 : Byte) = 0 := by
    apply foldl_or_zero
    intro i hi
    rw [padText_getD zPlain (by rw [mem_range] at hi; omega), UInt8.xor_self]
  have hsmall : 0 < UInt8.ofNat (padCount zPlain.length) ∧
      UInt8.ofNat (padCount zPlain.length) ≤ UInt8.ofNat padBlock := by
    simp only [lt_iff_toNat_lt, le_iff_toNat_le, hval]
    exact ⟨hpos, hle⟩
  have hblock : (padText zPlain).length % 64 = 0 := by
    rw [hlen]
    unfold padCount padBlock
    omega
  have hbyte : UInt8.ofNat (padCount zPlain.length) ≤ UInt8.ofNat (padText zPlain).length ↔
      (padText zPlain).length % 256 ≠ 0 := by
    rw [le_iff_toNat_le, hval, toNat_ofNat']
    omega
  simp only [stripPadding, if_pos (padText_length_pos zPlain), hlast, hval, hmask, hsmall, hbyte,
    true_and]
  by_cases hfull : (padText zPlain).length % 256 = 0
  · rw [if_pos hfull, if_neg (not_not.mpr hfull), Nat.sub_zero, take_length]
  · rw [if_neg hfull, if_pos hfull, hlen, Nat.add_sub_cancel, padText_eq, take_left]

theorem stripPadding_padText_iff (zPlain : Bytes) :
    stripPadding (padText zPlain) = zPlain ↔ zPlain.length % 256 < 192 := by
  have hlen := padText_length zPlain
  have hcond : (padText zPlain).length % 256 ≠ 0 ↔ zPlain.length % 256 < 192 := by
    rw [hlen]
    unfold padCount padBlock
    omega
  rw [stripPadding_padText, ← hcond]
  split
  · next h =>
    refine iff_of_false ?_ (not_not.mpr h)
    intro heq
    have hpos := (padCount_bounds zPlain.length).1
    rw [heq] at hlen
    omega
  · next h => exact iff_of_true rfl h

theorem padText_inj {zPlain zPlain' : Bytes} (h : padText zPlain = padText zPlain') :
    zPlain = zPlain' := by
  have hlast := padText_getD zPlain (padCount_bounds _).1
  have hlast' := padText_getD zPlain' (padCount_bounds _).1
  rw [h, hlast'] at hlast
  have hcount : padCount zPlain'.length = padCount zPlain.length := by
    have hnat := congrArg UInt8.toNat hlast
    rw [toNat_ofNat', toNat_ofNat'] at hnat
    have hle := (padCount_bounds zPlain.length).2
    have hle' := (padCount_bounds zPlain'.length).2
    omega
  rw [padText_eq, padText_eq, hcount] at h
  exact append_cancel_right h

end Th8.Secure
