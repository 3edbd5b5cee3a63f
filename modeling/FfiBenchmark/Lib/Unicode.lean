/-
Strings as UTF-16 code units, and their UTF-8 encoding.

`codePoints` reads code units as characters; an unpaired surrogate is none.
`encode` writes UTF-8, and `decode` reads it. What one replacement character
stands for in malformed input differs between decoders, so `decode` takes it
as a parameter; what is proved here does not depend on it: decoding what was
encoded gives the string back (`decode_encode`), and 7-bit bytes decode to
themselves (`decode_ascii`).
-/
import Mathlib.Data.List.Basic

namespace Unicode

/-! ## UTF-16 -/

def isHighSurrogate (u : UInt16) : Bool := 0xD800 ≤ u.toNat && u.toNat < 0xDC00
def isLowSurrogate (u : UInt16) : Bool := 0xDC00 ≤ u.toNat && u.toNat < 0xE000

/-- The code point of a surrogate pair. -/
def toCodePoint (high low : UInt16) : Nat :=
  0x10000 + (high.toNat - 0xD800) * 0x400 + (low.toNat - 0xDC00)

/-- The character of a code unit outside a pair. -/
def single (u : UInt16) : Option Char :=
  if isHighSurrogate u || isLowSurrogate u then none else some (.ofNat u.toNat)

/-- The characters of a string, and none for each unpaired surrogate. -/
def codePoints : List UInt16 → List (Option Char)
  | [] => []
  | [u] => [single u]
  | u :: v :: us =>
    if isHighSurrogate u && isLowSurrogate v then some (.ofNat (toCodePoint u v)) :: codePoints us
    else single u :: codePoints (v :: us)

/-- The code units of a character. -/
def utf16 (c : Char) : List UInt16 :=
  if c.toNat < 0x10000 then [.ofNat c.toNat]
  else [.ofNat (0xD800 + (c.toNat - 0x10000) / 0x400),
    .ofNat (0xDC00 + (c.toNat - 0x10000) % 0x400)]

/-- No surrogate is unpaired. -/
def WellFormed (us : List UInt16) : Prop := none ∉ codePoints us

instance (us : List UInt16) : Decidable (WellFormed us) :=
  inferInstanceAs (Decidable (none ∉ codePoints us))

theorem isHighSurrogate_iff {u : UInt16} :
    isHighSurrogate u = true ↔ 0xD800 ≤ u.toNat ∧ u.toNat < 0xDC00 := by
  simp [isHighSurrogate]

theorem isLowSurrogate_iff {u : UInt16} :
    isLowSurrogate u = true ↔ 0xDC00 ≤ u.toNat ∧ u.toNat < 0xE000 := by
  simp [isLowSurrogate]

theorem toNat_valid (c : Char) : c.toNat < 0xD800 ∨ 0xDFFF < c.toNat ∧ c.toNat < 0x110000 := c.valid

theorem toNat_ofNat {n : Nat} (h : n < 0xD800 ∨ 0xDFFF < n ∧ n < 0x110000) :
    (Char.ofNat n).toNat = n := by
  unfold Char.ofNat
  rw [dif_pos h]
  rfl

theorem single_eq_some {u : UInt16} (h : u.toNat < 0xD800 ∨ 0xDFFF < u.toNat) :
    single u = some (.ofNat u.toNat) := by
  unfold single
  rw [if_neg]
  rw [Bool.or_eq_true, isHighSurrogate_iff, isLowSurrogate_iff]
  omega

theorem codePoints_single (u : UInt16) (us : List UInt16) (h : isHighSurrogate u = false) :
    codePoints (u :: us) = single u :: codePoints us := by
  cases us with
  | nil => rfl
  | cons v us => rw [codePoints, h, Bool.false_and, if_neg Bool.false_ne_true]

theorem codePoints_pair {u v : UInt16} (us : List UInt16) (hu : isHighSurrogate u)
    (hv : isLowSurrogate v) :
    codePoints (u :: v :: us) = some (.ofNat (toCodePoint u v)) :: codePoints us := by
  rw [codePoints, hu, hv, Bool.and_self, if_pos rfl]

theorem codePoints_utf16_append (c : Char) (us : List UInt16) :
    codePoints (utf16 c ++ us) = some c :: codePoints us := by
  have hvalid := toNat_valid c
  unfold utf16
  by_cases hc : c.toNat < 0x10000
  · have hu : (UInt16.ofNat c.toNat).toNat = c.toNat := UInt16.toNat_ofNat_of_lt' hc
    have hhigh : isHighSurrogate (.ofNat c.toNat) = false := by
      rw [← Bool.not_eq_true, isHighSurrogate_iff, hu]
      omega
    rw [if_pos hc, List.singleton_append, codePoints_single _ _ hhigh, single_eq_some (by omega),
      hu, Char.ofNat_toNat]
  · generalize hn : c.toNat - 0x10000 = n
    have hsize : UInt16.size = 0x10000 := rfl
    have hu : (UInt16.ofNat (0xD800 + n / 0x400)).toNat = 0xD800 + n / 0x400 :=
      UInt16.toNat_ofNat_of_lt' (by omega)
    have hv : (UInt16.ofNat (0xDC00 + n % 0x400)).toNat = 0xDC00 + n % 0x400 :=
      UInt16.toNat_ofNat_of_lt' (by omega)
    have hpoint : toCodePoint (.ofNat (0xD800 + n / 0x400)) (.ofNat (0xDC00 + n % 0x400)) =
        c.toNat := by
      unfold toCodePoint
      omega
    rw [if_neg hc, List.cons_append, List.singleton_append, codePoints_pair, hpoint,
      Char.ofNat_toNat]
    · rw [isHighSurrogate_iff]
      omega
    · rw [isLowSurrogate_iff]
      omega

theorem codePoints_flatMap_utf16 (cs : List Char) :
    codePoints (cs.flatMap utf16) = cs.map some := by
  induction cs with
  | nil => rfl
  | cons c cs ih => rw [List.flatMap_cons, codePoints_utf16_append, ih, List.map_cons]

theorem utf16_of_single {u : UInt16} {c : Char} (h : single u = some c) : utf16 c = [u] := by
  have hlt : u.toNat < 0x10000 := u.toNat_lt
  unfold single at h
  split at h
  · cases h
  · next hs =>
    cases h
    rw [Bool.or_eq_true, isHighSurrogate_iff, isLowSurrogate_iff] at hs
    unfold utf16
    rw [toNat_ofNat (by omega), if_pos hlt, UInt16.ofNat_toNat]

theorem utf16_toCodePoint {u v : UInt16} (hu : isHighSurrogate u) (hv : isLowSurrogate v) :
    utf16 (.ofNat (toCodePoint u v)) = [u, v] := by
  rw [isHighSurrogate_iff] at hu
  rw [isLowSurrogate_iff] at hv
  have hhigh : 0xD800 + (toCodePoint u v - 0x10000) / 0x400 = u.toNat := by
    unfold toCodePoint; omega
  have hlow : 0xDC00 + (toCodePoint u v - 0x10000) % 0x400 = v.toNat := by unfold toCodePoint; omega
  have hpoint : 0x10000 ≤ toCodePoint u v ∧ toCodePoint u v < 0x110000 := by
    unfold toCodePoint; omega
  unfold utf16
  rw [toNat_ofNat (by omega), if_neg (by omega), hhigh, hlow, UInt16.ofNat_toNat,
    UInt16.ofNat_toNat]

/-- A well-formed string is one that characters write. -/
theorem WellFormed.exists_chars {us : List UInt16} (h : WellFormed us) :
    ∃ cs : List Char, us = cs.flatMap utf16 := by
  unfold WellFormed at h
  induction us using codePoints.induct with
  | case1 => exact ⟨[], rfl⟩
  | case2 u =>
    rw [codePoints, List.mem_singleton] at h
    obtain ⟨c, hc⟩ := Option.ne_none_iff_exists'.mp (Ne.symm h)
    exact ⟨[c], by rw [List.flatMap_singleton, utf16_of_single hc]⟩
  | case3 u v us hpair ih =>
    rw [Bool.and_eq_true] at hpair
    rw [codePoints_pair us hpair.1 hpair.2, List.mem_cons, not_or] at h
    obtain ⟨cs, hcs⟩ := ih h.2
    exact ⟨.ofNat (toCodePoint u v) :: cs,
      by rw [List.flatMap_cons, utf16_toCodePoint hpair.1 hpair.2, ← hcs]; rfl⟩
  | case4 u v us hpair ih =>
    rw [codePoints, if_neg hpair, List.mem_cons, not_or] at h
    obtain ⟨cs, hcs⟩ := ih h.2
    obtain ⟨c, hc⟩ := Option.ne_none_iff_exists'.mp (Ne.symm h.1)
    exact ⟨c :: cs, by rw [List.flatMap_cons, utf16_of_single hc, ← hcs]; rfl⟩

/-! ## UTF-8 -/

/-- The UTF-8 bytes of a string, with `?` for an unpaired surrogate. -/
def encode (us : List UInt16) : List UInt8 :=
  (codePoints us).flatMap fun
    | some c => String.utf8EncodeChar c
    | none => [0x3F]

/-- The first character of the bytes, if they start with the encoding of one. -/
def firstChar (bytes : List UInt8) : Option Char := bytes.toByteArray.utf8DecodeChar? 0

/-- Reads at most `fuel` characters; `malformed` is how many bytes after the
first one a replacement character stands for. -/
def decodeFuel (malformed : List UInt8 → Nat) : Nat → List UInt8 → List UInt16
  | 0, _ => []
  | _ + 1, [] => []
  | fuel + 1, b :: bytes =>
    match firstChar (b :: bytes) with
    | some c => utf16 c ++ decodeFuel malformed fuel ((b :: bytes).drop c.utf8Size)
    | none => 0xFFFD :: decodeFuel malformed fuel (bytes.drop (malformed (b :: bytes)))

/-- The string of UTF-8 bytes: each is read once, so their number is fuel enough. -/
def decode (malformed : List UInt8 → Nat) (bytes : List UInt8) : List UInt16 :=
  decodeFuel malformed bytes.length bytes

variable {malformed : List UInt8 → Nat}

theorem firstChar_append (c : Char) (bytes : List UInt8) :
    firstChar (String.utf8EncodeChar c ++ bytes) = some c := by
  unfold firstChar
  rw [List.toByteArray_append, ByteArray.utf8DecodeChar?_utf8EncodeChar_append]

theorem decodeFuel_utf8EncodeChar_append (fuel : Nat) (c : Char) (bytes : List UInt8) :
    decodeFuel malformed (fuel + 1) (String.utf8EncodeChar c ++ bytes) =
      utf16 c ++ decodeFuel malformed fuel bytes := by
  have hfirst := firstChar_append c bytes
  have hdrop : (String.utf8EncodeChar c ++ bytes).drop c.utf8Size = bytes :=
    List.drop_left' (String.length_utf8EncodeChar c)
  have hpos := c.utf8Size_pos
  cases h : String.utf8EncodeChar c ++ bytes with
  | nil =>
    have hlen := congrArg List.length h
    rw [List.length_append, String.length_utf8EncodeChar, List.length_nil] at hlen
    omega
  | cons b bs =>
    rw [h] at hfirst hdrop
    rw [decodeFuel, hfirst]
    simp only [hdrop]

/-- Fuel that is left over changes nothing. -/
theorem decodeFuel_flatMap (cs : List Char) {fuel : Nat} (h : cs.length ≤ fuel) :
    decodeFuel malformed fuel (cs.flatMap String.utf8EncodeChar) = cs.flatMap utf16 := by
  induction cs generalizing fuel with
  | nil => cases fuel <;> rfl
  | cons c cs ih =>
    obtain ⟨fuel, rfl⟩ : ∃ n, fuel = n + 1 := ⟨fuel - 1, by simp at h; omega⟩
    rw [List.flatMap_cons, decodeFuel_utf8EncodeChar_append, ih (by simpa using h),
      List.flatMap_cons]

theorem length_le_length_flatMap (cs : List Char) :
    cs.length ≤ (cs.flatMap String.utf8EncodeChar).length := by
  induction cs with
  | nil => simp
  | cons c cs ih =>
    have hpos := c.utf8Size_pos
    rw [List.flatMap_cons, List.length_append, String.length_utf8EncodeChar, List.length_cons]
    omega

theorem decode_flatMap (cs : List Char) :
    decode malformed (cs.flatMap String.utf8EncodeChar) = cs.flatMap utf16 :=
  decodeFuel_flatMap cs (length_le_length_flatMap cs)

theorem encode_flatMap (cs : List Char) :
    encode (cs.flatMap utf16) = cs.flatMap String.utf8EncodeChar := by
  unfold encode
  rw [codePoints_flatMap_utf16, List.flatMap_map]

/-- **Decoding inverts encoding.** -/
theorem decode_encode {us : List UInt16} (h : WellFormed us) :
    decode malformed (encode us) = us := by
  obtain ⟨cs, rfl⟩ := h.exists_chars
  rw [encode_flatMap, decode_flatMap]

example : encode [0x61, 0xE9, 0x20AC, 0xD83D, 0xDE00] =
    [0x61, 0xC3, 0xA9, 0xE2, 0x82, 0xAC, 0xF0, 0x9F, 0x98, 0x80] := by
  decide

/-! ## Bytes of one kind -/

theorem utf8Size_ofNat {b : UInt8} (h : b < 128) : (Char.ofNat b.toNat).utf8Size = 1 := by
  have hb : b.toNat < 128 := h
  rw [Char.utf8Size_eq_one_iff, UInt32.le_iff_toNat_le, Char.toNat_val, toNat_ofNat (by omega)]
  exact Nat.le_of_lt_succ hb

theorem utf8EncodeChar_ofNat {b : UInt8} (h : b < 128) :
    String.utf8EncodeChar (.ofNat b.toNat) = [b] := by
  have hb : b.toNat < 128 := h
  rw [String.utf8EncodeChar_eq_singleton (utf8Size_ofNat h)]
  congr 1
  apply UInt8.toNat_inj.mp
  rw [UInt32.toNat_toUInt8, Char.toNat_val, toNat_ofNat (by omega)]
  omega

theorem utf16_ofNat_toNat {b : UInt8} (h : b < 128) : utf16 (.ofNat b.toNat) = [b.toUInt16] := by
  have hb : b.toNat < 128 := h
  unfold utf16
  rw [toNat_ofNat (by omega), if_pos (by omega)]
  congr 1
  apply UInt16.toNat_inj.mp
  rw [UInt8.toNat_toUInt16, UInt16.toNat_ofNat_of_lt' (Nat.lt_trans hb (by decide))]

/-- Bytes below 128 are their own code units. -/
theorem decode_ascii {bytes : List UInt8} (h : ∀ b ∈ bytes, b < 128) :
    decode malformed bytes = bytes.map UInt8.toUInt16 := by
  have hchars : ∀ bytes : List UInt8, (∀ b ∈ bytes, b < 128) →
      (bytes.map fun b => Char.ofNat b.toNat).flatMap String.utf8EncodeChar = bytes ∧
        (bytes.map fun b => Char.ofNat b.toNat).flatMap utf16 = bytes.map UInt8.toUInt16 := by
    intro bytes hb
    induction bytes with
    | nil => exact ⟨rfl, rfl⟩
    | cons b bytes ih =>
      obtain ⟨h8, h16⟩ := ih fun b' hb' => hb b' (by simp [hb'])
      rw [List.map_cons, List.map_cons, List.flatMap_cons, List.flatMap_cons, h8, h16,
        utf8EncodeChar_ofNat (hb b (by simp)), utf16_ofNat_toNat (hb b (by simp))]
      exact ⟨rfl, rfl⟩
  obtain ⟨h8, h16⟩ := hchars bytes h
  rw [← h16, ← decode_flatMap, h8]

theorem zero_ne_or (x : UInt8) {k : UInt8} (hk : k ≠ 0) : 0 ≠ x ||| k := by
  intro h
  have hle : k.toNat ≤ x.toNat ||| k.toNat := Nat.right_le_or
  rw [← UInt8.toNat_or, ← h, UInt8.toNat_zero, Nat.le_zero] at hle
  exact hk (UInt8.toNat_inj.mp hle)

theorem zero_not_mem_utf8EncodeChar {c : Char} (hc : c.toNat ≠ 0) :
    0 ∉ String.utf8EncodeChar c := by
  rcases c.utf8Size_eq with h | h | h | h
  · have hle : c.toNat ≤ 127 := UInt32.le_iff_toNat_le.mp (Char.utf8Size_eq_one_iff.mp h)
    rw [String.utf8EncodeChar_eq_singleton h, List.mem_singleton]
    intro h0
    have hmod := congrArg UInt8.toNat h0
    rw [UInt32.toNat_toUInt8, Char.toNat_val, UInt8.toNat_zero] at hmod
    omega
  · rw [String.utf8EncodeChar_eq_cons_cons h]
    simp [zero_ne_or]
  · rw [String.utf8EncodeChar_eq_cons_cons_cons h]
    simp [zero_ne_or]
  · rw [String.utf8EncodeChar_eq_cons_cons_cons_cons h]
    simp [zero_ne_or]

/-- UTF-8 writes a zero byte for U+0000 only. -/
theorem zero_not_mem_encode {us : List UInt16} (hus : WellFormed us) (h0 : 0 ∉ us) :
    0 ∉ encode us := by
  obtain ⟨cs, rfl⟩ := hus.exists_chars
  rw [encode_flatMap]
  intro hmem
  obtain ⟨c, hc, hb⟩ := List.mem_flatMap.mp hmem
  refine zero_not_mem_utf8EncodeChar ?_ hb
  intro hzero
  refine h0 (List.mem_flatMap.mpr ⟨c, hc, ?_⟩)
  unfold utf16
  rw [if_pos (by omega), hzero]
  exact List.mem_singleton_self _

end Unicode
