/-
Modified UTF-8, the encoding of strings in JNI: each UTF-16 code unit by itself,
in up to three bytes, and the unit 0 in two.

Every sequence of code units is encoded, unpaired surrogates too, and decodes to
itself (`decode_encode`). What a malformed byte decodes to is a parameter.
-/
import Mathlib.Data.List.Basic

namespace ModifiedUtf8

def encodeUnit (u : UInt16) : List UInt8 :=
  if 0 < u.toNat ∧ u.toNat < 0x80 then [.ofNat u.toNat]
  else if u.toNat < 0x800 then [.ofNat (0xC0 + u.toNat / 64), .ofNat (0x80 + u.toNat % 64)]
  else [.ofNat (0xE0 + u.toNat / 4096), .ofNat (0x80 + u.toNat / 64 % 64),
    .ofNat (0x80 + u.toNat % 64)]

def encode (us : List UInt16) : List UInt8 := us.flatMap encodeUnit

/-- A second or third byte. -/
abbrev Tail (b : UInt8) : Prop := 0x80 ≤ b.toNat ∧ b.toNat < 0xC0

section Next

variable (malformed : UInt8 → UInt16) (a : UInt8)

def nextTwo : List UInt8 → UInt16 × List UInt8
  | b :: bytes =>
    if Tail b then (.ofNat ((a.toNat - 0xC0) * 64 + (b.toNat - 0x80)), bytes)
    else (malformed a, b :: bytes)
  | bytes => (malformed a, bytes)

def nextThree : List UInt8 → UInt16 × List UInt8
  | b :: c :: bytes =>
    if Tail b ∧ Tail c then
      (.ofNat ((a.toNat - 0xE0) * 4096 + (b.toNat - 0x80) * 64 + (c.toNat - 0x80)), bytes)
    else (malformed a, b :: c :: bytes)
  | bytes => (malformed a, bytes)

/-- The code unit that starts with the byte `a`, and the bytes after it. -/
def next (bytes : List UInt8) : UInt16 × List UInt8 :=
  if a.toNat < 0x80 then (.ofNat a.toNat, bytes)
  else if 0xC0 ≤ a.toNat ∧ a.toNat < 0xE0 then nextTwo malformed a bytes
  else if 0xE0 ≤ a.toNat ∧ a.toNat < 0xF0 then nextThree malformed a bytes
  else (malformed a, bytes)

end Next

/-- Reads at most `fuel` code units. -/
def decodeFuel (malformed : UInt8 → UInt16) : Nat → List UInt8 → List UInt16
  | 0, _ => []
  | _ + 1, [] => []
  | fuel + 1, a :: bytes =>
    let (u, rest) := next malformed a bytes
    u :: decodeFuel malformed fuel rest

/-- A code unit takes a byte at least, so their number is fuel enough. -/
def decode (malformed : UInt8 → UInt16) (bytes : List UInt8) : List UInt16 :=
  decodeFuel malformed bytes.length bytes

variable {malformed : UInt8 → UInt16}

theorem toNat_ofNat {n : Nat} (h : n < 256) : (UInt8.ofNat n).toNat = n :=
  UInt8.toNat_ofNat_of_lt' h

theorem tail_ofNat {n : Nat} (h : n < 64) : Tail (.ofNat (0x80 + n)) := by
  rw [Tail, toNat_ofNat (by omega)]
  omega

theorem exists_encodeUnit (malformed : UInt8 → UInt16) (u : UInt16) :
    ∃ a bytes, encodeUnit u = a :: bytes ∧
      ∀ rest, next malformed a (bytes ++ rest) = (u, rest) := by
  have hu : u.toNat < 0x10000 := u.toNat_lt
  have hlast : u.toNat % 64 < 64 := Nat.mod_lt _ (by decide)
  rw [encodeUnit]
  by_cases hone : 0 < u.toNat ∧ u.toNat < 0x80
  · refine ⟨_, [], if_pos hone, fun rest => ?_⟩
    rw [next, toNat_ofNat (by omega), if_pos hone.2, UInt16.ofNat_toNat]
    rfl
  · rw [if_neg hone]
    by_cases htwo : u.toNat < 0x800
    · refine ⟨_, [_], if_pos htwo, fun rest => ?_⟩
      have hsum : (0xC0 + u.toNat / 64 - 0xC0) * 64 + (0x80 + u.toNat % 64 - 0x80) = u.toNat := by
        omega
      rw [next, toNat_ofNat (by omega), if_neg (by omega), if_pos (by omega), List.singleton_append,
        nextTwo, if_pos (tail_ofNat hlast), toNat_ofNat (by omega), toNat_ofNat (by omega), hsum,
        UInt16.ofNat_toNat]
    · refine ⟨_, [_, _], if_neg htwo, fun rest => ?_⟩
      have hmiddle : u.toNat / 64 % 64 < 64 := Nat.mod_lt _ (by decide)
      have hsum : (0xE0 + u.toNat / 4096 - 0xE0) * 4096 + (0x80 + u.toNat / 64 % 64 - 0x80) * 64 +
          (0x80 + u.toNat % 64 - 0x80) = u.toNat := by omega
      rw [next, toNat_ofNat (by omega), if_neg (by omega), if_neg (by omega), if_pos (by omega),
        List.cons_append, List.singleton_append, nextThree,
        if_pos ⟨tail_ofNat hmiddle, tail_ofNat hlast⟩, toNat_ofNat (by omega),
        toNat_ofNat (by omega), toNat_ofNat (by omega), hsum, UInt16.ofNat_toNat]

theorem decodeFuel_encode (us : List UInt16) {fuel : Nat} (h : us.length ≤ fuel) :
    decodeFuel malformed fuel (encode us) = us := by
  induction us generalizing fuel with
  | nil => cases fuel <;> rfl
  | cons u us ih =>
    obtain ⟨fuel, rfl⟩ : ∃ n, fuel = n + 1 := ⟨fuel - 1, by simp at h; omega⟩
    obtain ⟨a, bytes, hunit, hnext⟩ := exists_encodeUnit malformed u
    rw [encode, List.flatMap_cons, ← encode, hunit, List.cons_append, decodeFuel, hnext]
    dsimp only
    rw [ih (by simpa using h)]

theorem length_le_length_encode (us : List UInt16) : us.length ≤ (encode us).length := by
  induction us with
  | nil => exact Nat.le_refl _
  | cons u us ih =>
    obtain ⟨a, bytes, hunit, -⟩ := exists_encodeUnit UInt8.toUInt16 u
    rw [encode, List.flatMap_cons, hunit, List.length_append, List.length_cons, List.length_cons,
      ← encode]
    omega

/-- **Decoding inverts encoding**, whatever the code units. -/
theorem decode_encode (us : List UInt16) : decode malformed (encode us) = us :=
  decodeFuel_encode us (length_le_length_encode us)

example : encode [0x61, 0, 0xE9, 0xD83D, 0xDE00] =
    [0x61, 0xC0, 0x80, 0xC3, 0xA9, 0xED, 0xA0, 0xBD, 0xED, 0xB8, 0x80] := by
  decide

/-- Code units from 1 to 127 are their own bytes. -/
theorem encode_ascii {bytes : List UInt8} (h : ∀ b ∈ bytes, b ≠ 0 ∧ b < 128) :
    encode (bytes.map UInt8.toUInt16) = bytes := by
  induction bytes with
  | nil => rfl
  | cons b bytes ih =>
    obtain ⟨hne, hlt⟩ := h b (by simp)
    have hb : b.toNat < 128 := hlt
    have hpos : 0 < b.toNat := Nat.pos_of_ne_zero fun h0 => hne (UInt8.toNat_inj.mp h0)
    rw [List.map_cons, encode, List.flatMap_cons, ← encode, ih fun b' hb' => h b' (by simp [hb']),
      encodeUnit, UInt8.toNat_toUInt16, if_pos ⟨hpos, hb⟩, UInt8.ofNat_toNat]
    rfl

end ModifiedUtf8
