/-
`getUtf8String` against `MemorySegment.getString`, and against
`allocateAlignmentString`, which writes what it reads.
-/
import FfiBenchmark.GetString.Strlen

namespace FfiBenchmark.GetString

open Loop Unicode

/-- The bytes before `p`. -/
def Segment.take (seg : Segment) (p : Nat) : List UInt8 := (List.range p).map seg.bytes

/-- How far a terminator is looked for. -/
def Segment.reach (seg : Segment) : Nat := (min seg.byteSize.toInt 2147483647).toNat

section

variable {malformed : List UInt8 → Nat} {fuel length p : Nat} {seg : Segment}

theorem reach_spec (seg : Segment) :
    (min seg.byteSize.toInt 2147483647 : Int) = seg.reach ∧ (seg.reach : Int) ≤ seg.byteSize.toInt ∧
      seg.reach < 2 ^ 31 := by
  have h := seg.byteSize_nonneg
  unfold Segment.reach
  omega

theorem FirstZero.unique {q : Nat} (hp : FirstZero seg p) (hq : FirstZero seg q) : p = q :=
  Nat.le_antisymm (hp.2.le_firstZero hq) (hq.2.le_firstZero hp)

/-! ## The fallback -/

theorem findZero_of_zero {bytes : Nat → UInt8} {i n : Nat} (hz : ∀ j, i ≤ j → j < p → bytes j ≠ 0)
    (hp : bytes p = 0) (hip : i ≤ p) (hn : p < i + n) :
    Segment.findZero bytes i n = some p := by
  induction n generalizing i with
  | zero => omega
  | succ n ih =>
    unfold Segment.findZero
    by_cases h : bytes i = 0
    · have hpi : p = i := by
        by_contra hne
        exact hz i (Nat.le_refl i) (by omega) h
      rw [if_pos h, hpi]
    · have hne : i ≠ p := fun he => h (he ▸ hp)
      rw [if_neg h]
      exact ih (fun j hj => hz j (by omega)) (by omega) (by omega)

theorem getString_of_firstZero (hp : FirstZero seg p) (hlt : p < seg.reach) :
    seg.getString malformed = .ok (decode malformed (seg.take p)) := by
  have hfind : Segment.findZero seg.bytes 0 seg.reach = some p :=
    findZero_of_zero (fun j _ hj => hp.2 j hj) hp.1 (Nat.zero_le p) (by omega)
  unfold Segment.getString
  unfold Segment.reach at hfind
  rw [hfind]
  rfl

/-! ## `strlen` in bounds -/

theorem strlen_of_firstZero (hp : FirstZero seg p) (hlt : p < length)
    (hsize : length ≤ seg.byteSize.toInt) (hlen : length < 2 ^ 31)
    (hfuel : length / 16 + 17 ≤ fuel) :
    ∃ v t, strlen fuel seg length [] = .ok (some v) t ∧ Stops seg p v := by
  have hspec : Ensures _ _ (strlen fuel seg length []) := strlen_spec hlen hfuel
  generalize strlen fuel seg length [] = r at hspec ⊢
  cases hspec with
  | ok h =>
    obtain ⟨v, rfl, ⟨q, hq, -, hstops⟩, -⟩ := h
    rw [hq.unique hp] at hstops
    exact ⟨v, _, rfl, hstops⟩
  | error h =>
    rcases h.1 with ⟨-, hover⟩ | ⟨-, hz⟩
    · omega
    · exact absurd (hz.le_firstZero hp) (by omega)

theorem strlen_of_noZero (hz : NoZero seg length) (hsize : length ≤ seg.byteSize.toInt)
    (hlen : length < 2 ^ 31) (hfuel : length / 16 + 17 ≤ fuel) :
    ∃ t, strlen fuel seg length [] = .error (.illegalArgument "String too large") t := by
  have hspec : Ensures _ _ (strlen fuel seg length []) := strlen_spec hlen hfuel
  generalize strlen fuel seg length [] = r at hspec ⊢
  cases hspec with
  | ok h =>
    obtain ⟨v, rfl, ⟨q, hq, hlt, -⟩, -⟩ := h
    exact absurd (hz.le_firstZero hq) (by omega)
  | error h =>
    rcases h.1 with ⟨-, hover⟩ | ⟨rfl, -⟩
    · omega
    · exact ⟨_, rfl⟩

/-! ## `getUtf8String` -/

theorem tmod_eq_zero_iff (a : Long) : a.toInt.tmod speciesLength = 0 ↔ 16 ∣ a.toNat := by
  have hlt := a.isLt
  rw [← Int.dvd_iff_tmod_eq_zero, BitVec.toInt_eq_toNat_cond]
  unfold speciesLength
  split <;> omega

theorem copyToArray_take (h : p ≤ seg.byteSize.toInt) : seg.copyToArray p = .ok (seg.take p) := by
  have hinside : seg.Inside 0 p := by unfold Segment.Inside; omega
  unfold Segment.copyToArray
  rw [if_neg (by omega), if_pos hinside]
  rfl

theorem newAsciiString_take (h : ∀ i < p, 0 < signed (seg.bytes i)) :
    newAsciiString (seg.take p) = decode malformed (seg.take p) := by
  refine (decode_ascii ?_).symm
  intro b hb
  obtain ⟨i, hi, rfl⟩ := List.mem_map.mp hb
  exact lt_of_signed_pos (h i (List.mem_range.mp hi))

/-- What becomes of the length that `strlen` returns. -/
theorem getUtf8String_of_stops {v : Int} {t : List Event}
    (ha : seg.address.toInt.tmod speciesLength = 0)
    (hv : strlen fuel seg seg.reach [] = .ok (some v) t) (hstops : Stops seg p v)
    (hp : p < seg.reach) :
    Loop.outcome (getUtf8String malformed fuel seg []) =
      .ok (some (decode malformed (seg.take p))) := by
  obtain ⟨hmin, hsize, hlen⟩ := reach_spec seg
  have hcopy : seg.copyToArray p = .ok (seg.take p) := copyToArray_take (by omega)
  unfold getUtf8String
  rw [if_neg (not_not.mpr ha), hmin, int32_eq (by omega) (by omega), Method.bind_apply, hv]
  rcases hstops with ⟨hpos, rfl⟩ | ⟨⟨i, hi, -⟩, rfl⟩
  · by_cases h0 : (p : Int) = 0
    · obtain rfl : p = 0 := by omega
      rfl
    · have hnonneg : ¬ (p : Int) < 0 := by omega
      simp only [h0, hnonneg, if_false, if_true, Method.bind_apply, hcopy, Method.ofExcept_ok]
      rw [newAsciiString_take hpos]
      rfl
  · have hneg : -(p : Int) < 0 := by omega
    have h0 : -(p : Int) ≠ 0 := by omega
    have hback : int32 (- -(p : Int)) = p := by rw [Int.neg_neg, int32_eq (by omega) (by omega)]
    simp only [h0, hneg, hback, if_false, if_true, Bool.false_eq_true, Method.bind_apply, hcopy,
      Method.ofExcept_ok]
    rfl

theorem getUtf8String_of_firstZero (hp : FirstZero seg p) (hlt : p < seg.reach)
    (hfuel : 134217744 ≤ fuel) :
    Loop.outcome (getUtf8String malformed fuel seg []) =
      .ok (some (decode malformed (seg.take p))) := by
  obtain ⟨-, hsize, hlen⟩ := reach_spec seg
  by_cases ha : seg.address.toInt.tmod speciesLength = 0
  · have hrounds : seg.reach / 16 + 17 ≤ fuel := by omega
    obtain ⟨v, t, hv, hstops⟩ := strlen_of_firstZero hp hlt hsize hlen hrounds
    exact getUtf8String_of_stops ha hv hstops hlt
  · unfold getUtf8String
    rw [if_pos ha, getString_of_firstZero hp hlt]
    rfl

theorem getUtf8String_of_noZero (ha : 16 ∣ seg.address.toNat) (hz : NoZero seg seg.reach)
    (hfuel : 134217744 ≤ fuel) :
    Loop.outcome (getUtf8String malformed fuel seg []) =
      .error (.illegalArgument "String too large") := by
  obtain ⟨hmin, hsize, hlen⟩ := reach_spec seg
  have hrounds : seg.reach / 16 + 17 ≤ fuel := by omega
  obtain ⟨t, ht⟩ := strlen_of_noZero hz hsize hlen hrounds
  unfold getUtf8String
  rw [if_neg (not_not.mpr ((tmod_eq_zero_iff _).mpr ha)), hmin, int32_eq (by omega) (by omega),
    Method.bind_apply, ht]
  rfl

end

/-- **The vectorised reader agrees with the plain one.** With the first zero
byte at `p`, in reach, both decode the bytes before it, whatever the address
and what follows; `strlen` returns `p`, negated if a byte before it is
negative. An aligned segment without a zero byte in reach is refused. -/
theorem getUtf8String_agrees (malformed : List UInt8 → Nat) (seg : Segment) (fuel : Nat)
    (hfuel : 134217744 ≤ fuel) :
    (∀ p, FirstZero seg p → p < seg.reach →
        Loop.outcome (getUtf8String malformed fuel seg []) =
          .ok (some (decode malformed (seg.take p))) ∧
        seg.getString malformed = .ok (decode malformed (seg.take p)) ∧
        (∀ seg' : Segment, (∀ i ≤ p, seg'.bytes i = seg.bytes i) → p < seg'.reach →
          Loop.outcome (getUtf8String malformed fuel seg' []) =
            Loop.outcome (getUtf8String malformed fuel seg [])) ∧
        ∀ length : Nat, p < length → length ≤ seg.byteSize.toInt → length < 2 ^ 31 →
          ((∀ i < p, 1 ≤ signed (seg.bytes i) ∧ signed (seg.bytes i) ≤ 127) →
            Loop.outcome (strlen fuel seg length []) = .ok (some p)) ∧
          ((∃ i < p, signed (seg.bytes i) < 0) →
            Loop.outcome (strlen fuel seg length []) = .ok (some (-p)))) ∧
      (16 ∣ seg.address.toNat → NoZero seg seg.reach →
        Loop.outcome (getUtf8String malformed fuel seg []) =
          .error (.illegalArgument "String too large")) := by
  refine ⟨?_, fun ha hz => getUtf8String_of_noZero ha hz hfuel⟩
  intro p hp hlt
  have hget : Loop.outcome (getUtf8String malformed fuel seg []) =
      .ok (some (decode malformed (seg.take p))) :=
    getUtf8String_of_firstZero hp hlt hfuel
  refine ⟨hget, getString_of_firstZero hp hlt, ?_, ?_⟩
  · intro seg' hbytes hlt'
    have htake : seg'.take p = seg.take p :=
      List.map_congr_left fun i hi => hbytes i (Nat.le_of_lt (List.mem_range.mp hi))
    have hp' : FirstZero seg' p :=
      ⟨(hbytes p (Nat.le_refl p)).trans hp.1,
        fun i hi h0 => hp.2 i hi (hbytes i (Nat.le_of_lt hi) ▸ h0)⟩
    rw [hget, getUtf8String_of_firstZero hp' hlt' hfuel, htake]
  · intro length hpl hsize hlen
    have hrounds : length / 16 + 17 ≤ fuel := by omega
    obtain ⟨v, t, hv, hstops⟩ := strlen_of_firstZero hp hpl hsize hlen hrounds
    rw [hv]
    rcases hstops with ⟨hpos, rfl⟩ | ⟨⟨i, hi, hneg⟩, rfl⟩
    · refine ⟨fun _ => rfl, fun h => ?_⟩
      obtain ⟨i, hi, hneg⟩ := h
      exact absurd (hpos i hi) (by omega)
    · refine ⟨fun h => ?_, fun _ => rfl⟩
      exact absurd (h i hi).1 (by omega)

theorem getUtf8String_agrees_twentyLetters :
    Loop.outcome (getUtf8String (fun _ => 0) 134217744 twentyLetters []) =
      .ok (some (List.replicate 20 65)) := by
  have hagrees := getUtf8String_agrees (fun _ => 0) twentyLetters 134217744 (by decide)
  have hdecode : decode (fun _ => 0) (twentyLetters.take 20) = List.replicate 20 65 := by
    rw [decode_ascii]
    · rfl
    · intro b hb
      obtain ⟨i, -, rfl⟩ := List.mem_map.mp hb
      show (if i = 20 then (0 : UInt8) else 65) < 128
      split <;> decide
  rw [(hagrees.1 20 firstZero_twentyLetters (by decide)).1, hdecode]

/-! ## `allocateAlignmentString` -/

/-- The memory after `allocateAlignmentString`: the bytes, the terminator, and
after it what was there. -/
def written (block : Segment) (array : List UInt8) : Segment :=
  { block with bytes := fun i => if i = array.length then 0 else array.getD i (block.bytes i) }

section

variable {arena : Long → Long → Except Exn Segment} {block : Segment} {str : List UInt16}

theorem allocateAlignmentString_ok (hlen : (encode str).length < 2 ^ 31 - 1)
    (harena : arena (.ofNat 64 ((encode str).length + 1)) 16 = .ok block)
    (hsize : block.byteSize = .ofNat 64 ((encode str).length + 1))
    (halign : 16 ∣ block.address.toNat) :
    allocateAlignmentString arena str = .ok (written block (encode str)) := by
  generalize hbytes : encode str = bytes at *
  have hbyteSize : block.byteSize.toInt = bytes.length + 1 := by
    rw [hsize, BitVec.toInt_eq_toNat_cond, BitVec.toNat_ofNat]
    omega
  have hget : getBytes str = .ok bytes := by
    unfold getBytes
    rw [hbytes, if_pos (by omega)]
  have hallocate : allocate arena (int32 (bytes.length + 1)) (.ofNat 64 speciesLength) =
      .ok block := by
    have hcount : BitVec.ofInt 64 ((bytes.length : Int) + 1) = .ofNat 64 (bytes.length + 1) := by
      rw [← Int.natCast_add_one, BitVec.ofInt_natCast]
    unfold allocate
    rw [int32_eq (by omega) (by omega), if_neg (by omega), hcount]
    exact harena
  have hcopy : block.copyFrom bytes =
      .ok { block with bytes := fun i => bytes.getD i (block.bytes i) } := by
    unfold Segment.copyFrom
    rw [if_pos (by unfold Segment.Inside; omega)]
  have hset : ({ block with bytes := fun i => bytes.getD i (block.bytes i) } : Segment).set
      bytes.length 0 = .ok (written block bytes) := by
    unfold Segment.set
    rw [if_pos (by unfold Segment.Inside; dsimp only; omega)]
    rfl
  have htmod := (tmod_eq_zero_iff block.address).mpr halign
  unfold allocateAlignmentString
  rw [hget, ok_bind, hallocate, ok_bind, if_neg (not_not.mpr htmod), hcopy, ok_bind, hset]

/-- A segment that holds the bytes and a terminator is read as the string. -/
theorem getUtf8String_of_encode {malformed : List UInt8 → Nat} {fuel : Nat} {seg : Segment}
    (hstr : WellFormed str) (h0 : 0 ∉ str) (hlen : (encode str).length < seg.reach)
    (hfuel : 134217744 ≤ fuel)
    (hbytes : ∀ i (h : i < (encode str).length), seg.bytes i = (encode str).get ⟨i, h⟩)
    (hzero : seg.bytes (encode str).length = 0) :
    Loop.outcome (getUtf8String malformed fuel seg []) = .ok (some str) := by
  have hp : FirstZero seg (encode str).length := by
    refine ⟨hzero, fun i hi hz => zero_not_mem_encode hstr h0 ?_⟩
    rw [← hz, hbytes i hi]
    exact List.get_mem _ _
  have htake : seg.take (encode str).length = encode str := by
    refine List.ext_getElem (by simp [Segment.take]) ?_
    intro i h₁ h₂
    simpa [Segment.take] using hbytes i h₂
  rw [getUtf8String_of_firstZero hp hlen hfuel, htake, decode_encode hstr]

end

/-- `Long.MAX_VALUE` -/
def maxValue : Long := 0x7fffffffffffffff

theorem maxValue_nonneg : 0 ≤ maxValue.toInt := by decide

/-- **What is written is read back**, in the segment that was allocated and
without its bounds, whatever comes after the terminator. -/
theorem getUtf8String_allocateAlignmentString (malformed : List UInt8 → Nat) (fuel : Nat)
    (arena : Long → Long → Except Exn Segment) (block : Segment) (str : List UInt16)
    (hstr : WellFormed str) (h0 : 0 ∉ str) (hlen : (encode str).length < 2 ^ 31 - 1)
    (harena : arena (.ofNat 64 ((encode str).length + 1)) 16 = .ok block)
    (hsize : block.byteSize = .ofNat 64 ((encode str).length + 1))
    (halign : 16 ∣ block.address.toNat) (hfuel : 134217744 ≤ fuel) :
    ∃ seg, allocateAlignmentString arena str = .ok seg ∧
      Loop.outcome (getUtf8String malformed fuel seg []) = .ok (some str) ∧
      ∀ memory : Nat → UInt8, (∀ i ≤ (encode str).length, memory i = seg.bytes i) →
        Loop.outcome (getUtf8String malformed fuel
          (Segment.reinterpret { seg with bytes := memory } maxValue maxValue_nonneg) []) =
            .ok (some str) := by
  have hbyteSize : block.byteSize.toInt = (encode str).length + 1 := by
    rw [hsize, BitVec.toInt_eq_toNat_cond, BitVec.toNat_ofNat]
    omega
  have hbytes : ∀ i (h : i < (encode str).length), (written block (encode str)).bytes i =
      (encode str).get ⟨i, h⟩ := by
    intro i hi
    simp [written, Nat.ne_of_lt hi, hi]
  have hzero : (written block (encode str)).bytes (encode str).length = 0 := by simp [written]
  refine ⟨written block (encode str), allocateAlignmentString_ok hlen harena hsize halign, ?_, ?_⟩
  · refine getUtf8String_of_encode hstr h0 ?_ hfuel hbytes hzero
    show (encode str).length < (min block.byteSize.toInt 2147483647).toNat
    omega
  · intro memory hmemory
    refine getUtf8String_of_encode hstr h0 ?_ hfuel ?_ ?_
    · show (encode str).length < (min maxValue.toInt 2147483647).toNat
      have hmax : maxValue.toInt = 9223372036854775807 := by decide
      omega
    · intro i hi
      exact (hmemory i (Nat.le_of_lt hi)).trans (hbytes i hi)
    · exact (hmemory _ (Nat.le_refl _)).trans hzero

/-- An arena of zeroed memory at address 0. -/
def zeroed (size _ : Long) : Except Exn Segment :=
  if h : 0 ≤ size.toInt then .ok ⟨0, size, fun _ => 0, h⟩ else .error .outOfMemory

/-- `é`, an ASCII letter and a character outside the basic plane. -/
theorem getUtf8String_allocateAlignmentString_zeroed :
    ∃ seg, allocateAlignmentString zeroed [0xE9, 0x61, 0xD83D, 0xDE00] = .ok seg ∧
      Loop.outcome (getUtf8String (fun _ => 0) 134217744 seg []) =
        .ok (some [0xE9, 0x61, 0xD83D, 0xDE00]) := by
  obtain ⟨seg, hseg, hread, -⟩ :=
    getUtf8String_allocateAlignmentString (fun _ => 0) 134217744 zeroed
    ⟨0, 8, fun _ => 0, by decide⟩ [0xE9, 0x61, 0xD83D, 0xDE00] (by decide) (by decide) (by decide)
      rfl rfl (by decide) (by decide)
  exact ⟨seg, hseg, hread⟩

end FfiBenchmark.GetString
