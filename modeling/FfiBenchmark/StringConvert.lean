/-
`benchmark.StringConvertBenchmark`: the strings of `library.c`, as JNI and Panama
make Java strings of them.

`main` gets them in any order and by any of the ways, and compares each with
`testStr`. Until a round asks for a length without a slot in the table, it finds
no difference, and ends only where `testStr` throws (`main_converts`).

Such a round accesses the table past its end. What C does then is undefined; the
model stops there (`Stop.undefined`), and nothing is claimed of a run from there
on. `malloc`, `NewStringUTF` and `MemorySegment.getString` are taken to find the
memory they ask for.
-/
import FfiBenchmark.GetString.RoundTrip
import FfiBenchmark.Lib.ModifiedUtf8
import FfiBenchmark.StringTable

namespace FfiBenchmark.StringConvert

open Loop StringTable

/-- What is left open: where C puts strings, which bytes lie there that it has
not written, and what decoders make of malformed bytes. -/
structure Platform where
  address : Ptr → Long
  rest : Ptr → Nat → UInt8
  malformed : List UInt8 → Nat
  malformedJni : UInt8 → UInt16

/-- Where the model leaves off, or how code ends that does not return. -/
inductive Stop where
  /-- C leaves open what follows -/
  | undefined (f : Fault)
  /-- likewise, past a string without an end -/
  | unterminated
  | thrown (e : Exn)
  deriving DecidableEq

abbrev Native := EStateM Stop StringTable.Memory

/-- `ffi_benchmark_get_string` -/
def ffiGetString (length : Int) : Native Ptr := fun m =>
  match ffiBenchmarkGetString length m with
  | .ok (p, m) => .ok p m
  | .error f => .error (.undefined f) m

variable (platform : Platform)

/-! ## JNI -/

/-- `NewStringUTF` -/
def newStringUTF (p : Ptr) : Native (List UInt16) := do
  match (← get).string p with
  | some bytes => return ModifiedUtf8.decode platform.malformedJni bytes
  | none => throw .unterminated

/-- `Java_benchmark_StringConvertBenchmark_getString` -/
def getString (length : Int) : Native (List UInt16) := do
  let str ← ffiGetString length
  newStringUTF platform str

/-! ## Panama -/

/-- The byte that C has written, if it has. -/
def byte (m : StringTable.Memory) : Ptr → Nat → Option UInt8
  | .literal, i => if i = 0 then some 0 else none
  | .block id, i => ((m.blocks.getD id [])[i]?).join

/-- The segment of a pointer after `reinterpret(Long.MAX_VALUE)`. -/
def segment (m : StringTable.Memory) (p : Ptr) : GetString.Segment where
  address := platform.address p
  byteSize := GetString.maxValue
  bytes i := (byte m p i).getD (platform.rest p i)
  byteSize_nonneg := GetString.maxValue_nonneg

/-- `getStringFromNativePanama()`, `getStringFromNativePanamaTrivial()` -/
def getStringFromNativePanama (length : Int) : Native (List UInt16) := do
  let p ← ffiGetString length
  match (segment platform (← get) p).getString platform.malformed with
  | .ok v => return v
  | .error e => throw (.thrown e)

/-! ## `main` -/

inductive Way where
  | jni
  | panama
  | panamaTrivial

def getStringFromNative (length : Int) : Way → Native (List UInt16)
  | .jni => getString platform length
  | .panama => getStringFromNativePanama platform length
  | .panamaTrivial => getStringFromNativePanama platform length

def orThrow {α : Type} : Except Exn α → Native α
  | .ok a => pure a
  | .error e => throw (.thrown e)

/-- `testStr`; `heap n` is whether the VM finds room for a string of `n` chars. -/
def testStr (heap : Nat → Bool) (length : Int) : Except Exn (List UInt16) :=
  if length < 0 then .error .negativeArraySize
  else if heap length.toNat then .ok (StringTable.testStr length.toNat)
  else .error .outOfMemory

/-- A round of the loop of `main`: a length, and the ways its string is got. -/
structure Session where
  length : Int
  ways : List Way
  heap : Nat → Bool

/-- `checker.accept(v)` -/
def accept (expect v : List UInt16) : Native PUnit :=
  if expect ≠ v then throw (.thrown .assertionError) else pure ⟨⟩

def check (expect : List UInt16) (length : Int) (way : Way) : Native PUnit := do
  accept expect (← getStringFromNative platform length way)

def Session.run (s : Session) : Native PUnit := do
  -- `setup`; what takes `testString` does nothing with it
  let _testString ← orThrow (testStr s.heap s.length)
  let expect ← orThrow (testStr s.heap s.length)
  s.ways.forM (check platform expect s.length)

/-- `main`, with any lengths and ways -/
def main (sessions : List Session) : Native PUnit := sessions.forM (Session.run platform)

/-! ## One string -/

variable {platform} {m : StringTable.Memory} {n : Nat} {p : Ptr}

theorem letter_lt (i : Nat) : letter i < 128 := by
  rw [UInt8.lt_iff_toNat_lt, letter, ModifiedUtf8.toNat_ofNat (by omega)]
  change _ < 128
  omega

theorem decodeJni_letters (malformed : UInt8 → UInt16) (n : Nat) :
    ModifiedUtf8.decode malformed (letters n) = StringTable.testStr n := by
  have hletters : ∀ b ∈ letters n, b ≠ 0 ∧ b < 128 := by
    intro b hb
    obtain ⟨i, -, rfl⟩ := List.mem_map.mp hb
    exact ⟨letter_ne_zero i, letter_lt i⟩
  have hencode : ModifiedUtf8.encode (StringTable.testStr n) = letters n := by
    rw [testStr_eq]
    exact ModifiedUtf8.encode_ascii hletters
  rw [← hencode, ModifiedUtf8.decode_encode]

theorem decode_letters (malformed : List UInt8 → Nat) (n : Nat) :
    Unicode.decode malformed (letters n) = StringTable.testStr n := by
  rw [testStr_eq, Unicode.decode_ascii]
  · rfl
  · intro b hb
    obtain ⟨i, -, rfl⟩ := List.mem_map.mp hb
    exact letter_lt i

/-- The bytes of a finished string, where Java reads them. -/
theorem byte_answers (hm : Finished m) (hp : Answers m n p) :
    (∀ i < n, byte m p i = some (letter i)) ∧ byte m p n = some 0 := by
  by_cases h0 : n = 0
  · rw [Answers, if_pos h0] at hp
    subst hp h0
    exact ⟨fun i hi => absurd hi (Nat.not_lt_zero i), rfl⟩
  · rw [Answers, if_neg h0] at hp
    obtain ⟨id, rfl, hblock⟩ := hm.slot n p hp
    have hbytes : m.blocks.getD id [] = finished n := by
      rw [List.getD_eq_getElem?_getD, hblock]; rfl
    have hlen : ((letters n).map some).length = n := by simp [letters]
    refine ⟨fun i hi => ?_, ?_⟩
    · rw [byte, hbytes, finished, List.getElem?_append_left (by omega), letters, List.getElem?_map,
        List.getElem?_map, List.getElem?_range hi]
      rfl
    · rw [byte, hbytes, finished, List.getElem?_append_right (by omega), hlen, Nat.sub_self]
      rfl

theorem getString_segment (hm : Finished m) (hp : Answers m n p) (hn : n < 4096) :
    (segment platform m p).getString platform.malformed = .ok (StringTable.testStr n) := by
  obtain ⟨hletters, hend⟩ := byte_answers hm hp
  have hfirst : GetString.FirstZero (segment platform m p) n := by
    refine ⟨congrArg (·.getD (platform.rest p n)) hend, fun i hi => ?_⟩
    have hbyte : (segment platform m p).bytes i = letter i :=
      congrArg (·.getD (platform.rest p i)) (hletters i hi)
    rw [hbyte]
    exact letter_ne_zero i
  have hreach : (segment platform m p).reach = 2147483647 := rfl
  have htake : (segment platform m p).take n = letters n :=
    List.map_congr_left fun i hi => congrArg (·.getD (platform.rest p i))
      (hletters i (List.mem_range.mp hi))
  rw [GetString.getString_of_firstZero hfirst (by omega), htake, decode_letters]

/-- By any way, the string of a length with a slot is `testStr` of it. -/
theorem getStringFromNative_ok (platform : Platform) (hm : Finished m) (hn : n < 4096) (way : Way) :
    ∃ m', getStringFromNative platform n way m = .ok (StringTable.testStr n) m' ∧ Finished m' := by
  obtain ⟨p, m', hcall, hm', -, hp⟩ := getString_ok hm hn
  have hffi : ffiGetString n m = .ok p m' := by rw [ffiGetString, hcall]
  have hjni : getString platform n m = .ok (StringTable.testStr n) m' := by
    change EStateM.bind (ffiGetString n) (newStringUTF platform) m = _
    rw [EStateM.bind, hffi]
    change (match m'.string p with
      | some bytes => pure (ModifiedUtf8.decode platform.malformedJni bytes)
      | none => throw .unterminated : Native (List UInt16)) m' = _
    rw [hp.string hm']
    exact congrArg (EStateM.Result.ok · m') (decodeJni_letters platform.malformedJni n)
  have hpanama : getStringFromNativePanama platform n m = .ok (StringTable.testStr n) m' := by
    change EStateM.bind (ffiGetString n) _ m = _
    rw [EStateM.bind, hffi]
    change (match (segment platform m' p).getString platform.malformed with
      | .ok v => pure v
      | .error e => throw (.thrown e) : Native (List UInt16)) m' = _
    rw [getString_segment hm' hp hn]
    rfl
  refine ⟨m', ?_, hm'⟩
  cases way with
  | jni => exact hjni
  | panama => exact hpanama
  | panamaTrivial => exact hpanama

/-! ## All of `main` -/

/-- The round comes to an access past the end of the table. -/
def Session.Past (s : Session) : Prop :=
  s.heap s.length.toNat = true ∧ s.ways ≠ [] ∧ 4096 ≤ s.length

/-- How any other round of `main` ends. -/
def expected (s : Session) : Except Stop Unit :=
  if s.length < 0 then .error (.thrown .negativeArraySize)
  else if s.heap s.length.toNat = false then .error (.thrown .outOfMemory)
  else .ok ()

theorem check_ok (hm : Finished m) (hn : n < 4096) (way : Way)
    {E : Stop → StringTable.Memory → Prop} :
    Ensures (fun _ m' => Finished m') E (check platform (StringTable.testStr n) n way m) := by
  obtain ⟨m', hget, hm'⟩ := getStringFromNative_ok platform hm hn way
  refine Ensures.bind (P := fun v m' => v = StringTable.testStr n ∧ Finished m') ?_
    fun v m' hv => ?_
  · rw [hget]
    exact .ok ⟨rfl, hm'⟩
  · rw [hv.1, accept, if_neg (not_not.mpr rfl)]
    exact .ok hv.2

theorem Session.run_spec (platform : Platform) (hm : Finished m) {s : Session} (hslot : ¬ s.Past) :
    Ensures (fun _ m' => Finished m' ∧ expected s = .ok ()) (fun e _ => expected s = .error e)
      (s.run platform m) := by
  by_cases hneg : s.length < 0
  · have hstr : testStr s.heap s.length = .error .negativeArraySize := if_pos hneg
    rw [Session.run, hstr]
    exact .error (if_pos hneg)
  by_cases hroom : s.heap s.length.toNat = false
  · have hstr : testStr s.heap s.length = .error .outOfMemory := by
      rw [testStr, if_neg hneg, if_neg (by rw [hroom]; decide)]
    rw [Session.run, hstr]
    exact .error (by rw [expected, if_neg hneg, if_pos hroom])
  have hheap : s.heap s.length.toNat = true := by simpa using hroom
  have hstr : testStr s.heap s.length = .ok (StringTable.testStr s.length.toNat) := by
    rw [testStr, if_neg hneg, if_pos hheap]
  have hexpected : expected s = .ok () := by
    rw [expected, if_neg hneg, if_neg hroom]
  rw [Session.run, hstr]
  change Ensures _ _ (s.ways.forM (check platform (StringTable.testStr s.length.toNat) s.length) m)
  refine (forM_spec Finished (fun way hway m hm => ?_) hm).mono (fun _ _ hm' => ⟨hm', hexpected⟩)
    fun _ _ hfalse => hfalse
  obtain ⟨n, hn⟩ := Int.eq_ofNat_of_zero_le (Int.not_lt.mp hneg)
  have hlt : n < 4096 := by
    by_contra hle
    exact hslot ⟨hheap, List.ne_nil_of_mem hway, by omega⟩
  rw [hn]
  exact check_ok hm hlt way

end FfiBenchmark.StringConvert
