/-
Threads that use `NativeStack` the way it is meant to be used:

    try (var stack = NativeStack.pushStack()) { .. stack.allocate(..) .. }

A thread gets its stack by `pushStack`, and calls `getStack` inside a block only,
where it finds the block's stack. It calls `push`, `allocate` and `close` only on
the stack of a block it is in, and ends outside of every block. Then `close`
throws nothing and no call is refused for its thread; a virtual thread never ends
with a stack bound, and the stacks in `cachePool` are as good as new.

Outside of blocks `getStack` would break this: a virtual thread that ends after it
takes its stack away.

All of this is shown of the service (`Orderly`), where a call is one step, and
carried over to the threads by the simulation.
-/
import FfiBenchmark.Pool.Atomicity

namespace FfiBenchmark.Pool

open NativeStack (Call)

variable {Thread : Type}

/-- The blocks a thread is in, by their stacks, the innermost first; and the
stack that `getStack` gave to a `pushStack` that has not pushed yet. -/
structure Client where
  frames : List Nat
  asked : Option Nat

namespace Client

def init : Client := ⟨[], none⟩

/-- A thread in those blocks may make the call. -/
def Allows (c : Client) : Act → Prop
  | .getStack => c.frames ≠ []
  | .push r _ | .allocate r _ _ | .close r => r ∈ c.frames
  | .exit => c.frames = []
  | .pushStack | .next _ => True

instance (c : Client) (act : Act) : Decidable (c.Allows act) :=
  match act with
  | .getStack => inferInstanceAs (Decidable (c.frames ≠ []))
  | .push r _ | .allocate r _ _ | .close r => inferInstanceAs (Decidable (r ∈ c.frames))
  | .exit => inferInstanceAs (Decidable (c.frames = []))
  | .pushStack | .next _ => inferInstanceAs (Decidable True)

/-- The same, of the calls of the service. -/
def Permits (c : Client) : Request → Prop
  | .getStack true => c.asked = none
  | .getStack false => c.asked = none ∧ c.frames ≠ []
  | .call r (.push _) => c.asked = some r ∨ c.asked = none ∧ r ∈ c.frames
  | .call r (.allocate _ _) | .call r .close => c.asked = none ∧ r ∈ c.frames
  | .exit => c.asked = none ∧ c.frames = []

/-- A call of the thread and its result. -/
def see (c : Client) (request : Request) (outcome : Outcome) : Client :=
  match request, outcome with
  | .getStack true, .stack r => { c with asked := some r }
  | .call r (.push _), .returned _ => ⟨r :: c.frames, none⟩
  | .call _ (.push _), _ => { c with asked := none }
  | .call _ .close, .returned _ => { c with frames := c.frames.tail }
  | _, _ => c

@[simp] theorem asked_see_push (c : Client) (r : Nat) (heap : Nat → Bool) (out : Outcome) :
    (c.see (.call r (.push heap)) out).asked = none := by
  cases out <;> rfl

/-- The statements a thread can be at. -/
def At (c : Client) : Pc → Prop
  | .idle | .missing true => c.asked = none
  | .registering r _ true | .setting r true | .pushing r => c.asked = some r
  | .testing r | .restoring r _ | .dropping r _ | .returning r _ | .unsetting r | .disowning r
  | .caching r =>
    c.asked = none ∧ r ∈ c.frames
  | .missing false | .registering _ _ false | .setting _ false => c.asked = none ∧ c.frames ≠ []

end Client

/-! ## The service -/

theorem headD_eq {marks : List Nat} (h : marks ≠ []) {offset offset' : Nat} :
    marks.headD offset = marks.headD offset' := by
  cases marks with
  | nil => exact absurd rfl h
  | cons _ _ => rfl

theorem headD_concat (marks : List Nat) (mark offset : Nat) :
    (marks ++ [mark]).headD offset = marks.headD mark := by
  cases marks <;> rfl

/-- What holds of the service when all clients keep to their blocks. -/
structure Orderly (cfg : Config Thread) (a : Service Thread)
    (clients : Thread → Client) : Prop where
  mine : ∀ t r, r ∈ (clients t).frames ∨ (clients t).asked = some r → a.holds t = some r
  open_frames : ∀ t r, a.holds t = some r →
    ∃ sheet, a.sheets[r]? = some sheet ∧ sheet.shared = cfg.isVirtual t ∧
    sheet.marks.length = (clients t).frames.length ∧
    (sheet.shared = true → (clients t).frames ≠ [] ∨ (clients t).asked = some r)
  clean : ∀ (r : Nat) sheet, a.sheets[r]? = some sheet → sheet.marks.headD sheet.offset = 0
  free : ∀ r ∈ a.free, ∃ sheet, a.sheets[r]? = some sheet ∧ sheet.shared = true ∧ sheet.marks = []
  alone : ∀ t t' r, a.holds t = some r → a.holds t' = some r → t = t'
  apart : ∀ t r, a.holds t = some r → r ∉ a.free
  once : a.free.Nodup

/-- What a call may throw. -/
def Request.Throws : Request → Exn → Prop
  | .getStack thenPush, e => thenPush = true ∧ e = .outOfMemory
  | .call _ (.push _), e => e = .negativeArraySize ∨ e = .outOfMemory
  | .call _ (.allocate byteSize byteAlignment), e => Sheet.Refused byteSize byteAlignment e
  | .call _ .close, _ => False
  | .exit, _ => False

namespace Orderly

variable {cfg : Config Thread} {a a' : Service Thread} {clients : Thread → Client}
  {e : Event Thread} {t : Thread} {r : Nat} {sheet sheet' : Sheet} {c : Call} {out : Outcome}

theorem init (cfg : Config Thread) : Orderly cfg (Service.init Thread) fun _ => .init where
  mine := by simp [Client.init]
  open_frames := by simp [Service.init]
  clean := by simp [Service.init]
  free := by simp [Service.init]
  alone := by simp [Service.init]
  apart := by simp [Service.init]
  once := List.nodup_nil

/-- A thread without a stack is in no block. -/
theorem outside (h : Orderly cfg a clients) (hb : a.holds t = none) :
    (clients t).frames = [] ∧ (clients t).asked = none := by
  have hnone : ∀ r, ¬ (r ∈ (clients t).frames ∨ (clients t).asked = some r) := by
    intro r hr
    have := h.mine t r hr
    rw [hb] at this
    cases this
  exact ⟨List.eq_nil_iff_forall_not_mem.mpr fun r hr => hnone r (.inl hr),
    Option.eq_none_iff_forall_ne_some.mpr fun r hr => hnone r (.inr hr)⟩

/-- A thread without a stack asks for one by `pushStack`. -/
theorem pushes (h : Orderly cfg a clients) (hb : a.holds t = none) {thenPush : Bool}
    (hp : (clients t).Permits (.getStack thenPush)) : thenPush = true := by
  cases thenPush with
  | false => exact absurd (h.outside hb).1 hp.2
  | true => rfl

/-- The blocks of a thread are on the one stack it holds. -/
theorem same (h : Orderly cfg a clients) (hb : a.holds t = some r) {r' : Nat}
    (hr : r' ∈ (clients t).frames ∨ (clients t).asked = some r') : r' = r := by
  have := h.mine t r' hr
  rw [hb] at this
  exact (Option.some.inj this).symm

variable [DecidableEq Thread]

/-- A call of `t` on the stack it holds, and keeps. -/
theorem keep (h : Orderly cfg a clients) {c' : Client} (hb : a.holds t = some r)
    (hsheet : a.sheets[r]? = some sheet) (hshared : sheet'.shared = sheet.shared)
    (hmarks : sheet'.marks.length = c'.frames.length)
    (hclean : sheet'.marks.headD sheet'.offset = 0)
    (hmine : ∀ r', r' ∈ c'.frames ∨ c'.asked = some r' → r' = r)
    (hin : sheet.shared = true → c'.frames ≠ [] ∨ c'.asked = some r) :
    Orderly cfg { a with sheets := a.sheets.set r sheet' } (Function.update clients t c') := by
  have hlt := (List.getElem?_eq_some_iff.mp hsheet).1
  refine ⟨fun t' r' hr => ?_, fun t' r' hb' => ?_, fun r' sheet'' hx => ?_, fun r' hr' => ?_,
    h.alone, h.apart, h.once⟩
  · rw [Function.update_apply] at hr
    split at hr
    · next ht =>
      rw [ht, hmine r' hr]
      exact hb
    · exact h.mine t' r' hr
  · obtain ⟨sheet₀, hsheet₀, hkind, hlen, hopen⟩ := h.open_frames t' r' hb'
    by_cases ht : t' = t
    · subst ht
      obtain rfl : r' = r := Option.some.inj (hb'.symm.trans hb)
      obtain rfl : sheet₀ = sheet := Option.some.inj (hsheet₀.symm.trans hsheet)
      rw [Function.update_self]
      exact ⟨sheet', List.getElem?_set_self hlt, hshared.trans hkind, hmarks,
        fun hs => hin (hshared.symm.trans hs)⟩
    · have hne : r ≠ r' := fun heq => ht (h.alone t' t r' hb' (heq ▸ hb))
      rw [Function.update_of_ne ht]
      exact ⟨sheet₀, (List.getElem?_set_ne hne).trans hsheet₀, hkind, hlen, hopen⟩
  · rcases Table.set_cases hx with ⟨rfl, rfl⟩ | ⟨-, hx⟩
    · exact hclean
    · exact h.clean r' sheet'' hx
  · obtain ⟨sheet₀, hsheet₀, hfree⟩ := h.free r' hr'
    have hne : r ≠ r' := fun heq => h.apart t r hb (heq ▸ hr')
    exact ⟨sheet₀, (List.getElem?_set_ne hne).trans hsheet₀, hfree⟩

/-- `t` gets a stack that nobody holds. -/
theorem lend (h : Orderly cfg a clients) {sheets : List Sheet} {free : List Nat}
    (hb : a.holds t = none) (hnobody : ∀ t', a.holds t' ≠ some r) (hsheet : sheets[r]? = some sheet)
    (hshared : sheet.shared = cfg.isVirtual t) (hmarks : sheet.marks = [])
    (hoffset : sheet.offset = 0)
    (hkept : ∀ (r' : Nat) sheet', a.sheets[r']? = some sheet' → sheets[r']? = some sheet')
    (hnew : ∀ (r' : Nat) sheet', sheets[r']? = some sheet' →
      a.sheets[r']? = some sheet' ∨ sheet' = sheet)
    (hfree : ∀ r' ∈ free, r' ∈ a.free ∧ r' ≠ r) (honce : free.Nodup) :
    Orderly cfg ⟨sheets, Function.update a.holds t (some r), free⟩
      (Function.update clients t ⟨(clients t).frames, some r⟩) := by
  obtain ⟨hframes, -⟩ := h.outside hb
  have hholds : ∀ t' r', Function.update a.holds t (some r) t' = some r' →
      t' = t ∧ r' = r ∨ t' ≠ t ∧ a.holds t' = some r' := by
    intro t' r' hb'
    rw [Function.update_apply] at hb'
    split at hb'
    · next ht => exact .inl ⟨ht, (Option.some.inj hb').symm⟩
    · next ht => exact .inr ⟨ht, hb'⟩
  refine ⟨fun t' r' hr => ?_, fun t' r' hb' => ?_, fun r' sheet' hx => ?_, fun r' hr' => ?_,
    fun t₁ t₂ r' h₁ h₂ => ?_, fun t' r' hb' hr' => ?_, honce⟩
  · change Function.update a.holds t (some r) t' = some r'
    rw [Function.update_apply] at hr ⊢
    split
    · next ht =>
      rw [if_pos ht, hframes] at hr
      exact hr.resolve_left List.not_mem_nil
    · next ht =>
      rw [if_neg ht] at hr
      exact h.mine t' r' hr
  · rcases hholds t' r' hb' with ⟨rfl, rfl⟩ | ⟨ht, hb'⟩
    · rw [Function.update_self, hframes]
      exact ⟨sheet, hsheet, hshared, by rw [hmarks], fun _ => .inr rfl⟩
    · obtain ⟨sheet', hsheet', hrest⟩ := h.open_frames t' r' hb'
      rw [Function.update_of_ne ht]
      exact ⟨sheet', hkept r' sheet' hsheet', hrest⟩
  · rcases hnew r' sheet' hx with hx | rfl
    · exact h.clean r' sheet' hx
    · rw [hmarks]
      exact hoffset
  · obtain ⟨sheet', hsheet', hrest⟩ := h.free r' (hfree r' hr').1
    exact ⟨sheet', hkept r' sheet' hsheet', hrest⟩
  · rcases hholds t₁ r' h₁ with ⟨ht₁, hr₁⟩ | ⟨-, h₁⟩
    · rcases hholds t₂ r' h₂ with ⟨ht₂, -⟩ | ⟨-, h₂⟩
      · rw [ht₁, ht₂]
      · exact absurd (hr₁ ▸ h₂) (hnobody t₂)
    · rcases hholds t₂ r' h₂ with ⟨-, hr₂⟩ | ⟨-, h₂⟩
      · exact absurd (hr₂ ▸ h₁) (hnobody t₁)
      · exact h.alone t₁ t₂ r' h₁ h₂
  · rcases hholds t' r' hb' with ⟨-, rfl⟩ | ⟨-, hb'⟩
    · exact (hfree r' hr').2 rfl
    · exact h.apart t' r' hb' (hfree r' hr').1

/-- `t` is out of its blocks and gives its stack up, if it has one. -/
theorem give (h : Orderly cfg a clients) {sheets : List Sheet} {free : List Nat} {c' : Client}
    (hout : c'.frames = []) (hasked : c'.asked = none)
    (hkept : ∀ r', a.holds t ≠ some r' → sheets[r']? = a.sheets[r']?)
    (hclean : ∀ (r' : Nat) sheet', a.holds t = some r' → sheets[r']? = some sheet' →
      sheet'.marks.headD sheet'.offset = 0)
    (hfree : ∀ r' ∈ free, r' ∈ a.free ∨ a.holds t = some r' ∧ ∃ sheet', sheets[r']? = some sheet' ∧
      sheet'.shared = true ∧ sheet'.marks = [])
    (honce : free.Nodup) :
    Orderly cfg ⟨sheets, Function.update a.holds t none, free⟩ (Function.update clients t c') := by
  have hholds : ∀ t' r', Function.update a.holds t none t' = some r' →
      t' ≠ t ∧ a.holds t' = some r' := by
    intro t' r' hb'
    rw [Function.update_apply] at hb'
    split at hb'
    · cases hb'
    · next ht => exact ⟨ht, hb'⟩
  refine ⟨fun t' r' hr => ?_, fun t' r' hb' => ?_, fun r' sheet' hx => ?_, fun r' hr' => ?_,
    fun t₁ t₂ r' h₁ h₂ => ?_, fun t' r' hb' hr' => ?_, honce⟩
  · change Function.update a.holds t none t' = some r'
    rw [Function.update_apply] at hr ⊢
    split
    · next ht =>
      rw [if_pos ht, hout, hasked] at hr
      rcases hr with hr | hr <;> cases hr
    · next ht =>
      rw [if_neg ht] at hr
      exact h.mine t' r' hr
  · obtain ⟨ht, hb'⟩ := hholds t' r' hb'
    obtain ⟨sheet', hsheet', hrest⟩ := h.open_frames t' r' hb'
    rw [Function.update_of_ne ht]
    exact ⟨sheet', (hkept r' fun hmine => ht (h.alone t' t r' hb' hmine)).trans hsheet', hrest⟩
  · by_cases hmine : a.holds t = some r'
    · exact hclean r' sheet' hmine hx
    · exact h.clean r' sheet' ((hkept r' hmine).symm.trans hx)
  · rcases hfree r' hr' with hold | ⟨-, hnew⟩
    · obtain ⟨sheet', hsheet', hrest⟩ := h.free r' hold
      exact ⟨sheet', (hkept r' fun hmine => h.apart t r' hmine hold).trans hsheet', hrest⟩
    · exact hnew
  · exact h.alone t₁ t₂ r' (hholds t₁ r' h₁).2 (hholds t₂ r' h₂).2
  · obtain ⟨ht, hb'⟩ := hholds t' r' hb'
    rcases hfree r' hr' with hold | ⟨hmine, -⟩
    · exact h.apart t' r' hb' hold
    · exact ht (h.alone t' t r' hb' hmine)

/-- A call that does not give the stack up. -/
theorem called (h : Orderly cfg a clients) (hp : (clients t).Permits (.call r c))
    (hb : a.holds t = some r) (hsheet : a.sheets[r]? = some sheet)
    (hdoes : sheet.Does c out sheet') :
    Orderly cfg { a with sheets := a.sheets.set r sheet' }
      (Function.update clients t ((clients t).see (.call r c) out)) ∧
      ∀ x, out = .threw x → Request.Throws (.call r c) x := by
  obtain ⟨sheet₀, hsheet₀, hkind, hlen, hopen⟩ := h.open_frames t r hb
  obtain rfl : sheet = sheet₀ := Option.some.inj (hsheet.symm.trans hsheet₀)
  have hclean := h.clean r _ hsheet
  have hsame : ∀ r', r' ∈ (clients t).frames → r' = r := fun r' hr => h.same hb (.inl hr)
  have hmarks : sheet.marks = [] ↔ (clients t).frames = [] := by
    rw [← List.length_eq_zero_iff, hlen, List.length_eq_zero_iff]
  cases hdoes with
  | pushed =>
    refine ⟨h.keep hb hsheet rfl ?_ ?_ ?_ ?_, fun x hx => by cases hx⟩
    · simp [Client.see, hlen]
    · rw [headD_concat]
      exact hclean
    · simpa [Client.see] using hsame
    · simp [Client.see]
  | @full heap e k hfull hheap he =>
    have hin : (clients t).frames ≠ [] := by
      intro hnil
      rw [hlen, hnil] at hfull
      have := Nat.two_pow_pos k
      simp only [List.length_nil] at hfull
      omega
    refine ⟨h.keep hb hsheet rfl hlen hclean ?_ fun _ => .inl hin, fun x hx => ?_⟩
    · simpa [Client.see] using hsame
    · cases hx
      rw [he]
      split
      · exact .inl rfl
      · exact .inr rfl
  | @allocated byteSize byteAlignment start slice hfit haddress hsize =>
    have hin : (clients t).frames ≠ [] := List.ne_nil_of_mem hp.2
    have hnot := mt hmarks.mp hin
    refine ⟨h.keep hb hsheet rfl hlen ?_ ?_ fun _ => .inl hin, fun x hx => by cases hx⟩
    · rw [← hclean]
      exact headD_eq hnot
    · exact fun r' hr => h.same hb hr
  | refused hno he =>
    refine ⟨h.keep hb hsheet rfl hlen hclean (fun r' hr => h.same hb hr) hopen, fun x hx => ?_⟩
    cases hx
    exact he
  | empty hnone =>
    have hin := hp.2
    rw [hmarks.mp hnone] at hin
    cases hin
  | @closed ms mark hcons hkeep =>
    have htail : ((clients t).frames.tail).length = ms.length := by
      rw [List.length_tail, ← hlen, hcons, List.length_append, List.length_singleton,
        Nat.add_sub_cancel]
    refine ⟨h.keep hb hsheet rfl htail.symm ?_ ?_ fun hs => .inl ?_, fun x hx => by cases hx⟩
    · rwa [hcons, headD_concat] at hclean
    · intro r' hr
      rcases hr with hr | hr
      · exact hsame r' (List.mem_of_mem_tail hr)
      · exact h.same hb (.inr hr)
    · rw [Ne, ← List.length_eq_zero_iff]
      change ((clients t).frames.tail).length ≠ 0
      rw [htail, Ne, List.length_eq_zero_iff]
      exact fun hnil => hkeep ⟨hnil, hs⟩

/-- `pushStack` finds the thread's stack. -/
theorem again (h : Orderly cfg a clients) (hb : a.holds t = some r) :
    Orderly cfg a (Function.update clients t ⟨(clients t).frames, some r⟩) := by
  obtain ⟨sheet, hsheet, hkind, hlen, -⟩ := h.open_frames t r hb
  have hmine : ∀ r', r' ∈ (clients t).frames ∨ some r = some r' → r' = r := by
    rintro r' (hr | hr)
    · exact h.same hb (.inl hr)
    · exact (Option.some.inj hr).symm
  have hkept : Orderly cfg { a with sheets := a.sheets.set r sheet }
      (Function.update clients t ⟨(clients t).frames, some r⟩) :=
    h.keep hb hsheet rfl hlen (h.clean r _ hsheet) hmine fun _ => .inr rfl
  rwa [Table.set_same hsheet] at hkept

/-- `pushStack` takes a stack out of `cachePool`. -/
theorem recycled (h : Orderly cfg a clients) {rest : List Nat} (hb : a.holds t = none)
    (hv : cfg.isVirtual t = true) (hfree : a.free = rest ++ [r]) :
    Orderly cfg { a with holds := Function.update a.holds t (some r), free := rest }
      (Function.update clients t ⟨(clients t).frames, some r⟩) := by
  obtain ⟨sheet, hsheet, hkind, hmarks⟩ := h.free r (by simp [hfree])
  have honce := h.once
  rw [hfree, List.nodup_append] at honce
  have hoffset := h.clean r _ hsheet
  rw [hmarks] at hoffset
  refine h.lend hb (fun t' hb' => h.apart t' r hb' (by simp [hfree])) hsheet (hkind.trans hv.symm)
    hmarks hoffset (fun _ _ hx => hx) (fun _ _ hx => .inl hx) (fun r' hr' => ?_) honce.1
  exact ⟨by simp [hfree, hr'], honce.2.2 r' hr' r (by simp)⟩

/-- `pushStack` makes a new stack. -/
theorem fresh (h : Orderly cfg a clients) {base : Nat} (hb : a.holds t = none) :
    Orderly cfg
      { a with
        sheets := a.sheets ++ [⟨base, cfg.stackSize.toNat, cfg.isVirtual t, 0, []⟩]
        holds := Function.update a.holds t (some a.sheets.length) }
      (Function.update clients t ⟨(clients t).frames, some a.sheets.length⟩) := by
  have hout : ∀ {r' sheet'}, a.sheets[r']? = some sheet' → r' < a.sheets.length :=
    fun hx => (List.getElem?_eq_some_iff.mp hx).1
  refine h.lend hb (fun t' hb' => ?_) List.getElem?_concat_length rfl rfl rfl
    (fun r' sheet' hx => ?_) (fun r' sheet' hx => ?_) (fun r' hr' => ⟨hr', ?_⟩) h.once
  · obtain ⟨sheet', hsheet', -⟩ := h.open_frames t' _ hb'
    exact absurd (hout hsheet') (Nat.lt_irrefl _)
  · rw [List.getElem?_append_left (hout hx), hx]
  · exact (Table.concat_cases hx).imp_right And.right
  · obtain ⟨sheet', hsheet', -⟩ := h.free r' hr'
    exact Nat.ne_of_lt (hout hsheet')

theorem unchanged (h : Orderly cfg a clients) :
    Orderly cfg a (Function.update clients t (clients t)) := by
  rwa [Function.update_eq_self]

/-- The outermost block of `t` ends. -/
theorem released (h : Orderly cfg a clients) {mark : Nat} (hb : a.holds t = some r)
    (hsheet : a.sheets[r]? = some sheet) (hshared : sheet.shared = true)
    (hmarks : sheet.marks = [mark]) (hasked : (clients t).asked = none) :
    Orderly cfg
      { sheets := a.sheets.set r { sheet with offset := mark, marks := [] }
        holds := Function.update a.holds t none
        free := if a.free.length < cfg.cacheLimit then a.free ++ [r] else a.free }
      (Function.update clients t { clients t with frames := (clients t).frames.tail }) := by
  obtain ⟨sheet₀, hsheet₀, -, hlen, -⟩ := h.open_frames t r hb
  obtain rfl : sheet = sheet₀ := Option.some.inj (hsheet.symm.trans hsheet₀)
  have hlt := (List.getElem?_eq_some_iff.mp hsheet).1
  have hself : (a.sheets.set r { sheet with offset := mark, marks := [] })[r]? =
      some { sheet with offset := mark, marks := [] } :=
    List.getElem?_set_self hlt
  have hmark := h.clean r _ hsheet
  rw [hmarks] at hmark hlen
  have hout : (clients t).frames.tail = [] := by
    rw [← List.length_eq_zero_iff, List.length_tail, ← hlen]
    rfl
  refine h.give hout hasked (fun r' hr' => ?_) (fun r' sheet' hr' hx => ?_) (fun r' hr' => ?_) ?_
  · exact List.getElem?_set_ne fun heq => hr' (by rw [← heq]; exact hb)
  · obtain rfl : r' = r := Option.some.inj (hr'.symm.trans hb)
    obtain rfl := Option.some.inj (hx.symm.trans hself)
    exact hmark
  · have hcases : r' ∈ a.free ∨ r' = r := by
      split at hr'
      · simpa using hr'
      · exact .inl hr'
    rcases hcases with hold | rfl
    · exact .inl hold
    · exact .inr ⟨hb, _, hself, hshared, rfl⟩
  · split
    · refine List.nodup_append.mpr ⟨h.once, by simp, fun r₁ h₁ r₂ h₂ => ?_⟩
      rw [List.mem_singleton.mp h₂]
      exact fun heq => h.apart t r hb (heq ▸ h₁)
    · exact h.once

theorem step (h : Orderly cfg a clients) (hp : (clients e.thread).Permits e.request)
    (hn : Service.Next cfg a e a') :
    Orderly cfg a' (Function.update clients e.thread ((clients e.thread).see e.request e.outcome)) ∧
      ∀ x, e.outcome = .threw x → e.request.Throws x := by
  cases hn with
  | @again t r thenPush hb =>
    cases thenPush with
    | false => exact ⟨h.unchanged, fun x hx => by cases hx⟩
    | true => exact ⟨h.again hb, fun x hx => by cases hx⟩
  | recycled hb hv hfree =>
    obtain rfl := h.pushes hb hp
    exact ⟨h.recycled hb hv hfree, fun x hx => by cases hx⟩
  | fresh hb hfree hrange =>
    obtain rfl := h.pushes hb hp
    exact ⟨h.fresh hb, fun x hx => by cases hx⟩
  | exhausted hb hfree =>
    obtain rfl := h.pushes hb hp
    exact ⟨h.unchanged, fun x hx => by cases hx; exact ⟨rfl, rfl⟩⟩
  | @foreign t r c hlt hb =>
    have hmine : r ∈ (clients t).frames ∨ (clients t).asked = some r := by
      cases c with
      | push heap => exact hp.elim .inr fun hin => .inl hin.2
      | allocate byteSize byteAlignment | close => exact .inl hp.2
    exact absurd (h.mine t r hmine) hb
  | called hb hsheet hdoes => exact h.called hp hb hsheet hdoes
  | released hb hsheet hshared hmarks =>
    exact ⟨h.released hb hsheet hshared hmarks hp.1, fun x hx => by cases hx⟩
  | exited =>
    exact ⟨h.give hp.2 hp.1 (fun _ _ => rfl) (fun r' sheet' _ hx => h.clean r' sheet' hx)
      (fun _ hr' => .inl hr') h.once, fun x hx => by cases hx⟩

end Orderly

/-! ## The threads -/

variable [DecidableEq Thread]

/-- What `t` knows after those events. -/
def client (t : Thread) (events : List (Event Thread)) : Client :=
  events.foldl (fun c e => if e.thread = t then c.see e.request e.outcome else c) .init

/-- After `trace`, a thread makes a call it may make, being in the blocks it is in. -/
def Keeps (cfg : Config Thread) (trace : Trace Thread) : Label Thread → Prop
  | .thread t act => (client t (Runs.commits (commit cfg) trace)).Allows act
  | .clean _ => True

def Disciplined (cfg : Config Thread) (trace : Trace Thread) : Prop :=
  ∀ i, (h : i < trace.length) → Keeps cfg (trace.take i) (trace.get ⟨i, h⟩).label

instance (cfg : Config Thread) (trace : Trace Thread) (l : Label Thread) :
    Decidable (Keeps cfg trace l) :=
  match l with
  | .thread t act =>
    inferInstanceAs (Decidable ((client t (Runs.commits (commit cfg) trace)).Allows act))
  | .clean _ => inferInstanceAs (Decidable True)

instance (cfg : Config Thread) (trace : Trace Thread) : Decidable (Disciplined cfg trace) :=
  inferInstanceAs (Decidable (∀ i, (h : i < trace.length) →
    Keeps cfg (trace.take i) (trace.get ⟨i, h⟩).label))

section Threads

variable {cfg : Config Thread} {s s' : State Thread} {t t' : Thread} {act : Act} {out : Outcome}
  {trace : Trace Thread} {c : Client} {e : Event Thread} {events : List (Event Thread)}

theorem client_concat (t : Thread) (events : List (Event Thread)) (e : Event Thread) :
    client t (events ++ [e]) =
      if e.thread = t then (client t events).see e.request e.outcome else client t events := by
  rw [client, List.foldl_append]
  rfl

theorem clients_concat (events : List (Event Thread)) (e : Event Thread) :
    (fun t => client t (events ++ [e])) =
      Function.update (fun t => client t events) e.thread
        ((client e.thread events).see e.request e.outcome) := by
  funext t
  rw [client_concat, Function.update_apply]
  by_cases ht : t = e.thread
  · rw [if_pos ht.symm, if_pos ht, ht]
  · rw [if_neg (Ne.symm ht), if_neg ht]

theorem Disciplined.init {e : Runs.Step (State Thread) (Label Thread) Outcome}
    (h : Disciplined cfg (trace ++ [e])) :
    Disciplined cfg trace := by
  intro i hi
  have hkeeps := h i (by rw [List.length_append]; omega)
  rwa [List.take_append_of_le_length (Nat.le_of_lt hi), List.get_eq_getElem,
    List.getElem_append_left hi] at hkeeps

theorem Disciplined.last {e : Runs.Step (State Thread) (Label Thread) Outcome}
    (h : Disciplined cfg (trace ++ [e])) :
    Keeps cfg trace e.label := by
  have hkeeps := h trace.length (by simp)
  rwa [List.take_left, List.get_eq_getElem, List.getElem_concat_length rfl] at hkeeps

/-- A thread that keeps to its blocks makes only calls that the service permits. -/
theorem Client.At.moves (hat : c.At (s.running.pc t))
    (hallows : s.running.pc t = .idle → c.Allows act) (hm : Moves cfg s t act out s') :
    match commit cfg ⟨s, .thread t act, out⟩ with
    | some e => c.Permits e.request ∧ (c.see e.request e.outcome).At (s'.running.pc t)
    | none => c.At (s'.running.pc t) := by
  cases hm with
  | @hit r thenPush hpc hb =>
    have hallows := hallows hpc
    rw [hpc] at hat
    cases thenPush with
    | false =>
      simp only [commit, ask, hpc, hb, obtained]
      exact ⟨⟨hat, hallows⟩, by simpa [Client.At, Client.see] using hat⟩
    | true =>
      simp only [commit, ask, hpc, hb, obtained]
      exact ⟨hat, by simp [Client.At, Client.see]⟩
  | @missed thenPush hpc hb =>
    have hallows := hallows hpc
    rw [hpc] at hat
    cases thenPush with
    | false =>
      simp only [commit, ask, hpc, hb, Running.pc_assign_self]
      exact ⟨hat, hallows⟩
    | true =>
      simp only [commit, ask, hpc, hb, Running.pc_assign_self]
      exact hat
  | @took vm r x pool thenPush hpc hv hpool hx =>
    rw [hpc] at hat
    simp only [commit, hpc, hv, hpool, if_true, List.getLastD_concat, Running.pc_assign_self]
    cases thenPush with
    | false => exact ⟨hat, hat⟩
    | true => exact ⟨hat, rfl⟩
  | @noMemory vm thenPush hpc =>
    rw [hpc] at hat
    simp only [commit, hpc, Running.pc_assign_self]
    cases thenPush with
    | false => exact ⟨hat, hat.1⟩
    | true => exact ⟨hat, hat⟩
  | @madeShared vm segment thenPush hpc hv hpool hsize =>
    rw [hpc] at hat
    simp only [commit, hpc, hv, hpool, if_true, List.getLastD_nil, Running.pc_assign_self]
    cases thenPush with
    | false => exact ⟨hat, hat⟩
    | true => exact ⟨hat, rfl⟩
  | @madeConfined vm segment thenPush hpc hv hsize =>
    rw [hpc] at hat
    simp only [commit, hpc, hv, if_true, Running.pc_assign_self]
    cases thenPush with
    | false => exact ⟨hat, hat⟩
    | true => exact ⟨hat, rfl⟩
  | @registered vm r a thenPush hpc =>
    rw [hpc] at hat
    simp only [commit, hpc, Running.pc_assign_self]
    cases thenPush <;> exact hat
  | @bound vm r thenPush hpc =>
    rw [hpc] at hat
    cases thenPush with
    | false => simpa [commit, hpc, obtained, Client.At] using hat.1
    | true => simpa [commit, hpc, obtained, Client.At] using hat
  | @called act r call x hcall hx =>
    cases hcall with
    | push hpc =>
      have hallows := hallows hpc
      rw [hpc] at hat
      simp only [commit, hpc]
      exact ⟨.inr ⟨hat, hallows⟩, by simp [Client.At]⟩
    | allocate hpc =>
      have hallows := hallows hpc
      rw [hpc] at hat
      simp only [commit, hpc]
      exact ⟨⟨hat, hallows⟩, by simpa [Client.At, Client.see] using hat⟩
    | pushStack hpc =>
      rw [hpc] at hat
      simp only [commit, hpc]
      exact ⟨.inl hat, by simp [Client.At]⟩
  | checked hpc hx how =>
    have hallows := hallows hpc
    rw [hpc] at hat
    simp only [commit, hpc, if_true, Running.pc_assign_self]
    exact ⟨hat, hallows⟩
  | refused hpc hx how =>
    have hallows := hallows hpc
    rw [hpc] at hat
    simp only [commit, hpc]
    exact ⟨⟨hat, hallows⟩, by simpa [Client.At, Client.see] using hat⟩
  | tested hpc hx hindex | restored hpc hx hmark | unrestored hpc hx hmark | dropped hpc hx
  | releasing hpc hx hshared | unbound hpc | disowned hpc hx =>
    rw [hpc] at hat
    simp only [commit, hpc, if_true, Running.pc_assign_self]
    first | exact hat | exact hat.1
  | empty hpc hx h0 | kept hpc hx hrel | cached hpc hroom | discarded hpc hroom =>
    rw [hpc] at hat
    simp only [commit, hpc]
    exact ⟨hat, by simpa [Client.At, Client.see] using hat.1⟩
  | exited hpc =>
    have hallows := hallows hpc
    rw [hpc] at hat
    simp only [commit, hpc]
    exact ⟨⟨hat, hallows⟩, hat⟩

/-- A run of such threads, and the service beside it. -/
structure Kept (cfg : Config Thread) (trace : Trace Thread) (s : State Thread)
    (a : Service Thread) : Prop where
  serves : Serves s a
  orderly : Orderly cfg a fun t => client t (Runs.commits (commit cfg) trace)
  at_pc : ∀ t, (client t (Runs.commits (commit cfg) trace)).At (s.running.pc t)
  throws : ∀ e ∈ Runs.commits (commit cfg) trace, ∀ x, e.outcome = .threw x → e.request.Throws x
  keeps : ∀ e ∈ trace, abandons cfg e = false

/-- A virtual thread outside of its blocks has no stack bound. -/
theorem Kept.unbound {a : Service Thread} (h : Kept cfg trace s a) (hv : cfg.isVirtual t = true)
    (hout : (client t (Runs.commits (commit cfg) trace)).frames = [])
    (hasked : (client t (Runs.commits (commit cfg) trace)).asked = none) :
    s.threadStack.lookup t = none := by
  rw [Option.eq_none_iff_forall_ne_some]
  intro r hb
  obtain ⟨sheet, -, hkind, -, hopen⟩ := h.orderly.open_frames t r (h.serves.holds_of_binding hb)
  rcases hopen (hkind.trans hv) with hin | hin
  · exact hin hout
  · rw [hasked] at hin
    cases hin

/-- The end of a thread outside of its blocks. -/
theorem Kept.not_abandons {a : Service Thread} {l : Label Thread} (h : Kept cfg trace s a)
    (hd : Disciplined cfg (trace ++ [⟨s, l, out⟩])) (hs : s.step cfg l = some (out, s')) :
    abandons cfg ⟨s, l, out⟩ = false := by
  rcases step_cases hs with ⟨t, act, rfl, -, -, hm⟩ | ⟨i, c, rfl, -⟩
  · cases hm with
    | exited hpc =>
      have hout := hd.last
      have hasked := h.at_pc t
      rw [hpc] at hasked
      cases hv : cfg.isVirtual t with
      | false => simp only [abandons, hv, Bool.false_and]
      | true => simp only [abandons, h.unbound hv hout hasked, Option.isSome_none, Bool.and_false]
    | called hcall hx => cases hcall <;> rfl
    | hit thenPush hpc hb | missed thenPush hpc hb => cases thenPush <;> rfl
    | _ => rfl
  · rfl

theorem Kept.step {a : Service Thread} {l : Label Thread} (h : Kept cfg trace s a)
    (hc : ∃ place, Custody cfg s place) (hh : Histories cfg s)
    (hd : Disciplined cfg (trace ++ [⟨s, l, out⟩])) (hs : s.step cfg l = some (out, s')) :
    ∃ a', Kept cfg (trace ++ [⟨s, l, out⟩]) s' a' := by
  obtain ⟨place, hc⟩ := hc
  obtain ⟨a', hfollows, hserves⟩ := h.serves.step hc hh hs
  have hkeeps : ∀ e ∈ trace ++ [⟨s, l, out⟩], abandons cfg e = false := by
    intro e he
    rcases List.mem_append.mp he with he | he
    · exact h.keeps e he
    · rw [List.mem_singleton.mp he]
      exact h.not_abandons hd hs
  have hcommits := Runs.commits_concat (commit cfg) trace ⟨s, l, out⟩
  have hat : ∀ t, match commit cfg ⟨s, l, out⟩ with
      | some e => (e.thread = t → (client t (Runs.commits (commit cfg) trace)).Permits e.request) ∧
          (client t (Runs.commits (commit cfg) trace ++ [e])).At (s'.running.pc t)
      | none => (client t (Runs.commits (commit cfg) trace)).At (s'.running.pc t) := by
    intro t
    rcases step_cases hs with ⟨t', act, rfl, -, -, hm⟩ | ⟨i, c, rfl, -, -, -, -, rfl⟩
    · by_cases ht : t' = t
      · subst ht
        have hmoves := (h.at_pc t').moves (fun _ => hd.last) hm
        cases he : commit cfg ⟨s, .thread t' act, out⟩ with
        | none => rwa [he] at hmoves
        | some e =>
          rw [he] at hmoves
          have hthread := commit_thread he
          dsimp only
          rw [client_concat, if_pos hthread]
          exact ⟨fun _ => hmoves.1, hmoves.2⟩
      · rw [pc_moves hm (Ne.symm ht)]
        cases he : commit cfg ⟨s, .thread t' act, out⟩ with
        | none => exact h.at_pc t
        | some e =>
          have hthread : e.thread ≠ t := by rw [commit_thread he]; exact ht
          dsimp only
          rw [client_concat, if_neg hthread]
          exact ⟨fun heq => absurd heq hthread, h.at_pc t⟩
    · exact h.at_pc t
  cases he : commit cfg ⟨s, l, out⟩ with
  | none =>
    simp only [he] at hat hfollows hcommits
    obtain rfl : a' = a := hfollows
    rw [Option.toList_none, List.append_nil] at hcommits
    exact ⟨a', hserves, hcommits ▸ h.orderly, fun t => hcommits ▸ hat t, hcommits ▸ h.throws,
      hkeeps⟩
  | some e =>
    simp only [he] at hat hfollows hcommits
    rw [Option.toList_some] at hcommits
    obtain ⟨horderly, hthrows⟩ := h.orderly.step ((hat e.thread).1 rfl) hfollows
    rw [← clients_concat, ← hcommits] at horderly
    refine ⟨a', hserves, horderly, fun t => ?_, fun e' he' => ?_, hkeeps⟩
    · rw [hcommits]
      exact (hat t).2
    · rw [hcommits, List.mem_append] at he'
      rcases he' with he' | he'
      · exact h.throws e' he'
      · rw [List.mem_singleton.mp he']
        exact hthrows

theorem Run.kept (h : Run cfg trace s) (hd : Disciplined cfg trace) : ∃ a, Kept cfg trace s a := by
  induction h with
  | nil =>
    exact ⟨Service.init Thread, .init, .init cfg, fun _ => rfl, by simp [Runs.commits], by simp⟩
  | @snoc trace s l out s' run hs ih =>
    obtain ⟨a, hkept⟩ := ih hd.init
    obtain ⟨place, hc, hh⟩ := Run.holds run
    exact hkept.step ⟨place, hc⟩ hh hd hs

/-- The sheet of a stack no method is at work on. -/
theorem Kept.as_new {a : Service Thread} {r : Nat} {sheet : Sheet} (h : Kept cfg trace s a)
    (hh : Histories cfg s) (hsheet : a.sheets[r]? = some sheet) (hmarks : sheet.marks = [])
    (hidle : ∀ t, (s.running.pc t).stack ≠ some r) :
    ∃ x, s.objects[r]? = some x ∧ x.offset = 0 ∧ x.frameIndex = 0 := by
  have hlt := (List.getElem?_eq_some_iff.mp hsheet).1
  rw [h.serves.length] at hlt
  have hx := List.getElem?_eq_getElem hlt
  have hsame := (h.serves.stage r _ sheet hx hsheet).2 hidle
  have hclean := h.orderly.clean r sheet hsheet
  rw [hmarks] at hclean
  refine ⟨_, hx, BitVec.eq_of_toNat_eq ((congrArg Sheet.offset hsame).trans hclean), ?_⟩
  rw [← (hh.trail r _ hx).wf.length_sheet, hsame, hmarks]
  rfl

/-- **Blocks are safe.** When every thread keeps to its blocks, whatever the
others do, the only exceptions are of memory and of the arguments of `allocate`
(`Request.Throws`), so `close` throws nothing. No virtual thread ends with a
stack bound; a stack in `cachePool`, or bound to a thread outside of its blocks,
is as good as new. And as long as no more than `CACHE_LIMIT` segments are in use
at one time, there are no more than that. -/
theorem blocks_safe (h : Run cfg trace s) (hd : Disciplined cfg trace) :
    (∀ t x, .threw x ∈ answers t trace →
      ∃ e ∈ Runs.commits (commit cfg) trace, e.thread = t ∧ e.outcome = .threw x) ∧
    (∀ e ∈ Runs.commits (commit cfg) trace, ∀ x, e.outcome = .threw x → e.request.Throws x) ∧
    (∀ e ∈ trace, abandons cfg e = false) ∧
    (∀ r, r ∈ s.cachePool ∨ (∃ t, s.threadStack.lookup t = some r ∧ s.running.pc t = .idle ∧
        (client t (Runs.commits (commit cfg) trace)).frames = []) →
      ∃ x, s.objects[r]? = some x ∧ x.offset = 0 ∧ x.frameIndex = 0) ∧
    ∀ n ≤ cfg.cacheLimit, (∀ e ∈ trace, e.before.inUse cfg ≤ n) → s.inUse cfg ≤ n →
      s.sharedArena.length ≤ n := by
  obtain ⟨a, hkept⟩ := h.kept hd
  obtain ⟨place, hc, hh⟩ := Run.holds h
  refine ⟨fun _ _ hx => committed_of_threw h hx, hkept.throws, hkept.keeps, ?_,
    fun n hn hbefore hnow => ?_⟩
  · rintro r (hr | ⟨t, hb, hpc, hout⟩)
    · have hp : place r = .pooled := (hc.stack r).pooled.mp hr
      rw [← hkept.serves.free] at hr
      obtain ⟨sheet, hsheet, -, hmarks⟩ := hkept.orderly.free r hr
      refine hkept.as_new hh hsheet hmarks fun t ht => ?_
      have hholder := hc.holder_of_stack ht
      rw [hp] at hholder
      cases hholder
    · obtain ⟨sheet, hsheet, -, hlen, -⟩ :=
        hkept.orderly.open_frames t r (hkept.serves.holds_of_binding hb)
      have hmarks : sheet.marks = [] := List.length_eq_zero_iff.mp (by rw [hlen, hout]; rfl)
      refine hkept.as_new hh hsheet hmarks fun t' ht' => ?_
      have hp : place r = .bound t := hc.at_place (.bound hb)
      by_cases heq : t' = t
      · rw [heq, hpc] at ht'
        cases ht'
      · exact hc.alone (.inl (by rw [hp]; rfl)) t' heq ht'
  · have hnone := h.none_lost hbefore hn hkept.keeps
    have hmade := h.made_le hbefore hnow
    omega

end Threads

/-- Two threads in a block each, one of them with a `getStack` and a block inside. -/
theorem blocks_safe_nested :
    let cfg : Config Nat := ⟨64, by decide, 8, fun t => t = 0, 99⟩
    ∃ trace s, Run cfg trace s ∧ s.exited = [0] ∧ s.cachePool = [0] ∧
      (∀ t x, .threw x ∈ answers t trace →
        ∃ e ∈ Runs.commits (commit cfg) trace, e.thread = t ∧ e.outcome = .threw x) ∧
      (∀ e ∈ Runs.commits (commit cfg) trace, ∀ x, e.outcome = .threw x → e.request.Throws x) ∧
      (∀ e ∈ trace, abandons cfg e = false) ∧
      (∀ r, r ∈ s.cachePool ∨ (∃ t, s.threadStack.lookup t = some r ∧ s.running.pc t = .idle ∧
          (client t (Runs.commits (commit cfg) trace)).frames = []) →
        ∃ x, s.objects[r]? = some x ∧ x.offset = 0 ∧ x.frameIndex = 0) ∧
      ∀ n ≤ cfg.cacheLimit, (∀ e ∈ trace, e.before.inUse cfg ≤ n) → s.inUse cfg ≤ n →
        s.sharedArena.length ≤ n := by
  intro cfg
  let vm : Vm := ⟨fun _ => true, some ⟨0x1000, 64, by decide, by decide⟩⟩
  let labels : List (Label Nat) :=
    .thread 0 .pushStack :: List.replicate 3 (.thread 0 (.next vm)) ++
      .thread 1 .pushStack :: List.replicate 4 (.thread 1 (.next vm)) ++
      [.thread 0 (.allocate 0 8 8), .thread 0 .getStack, .thread 0 .pushStack, .thread 0 (.next vm),
        .thread 0 (.allocate 0 100 1)] ++
      .thread 0 (.close 0) :: List.replicate 4 (.thread 0 (.next vm)) ++
      .thread 0 (.close 0) :: List.replicate 7 (.thread 0 (.next vm)) ++ [.thread 0 .exit]
  have hfacts : (Runs.record (State.step cfg) (State.init Nat) labels).map (fun r =>
      decide (r.2.exited = [0] ∧ r.2.cachePool = [0] ∧ Disciplined cfg r.1)) = some true := by
    decide +kernel
  obtain ⟨⟨trace, s⟩, hr, hfacts⟩ := Option.map_eq_some_iff.mp hfacts
  obtain ⟨hexited, hpool, hd⟩ := of_decide_eq_true hfacts
  have hrun : Run cfg trace s := Runs.run_record hr
  exact ⟨trace, s, hrun, hexited, hpool, blocks_safe hrun hd⟩

end FfiBenchmark.Pool
