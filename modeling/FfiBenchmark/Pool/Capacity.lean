/-
How much a stack has room for.

A stack is never refused an `allocate` for lack of room while what was asked of
it in its open frames, each block with the gap that its alignment may leave, fits
in `STACK_SIZE`. What closed frames asked for does not count, nor who had the
stack before; what was asked for outside of all frames does, also of a stack
that comes from `cachePool`.
-/
import FfiBenchmark.Lib.Budget
import FfiBenchmark.Lib.Rounding
import FfiBenchmark.Pool.Atomicity
import Mathlib.Algebra.Order.Group.Nat

namespace FfiBenchmark.Pool

open Budget Rounding
open NativeStack (Call)

variable {Thread : Type}

/-- What a block takes up at most: its bytes, and the gap before it. -/
def demand (byteSize byteAlignment : Long) : Nat := byteSize.toNat + (byteAlignment.toNat - 1)

/-- The account of each stack after an event. -/
def charge (accounts : Nat → List Nat) (e : Event Thread) : Nat → List Nat :=
  match e.request, e.outcome with
  | .call r (.push _), .returned _ => Function.update accounts r (0 :: accounts r)
  | .call r (.allocate byteSize byteAlignment), .returned _ =>
    Function.update accounts r ((accounts r).modifyHead (· + demand byteSize byteAlignment))
  | .call r .close, .returned _ => Function.update accounts r (accounts r).tail
  | _, _ => accounts

/-- What the events asked of a stack, for each open frame, the innermost first,
and last outside of all frames. -/
def asked (events : List (Event Thread)) : Nat → List Nat := events.foldl charge fun _ => [0]

/-! ## One stack -/

namespace Sheet

variable {sheet sheet' : Sheet} {byteSize byteAlignment : Long} {start : Nat} {account : List Nat}
  {c : Call} {out : Outcome}

/-- The top of a stack, and the offsets its open frames began at. -/
def levels (sheet : Sheet) : List Nat := sheet.offset :: sheet.marks.reverse

theorem Valid.alignment_pos (h : Valid byteSize byteAlignment) : 0 < byteAlignment.toNat := by
  obtain ⟨-, k, hk, rfl⟩ := NativeStack.valid_iff.mp h
  rw [BitVec.toNat_twoPow_of_lt (by omega)]
  exact Nat.two_pow_pos k

/-- The block takes up no more than its demand. -/
theorem Fits.end_le (h : sheet.Fits byteSize byteAlignment start) :
    start - sheet.base + byteSize.toNat ≤ sheet.offset + demand byteSize byteAlignment := by
  have hpos := h.valid.alignment_pos
  have hlt := roundUp_lt hpos (sheet.base + sheet.offset)
  have hle := h.least.2 (isLeast_roundUp hpos (sheet.base + sheet.offset)).1
  rw [demand]
  omega

/-- A stack has no room only where the demand exceeds what is left. -/
theorem size_lt (hvalid : Valid byteSize byteAlignment)
    (hno : ∀ start, ¬ sheet.Fits byteSize byteAlignment start) :
    sheet.size < sheet.offset + demand byteSize byteAlignment := by
  have hpos := hvalid.alignment_pos
  have hlt := roundUp_lt hpos (sheet.base + sheet.offset)
  have hroom : ¬ roundUp byteAlignment.toNat (sheet.base + sheet.offset) + byteSize.toNat ≤
      sheet.base + sheet.size :=
    fun hroom => hno _ ⟨hvalid, isLeast_roundUp hpos _, hroom⟩
  rw [demand]
  omega

theorem levels_closed {ms : List Nat} {mark : Nat} (hmarks : sheet.marks = ms ++ [mark]) :
    sheet.levels = sheet.offset :: mark :: ms.reverse := by
  rw [levels, hmarks, List.reverse_append]
  rfl

end Sheet

/-! ## All stacks -/

/-- The stacks of the service are within their accounts. -/
structure Covered (cfg : Config Thread) (accounts : Nat → List Nat)
    (a : Service Thread) : Prop where
  size : ∀ (r : Nat) sheet, a.sheets[r]? = some sheet → sheet.size = cfg.stackSize.toNat
  covers : ∀ (r : Nat) sheet, a.sheets[r]? = some sheet → Covers sheet.levels (accounts r)
  fresh : ∀ r, a.sheets.length ≤ r → accounts r = [0]

namespace Covered

variable {cfg : Config Thread} {accounts : Nat → List Nat} {a a' : Service Thread}
  {e : Event Thread} {r : Nat} {sheet sheet' : Sheet} {account : List Nat}

theorem init (cfg : Config Thread) : Covered cfg (fun _ => [0]) (Service.init Thread) where
  size := by simp [Service.init]
  covers := by simp [Service.init]
  fresh _ _ := rfl

/-- A call on one stack leaves the accounts of the others alone. -/
theorem update (h : Covered cfg accounts a) (hsheet : a.sheets[r]? = some sheet)
    (hsheets : a'.sheets = a.sheets.set r sheet') (hsize : sheet'.size = sheet.size)
    (hcovers : Covers sheet'.levels account) :
    Covered cfg (Function.update accounts r account) a' where
  size r' sheet'' hx := by
    rw [hsheets] at hx
    rcases Table.set_cases hx with ⟨rfl, rfl⟩ | ⟨hne, hx⟩
    · rw [hsize, h.size r' sheet hsheet]
    · exact h.size r' sheet'' hx
  covers r' sheet'' hx := by
    rw [hsheets] at hx
    rcases Table.set_cases hx with ⟨rfl, rfl⟩ | ⟨hne, hx⟩
    · rwa [Function.update_self]
    · rw [Function.update_of_ne hne]
      exact h.covers r' sheet'' hx
  fresh r' hle := by
    rw [hsheets, List.length_set] at hle
    have hlt := (List.getElem?_eq_some_iff.mp hsheet).1
    rw [Function.update_of_ne (by omega)]
    exact h.fresh r' hle

variable [DecidableEq Thread]

/-- Events keep the stacks within their accounts. -/
theorem step (h : Covered cfg accounts a) (hn : Service.Next cfg a e a') :
    Covered cfg (charge accounts e) a' := by
  cases hn with
  | again hb | exhausted hb hfree | recycled hb hv hfree => exact ⟨h.size, h.covers, h.fresh⟩
  | exited => exact ⟨h.size, h.covers, h.fresh⟩
  | @foreign t r c hlt hb => cases c <;> exact h
  | @fresh t base thenPush hb hfree hrange =>
    refine ⟨fun r sheet hx => ?_, fun r sheet hx => ?_, fun r hle => ?_⟩
    · rcases Table.concat_cases hx with hx | ⟨-, rfl⟩
      · exact h.size r sheet hx
      · rfl
    · rcases Table.concat_cases hx with hx | ⟨rfl, rfl⟩
      · exact h.covers r sheet hx
      · change Covers [0] (accounts a.sheets.length)
        rw [h.fresh _ le_rfl]
        exact covers_init
    · rw [List.length_append, List.length_singleton] at hle
      exact h.fresh r (by omega)
  | @called t r c out sheet sheet' hb hsheet hdoes =>
    have hcovers := h.covers r sheet hsheet
    have hsame : Covered cfg accounts { a with sheets := a.sheets.set r sheet } := by
      rw [Table.set_same hsheet]
      exact h
    cases hdoes with
    | pushed =>
      refine h.update hsheet rfl rfl ?_
      have hlevels : Sheet.levels { sheet with marks := sheet.marks ++ [sheet.offset] } =
          sheet.offset :: sheet.offset :: sheet.marks.reverse := Sheet.levels_closed rfl
      rw [hlevels]
      exact hcovers.push
    | full hfull hheap he | refused hno he | empty hmarks => exact hsame
    | allocated hfit haddress hsize => exact h.update hsheet rfl rfl (hcovers.take hfit.end_le)
    | closed hmarks hkeep =>
      rw [Sheet.levels_closed hmarks] at hcovers
      exact h.update hsheet rfl rfl hcovers.pop
  | @released t r sheet mark hb hsheet hshared hmarks =>
    have hcovers := h.covers r sheet hsheet
    have hcons : sheet.marks = [] ++ [mark] := hmarks
    rw [Sheet.levels_closed hcons] at hcovers
    exact h.update hsheet rfl rfl hcovers.pop

/-- No room: more is asked of the stack than it has. -/
theorem exceeded (h : Covered cfg accounts a) (hn : Service.Next cfg a e a')
    (he : e.outcome = .threw .indexOutOfBounds) :
    ∃ r byteSize byteAlignment, e.request = .call r (.allocate byteSize byteAlignment) ∧
      cfg.stackSize.toNat < (accounts r).sum + demand byteSize byteAlignment := by
  cases hn with
  | @called t r c out sheet sheet' hb hsheet hdoes =>
    cases hdoes with
    | full hfull hheap hthrown =>
      cases he
      split at hthrown <;> cases hthrown
    | @refused byteSize byteAlignment thrown hno hrefused =>
      cases he
      have hvalid : Sheet.Valid byteSize byteAlignment := by
        by_contra hnot
        obtain ⟨message, hmessage⟩ := hrefused.2 hnot
        cases hmessage
      refine ⟨r, byteSize, byteAlignment, rfl, ?_⟩
      have hlt := Sheet.size_lt hvalid hno
      have htop := (h.covers r sheet hsheet).top_le
      rw [h.size r sheet hsheet] at hlt
      omega
    | _ => cases he
  | _ => cases he

end Covered

/-! ## All runs -/

section Runs

variable [DecidableEq Thread] {cfg : Config Thread} {trace : Trace Thread} {s : State Thread}

/-- **A stack is refused only what it has no room for.** Wherever in a run an
`allocate` throws `IndexOutOfBoundsException`, whatever the interleaving and
whoever had the stack before: what was asked of the stack in its open frames and
outside of frames, with the block that was refused, exceeds `STACK_SIZE`. -/
theorem out_of_room (h : Run cfg trace s) {before after : Trace Thread}
    {e : Runs.Step (State Thread) (Label Thread) Outcome} (htrace : trace = before ++ e :: after)
    (hthrown : e.outcome = .threw .indexOutOfBounds) :
    ∃ t r byteSize byteAlignment, e.label = .thread t (.allocate r byteSize byteAlignment) ∧
      cfg.stackSize.toNat <
        (asked (Runs.commits (commit cfg) before) r).sum + demand byteSize byteAlignment := by
  obtain ⟨s₀, l, out⟩ := e
  simp only at hthrown ⊢
  subst htrace
  obtain ⟨hbefore, s', hs⟩ := Runs.Run.step_at h
  obtain ⟨place, hc, hh⟩ := Run.holds hbefore
  obtain ⟨a, path, hserves⟩ := Run.serves hbefore
  have hcovered : Covered cfg (asked (Runs.commits (commit cfg) before)) a :=
    path.invariant_fold charge _ (Covered cfg) (.init cfg) fun hcovered hn => hcovered.step hn
  obtain ⟨a', hfollows, -⟩ := hserves.step hc hh hs
  rcases step_cases hs with ⟨t, act, rfl, -, -, hm⟩ | ⟨i, c, -, -, -, -, rfl, -⟩
  · cases hm with
    | @called act r c x hcall hx =>
      cases hcall with
      | allocate hpc =>
        simp only [commit, hpc] at hfollows
        obtain ⟨r, byteSize, byteAlignment, hrequest, hlt⟩ := hcovered.exceeded hfollows hthrown
        cases hrequest
        exact ⟨t, _, _, _, rfl, hlt⟩
      | push hpc | pushStack hpc =>
        simp only [commit, hpc] at hfollows
        obtain ⟨_, _, _, hrequest, -⟩ := hcovered.exceeded hfollows hthrown
        cases hrequest
    | hit thenPush hpc hb | bound hpc =>
      rename_i thenPush
      cases thenPush <;> cases hthrown
    | _ => cases hthrown
  · cases hthrown

/-- Of 64 bytes 40 are taken, given up with their frame, and taken again; then 32 are too many. -/
theorem out_of_room_again :
    let cfg : Config Nat := ⟨64, by decide, 8, fun _ => true, 99⟩
    ∃ (before : Trace Nat) (e : Runs.Step (State Nat) (Label Nat) Outcome) (s : State Nat),
      Run cfg (before ++ [e]) s ∧ e.outcome = .threw .indexOutOfBounds ∧
      ∃ t r byteSize byteAlignment, e.label = .thread t (.allocate r byteSize byteAlignment) ∧
        cfg.stackSize.toNat < (asked (Runs.commits (commit cfg) before) r).sum +
        demand byteSize byteAlignment := by
  intro cfg
  let next : Label Nat := .thread 0 (.next ⟨fun _ => true, some ⟨0x1000, 64, by decide, by decide⟩⟩)
  let labels : List (Label Nat) := .thread 0 .pushStack :: List.replicate 3 next ++
    [.thread 0 (.push 0 fun _ => true), .thread 0 (.allocate 0 40 8), .thread 0 (.close 0)] ++
    List.replicate 4 next ++
    [.thread 0 (.allocate 0 40 8), .thread 0 (.allocate 0 32 8)]
  have hfacts : (Runs.record (State.step cfg) (State.init Nat) labels).bind (fun r =>
      r.1.getLast?.map (·.outcome)) = some (.threw .indexOutOfBounds) := by
    decide +kernel
  obtain ⟨⟨trace, s⟩, hrecord, hlast⟩ := Option.bind_eq_some_iff.mp hfacts
  obtain ⟨e, hlast, hthrown⟩ := Option.map_eq_some_iff.mp hlast
  obtain ⟨before, rfl⟩ := List.getLast?_eq_some_iff.mp hlast
  have hrun : Run cfg (before ++ [e]) s := Runs.run_record hrecord
  exact ⟨before, e, s, hrun, hthrown, out_of_room hrun rfl hthrown⟩

end Runs

end FfiBenchmark.Pool
