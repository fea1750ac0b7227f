import Chip8.Proofs.Frame
import Chip8.Proofs.Path
import Chip8.Proofs.Taxonomy

/-!
# Calls and returns

The stack of a machine keeps old entries above its depth, and calls write over them. Seen from
outside it is a list of return addresses: a call adds one, a return takes the last one away, and no
other instruction touches the list. `Stride.returns` makes that list of the instructions of a path
alone; it knows nothing of cells and depths.

Calls and returns match: the first return that brings the depth back to what it was before a call
leads behind the call, with the stack as it was then.
-/
namespace Chip8

namespace Machine

variable {m next : Machine} {i : Instruction}

theorem length_stack (h : m.depth ≤ maxDepth) : m.stack.length = m.depth := by
  rw [stack, List.length_take, Vector.length_toList]
  exact Nat.min_eq_left h

/-- A call puts an address behind the others. -/
theorem stack_afterCall {target : Address} (hdepth : m.depth ≤ maxDepth)
    (h : m.afterCall target = .ok next) : next.stack = m.stack ++ [m.pc] := by
  obtain ⟨hfull, rfl⟩ := check_eq_ok.mp h
  have hcell : m.depth < m.cells.toList.length := by
    rw [Vector.length_toList]
    exact Nat.lt_of_le_of_ne hdepth hfull
  change (m.cells.setIfInBounds m.depth m.pc).toList.take (m.depth + 1) = m.stack ++ [m.pc]
  rw [Vector.toList_setIfInBounds, List.take_add_one, List.take_set_of_le (Nat.le_refl _),
    List.getElem?_set_self hcell]
  rfl

/-- A return continues at the last address and takes it away. -/
theorem stack_afterRet (hdepth : m.depth ≤ maxDepth) (h : m.afterRet = .ok next) :
    m.stack = next.stack ++ [next.pc] := by
  obtain ⟨hempty, rfl⟩ := check_eq_ok.mp h
  have hcell : m.depth - 1 < m.cells.toList.length := by
    rw [Vector.length_toList]
    exact Nat.lt_of_lt_of_le (Nat.sub_one_lt hempty) hdepth
  have hsucc : m.depth = m.depth - 1 + 1 := (Nat.succ_pred_eq_of_ne_zero hempty).symm
  change m.stack = m.cells.toList.take (m.depth - 1) ++ [m.cells[m.depth - 1]?.getD 0]
  rw [stack, ← Vector.getElem?_toList, List.getElem?_eq_getElem hcell, Option.getD_some]
  conv_lhs => rw [hsucc]
  exact List.take_succ_eq_append_getElem hcell

/-- An instruction that neither calls nor returns leaves the stack alone. -/
theorem ensures_stack {effect : Effect} (hnests : i.nests = false)
    (h : m.effectOf i = .ok effect) : effect.Ensures fun next => next.stack = m.stack :=
  (ensures_frame h).mono fun next hframe => by
    rw [stack, stack, hframe.depth hnests, hframe.cells hnests]

end Machine

namespace Stride

def Calls (s : Stride) : Prop :=
  s.fault = none ∧ ∃ target, s.source.Fetches (.call target)

def Returns (s : Stride) : Prop :=
  s.fault = none ∧ s.source.Fetches .ret

/-- The return addresses after a step, for one who sees the instruction and whether it failed. -/
def track (targets : List Word) (s : Stride) : List Word :=
  match s.fault, Instruction.decode s.source.word with
  | none, some (.call _) => targets ++ [s.source.pc + 2]
  | none, some .ret => targets.dropLast
  | _, _ => targets

/-- The return addresses after some steps, oldest first. -/
def returns (strides : List Stride) : List Word :=
  strides.foldl track []

variable {s : Stride}

/-- What a step makes of the stack. -/
theorem Taken.stack_cases (h : s.Taken) (hsource : s.source.Sound) :
    (s.Calls ∧ s.target.stack = s.source.stack ++ [s.source.pc + 2]) ∨
      (s.Returns ∧ s.source.stack = s.target.stack ++ [s.target.pc]) ∨
      ((s.fault ≠ none ∨ ∃ i, s.source.Fetches i ∧ i.nests = false) ∧
        s.target.stack = s.source.stack) := by
  obtain ⟨cause, hfault, htarget⟩ | ⟨hfault, i, effect, hfetch, heffect, hp⟩ := h.cases hsource
  · refine .inr (.inr ⟨.inl (hfault ▸ Option.some_ne_none cause), ?_⟩)
    rw [htarget]
    rfl
  · cases hnests : i.nests with
    | false =>
      exact .inr (.inr ⟨.inr ⟨i, hfetch, hnests⟩, hp _ (Machine.ensures_stack hnests heffect)⟩)
    | true =>
      cases i with
      | call target =>
        refine .inl ⟨⟨hfault, target, hfetch⟩,
          hp (fun next => next.stack = s.source.pass.stack ++ [s.source.pass.pc]) ?_⟩
        exact Effect.ensures_of_map_quiet
          (fun next hnext => Machine.stack_afterCall hsource.depth_le hnext) heffect
      | ret =>
        refine .inr (.inl ⟨⟨hfault, hfetch⟩,
          hp (fun next => s.source.pass.stack = next.stack ++ [next.pc]) ?_⟩)
        exact Effect.ensures_of_map_quiet
          (fun next hnext => Machine.stack_afterRet hsource.depth_le hnext) heffect
      | _ => cases hnests

theorem Taken.stack_of_calls (h : s.Taken) (hsource : s.source.Sound) (hcalls : s.Calls) :
    s.target.stack = s.source.stack ++ [s.source.pc + 2] := by
  obtain ⟨hfault, target, hfetch⟩ := hcalls
  obtain ⟨-, hstack⟩ | ⟨⟨-, hret⟩, -⟩ | ⟨hfailed | ⟨i, hi, hnests⟩, -⟩ := h.stack_cases hsource
  · exact hstack
  · cases hfetch.unique hret
  · exact absurd hfault hfailed
  · cases hfetch.unique hi
    cases hnests

theorem Taken.stack_of_returns (h : s.Taken) (hsource : s.source.Sound) (hreturns : s.Returns) :
    s.source.stack = s.target.stack ++ [s.target.pc] := by
  obtain ⟨hfault, hfetch⟩ := hreturns
  obtain ⟨⟨-, target, hcall⟩, -⟩ | ⟨-, hstack⟩ | ⟨hfailed | ⟨i, hi, hnests⟩, -⟩ :=
    h.stack_cases hsource
  · cases hfetch.unique hcall
  · exact hstack
  · exact absurd hfault hfailed
  · cases hfetch.unique hi
    cases hnests

/-- The stack keeps up with the list of return addresses. -/
theorem Taken.stack_eq (h : s.Taken) (hsource : s.source.Sound) :
    s.target.stack = track s.source.stack s := by
  obtain ⟨⟨hfault, target, hfetch⟩, hstack⟩ | ⟨⟨hfault, hfetch⟩, hstack⟩ | ⟨hother, hstack⟩ :=
    h.stack_cases hsource
  · rw [hstack, track, hfault, hfetch.decode_word]
  · rw [track, hfault, hfetch.decode_word, hstack, List.dropLast_concat]
  · rw [hstack, track]
    obtain hfault | ⟨i, hfetch, hnests⟩ := hother
    · obtain ⟨cause, hcause⟩ := Option.ne_none_iff_exists'.mp hfault
      rw [hcause]
    · rw [hfetch.decode_word]
      cases i with
      | call target | ret => cases hnests
      | _ => cases s.fault <;> rfl

end Stride

namespace Machine

namespace Path

variable {m m' : Machine} {strides : List Stride}

theorem stack_eq (h : Path m strides m') (hm : m.Sound) :
    m'.stack = strides.foldl Stride.track m.stack := by
  induction h with
  | nil => rfl
  | cons htaken _ ih => rw [ih (htaken.sound hm), htaken.stack_eq hm, List.foldl_cons]

/-- Return addresses lie behind an instruction that could be read. -/
theorem forall_stack (h : Path m strides m') (hm : m.Sound)
    (hstack : ∀ target ∈ m.stack, 0x202 ≤ target.toNat ∧ target.toNat ≤ 0x1000) :
    ∀ target ∈ m'.stack, 0x202 ≤ target.toNat ∧ target.toNat ≤ 0x1000 := by
  induction h with
  | nil => exact hstack
  | @cons s strides m htaken _ ih =>
    refine ih (htaken.sound hm) fun target htarget => ?_
    obtain ⟨⟨-, _, hfetch⟩, heq⟩ | ⟨-, heq⟩ | ⟨-, heq⟩ := htaken.stack_cases hm
    · rw [heq] at htarget
      rcases List.mem_append.mp htarget with hold | hnew
      · exact hstack target hold
      · have hpc : (s.source.pc + 2).toNat = s.source.pc.toNat + 2 := hfetch.1.toNat_pc_pass
        have hlow := hfetch.1.1
        have hhigh := hfetch.1.2
        rw [List.mem_singleton.mp hnew, hpc]
        omega
    · exact hstack target (heq ▸ List.mem_append_left _ htarget)
    · exact hstack target (heq ▸ htarget)

/-! ## Calls and returns that match -/

/-- Return addresses stay while no return brings the depth down to what it was before the last of
them. -/
theorem prefix_stack {below : List Word} {own : Word} (h : Path m strides m') (hm : m.Sound)
    (hkept : below ++ [own] <+: m.stack)
    (hinside : ∀ s ∈ strides, s.Returns → s.target.depth ≠ below.length) :
    below ++ [own] <+: m'.stack := by
  induction h with
  | nil => exact hkept
  | @cons s strides m htaken _ ih =>
    obtain ⟨hfirst, hrest⟩ := List.forall_mem_cons.mp hinside
    refine ih (htaken.sound hm) ?_ hrest
    obtain ⟨-, heq⟩ | ⟨hreturns, heq⟩ | ⟨-, heq⟩ := htaken.stack_cases hm
    · rw [heq]
      exact hkept.trans (List.prefix_append ..)
    · rw [heq, List.prefix_concat_iff] at hkept
      rcases hkept with hlast | hearlier
      · -- the return would take away the address itself
        have hdepth : s.target.depth = below.length := by
          rw [← length_stack (htaken.sound hm).depth_le, (List.append_inj' hlast rfl).1]
        exact absurd hdepth (hfirst hreturns)
      · exact hearlier
    · rw [heq]
      exact hkept

/-- The first return that brings the depth back leads behind the call. -/
theorem pc_of_matched {before inner after : List Stride} {call ret : Stride}
    (h : Path m (before ++ call :: (inner ++ ret :: after)) m') (hm : m.Sound)
    (hcall : call.Calls) (hret : ret.Returns) (hdepth : ret.target.depth = call.source.depth)
    (hinside : ∀ s ∈ inner, s.Returns → s.target.depth ≠ call.source.depth) :
    ret.target.pc = call.source.pc + 2 ∧ ret.target.stack = call.source.stack := by
  obtain ⟨_, hbefore, hfrom⟩ := h.split
  cases hfrom with
  | cons hcallTaken hbody =>
  obtain ⟨_, hinner, hend⟩ := hbody.split
  cases hend with
  | cons hretTaken _ =>
  have hcallSound := hbefore.sound hm
  have hbodySound := hcallTaken.sound hcallSound
  have hretSound := hinner.sound hbodySound
  have hlength := length_stack hcallSound.depth_le
  have hopen : call.source.stack ++ [call.source.pc + 2] <+: ret.source.stack := by
    have hfirst := hcallTaken.stack_of_calls hcallSound hcall
    exact hinner.prefix_stack hbodySound (hfirst ▸ List.prefix_rfl) (hlength.symm ▸ hinside)
  rw [hretTaken.stack_of_returns hretSound hret] at hopen
  have hsize : (ret.target.stack ++ [ret.target.pc]).length =
      (call.source.stack ++ [call.source.pc + 2]).length := by
    rw [List.length_append, List.length_append, hlength,
      length_stack (hretTaken.sound hretSound).depth_le, hdepth]
    rfl
  obtain ⟨hstack, hpc⟩ := List.append_inj' (hopen.eq_of_length hsize.symm) rfl
  exact ⟨(List.cons.inj hpc).1.symm, hstack.symm⟩

end Path

/-- What the steps of a path from the start say about the stack at its end, about the next step, and
about the calls and returns on the way. -/
structure CallStack (strides : List Stride) (m : Machine) : Prop where
  stack : m.stack = Stride.returns strides
  depth : m.depth = (Stride.returns strides).length
  depth_le : (Stride.returns strides).length ≤ 16
  range : ∀ target ∈ Stride.returns strides, 0x202 ≤ target.toNat ∧ target.toNat ≤ 0x1000
  next : m.status = .running → ∀ {H : Type} [Host H] (host : H), ∃ turn, m.step host = .ok turn ∧
    (m.Fetches .ret → turn.fault = none →
      (Stride.returns strides).getLast? = some turn.machine.pc) ∧
    (turn.fault = some .stackUnderflow ↔ m.Fetches .ret ∧ Stride.returns strides = []) ∧
    (turn.fault = some .stackOverflow ↔
      ∃ target, m.Fetches (.call target) ∧ (Stride.returns strides).length = 16)
  matched : ∀ before call inner ret after, strides = before ++ call :: (inner ++ ret :: after) →
    call.Calls → ret.Returns → ret.target.depth = call.source.depth →
    (∀ s ∈ inner, s.Returns → s.target.depth ≠ call.source.depth) →
    ret.target.pc = call.source.pc + 2 ∧ ret.target.stack = call.source.stack

/-- Along every path of a machine with a fresh program the stack is the list of return addresses. -/
theorem callStack_of_path {dialect : Dialect} {entropy : Entropy} {program : List Byte}
    {m₀ m : Machine} {strides : List Stride} (hboot : boot dialect entropy program = .ok m₀)
    (h : Path m₀ strides m) : CallStack strides m := by
  have hstart : m₀.Sound := Run.sound (.load (.new dialect entropy) hboot)
  have hempty : m₀.stack = [] := by
    have hdepth := (sameControl_load hboot).depth
    rw [stack, hdepth]
    rfl
  have hm := h.sound hstart
  have hstack : m.stack = Stride.returns strides := by
    rw [h.stack_eq hstart, hempty, Stride.returns]
  have hdepth : m.depth = (Stride.returns strides).length := by
    rw [← hstack, length_stack hm.depth_le]
  refine ⟨hstack, hdepth, hdepth ▸ hm.depth_le, ?_, ?_, ?_⟩
  · rw [← hstack]
    exact h.forall_stack hstart (hempty ▸ List.forall_mem_nil _)
  · intro hstatus H _ host
    have hstep := step_eq_turn hstatus hm.depth_le host
    refine ⟨_, hstep, fun hfetch hfault => ?_, ?_, ?_⟩
    · have htaken : Stride.Taken ⟨m, (m.turn host).fault, (m.turn host).machine⟩ :=
        ⟨H, _, host, _, hstep, rfl, rfl⟩
      have hlast := htaken.stack_of_returns hm ⟨hfault, hfetch⟩
      rw [← hstack, hlast, List.getLast?_concat]
    · rw [fault_turn_eq_some, Raises, hdepth, List.length_eq_zero_iff]
    · rw [fault_turn_eq_some, Raises, hdepth]
  · rintro before call inner ret after rfl
    exact h.pc_of_matched hstart

/-- A program that calls itself, after its first call. -/
theorem self_call_tracked :
    ∃ (m₀ : Machine) (s : Stride), boot .cosmac (.cycle []) [0x22, 0x00] = .ok m₀ ∧
      s.source = m₀ ∧ s.Calls ∧ CallStack [s] s.target := by
  obtain ⟨m₀, hboot, -, hstatus, hdepth, -, hfetch⟩ :=
    boot_instruction (i := .call ⟨0x200, by decide⟩) .cosmac (.cycle []) 0x22 0x00 (by decide)
  have hfault : (m₀.turn ({} : Recorder)).fault = none := by
    rw [hfetch.turn_call (by rw [hdepth]; decide)]
  have hstep := step_eq_turn hstatus (hdepth.trans_le (Nat.zero_le _)) ({} : Recorder)
  let s : Stride := ⟨m₀, none, (m₀.turn ({} : Recorder)).machine⟩
  have htaken : s.Taken := ⟨Recorder, _, {}, _, hstep, hfault, rfl⟩
  have hpath : Path m₀ [s] s.target := .cons htaken (.nil _)
  exact ⟨m₀, s, hboot, rfl, ⟨rfl, _, hfetch⟩, callStack_of_path hboot hpath⟩

end Machine
end Chip8
