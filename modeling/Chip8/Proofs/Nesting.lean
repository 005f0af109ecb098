/-
  Calls and returns nest.

  A call leaves the address after it on the stack, and whatever the program does then — call again, jump
  about, write over its own code — the frames that were live at the call come back untouched.  What
  happens to a frame is up to two words only:
  1. **One step** (`StackMove`).  A step that carries out a call puts one address on top of the live
     frames, a step that carries out a return takes the newest one off and goes there, and any other
     step, done or failed, leaves the stack as it is.
  2. **A prefix** (`live_prefix`).  Frames that lie at the bottom of the stack stay there for as long as
     more are live than would be without the last of them: a return takes a frame off the other end.
  3. **The step that comes back** (`calls_nest`).  The first step after which no more frames are live than
     before the call can only be a return, and the frame it takes off is the one the call put there.
  4. **Counting** (`depth_stepped`).  The number of live frames is a balance of calls and returns.

  Frames above the live ones are still in the stack's sixteen places, but nothing here needs to know
  what they hold: a push writes the place it takes.
-/
import Chip8.Proofs.Run
import Chip8.Proofs.Sized

namespace Chip8

/-! ## The two words -/

namespace Word

/-- Is the word a call, `2nnn`? -/
def isCall (w : UInt16) : Bool := group w == 2

/-- Is the word a return, `00EE`? -/
def isReturn (w : UInt16) : Bool := w == 0x00ee

end Word

namespace Instruction

/-- The words `2nnn` are those of calls. -/
theorem isCall_iff {w : UInt16} : Word.isCall w = true ↔ ∃ a, ofWord? w = some (.call a) := by
  constructor
  · intro h
    have hgroup : Word.group w = 2 := beq_iff_eq.mp h
    have hfit : Opcode.call.format.accepts (Word.digits w) = true := by
      rw [Word.digits_eq, hgroup]
      rfl
    exact ⟨_, ofWord?_of_accepts hfit⟩
  · rintro ⟨a, h⟩
    have hfit := (ofWord?_eq_some_iff.mp h).1
    rw [Word.digits_eq] at hfit
    have hgroup : (2 : Nat) = (Word.group w).toNat := by
      simpa [opcode, Opcode.format, Format.accepts] using hfit
    exact beq_iff_eq.mpr (UInt8.toNat_inj.mp hgroup.symm)

/-- The word `00EE` is the only one of a return. -/
theorem isReturn_iff {w : UInt16} : Word.isReturn w = true ↔ ofWord? w = some .returnFromCall := by
  constructor
  · intro h
    obtain rfl : w = 0x00ee := beq_iff_eq.mp h
    decide
  · intro h
    have hword : returnFromCall.toWord = 0x00ee := by decide
    exact beq_iff_eq.mpr ((toWord_of_ofWord? h).symm.trans hword)

end Instruction

namespace Machine

variable {ρ : Type}

/-! ## One word -/

/-- What carrying out a word on a machine does to its stack. -/
inductive WordMove (m : Machine ρ) (w : UInt16) : Outcome (Machine ρ) → Prop where
  /-- A call puts the current address on top. -/
  | called {n : Machine ρ} (isCall : Word.isCall w = true)
      (live : n.stack.live = m.stack.live ++ [m.pc]) (depth : n.stack.depth = m.stack.depth + 1) :
      WordMove m w (.done n)
  /-- A return takes the newest address off and goes there. -/
  | returned {n : Machine ρ} (isReturn : w = 0x00ee) (live : m.stack.live = n.stack.live ++ [n.pc])
      (depth : m.stack.depth = n.stack.depth + 1) : WordMove m w (.done n)
  /-- Any other word leaves the stack alone. -/
  | other {n : Machine ρ} (notCall : Word.isCall w = false) (notReturn : Word.isReturn w = false)
      (stack : n.stack = m.stack) : WordMove m w (.done n)
  /-- So does a word that fails. -/
  | refused {n : Machine ρ} {fault : Fault} (stack : n.stack = m.stack) :
      WordMove m w (.failed fault n)

/-- A call moves the stack as a call should, or is refused. -/
theorem wordMove_call (m : Machine ρ) {w : UInt16} (hw : Word.isCall w = true) (a : UInt16) :
    m.WordMove w (m.call a) := by
  unfold call
  cases hpush : m.stack.push m.pc with
  | some stack => exact .called hw (CallStack.live_push hpush) (CallStack.depth_push hpush)
  | none => exact .refused rfl

/-- So does a return. -/
theorem wordMove_returnFromCall {m : Machine ρ} (hm : m.stack.depth ≤ stackDepth) :
    m.WordMove 0x00ee m.returnFromCall := by
  have hpop := CallStack.pop_eq hm
  unfold returnFromCall
  by_cases hd : 0 < m.stack.depth
  · rw [dif_pos hd] at hpop
    rw [hpop]
    exact .returned rfl (CallStack.live_pop hpop) (CallStack.depth_pop hpop)
  · rw [dif_neg hd] at hpop
    rw [hpop]
    exact .refused rfl

variable [ByteSource ρ]

/-- **Every word does one of these things to the stack.** -/
theorem wordMove_executeWord {m : Machine ρ} (hm : m.stack.depth ≤ stackDepth) (w : UInt16) :
    m.WordMove w (m.executeWord w) := by
  unfold executeWord
  cases hi : Instruction.ofWord? w with
  | none => exact .refused rfl
  | some i =>
    dsimp only
    by_cases hcall : Word.isCall w = true
    · obtain ⟨a, ha⟩ := Instruction.isCall_iff.mp hcall
      obtain rfl := Option.some.inj (hi.symm.trans ha)
      exact wordMove_call m hcall a
    · by_cases hreturn : Word.isReturn w = true
      · obtain rfl := Option.some.inj (hi.symm.trans (Instruction.isReturn_iff.mp hreturn))
        obtain rfl : w = 0x00ee := beq_iff_eq.mp hreturn
        exact wordMove_returnFromCall hm
      · -- No other opcode lists the stack among the parts it writes.
        have hwrites : Part.stack ∉ i.opcode.writes := by
          intro hwrites
          cases i <;> simp [Instruction.opcode, Opcode.writes] at hwrites
          case returnFromCall => exact hreturn (Instruction.isReturn_iff.mpr hi)
          case call a => exact hcall (Instruction.isCall_iff.mpr ⟨a, hi⟩)
        have hstack := stack_perform (m := m) hwrites
        cases hend : m.perform i with
        | done n =>
          rw [hend] at hstack
          exact .other (Bool.eq_false_iff.mpr hcall) (Bool.eq_false_iff.mpr hreturn) hstack
        | failed fault n =>
          rw [hend] at hstack
          exact .refused hstack

/-! ## One step -/

/-- What a step does to the stack of a machine. -/
inductive StackMove (m : Machine ρ) : Prop where
  /-- It carries out a call. -/
  | called (w : UInt16) (n : Machine ρ) (executed : m.executed? = some w)
      (isCall : Word.isCall w = true) (done : m.step = .done n)
      (live : n.stack.live = m.stack.live ++ [m.pc + 2]) (depth : n.stack.depth = m.stack.depth + 1)
  /-- It carries out a return. -/
  | returned (n : Machine ρ) (executed : m.executed? = some 0x00ee) (done : m.step = .done n)
      (live : m.stack.live = n.stack.live ++ [n.pc]) (depth : m.stack.depth = n.stack.depth + 1)
  /-- It carries out neither. -/
  | still (executed : ∀ w, m.executed? = some w → Word.isCall w = false ∧ Word.isReturn w = false)
      (stack : m.step.state.stack = m.stack)

/-- And so does every step. -/
theorem stackMove {m : Machine ρ} (hm : m.stack.depth ≤ stackDepth) : m.StackMove := by
  cases hword : m.upcoming with
  | none =>
    refine .still (fun w hw => ?_) ?_
    · rw [(done_of_executed? hw).1] at hword
      cases hword
    · rw [step_of_upcoming_none hword]
  | some w =>
    have hmove := wordMove_executeWord (m := m.advance w) hm w
    rw [← step_of_upcoming hword] at hmove
    cases hstep : m.step with
    | failed fault n =>
      rw [hstep] at hmove
      refine .still (fun v hv => ?_) ?_
      · rw [executed?_of_failed hstep] at hv
        cases hv
      · cases hmove with
        | refused hstack => rw [hstep]; exact hstack
    | done n =>
      rw [hstep] at hmove
      have hexecuted : m.executed? = some w := (executed?_of_done hstep).trans hword
      cases hmove with
      | called hcall hlive hdepth => exact .called w n hexecuted hcall hstep hlive hdepth
      | returned hreturn hlive hdepth => exact .returned n (hreturn ▸ hexecuted) hstep hlive hdepth
      | other hcall hreturn hstack =>
        refine .still (fun v hv => ?_) ?_
        · obtain rfl := Option.some.inj (hexecuted.symm.trans hv)
          exact ⟨hcall, hreturn⟩
        · rw [hstep]
          exact hstack

/-- A step changes the number of live frames by one at most. -/
theorem depth_step {m : Machine ρ} (hm : m.stack.depth ≤ stackDepth) :
    m.step.state.stack.depth ≤ m.stack.depth + 1 ∧ m.stack.depth ≤ m.step.state.stack.depth + 1 := by
  cases stackMove hm with
  | called w n hw hcall hstep hlive hdepth =>
    rw [hstep, Outcome.state_done]
    omega
  | returned n hw hstep hlive hdepth =>
    rw [hstep, Outcome.state_done]
    omega
  | still hw hstack =>
    rw [hstack]
    omega

/-- A step that carries out a call found room for the address. -/
theorem called_of_executed? {m n : Machine ρ} {w : UInt16} (hw : m.executed? = some w)
    (hcall : Word.isCall w = true) (hstep : m.step = .done n) :
    m.stack.depth < stackDepth ∧ n.stack.depth = m.stack.depth + 1
      ∧ n.stack.live = m.stack.live ++ [m.pc + 2] := by
  obtain ⟨a, ha⟩ := Instruction.isCall_iff.mp hcall
  rw [step_of_upcoming (done_of_executed? hw).1, executeWord, ha] at hstep
  dsimp only at hstep
  rw [perform, call] at hstep
  cases hpush : (m.advance w).stack.push (m.advance w).pc with
  | none =>
    rw [hpush] at hstep
    cases hstep
  | some stack =>
    have hroom : m.stack.depth < stackDepth := by
      refine Nat.lt_of_not_le fun hfull => ?_
      have hnone : (m.advance w).stack.push (m.advance w).pc = none :=
        CallStack.push_eq_none_iff.mpr hfull
      rw [hnone] at hpush
      cases hpush
    rw [hpush] at hstep
    cases hstep
    exact ⟨hroom, CallStack.depth_push hpush, CallStack.live_push hpush⟩

/-- A step that leaves no more frames than lie below an address takes off that address. -/
theorem returned_of_depth_le {m n : Machine ρ} {frames : List UInt16} {address : UInt16}
    (hm : m.stack.depth ≤ stackDepth) (hbottom : frames ++ [address] <+: m.stack.live)
    (hstep : m.step = .done n) (hdepth : n.stack.depth ≤ frames.length) :
    m.executed? = some 0x00ee ∧ n.pc = address ∧ n.stack.live = frames := by
  have hlength := hbottom.length_le
  rw [List.length_append, List.length_singleton, CallStack.length_live] at hlength
  cases stackMove hm with
  | called w l hw hcall hdone hlive hgrown =>
    obtain rfl := Outcome.done.inj (hstep.symm.trans hdone)
    omega
  | still hw hstack =>
    rw [hstep, Outcome.state_done] at hstack
    rw [hstack] at hdepth
    omega
  | returned l hw hdone hlive hshrunk =>
    obtain rfl := Outcome.done.inj (hstep.symm.trans hdone)
    -- Before the step exactly the frames and the address were live.
    have hall : frames ++ [address] = m.stack.live := by
      refine hbottom.eq_of_length ?_
      rw [List.length_append, List.length_singleton, CallStack.length_live]
      omega
    obtain ⟨hframes, haddress⟩ := List.append_inj' (hall.trans hlive) rfl
    exact ⟨hw, (List.singleton_inj.mp haddress).symm, hframes.symm⟩

/-! ## Many steps -/

/-- Were more frames than a number live at every moment of some steps? -/
def StaysAbove (depth k : Nat) (m : Machine ρ) : Prop :=
  ∀ j ≤ k, ∀ n, steps j m = .done n → depth < n.stack.depth

/-- What stays above from the start stays above from the first step on. -/
theorem staysAbove_succ {depth k : Nat} {m n : Machine ρ} (h : StaysAbove depth (k + 1) m)
    (hstep : m.step = .done n) : StaysAbove depth k n := by
  intro j hj l hl
  refine h (j + 1) (Nat.succ_le_succ hj) l ?_
  rw [steps_succ, hstep]
  exact hl

/-- **Frames at the bottom stay there** for as long as more are live than there would be without the
last of them. -/
theorem live_prefix {frames : List UInt16} {k : Nat} {m n : Machine ρ}
    (hm : m.stack.depth ≤ stackDepth) (hbottom : frames <+: m.stack.live)
    (hrun : steps k m = .done n) (habove : StaysAbove (frames.length - 1) k m) :
    n.stack.depth ≤ stackDepth ∧ frames <+: n.stack.live := by
  induction k generalizing m with
  | zero =>
    obtain rfl : m = n := Outcome.done.inj hrun
    exact ⟨hm, hbottom⟩
  | succ k ih =>
    obtain ⟨m', hstep, hrest⟩ := steps_succ_done hrun
    have habove' := staysAbove_succ habove hstep
    have hfirst : frames.length - 1 < m'.stack.depth := habove' 0 (Nat.zero_le k) m' rfl
    have hm' := depth_step_le hm
    rw [hstep, Outcome.state_done] at hm'
    refine ih hm' (show frames <+: m'.stack.live from ?_) hrest habove'
    cases stackMove hm with
    | called w l hw hcall hdone hlive hdepth =>
      obtain rfl := Outcome.done.inj (hstep.symm.trans hdone)
      rw [hlive]
      exact hbottom.trans (List.prefix_append ..)
    | returned l hw hdone hlive hdepth =>
      -- One frame goes from the top, and what is left is still long enough for the prefix.
      obtain rfl := Outcome.done.inj (hstep.symm.trans hdone)
      have hlength : frames.length ≤ m'.stack.live.length := by
        rw [CallStack.length_live]
        omega
      rw [hlive] at hbottom
      exact List.prefix_of_prefix_length_le hbottom (List.prefix_append ..) hlength
    | still hw hstack =>
      rw [hstep, Outcome.state_done] at hstack
      rw [hstack]
      exact hbottom

/-- **The live frames are a balance**: those at the beginning and the calls, less the returns. -/
theorem depth_stepped {m : Machine ρ} (hm : m.stack.depth ≤ stackDepth) (k : Nat) :
    (stepped k m).stack.depth ≤ stackDepth
    ∧ (stepped k m).stack.depth + tally Word.isReturn k m = m.stack.depth + tally Word.isCall k m := by
  induction k generalizing m with
  | zero => exact ⟨hm, rfl⟩
  | succ k ih =>
    obtain ⟨hle, hbalance⟩ := ih (depth_step_le hm)
    rw [stepped_succ, tally_succ, tally_succ]
    refine ⟨hle, ?_⟩
    cases stackMove hm with
    | called w n hw hcall hstep hlive hdepth =>
      have hreturn : Word.isReturn w = false := by
        refine Bool.eq_false_iff.mpr fun hreturn => ?_
        obtain rfl : w = 0x00ee := beq_iff_eq.mp hreturn
        exact absurd hcall (by decide)
      rw [hw, Option.any_some, Option.any_some, hcall, hreturn, if_pos rfl,
        if_neg Bool.false_ne_true]
      rw [hstep, Outcome.state_done] at hbalance ⊢
      omega
    | returned n hw hstep hlive hdepth =>
      have hcall : Word.isCall 0x00ee = false := by decide
      have hreturn : Word.isReturn 0x00ee = true := by decide
      rw [hw, Option.any_some, Option.any_some, hcall, hreturn, if_pos rfl,
        if_neg Bool.false_ne_true]
      rw [hstep, Outcome.state_done] at hbalance ⊢
      omega
    | still hw hstack =>
      have hneither : m.executed?.any Word.isCall = false ∧ m.executed?.any Word.isReturn = false := by
        cases hexecuted : m.executed? with
        | none => exact ⟨rfl, rfl⟩
        | some w => exact hw w hexecuted
      rw [hneither.1, hneither.2, if_neg Bool.false_ne_true]
      rw [hstack] at hbalance
      omega

/-- **Calls and returns nest.**
    * After a step that carries out a call, and for as long as more frames are live than before it, the
      frames of before and the address after the call lie at the bottom of the stack; and the first
      step after which no more are live is a return to that address, which leaves the frames of before.
    * On any machine, however many steps are taken and whether they are done or fail, there are never
      more than sixteen live frames, a step changes their number by one at most, and the number is that
      of the beginning, plus the calls and minus the returns that were carried out. -/
theorem calls_nest :
    (∀ (m m' : Machine ρ) (w : UInt16), m.executed? = some w → Word.isCall w = true →
      m.step = .done m' → ∀ k n, steps k m' = .done n → StaysAbove m.stack.depth k m' →
        m.stack.live ++ [m.pc + 2] <+: n.stack.live
        ∧ ∀ n', n.step = .done n' → n'.stack.depth ≤ m.stack.depth →
            n.executed? = some 0x00ee ∧ n'.pc = m.pc + 2 ∧ n'.stack.live = m.stack.live
            ∧ n'.stack.depth = m.stack.depth)
    ∧ ∀ m : Machine ρ, m.stack.depth ≤ 16 → ∀ k,
        (stepped k m).stack.depth ≤ 16
        ∧ (stepped k m).step.state.stack.depth ≤ (stepped k m).stack.depth + 1
        ∧ (stepped k m).stack.depth ≤ (stepped k m).step.state.stack.depth + 1
        ∧ (stepped k m).stack.depth + tally Word.isReturn k m
          = m.stack.depth + tally Word.isCall k m := by
  refine ⟨fun m m' w hw hcall hstep k n hrun habove => ?_, fun m hm k => ?_⟩
  · obtain ⟨hroom, hdepth, hlive⟩ := called_of_executed? hw hcall hstep
    have hm' : m'.stack.depth ≤ stackDepth := by omega
    have hlength : (m.stack.live ++ [m.pc + 2]).length - 1 = m.stack.depth := by
      rw [List.length_append, List.length_singleton, CallStack.length_live, Nat.add_sub_cancel]
      omega
    rw [← hlength] at habove
    obtain ⟨hn, hbottom⟩ := live_prefix hm' (hlive ▸ List.prefix_rfl) hrun habove
    refine ⟨hbottom, fun n' hn' hback => ?_⟩
    have hframes : n'.stack.depth ≤ m.stack.live.length := by
      rw [CallStack.length_live]
      omega
    obtain ⟨hreturn, hpc, hsame⟩ := returned_of_depth_le hn hbottom hn' hframes
    have hcount := congrArg List.length hsame
    rw [CallStack.length_live, CallStack.length_live] at hcount
    exact ⟨hreturn, hpc, hsame, by omega⟩
  · obtain ⟨hle, hbalance⟩ := depth_stepped hm k
    obtain ⟨hgrown, hshrunk⟩ := depth_step hle
    exact ⟨hle, hgrown, hshrunk, hbalance⟩

/-- A program that calls the subroutine at 0x204, which calls another one at 0x208.  Both return, the second
to 0x206 and the first to 0x202, with nothing left on the stack. -/
theorem calls_nest_subroutine :
    let m := ((powerOn (Stepper.mk 0 1)).load
      [0x22, 0x04, 0x12, 0x02, 0x22, 0x08, 0x00, 0xee, 0x00, 0xee]).state
    m.executed? = some 0x2204 ∧ Word.isCall 0x2204 = true
    ∧ ∃ m' l n n', m.step = .done m' ∧ m'.step = .done l ∧ l.stack.live = [0x202, 0x206]
      ∧ steps 2 m' = .done n ∧ StaysAbove m.stack.depth 2 m'
      ∧ m.stack.live ++ [m.pc + 2] <+: n.stack.live
      ∧ n.step = .done n' ∧ n'.stack.depth ≤ m.stack.depth ∧ n.executed? = some 0x00ee
      ∧ n'.pc = m.pc + 2 ∧ n'.stack.live = m.stack.live := by
  obtain ⟨memory, hload, hloaded⟩ := load_powerOn (Stepper.mk 0 1)
    [0x22, 0x04, 0x12, 0x02, 0x22, 0x08, 0x00, 0xee, 0x00, 0xee] (by decide)
  rw [hloaded, Outcome.state_done]
  intro m
  let first : Machine Stepper := { m.advance 0x2204 with
    stack := ⟨m.stack.frames.set 0 0x202, 1⟩, pc := 0x204 }
  let second : Machine Stepper := { first.advance 0x2208 with
    stack := ⟨first.stack.frames.set 1 0x206, 2⟩, pc := 0x208 }
  let again : Machine Stepper := { second.advance 0x00ee with
    stack := ⟨second.stack.frames, 1⟩, pc := 0x206 }
  let back : Machine Stepper := { again.advance 0x00ee with
    stack := ⟨again.stack.frames, 0⟩, pc := 0x202 }
  have hreturnword : Instruction.ofWord? 0x00ee = some .returnFromCall := by decide
  have hupcoming : m.upcoming = some 0x2204 := upcoming_eq_some_iff.mpr
    ⟨rfl, fetch_load hload (k := 0) rfl rfl rfl (by decide)⟩
  have hfirst : m.step = .done first := by
    have hword : Instruction.ofWord? 0x2204 = some (.call 0x204) := by decide
    rw [step_of_upcoming hupcoming, executeWord, hword]
    rfl
  have hsecond : first.step = .done second := by
    have hword : Instruction.ofWord? 0x2208 = some (.call 0x208) := by decide
    have hnext : first.upcoming = some 0x2208 := upcoming_eq_some_iff.mpr
      ⟨rfl, fetch_load hload (k := 4) rfl rfl rfl (by decide)⟩
    rw [step_of_upcoming hnext, executeWord, hword]
    rfl
  have hagain : second.step = .done again := by
    have hnext : second.upcoming = some 0x00ee := upcoming_eq_some_iff.mpr
      ⟨rfl, fetch_load hload (k := 8) rfl rfl rfl (by decide)⟩
    rw [step_of_upcoming hnext, executeWord, hreturnword]
    rfl
  have hback : again.step = .done back := by
    have hnext : again.upcoming = some 0x00ee := upcoming_eq_some_iff.mpr
      ⟨rfl, fetch_load hload (k := 6) rfl rfl rfl (by decide)⟩
    rw [step_of_upcoming hnext, executeWord, hreturnword]
    rfl
  have hone : steps 1 first = .done second := by
    rw [steps_succ, hsecond]
    rfl
  have htwo : steps 2 first = .done again := by
    rw [steps_succ, hsecond, Outcome.done_andThen, steps_succ, hagain]
    rfl
  -- Two frames are live inside, and one before and after that.
  have habove : StaysAbove m.stack.depth 2 first := by
    intro j hj n hn
    obtain rfl | rfl | rfl : j = 0 ∨ j = 1 ∨ j = 2 := by omega
    · obtain rfl := Outcome.done.inj hn
      exact Nat.one_pos
    · obtain rfl := Outcome.done.inj (hone.symm.trans hn)
      exact Nat.two_pos
    · obtain rfl := Outcome.done.inj (htwo.symm.trans hn)
      exact Nat.one_pos
  have hexecuted : m.executed? = some 0x2204 := (executed?_of_done hfirst).trans hupcoming
  have hcall : Word.isCall 0x2204 = true := by decide
  obtain ⟨hbottom, hreturn⟩ := calls_nest.1 m first 0x2204 hexecuted hcall hfirst 2 again htwo habove
  obtain ⟨hret, hpc, hlive, -⟩ := hreturn _ hback (Nat.zero_le _)
  exact ⟨hexecuted, hcall, first, second, again, back, hfirst, hsecond, rfl, htwo, habove, hbottom,
    hback, Nat.zero_le _, hret, hpc, hlive⟩

end Machine

end Chip8
