/-
  Where the program counter can be.

  The program counter has sixteen bits and memory has 4096 bytes, and adding to the counter wraps around.
  A machine that carries out only what it fetches never gets that far.
  1. **Where an instruction leads** (`Arrival`).  From an address up to 0x1000, as numbers: to the address
     itself, two bytes on, to an address of three digits, to such an address and a byte more, or to a
     frame.
  2. **The joint invariant** (`Confined`).  The counter is at most 0x10fe — that is 0xfff and the
     largest byte — and the live frames are between 0x002 and 0x1000.  Each half needs the other: a
     return goes to a frame, a call makes one out of the counter.  The counter is bounded where it is
     used, for a word is found below 0xfff only, whatever the counter was before.
  3. **Nothing wraps** (`Unwrapped`).  Every addition to the counter is made one that may trap.  None of
     them does, for a step adds to the counter only after it has found a word there.

  Words that are carried out without being fetched are left out: enough skips in a row, and the counter
  does wrap.
-/
import Chip8.Proofs.Nesting
import Chip8.Proofs.Safety

namespace Chip8

variable {ρ : Type}

/-! ## Machines that execute what they fetch -/

/-- Does the operation execute nothing but what the machine fetches? -/
def Operation.Fetches : Operation → Prop
  | executeWord _ => False
  | _ => True

/-- The steps of an emulator are those of its machine. -/
theorem Operation.apply_runSteps [ByteSource ρ] (e : Emulator ρ) (n : Nat) :
    (e.runSteps n).map Emulator.machine = (steps n).apply e.machine := by
  show ((Machine.steps n e.machine).map _).map _ = Machine.steps n e.machine
  cases Machine.steps n e.machine <;> rfl

namespace Machine

variable [ByteSource ρ]

/-- Does a history lead to the machine in which nothing was executed without being fetched? -/
def ReachableByFetch (m : Machine ρ) : Prop :=
  ∃ (random : ρ) (history : List Operation),
    (∀ op ∈ history, op.Fetches) ∧ after history (powerOn random) = m

/-- What holds at the start and is kept by what fetches holds of all machines that are reached in this way. -/
theorem ReachableByFetch.induct {P : Machine ρ → Prop} (hpower : ∀ random, P (powerOn random))
    (happly : ∀ (m : Machine ρ) (op : Operation), op.Fetches → P m → P (op.apply m).state)
    {m : Machine ρ} (hm : m.ReachableByFetch) : P m := by
  obtain ⟨random, history, hfetches, rfl⟩ := hm
  have hstart := hpower random
  generalize powerOn random = m at hstart ⊢
  induction history generalizing m with
  | nil => exact hstart
  | cons op history ih =>
    obtain ⟨hop, hrest⟩ := List.forall_mem_cons.mp hfetches
    exact ih hrest _ (happly m op hop hstart)

/-- They are reachable machines, so they have their sizes. -/
theorem ReachableByFetch.sized {m : Machine ρ} (hm : m.ReachableByFetch) : m.Sized :=
  hm.induct sized_powerOn fun _ op _ => sized_apply op

end Machine

/-! ## Where an instruction leads -/

/-- An address in a decoded word has three digits. -/
theorem Instruction.address_lt_of_ofWord? {w : UInt16} {i : Instruction}
    (h : Instruction.ofWord? w = some i) : i.operand .address < 0x1000 := by
  have haddress := Word.field_lt w .address
  rw [(Instruction.ofWord?_eq_some_iff.mp h).2]
  generalize i.opcode = op
  cases op <;> first | exact Nat.succ_pos _ | skip
  all_goals
    rw [Opcode.operand_instruction _ (by decide) haddress]
    exact haddress

/-- There is room in sixteen bits for two more than an address that is not behind memory. -/
theorem add_two_lt {a : UInt16} (h : a.toNat ≤ 0x1000) : a.toNat + 2 < UInt16.size :=
  Nat.lt_of_le_of_lt (Nat.add_le_add_right h 2) (by decide)

/-- Behind a word in memory the counter does not wrap. -/
theorem toNat_add_two {a : UInt16} (h : a.toNat ≤ 0x1000) : (a + 2).toNat = a.toNat + 2 := by
  rw [UInt16.toNat_add]
  exact Nat.mod_eq_of_lt (add_two_lt h)

/-- A byte more than an address of three digits. -/
theorem toNat_add_byte {a : UInt16} (h : a.toNat < 0x1000) (b : UInt8) :
    (a + b.toUInt16).toNat = a.toNat + b.toNat := by
  have hb := b.toNat_lt
  rw [UInt16.toNat_add, UInt8.toNat_toUInt16]
  omega

namespace Machine

/-- The addresses to which an instruction may lead a machine that stands after it. -/
inductive Arrival (m : Machine ρ) (i : Instruction) : UInt16 → Prop where
  /-- On to the next instruction. -/
  | next : m.Arrival i m.pc
  /-- Over the next instruction. -/
  | skipped {pc : UInt16} (two : pc.toNat = m.pc.toNat + 2) : m.Arrival i pc
  /-- To the address in the word. -/
  | jumped {pc : UInt16} (target : i = .jump pc ∨ i = .call pc) : m.Arrival i pc
  /-- So many bytes behind the address in the word. -/
  | offset {a pc : UInt16} (target : i = .jumpOffset a) (sum : pc.toNat = a.toNat + m.v0.toNat) :
      m.Arrival i pc
  /-- Back to a live frame. -/
  | returned {pc : UInt16} (back : i = .returnFromCall) (frame : pc ∈ m.stack.live) :
      m.Arrival i pc

/-- A skip arrives behind the next word or stays before it. -/
theorem arrival_skipWhen {m : Machine ρ} {i : Instruction} (hpc : m.pc.toNat ≤ 0x1000)
    (condition : Bool) : m.Arrival i (m.skipWhen condition).pc := by
  cases condition with
  | false => exact .next
  | true => exact .skipped (toNat_add_two hpc)

/-- Where an instruction arrives does not depend on the register. -/
theorem arrival_withRegister {m : Machine ρ} {i : Instruction} {r : Nat}
    {next : Fin 16 → Outcome (Machine ρ)} (hnext : ∀ x, m.Arrival i (next x).state.pc) :
    m.Arrival i (m.withRegister r next).state.pc :=
  withRegister_keeps (P := fun n => m.Arrival i n.pc) .next hnext

/-- A return arrives at an address that was live, or it fails where it stands. -/
theorem arrival_returnFromCall {m : Machine ρ} (hstack : m.stack.depth ≤ stackDepth) :
    m.Arrival .returnFromCall m.returnFromCall.state.pc := by
  have hpop := CallStack.pop_eq hstack
  unfold returnFromCall
  by_cases hd : 0 < m.stack.depth
  · rw [dif_pos hd] at hpop
    have hframe : m.stack.frames[m.stack.depth - 1] ∈ m.stack.live := by
      rw [CallStack.live_pop hpop]
      exact List.mem_append_right _ (List.mem_singleton_self _)
    rw [hpop]
    exact .returned rfl hframe
  · rw [dif_neg hd] at hpop
    rw [hpop]
    exact .next

/-- A call arrives at its operand, or it fails where it stands. -/
theorem arrival_call (m : Machine ρ) (a : UInt16) : m.Arrival (.call a) (m.call a).state.pc := by
  unfold call
  cases m.stack.push m.pc with
  | some stack => exact .jumped (.inr rfl)
  | none => exact .next

/-- Where an instruction leads, whether it succeeds or fails. -/
theorem arrival_perform [ByteSource ρ] {m : Machine ρ} (hstack : m.stack.depth ≤ stackDepth)
    (hpc : m.pc.toNat ≤ 0x1000) {i : Instruction} (ha : i.operand .address < 0x1000) :
    m.Arrival i (m.perform i).state.pc := by
  by_cases hwrites : Part.pc ∈ i.opcode.writes
  · cases i <;> simp [Instruction.opcode, Opcode.writes] at hwrites
    case returnFromCall => exact arrival_returnFromCall hstack
    case jump a => exact .jumped (.inl rfl)
    case call a => exact arrival_call m a
    case jumpOffset a => exact .offset rfl (toNat_add_byte ha m.v0)
    case skipIfByte x b | skipUnlessByte x b =>
      rw [perform]
      refine arrival_withRegister fun x => ?_
      exact arrival_skipWhen hpc _
    case skipIfEqual x y | skipUnlessEqual x y =>
      rw [perform]
      refine arrival_withRegister fun x => arrival_withRegister fun y => ?_
      exact arrival_skipWhen hpc _
  · rw [pc_perform hwrites]
    exact .next

/-! ## The joint invariant -/

/-- The counter and the live frames are not far behind memory. -/
structure Confined (m : Machine ρ) : Prop where
  pc : m.pc.toNat ≤ 0x10fe
  frames : ∀ a ∈ m.stack.live, 0x002 ≤ a.toNat ∧ a.toNat ≤ 0x1000

theorem entry_le : entry.toNat ≤ 0x10fe := by decide

/-- A machine begins at the start of program memory, with no frames. -/
theorem confined_powerOn (random : ρ) : (powerOn random).Confined :=
  ⟨entry_le, fun _ ha => nomatch ha⟩

/-- And so it does after a reset. -/
theorem confined_reset (m : Machine ρ) : m.reset.Confined :=
  ⟨entry_le, fun _ ha => nomatch ha⟩

/-- A machine that has found a word stands, as numbers, two bytes on, and still not behind memory. -/
theorem advance_le {m : Machine ρ} (hs : m.Sized) {w : UInt16} (h : m.upcoming = some w) :
    (m.advance w).pc.toNat = m.pc.toNat + 2 ∧ (m.advance w).pc.toNat ≤ 0x1000 := by
  have hlt := lt_of_fetch (upcoming_eq_some_iff.mp h).2
  rw [hs.memory, memorySize] at hlt
  have hadvance : (m.advance w).pc.toNat = m.pc.toNat + 2 := toNat_add_two (by omega)
  exact ⟨hadvance, hadvance ▸ hlt⟩

variable [ByteSource ρ]

/-- A step leads where its instruction leads, and without one to the next word. -/
theorem arrival_step {m : Machine ρ} (hs : m.Sized) {w : UInt16} (h : m.upcoming = some w) :
    m.step.state.pc = (m.advance w).pc
    ∨ ∃ i, Instruction.ofWord? w = some i ∧ (m.advance w).Arrival i m.step.state.pc := by
  rw [step_of_upcoming h, executeWord]
  cases hi : Instruction.ofWord? w with
  | none => exact .inl rfl
  | some i =>
    have hpc := (advance_le hs h).2
    exact .inr ⟨i, rfl, arrival_perform (m := m.advance w) hs.stack hpc
      (Instruction.address_lt_of_ofWord? hi)⟩

/-- The largest counter is that of a jump to 0xfff and the largest byte more. -/
theorem pc_step_le {m : Machine ρ} (hs : m.Sized) (hm : m.Confined) :
    m.step.state.pc.toNat ≤ 0x10fe := by
  cases hword : m.upcoming with
  | none =>
    rw [step_of_upcoming_none hword]
    exact hm.pc
  | some w =>
    obtain ⟨-, hpc⟩ := advance_le hs hword
    rcases arrival_step hs hword with hnext | ⟨i, hi, harrival⟩
    · rw [hnext]
      omega
    · have haddress := Instruction.address_lt_of_ofWord? hi
      generalize m.step.state.pc = pc at harrival
      cases harrival with
      | next => omega
      | skipped htwo => omega
      | jumped htarget =>
        have hpc' : pc.toNat < 0x1000 := by
          rcases htarget with rfl | rfl <;> exact haddress
        omega
      | @offset a _ htarget hsum =>
        have ha : a.toNat < 0x1000 := by
          subst htarget
          exact haddress
        have hbyte := (m.advance w).v0.toNat_lt
        omega
      | returned hback hframe =>
        have hframes := (hm.frames pc hframe).2
        omega

/-- A step makes a frame only out of the address after a word that it found. -/
theorem frames_step {m : Machine ρ} (hs : m.Sized) (hm : m.Confined) :
    ∀ a ∈ m.step.state.stack.live, 0x002 ≤ a.toNat ∧ a.toNat ≤ 0x1000 := by
  intro a ha
  cases stackMove hs.stack with
  | called w n hw hcall hstep hlive hdepth =>
    rw [hstep, Outcome.state_done, hlive] at ha
    rcases List.mem_append.mp ha with hold | hnew
    · exact hm.frames a hold
    · obtain rfl := List.mem_singleton.mp hnew
      obtain ⟨htwo, hle⟩ := advance_le hs (done_of_executed? hw).1
      have hpc : (m.advance w).pc = m.pc + 2 := rfl
      rw [hpc] at htwo hle
      omega
  | returned n hw hstep hlive hdepth =>
    rw [hstep, Outcome.state_done] at ha
    refine hm.frames a ?_
    rw [hlive]
    exact List.mem_append_left _ ha
  | still hw hstack =>
    rw [hstack] at ha
    exact hm.frames a ha

/-- **A step keeps to these bounds**, whatever the word was. -/
theorem confined_step {m : Machine ρ} (hs : m.Sized) (hm : m.Confined) : m.step.state.Confined :=
  ⟨pc_step_le hs hm, frames_step hs hm⟩

theorem confined_steps {m : Machine ρ} (hs : m.Sized) (hm : m.Confined) (n : Nat) :
    (steps n m).state.Confined := by
  have hboth := steps_keeps (P := fun m => m.Sized ∧ m.Confined)
    (fun _ h => ⟨sized_step h.1, confined_step h.1 h.2⟩) ⟨hs, hm⟩ n
  exact hboth.2

/-- An operation that fetches what it executes keeps the invariant. -/
theorem confined_apply {m : Machine ρ} {op : Operation} (hop : op.Fetches) (hs : m.Sized)
    (hm : m.Confined) : (op.apply m).state.Confined := by
  cases op with
  | executeWord w => exact hop.elim
  | load program =>
    show (m.load program).state.Confined
    unfold load
    split <;> exact ⟨hm.pc, hm.frames⟩
  | setRegister r value =>
    show (m.setRegister r value).state.Confined
    unfold setRegister
    split <;> exact ⟨hm.pc, hm.frames⟩
  | setSwitches switches => exact ⟨hm.pc, hm.frames⟩
  | tick => exact ⟨hm.pc, hm.frames⟩
  | reset => exact confined_reset m
  | step => exact confined_step hs hm
  | steps n => exact confined_steps hs hm n
  | frame pace look seen =>
    exact Operation.frame_keeps (P := Confined) (fun n hn => ⟨hn.pc, hn.frames⟩)
      (confined_steps hs hm pace.stepsPerFrame)

/-- So the bounds hold of every machine that is reached by fetching. -/
theorem ReachableByFetch.confined {m : Machine ρ} (hm : m.ReachableByFetch) : m.Confined := by
  have hboth : m.Sized ∧ m.Confined :=
    hm.induct (P := fun m => m.Sized ∧ m.Confined)
      (fun random => ⟨sized_powerOn random, confined_powerOn random⟩)
      fun _ op hop hm => ⟨sized_apply op hm.1, confined_apply hop hm.1 hm.2⟩
  exact hboth.2

end Machine

/-! ## The machine whose counter does not wrap -/

namespace Unwrapped

/-- The address so many bytes on. -/
def after (a : UInt16) (count : Nat) : Except Trap UInt16 := do
  let sum ← Checked.sum UInt16.size a.toNat count
  return UInt16.ofNat sum

/-- Step over the next instruction if a condition holds. -/
def skipWhen (m : Machine ρ) (condition : Bool) : Except Trap (Outcome (Machine ρ)) :=
  if condition then do
    let pc ← after m.pc 2
    return .done { m with pc := pc }
  else .ok (.done m)

theorem after_ok {a : UInt16} {count : Nat} (h : a.toNat + count < UInt16.size) :
    after a count = .ok (a + UInt16.ofNat count) := by
  unfold after
  rw [Checked.sum_ok h, Checked.ok_bind, UInt16.ofNat_add, UInt16.ofNat_toNat]
  rfl

/-- A skip within the bounds does not overflow. -/
theorem skipWhen_ok {m : Machine ρ} (hpc : m.pc.toNat ≤ 0x1000) (condition : Bool) :
    skipWhen m condition = .ok (.done (m.skipWhen condition)) := by
  cases condition with
  | false => rfl
  | true =>
    unfold skipWhen
    rw [if_pos rfl, after_ok (add_two_lt hpc)]
    rfl

variable [ByteSource ρ]

/-- Carry out an instruction. -/
def perform (m : Machine ρ) : Instruction → Except Trap (Outcome (Machine ρ))
  | .skipIfByte x b => do
      let vx ← Checked.item m.v.toArray x
      skipWhen m (vx == b)
  | .skipUnlessByte x b => do
      let vx ← Checked.item m.v.toArray x
      skipWhen m (vx != b)
  | .skipIfEqual x y => do
      let vx ← Checked.item m.v.toArray x
      let vy ← Checked.item m.v.toArray y
      skipWhen m (vx == vy)
  | .skipUnlessEqual x y => do
      let vx ← Checked.item m.v.toArray x
      let vy ← Checked.item m.v.toArray y
      skipWhen m (vx != vy)
  | .jumpOffset a => do
      let pc ← after a m.v0.toNat
      return .done { m with pc := pc }
  | i => .ok (m.perform i)

/-- Carry out the instruction a word stands for. -/
def executeWord (m : Machine ρ) (w : UInt16) : Except Trap (Outcome (Machine ρ)) :=
  match Instruction.ofWord? w with
  | some i => perform m i
  | none => .ok (.failed (.error (.unimplemented w)) m)

/-- Take one step. -/
def step (m : Machine ρ) : Except Trap (Outcome (Machine ρ)) :=
  if m.switches.paused then .ok (.done m)
  else
    match m.fetch with
    | .error e => .ok (.failed (.error e) m)
    | .ok w => do
        let pc ← after m.pc 2
        executeWord { m.advance w with pc := pc } w

/-- Take a number of steps. -/
def steps : Nat → Machine ρ → Except Trap (Outcome (Machine ρ))
  | 0, m => .ok (.done m)
  | n + 1, m => do
      match ← step m with
      | .failed fault m => return .failed fault m
      | .done m => steps n m

/-- Carry out an operation. -/
def apply (m : Machine ρ) : Operation → Except Trap (Outcome (Machine ρ))
  | .executeWord w => executeWord m w
  | .step => step m
  | .steps n => steps n m
  | .frame pace _ _ => do
      match ← steps pace.stepsPerFrame m with
      | .failed fault m => return .failed fault m
      | .done m => return .done m.tick
  | op => .ok (op.apply m)

/-! ## Nothing wraps -/

/-- No instruction overflows the counter, for the operand of a jump is below 0x1000. -/
theorem perform_ok {m : Machine ρ} (hpc : m.pc.toNat ≤ 0x1000) {i : Instruction} (hi : i.InRange)
    (ha : i.operand .address < 0x1000) : perform m i = .ok (m.perform i) := by
  obtain ⟨hx, hy⟩ := hi
  cases i with
  | skipIfByte x b | skipUnlessByte x b =>
    rw [perform, Machine.perform, Machine.withRegister_of_lt (r := x) hx,
      Checked.register_ok m ⟨x, hx⟩]
    exact skipWhen_ok hpc _
  | skipIfEqual x y | skipUnlessEqual x y =>
    rw [perform, Machine.perform, Machine.withRegister_of_lt (r := x) hx,
      Machine.withRegister_of_lt (r := y) hy, Checked.register_ok m ⟨x, hx⟩, Checked.ok_bind,
      Checked.register_ok m ⟨y, hy⟩]
    exact skipWhen_ok hpc _
  | jumpOffset a =>
    have hbyte := m.v0.toNat_lt
    have hroom : a.toNat + m.v0.toNat < UInt16.size := by
      have ha : a.toNat < 0x1000 := ha
      simp only [UInt16.size]
      omega
    have hwiden : UInt16.ofNat m.v0.toNat = m.v0.toUInt16 := by simp
    rw [perform, Machine.perform, after_ok hroom, Checked.ok_bind, hwiden]
    rfl
  | _ => rfl

/-- A step needs no wrapping — the counter stood before a word, so there is room above it. -/
theorem step_ok {m : Machine ρ} (hs : m.Sized) : step m = .ok m.step := by
  unfold step Machine.step
  by_cases hpaused : m.switches.paused = true
  · rw [if_pos hpaused, if_pos hpaused]
  · rw [if_neg hpaused, if_neg hpaused]
    cases hfetch : m.fetch with
    | error e => rfl
    | ok w =>
      have hword : m.upcoming = some w :=
        Machine.upcoming_eq_some_iff.mpr ⟨Bool.eq_false_iff.mpr hpaused, hfetch⟩
      have hlt := Machine.lt_of_fetch hfetch
      rw [hs.memory, memorySize] at hlt
      dsimp only
      rw [after_ok (add_two_lt (by omega)), Checked.ok_bind]
      show executeWord (m.advance w) w = .ok ((m.advance w).executeWord w)
      unfold executeWord Machine.executeWord
      cases hi : Instruction.ofWord? w with
      | none => rfl
      | some i =>
        exact perform_ok (Machine.advance_le hs hword).2 (Instruction.inRange_of_ofWord? hi)
          (Instruction.address_lt_of_ofWord? hi)

theorem steps_ok {m : Machine ρ} (hs : m.Sized) (count : Nat) :
    steps count m = .ok (Machine.steps count m) := by
  induction count generalizing m with
  | zero => rfl
  | succ count ih =>
    have hs' := Machine.sized_step hs
    rw [steps, step_ok hs, Checked.ok_bind, Machine.steps_succ]
    cases hstep : m.step with
    | failed fault n => rfl
    | done n =>
      rw [hstep] at hs'
      exact ih hs'

theorem apply_ok {m : Machine ρ} (hs : m.Sized) {op : Operation} (hop : op.Fetches) :
    apply m op = .ok (op.apply m) := by
  cases op with
  | executeWord w => exact hop.elim
  | step => exact step_ok hs
  | steps n => exact steps_ok hs n
  | frame pace look seen =>
    rw [apply, Operation.apply_frame, steps_ok hs, Checked.ok_bind]
    cases Machine.steps pace.stepsPerFrame m <;> rfl
  | _ => rfl

end Unwrapped

namespace Machine

variable [ByteSource ρ]

/-- A step goes back only where its word says so — to a frame, to an address of three digits, or behind
such an address. -/
theorem lower_step {m : Machine ρ} (hs : m.Sized) (hlower : m.step.state.pc < m.pc) :
    ∃ w i, m.upcoming = some w ∧ Instruction.ofWord? w = some i
      ∧ (i = .returnFromCall ∧ m.step.state.pc ∈ m.stack.live ∨ i = .jump m.step.state.pc
        ∨ i = .call m.step.state.pc ∨ ∃ a, i = .jumpOffset a ∧ a ≤ m.step.state.pc) := by
  rw [UInt16.lt_iff_toNat_lt] at hlower
  cases hword : m.upcoming with
  | none =>
    rw [step_of_upcoming_none hword] at hlower
    exact absurd hlower (Nat.lt_irrefl _)
  | some w =>
    obtain ⟨htwo, -⟩ := advance_le hs hword
    rcases arrival_step hs hword with hnext | ⟨i, hi, harrival⟩
    · rw [hnext] at hlower
      omega
    · refine ⟨w, i, rfl, hi, ?_⟩
      generalize m.step.state.pc = pc at harrival hlower
      cases harrival with
      | next => omega
      | skipped hskip => omega
      | jumped htarget => exact .inr (htarget.imp_right .inl)
      | @offset a _ htarget hsum =>
        have hle : a ≤ pc := UInt16.le_iff_toNat_le.mpr (by omega)
        exact .inr (.inr (.inr ⟨a, htarget, hle⟩))
      | returned hback hframe => exact .inl ⟨hback, hframe⟩

/-- A machine behind memory reports the first address it has no byte at. -/
theorem step_of_behind {m : Machine ρ} (hs : m.Sized) (hrun : m.switches.paused = false)
    (hpc : 0xffe < m.pc.toNat) :
    m.step = .failed (.error (.invalidAddress (max m.pc.toNat 0x1000))) m := by
  have hbehind : m.memory.length ≤ m.pc.toNat + 1 := by
    rw [hs.memory]
    exact Nat.succ_le_succ hpc
  have hfetch := fetch_of_length_le hbehind
  rw [hs.memory] at hfetch
  exact step_of_fetch_error hrun hfetch

/-- **The program counter stays within reach of memory**, on every machine that was only ever made to
execute what it fetches.
    * It is at most 0x10fe, and every live frame is between 0x002 and 0x1000.
    * Whatever is done to the machine next, no addition to the counter wraps; a step that ends at a lower
      address than it began at went there by a return, a jump or a call.
    * From behind 0xffe, a step of a machine that is not paused fails with an invalid address. -/
theorem counter_confined {m : Machine ρ} (hm : m.ReachableByFetch) :
    m.pc.toNat ≤ 0x10fe
    ∧ (∀ a ∈ m.stack.live, 0x002 ≤ a.toNat ∧ a.toNat ≤ 0x1000)
    ∧ (∀ op : Operation, op.Fetches → Unwrapped.apply m op = .ok (op.apply m))
    ∧ (m.step.state.pc < m.pc → ∃ w i, m.upcoming = some w ∧ Instruction.ofWord? w = some i
      ∧ (i = .returnFromCall ∧ m.step.state.pc ∈ m.stack.live ∨ i = .jump m.step.state.pc
        ∨ i = .call m.step.state.pc ∨ ∃ a, i = .jumpOffset a ∧ a ≤ m.step.state.pc))
    ∧ (m.switches.paused = false → 0xffe < m.pc.toNat →
      m.step = .failed (.error (.invalidAddress (max m.pc.toNat 0x1000))) m) :=
  ⟨hm.confined.pc, hm.confined.frames, fun _ hop => Unwrapped.apply_ok hm.sized hop,
    lower_step hm.sized, step_of_behind hm.sized⟩

/-- The bound is reached — with 0xff in v0, `bfff` leads to 0x10fe, and there is nothing to execute. -/
theorem counter_confined_farthest :
    let m := after [.load [0xbf, 0xff], .setRegister 0 0xff, .step] (powerOn (Stepper.mk 0 1))
    m.ReachableByFetch ∧ m.pc = 0x10fe ∧ Operation.step.Fetches
    ∧ Unwrapped.apply m .step = .ok (Operation.step.apply m) ∧ m.switches.paused = false
    ∧ 0xffe < m.pc.toNat ∧ m.step = .failed (.error (.invalidAddress 0x10fe)) m := by
  intro m
  have hreach : m.ReachableByFetch := ⟨_, _, by simp [Operation.Fetches], rfl⟩
  obtain ⟨memory, hload, hloaded⟩ := load_powerOn (Stepper.mk 0 1) [0xbf, 0xff] (by decide)
  have hjump : Instruction.ofWord? 0xbfff = some (.jumpOffset 0xfff) := by decide
  have hset : ({ powerOn (Stepper.mk 0 1) with memory := memory } : Machine Stepper).setRegister 0 255
      = .done { powerOn (Stepper.mk 0 1) with
          memory := memory, v := (Vector.replicate 16 0).set 0 255 } := rfl
  have hm : m = (((powerOn (Stepper.mk 0 1)).load [0xbf, 0xff]).state.setRegister 0
    255).state.step.state := rfl
  obtain ⟨hpc, hrun⟩ : m.pc = 0x10fe ∧ m.switches.paused = false := by
    rw [hm, hloaded, Outcome.state_done, hset, Outcome.state_done, step_of_upcoming
      (upcoming_eq_some_iff.mpr
        ⟨rfl, fetch_load hload (k := 0) rfl rfl rfl (w := 0xbfff) (by decide)⟩), executeWord, hjump]
    exact ⟨rfl, rfl⟩
  have hbehind : 0xffe < m.pc.toNat := by
    rw [hpc]
    decide
  obtain ⟨-, -, hnowrap, -, hfail⟩ := counter_confined hreach
  have hlast := hfail hrun hbehind
  rw [hpc] at hlast
  exact ⟨hreach, hpc, trivial, hnowrap .step trivial, hrun, hbehind, hlast⟩

end Machine

end Chip8
