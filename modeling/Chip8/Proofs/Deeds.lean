/-
  What a machine has done.

  A history says what was asked of a machine.  What came of it is another list (`Machine.deeds`): the
  instructions that were carried out with success, each with the machine before it and the machine it
  left.  A step that fails or is held, a load, a tick and a reset are not in it.

  Much of what one can see of a machine is changed by its instructions alone (`Inner`).  About such a
  sight the list says everything: the first deed begins with what was seen at the start, each of the
  others with what the one before it left, and what the last one left is seen at the end (`Leads`,
  `leads_history`).  So if each of them puts something in or leaves what was there, then what is seen at
  the end is what was last put in (`Leads.eq_or_lastPut`).  Two sights of this kind are the source of
  random bytes (`inner_random`) and every byte below the program (`inner_byte`).
-/
import Chip8.Proofs.LastWrite
import Chip8.Proofs.Operation
import Chip8.Proofs.Writers

namespace Chip8

variable {ρ : Type}

/-! ## Sights -/

/-- A sight of a machine that nothing but its instructions changes. -/
structure Inner {α : Type} (view : Machine ρ → α) : Prop where
  advance : ∀ m w, view (m.advance w) = view m
  load : ∀ m program, view (m.load program).state = view m
  setRegister : ∀ m r value, view (m.setRegister r value).state = view m
  setSwitches : ∀ m switches, view { m with switches := switches } = view m
  tick : ∀ m, view m.tick = view m
  reset : ∀ m, view m.reset = view m

/-- A program is loaded above all that lies before it. -/
theorem Memory.byte_load_of_lt {memory memory' : Memory} {program : List UInt8}
    (h : memory.load program = .ok memory') {a : Nat} (ha : a < programStart) :
    memory'.bytes[a]? = memory.bytes[a]? := by
  rw [getElem?_load h, if_neg (by omega)]

/-- The source of random bytes. -/
theorem inner_random : Inner (Machine.random : Machine ρ → ρ) where
  advance _ _ := rfl
  load m program := by unfold Machine.load; split <;> rfl
  setRegister m r value := by unfold Machine.setRegister; split <;> rfl
  setSwitches _ _ := rfl
  tick _ := rfl
  reset _ := rfl

/-- A byte below the program. -/
theorem inner_byte {a : Nat} (ha : a < programStart) :
    Inner fun m : Machine ρ => m.memory.bytes[a]? where
  advance _ _ := rfl
  load m program := by
    unfold Machine.load
    split
    · rename_i hload
      exact Memory.byte_load_of_lt hload ha
    · rfl
  setRegister m r value := by unfold Machine.setRegister; split <;> rfl
  setSwitches _ _ := rfl
  tick _ := rfl
  reset _ := rfl

variable [ByteSource ρ]

/-! ## The list -/

/-- An instruction that was carried out with success. -/
structure Deed (ρ : Type) [ByteSource ρ] where
  /-- The machine it was carried out on, which already stands behind the word. -/
  before : Machine ρ
  instruction : Instruction
  after : Machine ρ
  done : before.perform instruction = .done after

namespace Machine

/-- What comes of a word. -/
def deedsOfWord (m : Machine ρ) (w : UInt16) : List (Deed ρ) :=
  match Instruction.ofWord? w with
  | none => []
  | some i =>
      match h : m.perform i with
      | .done n => [⟨m, i, n, h⟩]
      | .failed .. => []

/-- What comes of a step. -/
def deedsOfStep (m : Machine ρ) : List (Deed ρ) :=
  match m.upcoming with
  | some w => (m.advance w).deedsOfWord w
  | none => []

/-- What comes of a number of steps, which stop at the first that fails. -/
def deedsOfSteps : Nat → Machine ρ → List (Deed ρ)
  | 0, _ => []
  | k + 1, m => m.deedsOfStep ++ match m.step with
      | .done n => deedsOfSteps k n
      | .failed .. => []

end Machine

/-- What comes of an operation. -/
def Operation.deeds (m : Machine ρ) : Operation → List (Deed ρ)
  | executeWord w => m.deedsOfWord w
  | step => m.deedsOfStep
  | steps n => m.deedsOfSteps n
  | frame pace _ _ => m.deedsOfSteps pace.stepsPerFrame
  | load _ | setRegister .. | setSwitches _ | tick | reset => []

namespace Machine

/-- What comes of a history. -/
def deeds : List Operation → Machine ρ → List (Deed ρ)
  | [], _ => []
  | op :: history, m => op.deeds m ++ deeds history (op.apply m).state

/-- A history goes on from what its first operation left. -/
theorem after_cons {m n : Machine ρ} {op : Operation} (h : op.apply m = .done n)
    (history : List Operation) : m.after (op :: history) = n.after history
      ∧ m.deeds (op :: history) = op.deeds m ++ n.deeds history := by
  show (op.apply m).state.after history = _ ∧ op.deeds m ++ (op.apply m).state.deeds history = _
  rw [h]
  exact ⟨rfl, rfl⟩

theorem deedsOfWord_of_done {m n : Machine ρ} {w : UInt16} {i : Instruction}
    (hi : Instruction.ofWord? w = some i) (h : m.perform i = .done n) :
    m.deedsOfWord w = [⟨m, i, n, h⟩] := by
  unfold deedsOfWord
  rw [hi]
  dsimp only
  split
  · rename_i n' h'
    obtain rfl := Outcome.done.inj (h'.symm.trans h)
    rfl
  · rename_i h'
    rw [h'] at h
    cases h

/-- A history that begins with a word goes on from what the word left. -/
theorem after_word {m n : Machine ρ} {w : UInt16} {i : Instruction}
    (hi : Instruction.ofWord? w = some i) (h : m.perform i = .done n) (history : List Operation) :
    m.after (.executeWord w :: history) = n.after history
      ∧ m.deeds (.executeWord w :: history) = ⟨m, i, n, h⟩ :: n.deeds history := by
  have hdone : (Operation.executeWord w).apply m = .done n := by
    show m.executeWord w = .done n
    rw [executeWord, hi]
    exact h
  obtain ⟨hafter, hdeeds⟩ := after_cons hdone history
  refine ⟨hafter, hdeeds.trans ?_⟩
  show m.deedsOfWord w ++ n.deeds history = _
  rw [deedsOfWord_of_done hi h]
  rfl

theorem deedsOfWord_of_failed {m n : Machine ρ} {w : UInt16} {fault : Fault}
    (h : m.executeWord w = .failed fault n) : m.deedsOfWord w = [] := by
  unfold executeWord at h
  unfold deedsOfWord
  cases hi : Instruction.ofWord? w with
  | none => rfl
  | some i =>
    rw [hi] at h
    dsimp only at h ⊢
    split
    · rename_i h'
      rw [h'] at h
      cases h
    · rfl

/-- A step that fails has done nothing. -/
theorem deedsOfStep_of_failed {m n : Machine ρ} {fault : Fault} (h : m.step = .failed fault n) :
    m.deedsOfStep = [] := by
  unfold deedsOfStep
  cases hword : m.upcoming with
  | none => rfl
  | some w =>
    rw [step_of_upcoming hword] at h
    exact deedsOfWord_of_failed h

/-- A word gives one deed, which is its instruction; or it fails, gives none, and the machine is left as
it was. -/
theorem deedsOfWord_cases {m : Machine ρ} (hm : m.Sized) (w : UInt16) :
    (∃ d : Deed ρ, m.deedsOfWord w = [d] ∧ d.before = m
      ∧ Instruction.ofWord? w = some d.instruction ∧ m.executeWord w = .done d.after)
    ∨ m.deedsOfWord w = [] ∧ ∃ fault, m.executeWord w = .failed fault m := by
  obtain ⟨i, n, hi, hperform, hdone⟩ | ⟨fault, hfail⟩ := executeWord_cases hm w
  · exact .inl ⟨⟨m, i, n, hperform⟩, deedsOfWord_of_done hi hperform, rfl, hi, hdone⟩
  · exact .inr ⟨deedsOfWord_of_failed hfail, fault, hfail⟩

end Machine

/-! ## What deeds lead to -/

/-- Do deeds lead from one value to another?  Each of them begins with what the one before it left. -/
def Leads {α : Type} (view : Machine ρ → α) : α → List (Deed ρ) → α → Prop
  | a, [], b => a = b
  | a, d :: log, b => view d.before = a ∧ Leads view (view d.after) log b

namespace Leads

variable {α : Type} {view : Machine ρ → α} {a b c : α} {log log' : List (Deed ρ)}

theorem append (h : Leads view a log b) (h' : Leads view b log' c) : Leads view a (log ++ log') c := by
  induction log generalizing a with
  | nil =>
    have hab : a = b := h
    exact hab ▸ h'
  | cons d log ih => exact ⟨h.1, ih h.2⟩

/-- Deeds that leave a value alone lead to no other. -/
theorem eq_of_kept (h : Leads view a log b) (hkept : ∀ d ∈ log, view d.after = view d.before) :
    a = b := by
  induction log generalizing a with
  | nil => exact h
  | cons d log ih =>
    obtain ⟨hd, hothers⟩ := List.forall_mem_cons.mp hkept
    obtain ⟨hbegin, hrest⟩ := h
    rw [← hbegin, ← hd]
    exact ih hrest hothers

/-- What is made of a value is led to as the value is. -/
theorem map {β : Type} (h : Leads view a log b) (f : α → β) :
    Leads (fun m => f (view m)) (f a) log (f b) := by
  induction log generalizing a with
  | nil => exact congrArg f h
  | cons d log ih => exact ⟨congrArg f h.1, ih h.2⟩

/-- What is left by deeds each of which puts something in or leaves what was there is what the last of them
put in, or else what was there at first. -/
theorem eq_or_lastPut {view : Machine ρ → Option α} {puts : Deed ρ → Option α} {a b : Option α}
    (hputs : ∀ d, view d.after = (puts d).or (view d.before)) (h : Leads view a log b) :
    b = (lastPut puts log).or a := by
  induction log generalizing a with
  | nil =>
    have hab : a = b := h
    exact hab.symm
  | cons d log ih =>
    obtain ⟨rfl, hrest⟩ := h
    rw [ih hrest, hputs d, lastPut_cons, Option.or_assoc]

end Leads

/-! ## One operation -/

variable {α : Type} {view : Machine ρ → α} {m : Machine ρ}

/-- A word leads to what is seen after it, and there the sight may be any. -/
theorem leads_word (view : Machine ρ → α) (hm : m.Sized) (w : UInt16) :
    Leads view (view m) (m.deedsOfWord w) (view (m.executeWord w).state) := by
  obtain ⟨d, hdeeds, hbefore, -, hdone⟩ | ⟨hdeeds, fault, hfail⟩ := m.deedsOfWord_cases hm w
  · rw [hdeeds, hdone]
    exact ⟨congrArg view hbefore, rfl⟩
  · rw [hdeeds, hfail]
    rfl

/-- A step leads to what is seen after it, if moving on to the next word is not seen. -/
theorem leads_step (hadvance : ∀ (m : Machine ρ) w, view (m.advance w) = view m) (hm : m.Sized) :
    Leads view (view m) m.deedsOfStep (view m.step.state) := by
  unfold Machine.deedsOfStep
  cases hword : m.upcoming with
  | none =>
    rw [Machine.step_of_upcoming_none hword]
    rfl
  | some w =>
    rw [Machine.step_of_upcoming hword, ← hadvance m w]
    exact leads_word view (Machine.sized_advance hm w) w

theorem leads_steps (hadvance : ∀ (m : Machine ρ) w, view (m.advance w) = view m) (hm : m.Sized)
    (k : Nat) : Leads view (view m) (m.deedsOfSteps k) (view (Machine.steps k m).state) := by
  induction k generalizing m with
  | zero => rfl
  | succ k ih =>
    have hfirst := leads_step hadvance hm
    have hsized := Machine.sized_step hm
    rw [Machine.steps_succ]
    unfold Machine.deedsOfSteps
    cases hstep : m.step with
    | done n =>
      rw [hstep] at hfirst hsized
      exact hfirst.append (ih hsized)
    | failed fault n =>
      rw [hstep] at hfirst
      exact hfirst.append rfl

namespace Inner

theorem leads_apply (h : Inner view) (hm : m.Sized) (op : Operation) :
    Leads view (view m) (op.deeds m) (view (op.apply m).state) := by
  cases op with
  | load program => exact (h.load m program).symm
  | setRegister r value => exact (h.setRegister m r value).symm
  | setSwitches switches => exact (h.setSwitches m switches).symm
  | tick => exact (h.tick m).symm
  | reset => exact (h.reset m).symm
  | executeWord w => exact leads_word view hm w
  | step => exact leads_step h.advance hm
  | steps n => exact leads_steps h.advance hm n
  | frame pace look seen =>
    exact Operation.frame_keeps (P := fun n => Leads view (view m) _ (view n))
      (fun n hn => (h.tick n).symm ▸ hn) (leads_steps h.advance hm pace.stepsPerFrame)

/-! ## A history -/

/-- **What is seen at the end of a history follows from its deeds.** -/
theorem leads_history (h : Inner view) (hm : m.Sized) (history : List Operation) :
    Leads view (view m) (m.deeds history) (view (m.after history)) := by
  induction history generalizing m with
  | nil => rfl
  | cons op history ih =>
    exact (h.leads_apply hm op).append (ih (Machine.sized_apply op hm))

end Inner

/-- A deed leaves the bytes that its instruction does not write. -/
theorem Deed.byte_eq (d : Deed ρ) {a : Nat} (h : ¬ d.instruction.Writes d.before (.byte a)) :
    d.after.memory.bytes[a]? = d.before.memory.bytes[a]? := by
  have hsame := Machine.byte_perform d.before h
  rwa [d.done] at hsame

/-- **A byte below the program that no instruction wrote is what it was.** -/
theorem Machine.byte_after (hm : m.Sized) {history : List Operation} {a : Nat} (ha : a < programStart)
    (h : ∀ d ∈ m.deeds history, ¬ d.instruction.Writes d.before (.byte a)) :
    (m.after history).memory.bytes[a]? = m.memory.bytes[a]? :=
  (((inner_byte ha).leads_history hm history).eq_of_kept fun d hd => d.byte_eq (h d hd)).symm

/-! ## Storing a byte -/

namespace Machine

/-- Storing v0 puts it at I. -/
theorem perform_storeFirst {m : Machine ρ} (hm : m.Sized) (hin : m.index.toNat < memorySize) :
    m.perform (.storeRegisters 0)
      = .done { m with memory := m.memory.splice m.index.toNat [m.v0] } := by
  have hblock : m.registersUpTo 0 = [m.v0] := by
    refine List.ext_getElem? fun k => ?_
    cases k with
    | zero => simp [registersUpTo, v0]
    | succ k => simp [registersUpTo]
  dsimp only [perform]
  rw [withRegister_of_lt (by decide : 0 < 16)]
  show m.storeBlock (m.registersUpTo 0) = _
  rw [hblock, storeBlock_eq, hm.memory,
    if_pos (show m.index.toNat + [m.v0].length ≤ memorySize from hin)]

/-- A value is put into v0 and stored at an address. -/
theorem storing_at {m : Machine ρ} (hm : m.Sized) (value : UInt8) {w a : UInt16} {address : Nat}
    (hw : Instruction.ofWord? w = some (.setIndex a)) (ha : a.toNat = address)
    (hin : address < memorySize) :
    let history : List Operation := [.setRegister 0 value, .executeWord w, .executeWord 0xf055]
    (m.deeds history).map (·.instruction) = [.setIndex a, .storeRegisters 0]
    ∧ (∀ d ∈ m.deeds history, ∀ b, d.instruction.Writes d.before (.byte b) → b = address)
    ∧ (m.after history).memory.bytes[address]? = some value
    ∧ (m.after history).v[0]? = some value ∧ (m.after history).stack = m.stack := by
  subst ha
  intro history
  let aimed : Machine ρ := { m.setV 0 value with index := a }
  let stored : Machine ρ := { aimed with memory := m.memory.splice a.toNat [value] }
  have hstoreWord : Instruction.ofWord? 0xf055 = some (.storeRegisters 0) := by decide
  have hv : aimed.v0 = value := Vector.getElem_set_self (by decide)
  have haim : (m.setV 0 value).perform (.setIndex a) = .done aimed := rfl
  have hstore : aimed.perform (.storeRegisters 0) = .done stored := by
    have hdone := perform_storeFirst (m := aimed) ⟨hm.memory, hm.screen, hm.stack⟩ hin
    rwa [hv] at hdone
  have hset : (Operation.setRegister 0 value).apply m = .done (m.setV 0 value) := by
    show m.setRegister 0 value = _
    exact dif_pos (by decide)
  obtain ⟨hset_after, hset_deeds⟩ := after_cons hset [.executeWord w, .executeWord 0xf055]
  obtain ⟨haim_after, haim_deeds⟩ := after_word hw haim [.executeWord 0xf055]
  obtain ⟨hstore_after, hstore_deeds⟩ := after_word hstoreWord hstore []
  have hafter : m.after history = stored := hset_after.trans (haim_after.trans hstore_after)
  have hdeeds : m.deeds history
      = [⟨m.setV 0 value, .setIndex a, aimed, haim⟩, ⟨aimed, .storeRegisters 0, stored, hstore⟩] := by
    rw [hset_deeds, haim_deeds, hstore_deeds]
    rfl
  rw [hdeeds, hafter]
  refine ⟨rfl, fun d hd b hwrites => ?_, ?_, Vector.getElem?_set_self (by decide), rfl⟩
  · obtain rfl | hd := List.mem_cons.mp hd
    · exact hwrites.elim
    · obtain rfl := List.mem_singleton.mp hd
      exact Nat.le_antisymm hwrites.2 hwrites.1
  · have hsize : m.memory.bytes.size = memorySize := hm.memory
    show (Memory.overwrite m.memory.bytes a.toNat [value])[a.toNat]? = _
    rw [Memory.getElem?_overwrite, hsize, if_pos ⟨Nat.le_refl _, Nat.lt_succ_self _, hin⟩,
      Nat.sub_self]
    rfl

end Machine

end Chip8
