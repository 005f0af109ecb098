/-
  Registers stored and loaded again.

  `Fx55` stores v0 to vX at I and `Fx65` loads them from there.  The two check one and the same stretch of
  memory, and copy it in opposite directions.
  1. **The two words** (`storing_of_fits`, `loading_of_fits`, `transfer_of_not_fits`).  If the stretch ends
     inside memory, each of them copies; if not, both report the first address outside and do nothing.
  2. **In between** (`byte_of_not_overwrites`).  A history writes bytes in two ways: the instructions that
     are carried out write what their rows say, and a load writes all of program memory.  A byte that
     neither has written is what it was, however long the history is.
  3. **The crux** (`loading_of_bytes`).  A load needs no more than that the bytes from I on are the ones it
     is to bring back.  So it may be a shorter one than the store was, on any machine whose I is the same.

  The other way round, what was loaded and is stored at once is put over itself.
-/
import Chip8.Proofs.Deeds
import Chip8.Proofs.Table

namespace Chip8

variable {ρ : Type}

/-! ## The two words -/

namespace Word

/-- The word that stores v0 to vX at I, `Fx55`. -/
def storing (x : Fin 16) : UInt16 := UInt16.ofNat (0xf055 + 0x100 * x)

/-- The word that loads v0 to vX from I, `Fx65`. -/
def loading (x : Fin 16) : UInt16 := UInt16.ofNat (0xf065 + 0x100 * x)

theorem ofWord?_storing :
    ∀ x : Fin 16, Instruction.ofWord? (storing x) = some (.storeRegisters x) := by decide

theorem ofWord?_loading :
    ∀ x : Fin 16, Instruction.ofWord? (loading x) = some (.loadRegisters x) := by decide

end Word

namespace Machine

/-- The registers that a store copies, one by one. -/
theorem getElem?_registersUpTo (m : Machine ρ) {x r : Fin 16} (hr : r ≤ x) :
    (m.registersUpTo x)[r.val]? = some (m.v.get r) := by
  rw [registersUpTo, List.getElem?_take_of_lt (show r.val < x.val + 1 by omega),
    Vector.getElem?_toList, Vector.getElem?_eq_getElem r.isLt]
  rfl

section Words

variable [ByteSource ρ] {m : Machine ρ} {x : Fin 16}

theorem executeWord_storing (m : Machine ρ) (x : Fin 16) :
    m.executeWord (Word.storing x) = m.storeBlock (m.registersUpTo x) := by
  rw [executeWord, Word.ofWord?_storing]
  show m.withRegister x (fun x => m.storeBlock (m.registersUpTo x)) = _
  exact withRegister_of_lt x.isLt _

theorem executeWord_loading (m : Machine ρ) (x : Fin 16) :
    m.executeWord (Word.loading x) = m.loadRegisters x := by
  rw [executeWord, Word.ofWord?_loading]
  show m.withRegister x (fun x => m.loadRegisters x) = _
  exact withRegister_of_lt x.isLt _

/-- A store that fits leaves the registers from I on, and the rest of memory as it was. -/
theorem storing_of_fits (h : m.index.toNat + x + 1 ≤ m.memory.length) : ∃ memory,
    m.memory.Stored m.index.toNat (m.registersUpTo x) memory
    ∧ m.executeWord (Word.storing x) = .done { m with memory := memory } := by
  have hfit : m.index.toNat + (m.registersUpTo x).length ≤ m.memory.length := by
    rw [length_registersUpTo]
    exact h
  refine ⟨_, (Memory.stored_iff hfit).mpr rfl, ?_⟩
  rw [executeWord_storing, storeBlock_eq, if_pos hfit]

/-- A load that fits leaves the bytes from I on in v0 to vX, and the other registers as they were. -/
theorem loading_of_fits (h : m.index.toNat + x + 1 ≤ m.memory.length) : ∃ v,
    Loaded m.memory m.index.toNat x m.v v
    ∧ m.executeWord (Word.loading x) = .done { m with v := v } := by
  refine ⟨_, (loaded_iff h).mpr rfl, ?_⟩
  rw [executeWord_loading, loadRegisters_eq, if_pos h]

/-- Neither of them does anything if it does not fit, and both say the same. -/
theorem transfer_of_not_fits (h : ¬ m.index.toNat + x + 1 ≤ m.memory.length) :
    m.executeWord (Word.storing x)
      = .failed (.error (.invalidAddress (max m.index.toNat m.memory.length))) m
    ∧ m.executeWord (Word.loading x)
      = .failed (.error (.invalidAddress (max m.index.toNat m.memory.length))) m := by
  constructor
  · rw [Nat.add_assoc] at h
    rw [executeWord_storing, storeBlock_eq, length_registersUpTo, if_neg h]
  · rw [executeWord_loading, loadRegisters_eq, if_neg h]

/-! ## There and back -/

/-- **Bytes that are the registers of a machine bring these back**, whatever machine loads them. -/
theorem loading_of_bytes {v : Vector UInt8 16} {y : Fin 16} (hy : y ≤ x)
    (h : ∀ r ≤ x, m.memory.bytes[m.index.toNat + r]? = some (v.get r)) :
    ∃ n, m.executeWord (Word.loading y) = .done n ∧ (∀ r ≤ y, n.v.get r = v.get r)
      ∧ (∀ r, y < r → n.v.get r = m.v.get r) ∧ n = { m with v := n.v } := by
  have hlast : m.index.toNat + x < m.memory.bytes.size :=
    (Array.getElem?_eq_some_iff.mp (h x (Fin.le_refl x))).1
  have hfit : m.index.toNat + y + 1 ≤ m.memory.length := by
    show _ ≤ m.memory.bytes.size
    omega
  obtain ⟨u, ⟨hloaded, hkept⟩, hdone⟩ := loading_of_fits hfit
  refine ⟨_, hdone, fun r hr => ?_, hkept, rfl⟩
  have hbyte := hloaded r hr
  rw [h r (Fin.le_trans hr hy)] at hbyte
  exact (Option.some.inj hbyte).symm

/-- What was loaded is put over itself if it is stored at once. -/
theorem storing_of_loaded {n : Machine ρ} (h : m.executeWord (Word.loading x) = .done n) :
    n.executeWord (Word.storing x) = .done n := by
  by_cases hfit : m.index.toNat + x + 1 ≤ m.memory.length
  · obtain ⟨v, ⟨hloaded, -⟩, hdone⟩ := loading_of_fits hfit
    obtain rfl := Outcome.done.inj (hdone.symm.trans h)
    obtain ⟨memory, hstored, hback⟩ := storing_of_fits (m := { m with v := v }) hfit
    have hlength := length_registersUpTo { m with v := v } x
    -- The memory from before is one with these registers stored in it, and there is only one.
    have hsame : m.memory.Stored m.index.toNat (registersUpTo { m with v := v } x) m.memory := by
      refine ⟨rfl, fun k hk => ?_, fun k _ => rfl⟩
      have hr : (⟨k, by omega⟩ : Fin 16) ≤ x := Fin.le_def.mpr (by show k ≤ x.val; omega)
      exact (hloaded _ hr).trans (getElem?_registersUpTo { m with v := v } hr).symm
    have hroom : m.index.toNat + (registersUpTo { m with v := v } x).length ≤ m.memory.length := by
      omega
    have hmemory : memory = m.memory :=
      ((Memory.stored_iff hroom).mp hstored).trans ((Memory.stored_iff hroom).mp hsame).symm
    rw [hback, hmemory]
  · rw [(transfer_of_not_fits hfit).2] at h
    cases h

end Words

/-! ## In between -/

/-- A load leaves the bytes outside program memory, and all bytes if there is no room. -/
theorem byte_load_of_outside {m : Machine ρ} {a : Nat} {program : List UInt8}
    (h : program.length ≤ Region.programLength → ¬ (programStart ≤ a ∧ a < memorySize)) :
    (m.load program).state.memory.bytes[a]? = m.memory.bytes[a]? := by
  unfold load
  split
  · rename_i memory hload
    have hfits := (Memory.load_eq_ok_iff.mp hload).1.1
    show memory.bytes[a]? = m.memory.bytes[a]?
    rw [Memory.getElem?_load hload, if_neg (h hfits)]
  · rfl

section Histories

variable [ByteSource ρ]

/-- Does a history write a byte?  An instruction that is carried out writes what its row says, and a load
with room for its program writes all of program memory. -/
def Overwrites (m : Machine ρ) (history : List Operation) (a : Nat) : Prop :=
  (∃ d ∈ m.deeds history, d.instruction.Writes d.before (.byte a))
  ∨ (∃ program, .load program ∈ history ∧ program.length ≤ Region.programLength)
    ∧ programStart ≤ a ∧ a < memorySize

variable {m : Machine ρ} {a : Nat}

/-- An operation that is no load leaves the bytes that its deeds do not write. -/
theorem byte_apply (hm : m.Sized) {op : Operation} (hop : ∀ program, op ≠ .load program)
    (h : ∀ d ∈ op.deeds m, ¬ d.instruction.Writes d.before (.byte a)) :
    (op.apply m).state.memory.bytes[a]? = m.memory.bytes[a]? := by
  let view : Machine ρ → Option UInt8 := fun n => n.memory.bytes[a]?
  have hadvance : ∀ (n : Machine ρ) w, view (n.advance w) = view n := fun _ _ => rfl
  have hkept : ∀ d ∈ op.deeds m, view d.after = view d.before := fun d hd => d.byte_eq (h d hd)
  cases op with
  | load program => exact absurd rfl (hop program)
  | setRegister r value =>
    show (m.setRegister r value).state.memory.bytes[a]? = _
    unfold setRegister
    split <;> rfl
  | setSwitches | tick | reset => rfl
  | executeWord w => exact ((leads_word view hm w).eq_of_kept hkept).symm
  | step => exact ((leads_step hadvance hm).eq_of_kept hkept).symm
  | steps n => exact ((leads_steps hadvance hm n).eq_of_kept hkept).symm
  | frame pace look seen =>
    refine Operation.frame_keeps (P := fun n => view n = view m) (fun n hn => hn) ?_
    exact ((leads_steps hadvance hm pace.stepsPerFrame).eq_of_kept hkept).symm

/-- **A byte that a history does not write is what it was.** -/
theorem byte_of_not_overwrites (hm : m.Sized) {history : List Operation}
    (h : ¬ m.Overwrites history a) : (m.after history).memory.bytes[a]? = m.memory.bytes[a]? := by
  induction history generalizing m with
  | nil => rfl
  | cons op history ih =>
    obtain ⟨hdeeds, hloads⟩ := not_or.mp h
    have hothers : ¬ (op.apply m).state.Overwrites history a := by
      rintro (⟨d, hd, hwrites⟩ | ⟨⟨program, hmem, hfits⟩, hin⟩)
      · exact hdeeds ⟨d, List.mem_append_right _ hd, hwrites⟩
      · exact hloads ⟨⟨program, List.mem_cons_of_mem _ hmem, hfits⟩, hin⟩
    refine (ih (sized_apply op hm) hothers).trans ?_
    by_cases hop : ∃ program, op = .load program
    · obtain ⟨program, rfl⟩ := hop
      exact byte_load_of_outside fun hfits hin => hloads ⟨⟨program, List.mem_cons_self .., hfits⟩, hin⟩
    · refine byte_apply hm (fun program heq => hop ⟨program, heq⟩) fun d hd hwrites => ?_
      exact hdeeds ⟨d, List.mem_append_left _ hd, hwrites⟩

/-! ## The round trips -/

/-- **Registers come back.**  Take any machine of the right size, and any X.
  * `Fx55` and `Fx65` succeed for the same I, which are those that leave room for v0 to vX in memory.
    For any other I both of them report the first address outside, and nothing is changed.
  * After `Fx55`, let there be any history none of whose operations writes a byte of the stretch, and then
    any machine with the memory it left, whatever its registers are, whose I is what it was.  There `Fy65`
    with y up to X brings back v0 to vY, and leaves the other registers, I, and everything else.
  * What `Fx65` has loaded, `Fx55` at once puts over itself. -/
theorem registers_come_back (hm : m.Sized) (x : Fin 16) :
    ((∃ n, m.executeWord (Word.storing x) = .done n) ↔ m.index.toNat + x + 1 ≤ 0x1000)
    ∧ ((∃ n, m.executeWord (Word.loading x) = .done n) ↔ m.index.toNat + x + 1 ≤ 0x1000)
    ∧ (¬ m.index.toNat + x + 1 ≤ 0x1000 → ∀ w ∈ [Word.storing x, Word.loading x],
      m.executeWord w = .failed (.error (.invalidAddress (max m.index.toNat 0x1000))) m)
    ∧ (∀ stored, m.executeWord (Word.storing x) = .done stored → ∀ history : List Operation,
      (∀ a, m.index.toNat ≤ a → a < m.index.toNat + x + 1 → ¬ stored.Overwrites history a) →
      ∀ l : Machine ρ, l.memory = (stored.after history).memory → l.index = m.index →
      ∀ y ≤ x, ∃ n, l.executeWord (Word.loading y) = .done n ∧ (∀ r ≤ y, n.v.get r = m.v.get r)
        ∧ (∀ r, y < r → n.v.get r = l.v.get r) ∧ n = { l with v := n.v })
    ∧ ∀ loaded, m.executeWord (Word.loading x) = .done loaded →
      loaded.executeWord (Word.storing x) = .done loaded := by
  have hlength : m.memory.length = 0x1000 := hm.memory
  rw [← hlength]
  by_cases hfit : m.index.toNat + x + 1 ≤ m.memory.length
  · obtain ⟨memory, hstored, hstore⟩ := storing_of_fits hfit
    obtain ⟨v, -, hload⟩ := loading_of_fits hfit
    refine ⟨iff_of_true ⟨_, hstore⟩ hfit, iff_of_true ⟨_, hload⟩ hfit, fun hnot => absurd hfit hnot,
      fun stored hdone history hkept l hmemory hindex y hy => ?_, fun _ => storing_of_loaded⟩
    obtain rfl := Outcome.done.inj (hstore.symm.trans hdone)
    have hsized : ({ m with memory := memory } : Machine ρ).Sized :=
      ⟨hstored.length.trans hm.memory, hm.screen, hm.stack⟩
    refine loading_of_bytes hy fun r hr => ?_
    have hin : r.val < (m.registersUpTo x).length := by
      rw [length_registersUpTo]
      omega
    rw [hmemory, hindex, byte_of_not_overwrites hsized (hkept _ (by omega) (by omega))]
    exact (hstored.inside r hin).trans (getElem?_registersUpTo m hr)
  · obtain ⟨hstore, hload⟩ := transfer_of_not_fits hfit
    refine ⟨iff_of_false ?_ hfit, iff_of_false ?_ hfit, fun _ w hw => ?_, fun stored hdone => ?_,
      fun _ => storing_of_loaded⟩
    · rintro ⟨n, hdone⟩
      cases hstore.symm.trans hdone
    · rintro ⟨n, hdone⟩
      cases hload.symm.trans hdone
    · rcases List.mem_cons.mp hw with rfl | hw
      · exact hstore
      · obtain rfl := List.mem_singleton.mp hw
        exact hload
    · cases hstore.symm.trans hdone

/-- Four registers are stored in the last four bytes of memory.  Then v0 is changed, and stored elsewhere, and
I is brought back: the load gives v0 its old value again.  For a fifth register there is no room. -/
theorem registers_come_back_last_bytes :
    let m : Machine Stepper :=
      { powerOn (Stepper.mk 0 1) with index := 0xffc, v := Vector.replicate 16 0x2a }
    let history : List Operation := [.setRegister 0 7, .executeWord 0xa123, .executeWord 0xf055]
    m.Sized ∧ m.index.toNat + (3 : Fin 16) + 1 = 0x1000
    ∧ (∃ stored, m.executeWord 0xf355 = .done stored
      ∧ (∀ a, 0xffc ≤ a → a < 0x1000 → ¬ stored.Overwrites history a)
      ∧ (stored.after history).v[0]? = some 7
      ∧ ∃ n, Machine.executeWord { stored.after history with index := 0xffc } 0xf365 = .done n
        ∧ n.v.get 0 = 0x2a)
    ∧ m.executeWord 0xf455 = .failed (.error (.invalidAddress 0x1000)) m
    ∧ m.executeWord 0xf465 = .failed (.error (.invalidAddress 0x1000)) m := by
  intro m history
  have hm : m.Sized := ⟨Memory.length_fresh, Screen.size_blank, Nat.zero_le _⟩
  have hfit : m.index.toNat + (3 : Fin 16) + 1 = 0x1000 := by decide
  have hpoint : Instruction.ofWord? 0xa123 = some (.setIndex 0x123) := by decide
  obtain ⟨hroom, -, -, hback, -⟩ := registers_come_back hm 3
  obtain ⟨-, -, hnone, -, -⟩ := registers_come_back hm 4
  obtain ⟨stored, hstored⟩ := hroom.mpr (Nat.le_of_eq hfit)
  have hsized : stored.Sized := by
    have hstate := sized_executeWord hm (Word.storing 3)
    rwa [hstored] at hstate
  obtain ⟨-, hwrites, -, hv, -⟩ :=
    storing_at hsized 7 hpoint (show (0x123 : UInt16).toNat = 0x123 from rfl) (by decide)
  have hkept : ∀ a, 0xffc ≤ a → a < 0x1000 → ¬ stored.Overwrites history a := by
    rintro a hfrom - (⟨d, hd, hbyte⟩ | ⟨⟨program, hload, -⟩, -⟩)
    · have haddress : a = 0x123 := hwrites d hd a hbyte
      omega
    · simp [history] at hload
  have hrefused := hnone (by decide)
  obtain ⟨n, hn, hregisters, -⟩ := hback stored hstored history
    (fun a hfrom hto => hkept a hfrom (Nat.lt_of_lt_of_eq hto hfit))
    { stored.after history with index := 0xffc } rfl rfl 3 (Fin.le_refl 3)
  exact ⟨hm, hfit, ⟨stored, hstored, hkept, hv, n, hn, hregisters 0 (by decide)⟩,
    hrefused _ (List.mem_cons_self ..), hrefused _ (List.mem_cons_of_mem _ (List.mem_singleton_self _))⟩

end Histories

end Machine

end Chip8
