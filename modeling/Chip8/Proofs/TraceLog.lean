/-
  The trace is a faithful log.

  A machine that traces prints one line for every word it fetches, and it counts a cycle for the same words.
  What becomes of the word afterwards does not matter to either.
  1. **The line that is due** (`Machine.dueLine`).  It is made of the machine as it stands before the step:
     its cycle count, its program counter, and the word that its memory holds there at that moment.
  2. **One step** (`logs_step`).  It prints the line that is due and counts one cycle, whether the word is
     one of an instruction or not and whether that is carried out or not.  If no line is due, because the
     machine is paused or finds no word, it does neither.
  3. **The crux** (`Logs.append`).  Two pieces of a log are one: the second begins with the number that the
     first has counted up to.  So a row of steps prints the lines that were due, and by induction a history
     does, one for every step that was asked for and found a word.
  4. **One line each** (`TraceLine.count_newline_text`).  Nothing in a line ends it but its end.

  The cycle count is a word of 64 bits, so the numbers begin again after 2^64 lines.
-/
import Chip8.Proofs.Listing
import Chip8.Proofs.Operation

namespace Chip8

variable {ρ : Type}

/-! ## One line each -/

theorem Column.newline_not_mem_blanks (width : Nat) (text : String) :
    '\n' ∉ (blanks width text).toList := by
  intro h
  rw [blanks, String.toList_ofList] at h
  have hblank := List.eq_of_mem_replicate h
  revert hblank
  decide

theorem newline_not_mem_repr (n : Nat) : '\n' ∉ (Nat.repr n).toList := by
  intro h
  rw [Nat.toList_repr] at h
  have hdigit := Nat.isDigit_of_mem_toDigits (by decide) (by decide) h
  revert hdigit
  decide

/-- A line of the trace ends once. -/
theorem TraceLine.count_newline_text (line : TraceLine) : line.text.toList.count '\n' = 1 := by
  have hcycle := List.count_eq_zero_of_not_mem (newline_not_mem_repr line.cycle.toNat)
  have hfill := List.count_eq_zero_of_not_mem
    (Column.newline_not_mem_blanks 3 (Nat.repr line.cycle.toNat))
  have haddress := List.count_eq_zero_of_not_mem (Hex.newline_not_mem_padded 3 line.pc.toNat)
  have hword := List.count_eq_zero_of_not_mem (Palette.newline_not_mem_render line.word)
  have hrest := List.count_eq_zero_of_not_mem
    (Column.newline_not_mem_blanks 36 (Palette.coloured.render line.word))
  simp only [text, Column.right, Column.left, Style.paint, String.toList_append, List.count_append,
    hcycle, hfill, haddress, hword, hrest]
  decide

/-! ## The line that is due -/

namespace Machine

/-- The line that the next step prints if it is traced — none if the machine is paused, or finds no
word. -/
def dueLine (m : Machine ρ) : Option TraceLine := m.upcoming.map fun w => ⟨m.cycle, m.pc, w⟩

theorem dueLine_eq_some_iff {m : Machine ρ} {line : TraceLine} : m.dueLine = some line
    ↔ m.switches.paused = false ∧ m.fetch = .ok line.word ∧ line.cycle = m.cycle ∧ line.pc = m.pc := by
  rw [dueLine, Option.map_eq_some_iff]
  constructor
  · rintro ⟨w, hw, rfl⟩
    obtain ⟨hrun, hfetch⟩ := upcoming_eq_some_iff.mp hw
    exact ⟨hrun, hfetch, rfl, rfl⟩
  · obtain ⟨cycle, pc, w⟩ := line
    rintro ⟨hrun, hfetch, rfl, rfl⟩
    exact ⟨w, upcoming_eq_some_iff.mpr ⟨hrun, hfetch⟩, rfl⟩

theorem filterMap_dueLine (m : Machine ρ) : [m].filterMap dueLine = m.dueLine.toList := by
  cases h : m.dueLine with
  | none => exact List.filterMap_cons_none h
  | some line => exact List.filterMap_cons_some h

/-! ## Pieces of a log -/

/-- What lies between two machines in a log that goes on: the second has printed these lines more, has
counted them, and still traces, and they are numbered from the cycle count of the first. -/
structure Logs (m : Machine ρ) (lines : List TraceLine) (n : Machine ρ) : Prop where
  tracing : n.switches.tracing = true
  trace : n.trace.toList = m.trace.toList ++ lines
  cycle : n.cycle = m.cycle + UInt64.ofNat lines.length
  numbered : ∀ j line, lines[j]? = some line → line.cycle = m.cycle + UInt64.ofNat j

namespace Logs

variable {m n l : Machine ρ} {lines others : List TraceLine}

/-- Nothing is printed, and nothing counted. -/
theorem none (htracing : n.switches.tracing = true) (htrace : n.trace = m.trace)
    (hcycle : n.cycle = m.cycle) : m.Logs [] n where
  tracing := htracing
  trace := by rw [htrace, List.append_nil]
  cycle := by rw [hcycle]; exact (UInt64.add_zero _).symm
  numbered := fun j line h => by cases h

/-- **Two pieces of a log are one.** -/
theorem append (h : m.Logs lines n) (h' : n.Logs others l) : m.Logs (lines ++ others) l where
  tracing := h'.tracing
  trace := by rw [h'.trace, h.trace, List.append_assoc]
  cycle := by rw [h'.cycle, h.cycle, List.length_append, UInt64.ofNat_add, UInt64.add_assoc]
  numbered := by
    intro j line hline
    rw [List.getElem?_append] at hline
    split at hline
    next hfirst => exact h.numbered j line hline
    next hsecond =>
      have hj : lines.length + (j - lines.length) = j := by omega
      rw [h'.numbered _ line hline, h.cycle, UInt64.add_assoc, ← UInt64.ofNat_add, hj]

end Logs

/-! ## The steps that are asked for -/

section Steps

variable [ByteSource ρ]

/-- The machines before the steps of a row, up to and with the first whose step fails. -/
def askedBySteps : Nat → Machine ρ → List (Machine ρ)
  | 0, _ => []
  | k + 1, m => [m] ++ match m.step with
    | .done n => askedBySteps k n
    | .failed .. => []

/-- The j-th of them is the machine that j steps lead to. -/
theorem getElem?_askedBySteps {k j : Nat} {m c : Machine ρ} :
    (askedBySteps k m)[j]? = some c ↔ j < k ∧ steps j m = .done c := by
  induction k generalizing m j with
  | zero => exact iff_of_false nofun fun h => Nat.not_lt_zero j h.1
  | succ k ih =>
    cases j with
    | zero =>
      rw [askedBySteps, List.singleton_append, List.getElem?_cons_zero, steps_zero, Option.some.injEq,
        Outcome.done.injEq, and_iff_right (Nat.succ_pos k)]
    | succ j =>
      rw [askedBySteps, List.singleton_append, List.getElem?_cons_succ, steps_succ,
        Nat.succ_lt_succ_iff]
      cases m.step with
      | done n => exact ih
      | failed fault n => exact iff_of_false nofun fun h => nomatch h.2

variable {m : Machine ρ}

/-- **A step prints the line that is due**, and counts it. -/
theorem logs_step (htracing : m.switches.tracing = true) :
    m.Logs m.dueLine.toList m.step.state := by
  cases hword : m.upcoming with
  | none =>
    rw [dueLine, hword, step_of_upcoming_none hword]
    exact .none htracing rfl rfl
  | some w =>
    obtain ⟨hswitches, hcycle, htrace⟩ := unwritten_executeWord (m.advance w) w
    rw [dueLine, hword, step_of_upcoming hword]
    refine ⟨hswitches ▸ htracing, ?_, hcycle, ?_⟩
    · rw [htrace, advance, if_pos htracing, Array.toList_push]
      rfl
    · intro j line hline
      cases j with
      | zero =>
        obtain rfl := Option.some.inj hline
        exact (UInt64.add_zero _).symm
      | succ j => cases hline

/-- A row of steps prints the lines that are due before each of them. -/
theorem logs_steps (htracing : m.switches.tracing = true) (k : Nat) :
    m.Logs ((m.askedBySteps k).filterMap dueLine) (steps k m).state := by
  induction k generalizing m with
  | zero => exact .none htracing rfl rfl
  | succ k ih =>
    have hfirst := logs_step htracing
    rw [askedBySteps, List.filterMap_append, filterMap_dueLine, steps_succ]
    cases hstep : m.step with
    | done n =>
      rw [hstep] at hfirst
      exact hfirst.append (ih hfirst.tracing)
    | failed fault n =>
      rw [hstep] at hfirst
      rwa [List.filterMap_nil, List.append_nil]

/-- Before each step of a row stands a machine where a shorter row ends, and so one that traces. -/
theorem tracing_of_mem_askedBySteps (htracing : m.switches.tracing = true) {k : Nat} {c : Machine ρ}
    (hc : c ∈ m.askedBySteps k) : c.switches.tracing = true := by
  obtain ⟨j, hj⟩ := List.mem_iff_getElem?.mp hc
  obtain ⟨-, hdone⟩ := getElem?_askedBySteps.mp hj
  have hlog := logs_steps htracing j
  rw [hdone] at hlog
  exact hlog.tracing

end Steps

end Machine

/-! ## Histories -/

namespace Operation

/-- Does the log go on?  A reset ends it, and so does a switch that turns tracing off. -/
def KeepsLog : Operation → Prop
  | reset => False
  | setSwitches switches => switches.tracing = true
  | _ => True

/-- The machines that an operation asks for a step. -/
def asked [ByteSource ρ] (m : Machine ρ) : Operation → List (Machine ρ)
  | step => [m]
  | steps n => m.askedBySteps n
  | frame pace _ _ => m.askedBySteps pace.stepsPerFrame
  | _ => []

end Operation

namespace Machine

section Histories

variable [ByteSource ρ]

/-- The machines that a history asks for a step, one after the other. -/
def asked : List Operation → Machine ρ → List (Machine ρ)
  | [], _ => []
  | op :: history, m => op.asked m ++ asked history (op.apply m).state

variable {m : Machine ρ}

theorem logs_apply (htracing : m.switches.tracing = true) {op : Operation} (hop : op.KeepsLog) :
    m.Logs ((op.asked m).filterMap dueLine) (op.apply m).state := by
  cases op with
  | load program =>
    show m.Logs [] (m.load program).state
    unfold load
    split <;> exact .none htracing rfl rfl
  | setRegister r value =>
    show m.Logs [] (m.setRegister r value).state
    unfold setRegister
    split <;> exact .none htracing rfl rfl
  | setSwitches switches => exact .none hop rfl rfl
  | tick => exact .none htracing rfl rfl
  | reset => exact hop.elim
  | executeWord w =>
    obtain ⟨hswitches, hcycle, htrace⟩ := m.unwritten_executeWord w
    exact .none ((congrArg Switches.tracing hswitches).trans htracing) htrace hcycle
  | step => exact m.filterMap_dueLine.symm ▸ logs_step htracing
  | steps n => exact logs_steps htracing n
  | frame pace look seen =>
    refine Operation.frame_keeps (P := m.Logs _) (fun n hn => ?_)
      (logs_steps htracing pace.stepsPerFrame)
    exact ⟨hn.tracing, hn.trace, hn.cycle, hn.numbered⟩

/-- **A history prints the lines that are due** before each of its steps. -/
theorem logs_history (htracing : m.switches.tracing = true) {history : List Operation}
    (hhistory : ∀ op ∈ history, op.KeepsLog) :
    m.Logs ((m.asked history).filterMap dueLine) (m.after history) := by
  induction history generalizing m with
  | nil => exact .none htracing rfl rfl
  | cons op history ih =>
    obtain ⟨hop, hothers⟩ := List.forall_mem_cons.mp hhistory
    have hfirst := logs_apply htracing hop
    rw [asked, List.filterMap_append]
    exact hfirst.append (ih hfirst.tracing hothers)

theorem tracing_of_mem_asked (htracing : m.switches.tracing = true) {history : List Operation}
    (hhistory : ∀ op ∈ history, op.KeepsLog) {c : Machine ρ} (hc : c ∈ m.asked history) :
    c.switches.tracing = true := by
  induction history generalizing m with
  | nil => cases hc
  | cons op history ih =>
    obtain ⟨hop, hothers⟩ := List.forall_mem_cons.mp hhistory
    rcases List.mem_append.mp hc with hfirst | hrest
    · cases op with
      | step =>
        obtain rfl := List.mem_singleton.mp hfirst
        exact htracing
      | steps n => exact tracing_of_mem_askedBySteps htracing hfirst
      | frame pace look seen => exact tracing_of_mem_askedBySteps htracing hfirst
      | _ => cases hfirst
    · exact ih (logs_apply htracing hop).tracing hothers hrest

/-- **The trace is a faithful log.**  Take any machine that traces, and any history that leaves tracing on
and does not reset it, whatever fails in it and whenever it is paused.
  * What is printed are the lines that were due, one for each step that was asked of a machine that was not
    paused and found a word, and none for any other; no matter whether the step was done or failed.
  * The j-th line, counted from 0, has the cycle number that the machine had at first, plus j.  It shows the
    program counter before the step, and the text of the word that stood there in memory at that moment.
  * Each of them is a line of the printed text.
  * There are as many of them as cycles have been counted, as long as the cycle count does not overflow. -/
theorem faithful_log (htracing : m.switches.tracing = true) {history : List Operation}
    (hhistory : ∀ op ∈ history, op.KeepsLog) :
    let n := m.after history
    let lines := (m.asked history).filterMap dueLine
    let printed := String.join (lines.map TraceLine.text)
    n.switches.tracing = true ∧ n.traceText = m.traceText ++ printed
    ∧ n.trace.toList = m.trace.toList ++ lines ∧ printed.toList.count '\n' = lines.length
    ∧ (∀ c ∈ m.asked history, c.step.state.trace.toList = c.trace.toList ++ c.dueLine.toList
      ∧ ∀ line, c.dueLine = some line ↔ c.switches.paused = false
        ∧ c.memory.word c.pc.toNat = .ok line.word ∧ line.cycle = c.cycle ∧ line.pc = c.pc)
    ∧ (∀ j line, lines[j]? = some line →
      line.cycle.toNat = (m.cycle.toNat + j) % UInt64.size
      ∧ (∃ c ∈ m.asked history, c.dueLine = some line)
      ∧ line.text = Style.dim.paint (Column.right 3 (Nat.repr line.cycle.toNat)) ++ " "
        ++ Hex.padded 3 line.pc.toNat ++ ": "
        ++ Column.left 36 ((Palette.coloured.style line.word).paint (Word.text line.word)) ++ "\n")
    ∧ n.cycle.toNat = (m.cycle.toNat + lines.length) % UInt64.size
    ∧ (m.cycle.toNat + lines.length < UInt64.size → n.cycle.toNat = m.cycle.toNat + lines.length) := by
  intro n lines printed
  have hlog : m.Logs lines n := logs_history htracing hhistory
  have hends : ∀ text ∈ lines.map TraceLine.text, text.toList.count '\n' = 1 := by
    intro text htext
    obtain ⟨line, -, rfl⟩ := List.mem_map.mp htext
    exact line.count_newline_text
  have hcount : n.cycle.toNat = (m.cycle.toNat + lines.length) % UInt64.size :=
    toNat_cycle_of_eq hlog.cycle
  refine ⟨hlog.tracing, ?_, hlog.trace, ?_, fun c hc => ⟨?_, fun line => dueLine_eq_some_iff⟩, ?_,
    hcount, ?_⟩
  · rw [traceText, hlog.trace, List.map_append, String.join_append]
    rfl
  · exact (count_newline_join hends).trans (List.length_map _)
  · exact (logs_step (tracing_of_mem_asked htracing hhistory hc)).trace
  · intro j line hline
    exact ⟨toNat_cycle_of_eq (hlog.numbered j line hline),
      List.mem_filterMap.mp (List.mem_of_getElem? hline), rfl⟩
  · intro hsmall
    rw [hcount, Nat.mod_eq_of_lt hsmall]

end Histories

/-- A word that is none of an instruction; a step while paused; a jump to the last byte; and a step that finds
no word there.  Two lines are printed, and the first of them has the number 7. -/
theorem faithful_log_of_failures :
    let program : List UInt8 := [0x00, 0x00, 0x1f, 0xff]
    let history : List Operation :=
      [.step, .setSwitches ⟨true, true⟩, .step, .setSwitches ⟨true, false⟩, .steps 2]
    ∃ m : Machine Stepper, Memory.fresh.load program = .ok m.memory ∧ m.pc = 0x200 ∧ m.cycle = 7
      ∧ m.switches.tracing = true ∧ (∀ op ∈ history, op.KeepsLog)
      ∧ (∃ l, m.step = .failed (.error (.unimplemented 0)) l) ∧ (m.asked history).length = 4
      ∧ (m.after history).traceText
        = "\x1b[90m  7\x1b[39m 200: \x1b[31;1minval  0000\x1b[0m              \n"
        ++ "\x1b[90m  8\x1b[39m 202: \x1b[32mjmp    fff\x1b[0m                 \n"
      ∧ (m.after history).cycle.toNat = 7 + 2 := by
  intro program history
  obtain ⟨memory, hload, -⟩ := load_powerOn (Stepper.mk 0 1) program (by decide)
  let m : Machine Stepper :=
    { powerOn (Stepper.mk 0 1) with switches := ⟨true, false⟩, memory := memory, cycle := 7 }
  let second : Machine Stepper := m.advance 0
  let held : Machine Stepper := { second with switches := ⟨true, true⟩ }
  let last : Machine Stepper := { second.advance 0x1fff with pc := 0xfff }
  have hnothing : Instruction.ofWord? 0 = none := by decide
  have hjump : Instruction.ofWord? 0x1fff = some (.jump 0xfff) := by decide
  have hm : m.upcoming = some 0 :=
    upcoming_eq_some_iff.mpr ⟨rfl, fetch_load hload (k := 0) rfl rfl rfl rfl⟩
  have hsecond : second.upcoming = some 0x1fff :=
    upcoming_eq_some_iff.mpr ⟨rfl, fetch_load hload (k := 2) rfl rfl rfl rfl⟩
  have hend : last.fetch = .error (.invalidAddress 0x1000) :=
    fetch_of_last ((Memory.length_load hload).trans Memory.length_fresh) rfl
  have hlast : last.step = .failed (.error (.invalidAddress 0x1000)) last := step_of_fetch_error rfl hend
  have hstep : m.step = .failed (.error (.unimplemented 0)) second := by
    rw [step_of_upcoming hm, executeWord, hnothing]
  have hnext : second.step = .done last := by
    rw [step_of_upcoming hsecond, executeWord, hjump]
    rfl
  have hkeeps : ∀ op ∈ history, op.KeepsLog := by
    simp [history, Operation.KeepsLog]
  have hasked : m.asked history = [m, held, second, last] := by
    show [m] ++ asked [.setSwitches ⟨true, true⟩, .step, .setSwitches ⟨true, false⟩, .steps 2]
      m.step.state = _
    rw [hstep]
    show [m] ++ ([held] ++ asked [.setSwitches ⟨true, false⟩, .steps 2] held.step.state) = _
    rw [step_of_paused (show held.switches.paused = true from rfl)]
    show [m] ++ ([held] ++ (askedBySteps 2 second ++ [])) = _
    rw [askedBySteps, hnext]
    show [m] ++ ([held] ++ ([second] ++ askedBySteps 1 last ++ [])) = _
    rw [askedBySteps, hlast]
    rfl
  have hlines : (m.asked history).filterMap dueLine = [⟨7, 0x200, 0⟩, ⟨8, 0x202, 0x1fff⟩] := by
    have hdue : m.dueLine = some ⟨7, 0x200, 0⟩ := by rw [dueLine, hm]; rfl
    have hdueNext : second.dueLine = some ⟨8, 0x202, 0x1fff⟩ := by rw [dueLine, hsecond]; rfl
    have hnone : held.dueLine = none ∧ last.dueLine = none := by
      constructor
      · rfl
      · rw [dueLine, upcoming, hend]
        rfl
    rw [hasked, List.filterMap_cons_some hdue, List.filterMap_cons_none hnone.1,
      List.filterMap_cons_some hdueNext, List.filterMap_cons_none hnone.2]
    rfl
  obtain ⟨-, htext, -, -, -, -, hcycle, -⟩ := faithful_log (m := m) rfl hkeeps
  rw [hlines] at htext hcycle
  refine ⟨m, hload, rfl, rfl, rfl, hkeeps, ⟨second, hstep⟩, by rw [hasked]; rfl, ?_, hcycle⟩
  have hempty : m.traceText = "" := rfl
  rw [htext, hempty]
  decide

end Machine

end Chip8
