/-
  Settings fit their words.

  Numbers on a command line are read below a bound, digit by digit, and nothing else puts a number into the
  settings.  So whatever is accepted, the settings hold numbers that fit the words they stand for.
  1. **Numbers** (`Integer.lt_of_read`).  Each digit is weighed against the bound before it is taken.
  2. **The crux** (`Command.readWords_keeps`).  What the settings have and every option keeps, they have
     after any words that are accepted.  An option may wait for its argument in the next word, so the
     induction over the words carries along that this option keeps it too.
  3. **The two commands** — of the runner (`Runner.fits_of_read`) and of the lister
     (`Lister.fits_of_read`).
-/
import Chip8.CommandLine.Lister
import Chip8.CommandLine.Runner

namespace Chip8.CommandLine

/-- What is bound to something and accepted was accepted before. -/
theorem exists_ok_of_bind {ε α β : Type} {first : Except ε α} {next : α → Except ε β} {b : β}
    (h : (first >>= next) = .ok b) : ∃ a, first = .ok a ∧ next a = .ok b := by
  cases first with
  | error e => cases h
  | ok a => exact ⟨a, rfl, h⟩

/-! ## Numbers -/

namespace Integer

variable {radix bound n : Nat}

/-- A number that is read is below the bound it is read with. -/
theorem lt_of_readDigits {digits : List Char} {value : Nat} (hvalue : value < bound)
    (h : readDigits radix bound digits value = .ok n) : n < bound := by
  induction digits generalizing value with
  | nil =>
    obtain rfl : value = n := Except.ok.inj h
    exact hvalue
  | cons c digits ih =>
    unfold readDigits at h
    split at h
    next => cases h
    next d _ =>
      split at h
      next => cases h
      next hsmall => exact ih (Nat.lt_of_not_le hsmall) h

/-- A number that was read is below its bound. -/
theorem lt_of_read (hbound : 0 < bound) {text : String} (h : read radix bound text = .ok n) :
    n < bound := by
  unfold read at h
  split at h
  · cases h
  · cases h
  · exact lt_of_readDigits hbound h
  · exact lt_of_readDigits hbound h

end Integer

/-! ## What every option keeps -/

/-- Does an option keep a property of the settings, whatever argument it accepts? -/
def Effect.Keeps {α : Type} (P : α → Prop) : Effect α → Prop
  | switch apply => ∀ s, P s → P (apply s)
  | argument apply => ∀ text s s', P s → apply text s = .ok s' → P s'

/-- A number that is put into the settings is one of 64 bits. -/
theorem Effect.number_keeps {α : Type} {P : α → Prop} {apply : Nat → α → α}
    (h : ∀ n < UInt64.size, ∀ s, P s → P (apply n s)) : (Effect.number apply).Keeps P := by
  intro text s s' hs hs'
  obtain ⟨n, hread, hend⟩ := exists_ok_of_bind hs'
  obtain rfl := Except.ok.inj hend
  exact h n (Integer.lt_of_read (by decide) hread) s hs

namespace Command

variable {α : Type} {cmd : Command α} {P : α → Prop} {settings : α}

/-- Does what still waits for its argument keep it, too? -/
def WaitingKeeps (P : α → Prop) (waiting : Option (Waiting α)) : Prop :=
  ∀ w ∈ waiting, (Effect.argument w.2).Keeps P

theorem waitingKeeps_none : WaitingKeeps P none := nofun

theorem waitingKeeps_some {spelling : String} {apply : String → α → Except IntegerError α}
    (h : (Effect.argument apply).Keeps P) : WaitingKeeps P (some (spelling, apply)) := by
  intro w hw
  obtain rfl := Option.mem_some.mp hw
  exact h

/-- An argument that is supplied keeps what its option keeps. -/
theorem supply_keeps {spelling text : String} {apply : String → α → Except IntegerError α}
    {settings' : α} (happly : (Effect.argument apply).Keeps P) (hs : P settings)
    (h : supply spelling apply text settings = .ok settings') : P settings' := by
  unfold supply at h
  split at h
  next next hend =>
    obtain rfl := Except.ok.inj h
    exact happly text settings next hs hend
  next => cases h

/-- An option that is looked up stands in the table. -/
theorem keeps_of_find {p : OptionSpec α → Bool} (hopts : ∀ o ∈ cmd.options, o.effect.Keeps P)
    {e : Effect α} (h : (cmd.options.find? p).map OptionSpec.effect = some e) : e.Keeps P := by
  obtain ⟨o, ho, rfl⟩ := Option.map_eq_some_iff.mp h
  exact hopts o (List.mem_of_find?_eq_some ho)

/-- So does a long option, and one that is left waiting for its argument will. -/
theorem readLong_keeps (hopts : ∀ o ∈ cmd.options, o.effect.Keeps P) {name : String}
    {argument? : Option String} {end' : α × Option (Waiting α)} (hs : P settings)
    (h : cmd.readLong name argument? settings = .ok end') :
    P end'.1 ∧ WaitingKeeps P end'.2 := by
  unfold readLong at h
  split at h
  next => cases h
  next apply ho =>
    obtain rfl := Except.ok.inj h
    exact ⟨keeps_of_find hopts ho settings hs, waitingKeeps_none⟩
  next => cases h
  next apply ho =>
    obtain rfl := Except.ok.inj h
    exact ⟨hs, waitingKeeps_some (keeps_of_find hopts ho)⟩
  next apply text ho =>
    obtain ⟨next, hsupply, hend⟩ := exists_ok_of_bind h
    obtain rfl := Except.ok.inj hend
    exact ⟨supply_keeps (keeps_of_find hopts ho) hs hsupply, waitingKeeps_none⟩

/-- And so do all the letters of a cluster. -/
theorem readCluster_keeps (hopts : ∀ o ∈ cmd.options, o.effect.Keeps P) {letters : List Char}
    {end' : α × Option (Waiting α)} (hs : P settings)
    (h : cmd.readCluster letters settings = .ok end') : P end'.1 ∧ WaitingKeeps P end'.2 := by
  induction letters generalizing settings with
  | nil =>
    obtain rfl := Except.ok.inj h
    exact ⟨hs, waitingKeeps_none⟩
  | cons letter letters ih =>
    unfold readCluster at h
    split at h
    next => cases h
    next apply ho => exact ih (keeps_of_find hopts ho settings hs) h
    next apply ho =>
      have hkeeps := keeps_of_find hopts ho
      split at h
      next =>
        obtain rfl := Except.ok.inj h
        exact ⟨hs, waitingKeeps_some hkeeps⟩
      next =>
        obtain ⟨next, hsupply, hend⟩ := exists_ok_of_bind h
        obtain rfl := Except.ok.inj hend
        exact ⟨supply_keeps hkeeps hs hsupply, waitingKeeps_none⟩

/-- A word that is no option leaves the settings. -/
theorem settings_readFree {text : String} {r r' : Reading α} (h : readFree text r = .ok r') :
    r'.settings = r.settings := by
  unfold readFree at h
  split at h
  next =>
    obtain rfl := Except.ok.inj h
    rfl
  next => cases h

/-- **What every option keeps, words keep.** -/
theorem readWords_keeps (hopts : ∀ o ∈ cmd.options, o.effect.Keeps P) {words : List String}
    {waiting : Option (Waiting α)} {plain : Bool} {r r' : Reading α} (hr : P r.settings)
    (hwaiting : WaitingKeeps P waiting) (h : cmd.readWords words waiting plain r = .ok r') :
    P r'.settings := by
  induction words generalizing waiting plain r with
  | nil =>
    cases waiting with
    | none =>
      obtain rfl := Except.ok.inj h
      exact hr
    | some w => cases h
  | cons word words ih =>
    have hfree : ∀ {plain' : Bool}, (readFree word r >>= cmd.readWords words none plain') = .ok r' →
        P r'.settings := by
      intro plain' hrest
      obtain ⟨next, hnext, hend⟩ := exists_ok_of_bind hrest
      exact ih (settings_readFree hnext ▸ hr) waitingKeeps_none hend
    cases waiting with
    | some w =>
      obtain ⟨settings, hsupply, hend⟩ := exists_ok_of_bind h
      exact ih (r := { r with settings := settings })
        (supply_keeps (hwaiting w rfl) hr hsupply) waitingKeeps_none hend
    | none =>
      cases plain with
      | true => exact hfree h
      | false =>
        unfold readWords at h
        split at h
        next => exact hfree h
        next => exact ih hr waitingKeeps_none h
        next name argument? _ =>
          obtain ⟨⟨settings, left⟩, hlong, hend⟩ := exists_ok_of_bind h
          obtain ⟨hsettings, hleft⟩ := readLong_keeps hopts hr hlong
          exact ih (r := { r with settings := settings }) hsettings hleft hend
        next letters _ =>
          obtain ⟨⟨settings, left⟩, hcluster, hend⟩ := exists_ok_of_bind h
          obtain ⟨hsettings, hleft⟩ := readCluster_keeps hopts hr hcluster
          exact ih (r := { r with settings := settings }) hsettings hleft hend

/-- What the initial settings have and every option keeps, the settings of a command line have. -/
theorem read_keeps (hinitial : P cmd.initial) (hopts : ∀ o ∈ cmd.options, o.effect.Keeps P)
    {words : List String} {r : Reading α} (h : cmd.read words = .ok r) : P r.settings :=
  readWords_keeps hopts hinitial waitingKeeps_none h

end Command

/-! ## The two commands -/

/-- Do the settings of the runner hold numbers of 64 bits? -/
structure Runner.Settings.Fits (s : Runner.Settings) : Prop where
  cycles : ∀ n ∈ s.cycles, n < UInt64.size
  speed : ∀ n ∈ s.speed, n < UInt64.size
  frames : ∀ n ∈ s.frames, n < UInt64.size
  seed : ∀ n ∈ s.seed, n < UInt64.size
  rate : s.framesPerSecond < UInt64.size

theorem Runner.fits_of_read {words : List String} {r : Reading Runner.Settings}
    (h : Runner.command.read words = .ok r) : r.settings.Fits := by
  refine Command.read_keeps (P := Runner.Settings.Fits) ?_ ?_ h
  · exact ⟨nofun, nofun, nofun, nofun, by decide⟩
  · have hsome : ∀ {n : Nat}, n < UInt64.size → ∀ k ∈ some n, k < UInt64.size :=
      fun hn _ hk => Option.mem_some.mp hk ▸ hn
    simp only [Runner.command, List.forall_mem_cons, List.not_mem_nil, false_implies, implies_true,
      and_true]
    refine ⟨?help, ?debug, ?cycles, ?speed, ?rate, ?frames, ?seed, ?screen⟩
    case help | debug | screen => exact fun s hs => ⟨hs.cycles, hs.speed, hs.frames, hs.seed, hs.rate⟩
    all_goals refine Effect.number_keeps fun n hn s hs => ?_
    case cycles => exact ⟨hsome hn, hs.speed, hs.frames, hs.seed, hs.rate⟩
    case speed => exact ⟨hs.cycles, hsome hn, hs.frames, hs.seed, hs.rate⟩
    case rate => exact ⟨hs.cycles, hs.speed, hs.frames, hs.seed, hn⟩
    case frames => exact ⟨hs.cycles, hs.speed, hsome hn, hs.seed, hs.rate⟩
    case seed => exact ⟨hs.cycles, hs.speed, hs.frames, hsome hn, hs.rate⟩

/-- Do the settings of the lister hold an address of 16 bits and an offset of 64? -/
structure Lister.Settings.Fits (s : Lister.Settings) : Prop where
  loadAddress : s.loadAddress < UInt16.size
  offset : s.offset < UInt64.size

theorem Lister.fits_of_read {words : List String} {r : Reading Lister.Settings}
    (h : Lister.command.read words = .ok r) : r.settings.Fits := by
  refine Command.read_keeps (P := Lister.Settings.Fits) ⟨by decide, by decide⟩ ?_ h
  simp only [Lister.command, List.forall_mem_cons, List.not_mem_nil, false_implies, implies_true,
    and_true]
  refine ⟨?help, ?loadAddress, ?offset⟩
  case help => exact fun s hs => ⟨hs.loadAddress, hs.offset⟩
  case loadAddress =>
    intro text s s' hs hs'
    obtain ⟨address, hread, hend⟩ := exists_ok_of_bind hs'
    obtain rfl := Except.ok.inj hend
    exact ⟨Integer.lt_of_read (by decide) hread, hs.offset⟩
  case offset => exact Effect.number_keeps fun n hn s hs => ⟨hs.loadAddress, hn⟩

/-- The lister takes a program to stand at an address of 16 bits. -/
theorem Lister.Settings.Fits.origin_lt {s : Lister.Settings} (hs : s.Fits) :
    s.origin < UInt16.size := by
  unfold Lister.Settings.origin
  split
  · decide
  · exact hs.loadAddress

end Chip8.CommandLine
