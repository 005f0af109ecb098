/-
  Sprites over one another.

  A sprite flips the pixels of its mask, and the mask depends on memory and on what is asked for, but not on
  the screen.  So a run of drawings acts on the screen as the exclusive or of its masks.
  1. **The overlay** (`overlay`) is that exclusive or.  It does not depend on the order (`overlay_perm`),
     and two equal ones cancel.
  2. **A run** (`Machine.Draws`) is one drawing after another.  Before each, anything may happen that leaves
     memory and the screen alone — I and the registers are set as the next sprite wants them.
  3. **The crux** (`lit_draws`), by induction on the run: a pixel is flipped as often as masks cover it.
  4. Whether a sprite can be drawn does not depend on the screen either (`Stamp.Fits`), so the sprites of a
     run can be drawn again in every order (`exists_draws`).
-/
import Chip8.Proofs.Sprite

namespace Chip8

/-! ## Overlays -/

/-- Is the pixel flipped by an odd number of the sprites? -/
def overlay (memory : Memory) (stamps : List Stamp) (c r : Nat) : Bool :=
  stamps.foldr (fun s flipped => s.mask memory c r ^^ flipped) false

section Overlays

variable (memory : Memory) (c r : Nat)

theorem overlay_cons (s : Stamp) (stamps : List Stamp) :
    overlay memory (s :: stamps) c r = (s.mask memory c r ^^ overlay memory stamps c r) := rfl

/-- The order of the sprites does not matter. -/
theorem overlay_perm {stamps stamps' : List Stamp} (h : stamps.Perm stamps') :
    overlay memory stamps c r = overlay memory stamps' c r := by
  induction h with
  | nil => rfl
  | cons s _ ih => rw [overlay_cons, overlay_cons, ih]
  | swap s t stamps =>
    rw [overlay_cons, overlay_cons, overlay_cons, overlay_cons]
    exact Bool.xor_left_comm ..
  | trans _ _ ih ih' => rw [ih, ih']

end Overlays

/-- The sprite can be asked for in a word, and its visible rows are in memory. -/
def Stamp.Fits (s : Stamp) (memory : Memory) : Prop :=
  s.rows.toNat < 16 ∧ s.index.toNat + s.visible ≤ memory.length

namespace Machine

variable {ρ : Type}

/-! ## Runs of drawings -/

/-- A word asks a machine for a sprite.  Its coordinates are read from whatever registers the word names. -/
structure Asks (m : Machine ρ) (w : UInt16) (s : Stamp) : Prop where
  group : Word.group w = 0xd
  stamp : m.stamp (Word.regX w) (Word.regY w) (Word.n w) = s

/-- A run of drawings leads from one machine to another. -/
inductive Draws [ByteSource ρ] : Machine ρ → List Stamp → Machine ρ → Prop where
  | nil (m : Machine ρ) : Draws m [] m
  /-- Memory and the screen are left alone until the next sprite is drawn. -/
  | cons {m n n' m' : Machine ρ} {w : UInt16} {s : Stamp} {stamps : List Stamp}
      (memory : n.memory = m.memory) (screen : n.screen = m.screen) (asks : n.Asks w s)
      (done : n.executeWord w = .done n') (others : Draws n' stamps m') : Draws m (s :: stamps) m'

/-- There is a word for every number of rows below sixteen. -/
theorem exists_word {rows : UInt8} (hrows : rows.toNat < 16) : ∃ w : UInt16,
    Word.group w = 0xd ∧ Word.regX w = 0 ∧ Word.regY w = 1 ∧ Word.n w = rows := by
  have hword : (UInt16.ofNat (0xd010 + rows.toNat)).toNat = 0xd010 + rows.toNat := by
    rw [UInt16.toNat_ofNat']
    omega
  refine ⟨UInt16.ofNat (0xd010 + rows.toNat), UInt8.toNat_inj.mp ?_, Fin.ext ?_, Fin.ext ?_,
    UInt8.toNat_inj.mp ?_⟩
  · rw [Word.toNat_group, hword]
    show (0xd010 + rows.toNat) / 4096 = 13
    omega
  · show Word.x _ = 0
    rw [Word.x_eq, hword]
    omega
  · show Word.y _ = 1
    rw [Word.y_eq, hword]
    omega
  · rw [Word.toNat_n, hword]
    omega

/-- A machine can be asked for every sprite of less than sixteen rows, with its corner in v0 and v1. -/
theorem exists_asks (m : Machine ρ) {s : Stamp} (hrows : s.rows.toNat < 16) :
    ∃ (n : Machine ρ) (w : UInt16), n.memory = m.memory ∧ n.screen = m.screen ∧ n.Asks w s := by
  obtain ⟨w, hgroup, hx, hy, hn⟩ := exists_word hrows
  have hv0 : ((m.setV 0 s.x).setV 1 s.y).v.get 0 = s.x := by
    rw [get_setV, if_neg (by decide), get_setV, if_pos rfl]
  have hv1 : ((m.setV 0 s.x).setV 1 s.y).v.get 1 = s.y := by
    rw [get_setV, if_pos rfl]
  refine ⟨{ (m.setV 0 s.x).setV 1 s.y with index := s.index }, w, rfl, rfl, hgroup, ?_⟩
  rw [hx, hy, hn, stamp, hv0, hv1]

section Runs

variable [ByteSource ρ] {m n : Machine ρ} {stamps : List Stamp}

/-- One drawing of a run. -/
theorem asked_done {w : UInt16} {s : Stamp}
    (hs : m.screen.pixels.size = Screen.width * Screen.height) (hasks : m.Asks w s)
    (hdone : m.executeWord w = .done n) :
    n.memory = m.memory ∧ n.screen.pixels.size = Screen.width * Screen.height
    ∧ (∀ c < Screen.width, ∀ r < Screen.height,
      n.screen.lit c r = (m.screen.lit c r ^^ s.mask m.memory c r))
    ∧ s.Fits m.memory := by
  obtain ⟨hgroup, rfl⟩ := hasks
  rw [executeWord_draw m hgroup] at hdone
  have hfit := (drawSprite_done_iff hs).mp ⟨n, hdone⟩
  obtain ⟨hit, screen, rfl, hsize, hlit, -⟩ := drawn_mask hs hdone
  refine ⟨rfl, hsize, hlit, ?_, hfit⟩
  show (Word.n w).toNat < 16
  rw [Word.toNat_n]
  exact Nat.mod_lt _ (by decide)

/-- **The crux.**  A run flips the pixels of its overlay, and leaves memory alone. -/
theorem lit_draws (hs : m.screen.pixels.size = Screen.width * Screen.height) (h : m.Draws stamps n) :
    n.memory = m.memory ∧ n.screen.pixels.size = Screen.width * Screen.height
    ∧ (∀ c < Screen.width, ∀ r < Screen.height,
      n.screen.lit c r = (m.screen.lit c r ^^ overlay m.memory stamps c r))
    ∧ ∀ s ∈ stamps, s.Fits m.memory := by
  induction h with
  | nil m => exact ⟨rfl, hs, fun c _ r _ => (Bool.xor_false _).symm, nofun⟩
  | cons hmemory hscreen hasks hdone _ ih =>
    obtain ⟨hmemory', hs', hfirst, hfits⟩ := asked_done (hscreen ▸ hs) hasks hdone
    obtain ⟨hlast, hsize, hlit, hothers⟩ := ih hs'
    rw [hmemory', hmemory] at hlast hlit hothers
    rw [hscreen, hmemory] at hfirst
    refine ⟨hlast, hsize, fun c hc r hr => ?_, ?_⟩
    · rw [hlit c hc r hr, hfirst c hc r hr, overlay_cons, Bool.xor_assoc]
    · intro s hmem
      rcases List.mem_cons.mp hmem with rfl | hmem
      · exact hmemory ▸ hfits
      · exact hothers s hmem

/-! ## Every order can be carried out -/

/-- A run of sprites that fit can be carried out. -/
theorem exists_draws (hs : m.screen.pixels.size = Screen.width * Screen.height)
    (hfits : ∀ s ∈ stamps, s.Fits m.memory) : ∃ n, m.Draws stamps n := by
  induction stamps generalizing m with
  | nil => exact ⟨m, .nil m⟩
  | cons s stamps ih =>
    obtain ⟨hrows, hfit⟩ := hfits s (List.mem_cons_self ..)
    obtain ⟨k, w, hmemory, hscreen, hasks⟩ := m.exists_asks hrows
    have hk : k.screen.pixels.size = Screen.width * Screen.height := hscreen ▸ hs
    have hdone : ∃ n, k.executeWord w = .done n := by
      rw [executeWord_draw k hasks.group]
      refine (drawSprite_done_iff hk).mpr ?_
      rw [hasks.stamp, hmemory, show k.index = s.index from congrArg Stamp.index hasks.stamp]
      exact hfit
    obtain ⟨n, hdone⟩ := hdone
    obtain ⟨hmemory', hn, -, -⟩ := asked_done hk hasks hdone
    obtain ⟨n', hothers⟩ := ih hn fun t ht => by
      rw [hmemory', hmemory]
      exact hfits t (List.mem_cons_of_mem _ ht)
    exact ⟨n', .cons hmemory hscreen hasks hdone hothers⟩

/-- The same sprites in another order show the same. -/
theorem screen_draws_perm {stamps' : List Stamp} {n' : Machine ρ}
    (hs : m.screen.pixels.size = Screen.width * Screen.height) (hperm : stamps'.Perm stamps)
    (h : m.Draws stamps n) (h' : m.Draws stamps' n') : n'.screen = n.screen := by
  obtain ⟨-, hsize, hlit, -⟩ := lit_draws hs h
  obtain ⟨-, hsize', hlit', -⟩ := lit_draws hs h'
  refine Screen.ext_lit hsize' hsize fun c hc r hr => ?_
  rw [hlit' c hc r hr, hlit c hc r hr, overlay_perm _ c r hperm]

/-- The same sprites once more show what was there before them. -/
theorem screen_draws_again {stamps' : List Stamp} {n' : Machine ρ}
    (hs : m.screen.pixels.size = Screen.width * Screen.height) (hperm : stamps'.Perm stamps)
    (h : m.Draws stamps n) (h' : n.Draws stamps' n') : n'.screen = m.screen := by
  obtain ⟨hmemory, hsize, hlit, -⟩ := lit_draws hs h
  obtain ⟨-, hsize', hlit', -⟩ := lit_draws hsize h'
  refine Screen.ext_lit hsize' hs fun c hc r hr => ?_
  rw [hlit' c hc r hr, hlit c hc r hr, hmemory, overlay_perm _ c r hperm, Bool.xor_assoc, Bool.xor_self,
    Bool.xor_false]

end Runs

/-! ## Twice the same -/

/-- The second drawing takes the first back, and meets the pixels that were off. -/
theorem drawSprite_twice {m n : Machine ρ} {x y : Fin 16} {rows : UInt8} (hx : x ≠ 15) (hy : y ≠ 15)
    (hs : m.screen.pixels.size = Screen.width * Screen.height) (h : m.drawSprite x y rows = .done n) :
    ∃ n', n.drawSprite x y rows = .done n' ∧ n'.screen = m.screen
      ∧ ∃ hit, n'.v.get 15 = flagOf hit ∧ (hit = true ↔ ∃ c < Screen.width, ∃ r < Screen.height,
        (m.stamp x y rows).mask m.memory c r = true ∧ m.screen.lit c r = false) := by
  have hfit := (drawSprite_done_iff hs).mp ⟨n, h⟩
  obtain ⟨first, screen, rfl, hsize, hlit, -⟩ := drawn_mask hs h
  -- The first drawing wrote neither of the two registers, nor I.
  have hstamp : (m.drawn screen first).stamp x y rows = m.stamp x y rows := by
    rw [stamp, get_drawn, if_neg hx, get_drawn, if_neg hy]
    rfl
  rw [← hstamp] at hfit
  obtain ⟨n', hdone⟩ := (drawSprite_done_iff (m := m.drawn screen first) hsize).mpr hfit
  obtain ⟨second, screen', rfl, hsize', hlit', hhit⟩ :=
    drawn_mask (m := m.drawn screen first) hsize hdone
  rw [hstamp, screen_drawn, memory_drawn] at hlit' hhit
  refine ⟨_, hdone, Screen.ext_lit hsize' hs fun c hc r hr => ?_, second, ?_, hhit.trans ?_⟩
  · rw [screen_drawn, hlit' c hc r hr, hlit c hc r hr, Bool.xor_assoc, Bool.xor_self, Bool.xor_false]
  · rw [get_drawn, if_pos rfl]
  · constructor
    · rintro ⟨c, hc, r, hr, hset, hwas⟩
      rw [hlit c hc r hr, hset, Bool.xor_true, Bool.not_eq_true'] at hwas
      exact ⟨c, hc, r, hr, hset, hwas⟩
    · rintro ⟨c, hc, r, hr, hset, hwas⟩
      refine ⟨c, hc, r, hr, hset, ?_⟩
      rw [hlit c hc r hr, hset, hwas]
      rfl

/-! ## The action of the sprites on the screen -/

section Action

variable [ByteSource ρ] {m : Machine ρ}

/-- **Sprites act on the screen by exclusive or.**  On a machine with a full screen
  * a run of drawings leaves memory alone and flips the pixels of its overlay; its sprites can be drawn in
    every order, with the same screen at the end; and they can all be drawn a second time in every order,
    which brings back the screen before the run;
  * a `Dxyn` that draws a sprite, with its corner not in vF, draws it again; that brings the screen back and
    sets vF to one if a set bit was over a pixel that was off at first, and to zero if not. -/
theorem draws_overlay (hs : m.screen.pixels.size = Screen.width * Screen.height) :
    (∀ stamps n, m.Draws stamps n → n.memory = m.memory
      ∧ (∀ c < 64, ∀ r < 32, ∃ was, m.screen.get c r = .ok was
        ∧ n.screen.get c r = .ok (was ^^ overlay m.memory stamps c r))
      ∧ ∀ stamps', stamps'.Perm stamps →
        (∃ n', m.Draws stamps' n') ∧ (∀ n', m.Draws stamps' n' → n'.screen = n.screen)
        ∧ (∃ n', n.Draws stamps' n') ∧ ∀ n', n.Draws stamps' n' → n'.screen = m.screen)
    ∧ ∀ w n, Word.group w = 0xd → Word.regX w ≠ 15 → Word.regY w ≠ 15 → m.executeWord w = .done n →
      let s := m.stamp (Word.regX w) (Word.regY w) (Word.n w)
      ∃ n', n.executeWord w = .done n' ∧ n'.screen = m.screen
        ∧ (n'.v.get 15 = 1
            ∧ (∃ c < 64, ∃ r < 32, s.mask m.memory c r = true ∧ m.screen.get c r = .ok false)
          ∨ n'.v.get 15 = 0
            ∧ ∀ c < 64, ∀ r < 32, s.mask m.memory c r = true → m.screen.get c r = .ok true) := by
  constructor
  · intro stamps n h
    obtain ⟨hmemory, hsize, hlit, hfits⟩ := lit_draws hs h
    refine ⟨hmemory, fun c hc r hr => ?_, fun stamps' hperm => ?_⟩
    · refine ⟨m.screen.lit c r, Screen.get_eq_lit hs hc hr, ?_⟩
      rw [Screen.get_eq_lit hsize hc hr, hlit c hc r hr]
    · have hfits' : ∀ s ∈ stamps', s.Fits m.memory := fun s hmem => hfits s (hperm.mem_iff.mp hmem)
      exact ⟨exists_draws hs hfits', fun _ => screen_draws_perm hs hperm h,
        exists_draws hsize (hmemory.symm ▸ hfits'), fun _ => screen_draws_again hs hperm h⟩
  · intro w n hgroup hx hy hdone s
    rw [executeWord_draw m hgroup] at hdone
    obtain ⟨n', hagain, hscreen, hit, hflag, hhit⟩ := drawSprite_twice hx hy hs hdone
    refine ⟨n', (executeWord_draw n hgroup).trans hagain, hscreen, ?_⟩
    rw [hflag]
    exact flag_tells hs hhit

/-- A zero and a one of the font overlap on a blank screen, and the pixel they share is dark.  The one and
then the zero clear the screen, and so does the same zero after itself, which hits its own pixels. -/
theorem draws_overlay_font :
    let m : Machine Stepper := { powerOn (Stepper.mk 0 1) with index := 0x50 }
    let zero : Stamp := ⟨0, 0, 0x50, 5⟩
    let one : Stamp := ⟨1, 0, 0x55, 5⟩
    m.screen.pixels.size = Screen.width * Screen.height
    ∧ (∃ n, m.Draws [zero, one] n ∧ n.screen.get 3 0 = .ok false
      ∧ ∃ n', n.Draws [one, zero] n' ∧ n'.screen = m.screen)
    ∧ ∃ n n', m.executeWord 0xd015 = .done n ∧ n.executeWord 0xd015 = .done n'
      ∧ n'.screen = m.screen ∧ n'.v.get 15 = 1 := by
  intro m zero one
  have hs : m.screen.pixels.size = Screen.width * Screen.height := Screen.size_blank
  have hlength : m.memory.length = 0x1000 := Memory.length_fresh
  have hblank : ∀ c < 64, ∀ r < 32, m.screen.get c r = .ok false := fun _ hc _ hr =>
    Screen.get_blank hc hr
  have hbytes : m.memory.bytes[80]? = some 0xf0 ∧ m.memory.bytes[85]? = some 0x20 :=
    ⟨Memory.getElem?_font (k := 0) (by decide), Memory.getElem?_font (k := 5) (by decide)⟩
  -- The pixel that both light, which is also one of the zero that is drawn twice.
  have hzero : zero.mask m.memory 3 0 = true :=
    Stamp.mask_eq_true_iff.mpr ⟨by decide, 0xf0, hbytes.1, by decide⟩
  have hone : one.mask m.memory 3 0 = true :=
    Stamp.mask_eq_true_iff.mpr ⟨by decide, 0x20, hbytes.2, by decide⟩
  obtain ⟨hruns, htwice⟩ := draws_overlay hs
  refine ⟨hs, ?_, ?_⟩
  · have hfits : ∀ s ∈ [zero, one], s.Fits m.memory := by
      intro s hmem
      rw [Stamp.Fits, hlength]
      rcases List.mem_cons.mp hmem with rfl | hmem
      · decide
      · obtain rfl := List.mem_singleton.mp hmem
        decide
    obtain ⟨n, hdraws⟩ := exists_draws hs hfits
    obtain ⟨-, hpixel, horders⟩ := hruns _ n hdraws
    obtain ⟨-, -, ⟨n', hagain⟩, hback⟩ := horders [one, zero] (List.Perm.swap ..)
    refine ⟨n, hdraws, ?_, n', hagain, hback n' hagain⟩
    obtain ⟨was, hwas, hnow⟩ := hpixel 3 (by decide) 0 (by decide)
    obtain rfl := Except.ok.inj ((hblank 3 (by decide) 0 (by decide)).symm.trans hwas)
    rw [hnow, overlay_cons, overlay_cons, hzero, hone]
    rfl
  · have hdone : ∃ n, m.executeWord 0xd015 = .done n := by
      rw [executeWord_draw m (by decide)]
      refine (drawSprite_done_iff hs).mpr ?_
      rw [hlength]
      decide
    obtain ⟨n, hdone⟩ := hdone
    obtain ⟨n', hagain, hscreen, hflag⟩ := htwice 0xd015 n (by decide) (by decide) (by decide) hdone
    refine ⟨n, n', hdone, hagain, hscreen, ?_⟩
    rcases hflag with ⟨hset, -⟩ | ⟨-, hlit⟩
    · exact hset
    · have hon := hlit 3 (by decide) 0 (by decide) hzero
      rw [hblank 3 (by decide) 0 (by decide)] at hon
      cases hon

end Action

end Machine

end Chip8
