/-
  A call stack is a list with a limit.

  A call stack never wipes a frame out, it only stops counting it.  Whoever pushes, pops and clears cannot
  tell: what there is to see is a list of at most sixteen addresses.
  1. **Two sides** (`use`, `useList`).  The same uses can be made of a call stack, which is an array and a
     count, and of a plain list.
  2. **One use** (`holds_use`).  A stack that holds a list answers what the list answers, and then holds
     what has become of the list.  From there it is an induction on the uses (`holds_after`).
  3. **The crux** (`eq_of_answers`): equality is all there is to see.  Lists that answer alike whatever one
     does to them are the same list, taken apart from the end.  So two stacks compare equal exactly if no
     uses tell them apart, and the frames that are left above their counts never matter.
  4. **Hashes** (`frameBytes_inj`).  Equal stacks are exactly the ones of which a hash is taken in the same
     way.
-/
import Chip8.CallStack
import Chip8.Proofs.Blocks

namespace Chip8.CallStack

/-! ## Uses and answers -/

/-- One thing to do to a stack. -/
inductive Use where
  | push (address : UInt16)
  | pop
  | clear
deriving DecidableEq, Repr

/-- What one is told. -/
inductive Answer where
  | pushed
  /-- There was no room for another address. -/
  | full
  | popped (address : UInt16)
  /-- There was no address left. -/
  | empty
  | cleared
deriving DecidableEq, Repr

/-- Use a call stack. -/
def use (s : CallStack) : Use → Except Crash Answer × CallStack
  | .push address =>
      match s.push address with
      | some t => (.ok .pushed, t)
      | none => (.ok .full, s)
  | .pop =>
      match s.pop with
      | (.ok (some address), t) => (.ok (.popped address), t)
      | (.ok none, t) => (.ok .empty, t)
      | (.error crash, t) => (.error crash, t)
  | .clear => (.ok .cleared, s.clear)

/-- Use a list of at most sixteen addresses, the oldest first. -/
def useList (frames : List UInt16) : Use → Answer × List UInt16
  | .push address =>
      if frames.length = stackDepth then (.full, frames) else (.pushed, frames ++ [address])
  | .pop =>
      match frames.getLast? with
      | some address => (.popped address, frames.dropLast)
      | none => (.empty, frames)
  | .clear => (.cleared, [])

section Uses

variable {σ α : Type} (act : σ → Use → α × σ)

/-- What is left after some uses. -/
def after : σ → List Use → σ
  | s, [] => s
  | s, u :: uses => after (act s u).2 uses

/-- What one is told by some uses, in turn. -/
def answers : σ → List Use → List α
  | _, [] => []
  | s, u :: uses => (act s u).1 :: answers (act s u).2 uses

end Uses

/-! ## One use, and many -/

/-- The stack holds a list of addresses, the oldest first. -/
structure Holds (s : CallStack) (frames : List UInt16) : Prop where
  live : s.live = frames
  depth : s.depth = frames.length
  room : frames.length ≤ stackDepth

section Holding

variable {s t : CallStack} {frames frames' : List UInt16}

theorem holds_empty : empty.Holds [] := ⟨rfl, rfl, Nat.zero_le _⟩

theorem Holds.depth_le (h : s.Holds frames) : s.depth ≤ stackDepth := h.depth ▸ h.room

theorem Holds.live?_eq (h : s.Holds frames) : s.live? = .ok frames :=
  (CallStack.live?_eq h.depth_le).trans (congrArg _ h.live)

theorem Holds.isEmpty_eq (h : s.Holds frames) : s.isEmpty = frames.isEmpty := by
  rw [CallStack.isEmpty, h.depth]
  cases frames <;> rfl

/-- A push is refused by sixteen addresses, and appends to less. -/
theorem push_of_holds (h : s.Holds frames) (address : UInt16) :
    if frames.length = stackDepth then s.push address = none
      else ∃ t, s.push address = some t ∧ t.Holds (frames ++ [address]) := by
  have hroom := h.room
  cases hpush : s.push address with
  | none =>
    have hfull := push_eq_none_iff.mp hpush
    rw [h.depth] at hfull
    rw [if_pos (Nat.le_antisymm hroom hfull)]
  | some t =>
    have hspace : ¬ stackDepth ≤ s.depth := by
      intro hfull
      rw [push_eq_none_iff.mpr hfull] at hpush
      cases hpush
    rw [h.depth] at hspace
    rw [if_neg (by omega)]
    refine ⟨t, rfl, ?_, ?_, ?_⟩
    · rw [live_push hpush, h.live]
    · rw [depth_push hpush, h.depth, List.length_append, List.length_singleton]
    · rw [List.length_append, List.length_singleton]
      omega

/-- A pop takes the last address off, if there is one. -/
theorem pop_of_holds (h : s.Holds frames) : match frames.getLast? with
    | some address => ∃ t, s.pop = (.ok (some address), t) ∧ t.Holds frames.dropLast
    | none => s.pop = (.ok none, s) := by
  have hpop := pop_eq h.depth_le
  cases hlast : frames.getLast? with
  | none =>
    obtain rfl := List.getLast?_eq_none_iff.mp hlast
    rwa [dif_neg (by rw [h.depth]; exact Nat.lt_irrefl 0)] at hpop
  | some address =>
    obtain ⟨rest, rfl⟩ := List.getLast?_eq_some_iff.mp hlast
    have hroom := h.room
    have hdepth := h.depth
    rw [List.length_append, List.length_singleton] at hroom hdepth
    rw [dif_pos (by omega)] at hpop
    -- The frame that is found is the last of the list, and the others stay.
    obtain ⟨hrest, hframe⟩ := List.append_inj' (h.live.symm.trans (live_pop hpop)) rfl
    rw [← List.singleton_inj.mp hframe] at hpop
    rw [List.dropLast_concat]
    refine ⟨_, hpop, hrest.symm, ?_, Nat.le_of_succ_le hroom⟩
    show s.depth - 1 = rest.length
    omega

/-- **One use.**  The stack answers what the list answers, and holds what the list has become. -/
theorem holds_use (h : s.Holds frames) (u : Use) :
    (s.use u).1 = .ok (useList frames u).1 ∧ (s.use u).2.Holds (useList frames u).2 := by
  cases u with
  | push address =>
    have hpush := push_of_holds h address
    rw [use, useList]
    split at hpush
    next hfull =>
      rw [if_pos hfull, hpush]
      exact ⟨rfl, h⟩
    next hspace =>
      obtain ⟨t, ht, hholds⟩ := hpush
      rw [if_neg hspace, ht]
      exact ⟨rfl, hholds⟩
  | pop =>
    have hpop := pop_of_holds h
    rw [use, useList]
    split at hpop
    next address hlast =>
      obtain ⟨t, ht, hholds⟩ := hpop
      rw [ht]
      exact ⟨rfl, hholds⟩
    next hnone =>
      rw [hpop]
      exact ⟨rfl, h⟩
  | clear => exact ⟨rfl, live_clear s, rfl, Nat.zero_le _⟩

/-- Many uses. -/
theorem holds_after (h : s.Holds frames) (uses : List Use) :
    answers use s uses = (answers useList frames uses).map .ok
      ∧ (after use s uses).Holds (after useList frames uses) := by
  induction uses generalizing s frames with
  | nil => exact ⟨rfl, h⟩
  | cons u uses ih =>
    obtain ⟨hanswer, hholds⟩ := holds_use h u
    obtain ⟨hanswers, hafter⟩ := ih hholds
    refine ⟨?_, hafter⟩
    rw [answers, answers, List.map_cons, hanswer, hanswers]

/-! ## Equality is all there is to see -/

theorem useList_pop_concat (rest : List UInt16) (address : UInt16) :
    useList (rest ++ [address]) .pop = (.popped address, rest) := by
  rw [useList, List.getLast?_concat, List.dropLast_concat]

/-- Lists that answer alike for ever are the same, taken apart from the end. -/
theorem reverse_eq_of_answers (h : ∀ uses, answers useList frames.reverse uses
    = answers useList frames'.reverse uses) : frames = frames' := by
  induction frames generalizing frames' with
  | nil =>
    cases frames' with
    | nil => rfl
    | cons address' rest' =>
      have hpop := List.head_eq_of_cons_eq (h [.pop])
      rw [List.reverse_cons, useList_pop_concat] at hpop
      cases hpop
  | cons address rest ih =>
    cases frames' with
    | nil =>
      have hpop := List.head_eq_of_cons_eq (h [.pop])
      rw [List.reverse_cons, useList_pop_concat] at hpop
      cases hpop
    | cons address' rest' =>
      have hpop := List.head_eq_of_cons_eq (h [.pop])
      rw [List.reverse_cons, List.reverse_cons, useList_pop_concat, useList_pop_concat] at hpop
      rw [Answer.popped.inj hpop]
      refine congrArg _ (ih fun uses => ?_)
      -- What is told after the first pop is told of the rest.
      have hrest := List.tail_eq_of_cons_eq (h (.pop :: uses))
      rwa [List.reverse_cons, List.reverse_cons, useList_pop_concat, useList_pop_concat] at hrest

/-- **Lists that answer alike for ever are the same.** -/
theorem eq_of_answers (h : ∀ uses, answers useList frames uses = answers useList frames' uses) :
    frames = frames' := by
  refine List.reverse_inj.mp (reverse_eq_of_answers ?_)
  rwa [List.reverse_reverse, List.reverse_reverse]

theorem same?_of_holds (hs : s.Holds frames) (ht : t.Holds frames') :
    s.same? t = .ok (frames == frames') := by
  rw [same?_eq hs.depth_le ht.depth_le, hs.live, ht.live]

theorem same?_iff (hs : s.Holds frames) (ht : t.Holds frames') :
    s.same? t = .ok true ↔ frames = frames' := by
  rw [same?_of_holds hs ht, Except.ok.injEq, beq_iff_eq]

/-- Two stacks are told apart by some uses exactly if their lists are. -/
theorem answers_eq_iff (hs : s.Holds frames) (ht : t.Holds frames') :
    (∀ uses, answers use s uses = answers use t uses) ↔ frames = frames' := by
  constructor
  · intro h
    refine eq_of_answers fun uses => ?_
    have hmapped := h uses
    rw [(holds_after hs uses).1, (holds_after ht uses).1] at hmapped
    exact (List.map_inj_right fun _ _ => Except.ok.inj).mp hmapped
  · rintro rfl uses
    rw [(holds_after hs uses).1, (holds_after ht uses).1]

/-! ## Hashes -/

theorem length_lowFirst (width n : Nat) : (lowFirst width n).length = width := by
  induction width generalizing n with
  | zero => rfl
  | succ width ih => exact congrArg Nat.succ (ih _)

/-- A word can be read back from its two bytes. -/
theorem lowFirst_inj {a b : UInt16} (h : lowFirst 2 a.toNat = lowFirst 2 b.toNat) : a = b := by
  have ha := a.toNat_lt
  have hb := b.toNat_lt
  obtain ⟨hlow, hrest⟩ := List.cons.inj h
  have hhigh := (List.cons.inj hrest).1
  have hlow' := congrArg UInt8.toNat hlow
  have hhigh' := congrArg UInt8.toNat hhigh
  rw [UInt8.toNat_ofNat', UInt8.toNat_ofNat'] at hlow' hhigh'
  apply UInt16.toNat_inj.mp
  omega

/-- The frames can be read back from their bytes. -/
theorem frameBytes_inj (h : (frames.flatMap fun a => lowFirst 2 a.toNat)
    = frames'.flatMap fun a => lowFirst 2 a.toNat) : frames = frames' :=
  flatMap_inj_of_length (by decide : 0 < 2) (fun _ _ => lowFirst_inj) (fun _ _ => length_lowFirst 2 _)
    (fun _ _ => length_lowFirst 2 _) h

theorem hashed?_of_holds (h : s.Holds frames) : s.hashed?
    = .ok [lowFirst 8 frames.length, frames.flatMap fun a => lowFirst 2 a.toNat] := by
  rw [hashed?_eq h.depth_le, h.live]

/-- Hashes are taken of the same bytes exactly if the lists are the same. -/
theorem hashed?_iff (hs : s.Holds frames) (ht : t.Holds frames') :
    (∃ blocks, s.hashed? = .ok blocks ∧ t.hashed? = .ok blocks) ↔ frames = frames' := by
  rw [hashed?_of_holds hs, hashed?_of_holds ht]
  constructor
  · rintro ⟨blocks, hleft, hright⟩
    have hblocks := (Except.ok.inj hleft).trans (Except.ok.inj hright).symm
    exact frameBytes_inj (List.cons.inj (List.cons.inj hblocks).2).1
  · rintro rfl
    exact ⟨_, rfl, rfl⟩

end Holding

/-! ## The stack and the list -/

/-- **A call stack is a list of at most sixteen addresses.**  Take any pushes, pops and clears of an empty
stack, and the same ones of an empty list.
  * Both answer alike, without a crash; the live frames are the list, the oldest first, and their number
    and emptiness are those of the list.
  * A push is refused exactly if there are sixteen addresses, and else appends.  A pop finds nothing and
    leaves the stack alone exactly if there is none, and else takes the last one off.
  * Two such stacks compare equal or not, without a crash.  They do exactly if no further uses tell them
    apart, and exactly if their hashes are taken of the same bytes; and they stay equal under whatever is
    then done to both. -/
theorem stack_as_list (history : List Use) :
    let s := after use empty history
    let frames := after useList [] history
    answers use empty history = (answers useList [] history).map .ok
    ∧ (frames.length ≤ 16 ∧ s.live? = .ok frames ∧ s.depth = frames.length
      ∧ s.isEmpty = frames.isEmpty)
    ∧ (∀ address, if frames.length = 16 then s.push address = none
        else ∃ t, s.push address = some t ∧ t.live? = .ok (frames ++ [address]))
    ∧ (match frames.getLast? with
        | some address => ∃ t, s.pop = (.ok (some address), t) ∧ t.live? = .ok frames.dropLast
        | none => s.pop = (.ok none, s))
    ∧ ∀ history',
      let t := after use empty history'
      (∃ equal, s.same? t = .ok equal)
      ∧ (s.same? t = .ok true ↔ ∀ uses, answers use s uses = answers use t uses)
      ∧ (s.same? t = .ok true ↔ ∃ blocks, s.hashed? = .ok blocks ∧ t.hashed? = .ok blocks)
      ∧ (s.same? t = .ok true → ∀ uses,
        (after use s uses).same? (after use t uses) = .ok true
        ∧ ∃ blocks, (after use s uses).hashed? = .ok blocks
          ∧ (after use t uses).hashed? = .ok blocks) := by
  intro s frames
  obtain ⟨hanswers, hs⟩ := holds_after holds_empty history
  refine ⟨hanswers, ⟨hs.room, hs.live?_eq, hs.depth, hs.isEmpty_eq⟩, fun address => ?_, ?_,
    fun history' => ?_⟩
  · have hpush := push_of_holds hs address
    show if frames.length = stackDepth then _ else _
    split at hpush
    next hfull => rwa [if_pos hfull]
    next hspace =>
      obtain ⟨t, ht, hholds⟩ := hpush
      rw [if_neg hspace]
      exact ⟨t, ht, hholds.live?_eq⟩
  · have hpop := pop_of_holds hs
    split at hpop
    next address hlast =>
      obtain ⟨t, ht, hholds⟩ := hpop
      simp only [frames, hlast]
      exact ⟨t, ht, hholds.live?_eq⟩
    next hnone =>
      simp only [frames, hnone]
      exact hpop
  · intro t
    have ht := (holds_after holds_empty history').2
    refine ⟨⟨_, same?_of_holds hs ht⟩, ?_, ?_, fun hsame uses => ?_⟩
    · rw [same?_iff hs ht, answers_eq_iff hs ht]
    · rw [same?_iff hs ht, hashed?_iff hs ht]
    · have hlists := (same?_iff hs ht).mp hsame
      have hs' := (holds_after hs uses).2
      have ht' := (holds_after ht uses).2
      rw [← hlists] at ht'
      exact ⟨(same?_iff hs' ht').mpr rfl, (hashed?_iff hs' ht').mpr rfl⟩

/-- Two frames were popped from a stack and are still there, while another never had any. -/
theorem stack_as_list_dead_frames :
    let s := after use empty [.push 0x300, .push 0x302, .pop, .pop]
    let t := after use empty []
    s ≠ t ∧ s.same? t = .ok true ∧ (∀ uses, answers use s uses = answers use t uses)
    ∧ (after use s [.push 0x304]).same? (after use t [.push 0x304]) = .ok true := by
  dsimp only
  obtain ⟨-, -, -, -, hequal⟩ := stack_as_list [.push 0x300, .push 0x302, .pop, .pop]
  obtain ⟨-, htold, -, hstays⟩ := hequal []
  have hsame : (after use empty [.push 0x300, .push 0x302, .pop, .pop]).same? (after use empty [])
      = .ok true := rfl
  exact ⟨by decide, hsame, htold.mp hsame, (hstays hsame [.push 0x304]).1⟩

/-! ## Examples -/

example : answers use empty (List.replicate 17 (.push 0x200) ++ [.pop, .clear, .pop])
    = List.replicate 16 (.ok .pushed) ++ [.ok .full, .ok (.popped 0x200), .ok .cleared, .ok .empty] :=
  rfl

end Chip8.CallStack
