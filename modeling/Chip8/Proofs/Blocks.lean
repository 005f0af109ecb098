/-
  Blocks.

  What is written as one block after another can be cut into its blocks again if one knows where the first
  of them ends.  So if a block tells what it stands for, the whole tells the list (`flatMap_inj_of_cut`).
  There are two ways to know where a block ends.
    * All of them are equally long (`flatMap_inj_of_length`).  The lines of a picture are such blocks, and
      the bytes of addresses are.
    * A block is made of one kind of thing, and something of another kind comes behind it
      (`append_inj_of_head`).  A numeral is such a block, and the bytes in a line of a dump are.
-/

namespace Chip8

/-! ## From the front -/

section Cut

variable {α β : Type} {write : α → List β} {items items' : List α}

/-- **Blocks can be read back** if the first of them can always be told from what is written behind it. -/
theorem flatMap_inj_of_cut (hitems : ∀ a ∈ items, write a ≠ []) (hitems' : ∀ a ∈ items', write a ≠ [])
    (hcut : ∀ a ∈ items, ∀ b ∈ items', ∀ others others' : List α,
      write a ++ others.flatMap write = write b ++ others'.flatMap write →
      a = b ∧ others.flatMap write = others'.flatMap write)
    (h : items.flatMap write = items'.flatMap write) : items = items' := by
  induction items generalizing items' with
  | nil =>
    cases items' with
    | nil => rfl
    | cons b items' =>
      rw [List.flatMap_cons] at h
      exact absurd (List.append_eq_nil_iff.mp h.symm).1 (hitems' b (List.mem_cons_self ..))
  | cons a items ih =>
    cases items' with
    | nil =>
      rw [List.flatMap_cons] at h
      exact absurd (List.append_eq_nil_iff.mp h).1 (hitems a (List.mem_cons_self ..))
    | cons b items' =>
      rw [List.flatMap_cons, List.flatMap_cons] at h
      obtain ⟨rfl, hrest⟩ := hcut a (List.mem_cons_self ..) b (List.mem_cons_self ..) items items' h
      obtain ⟨-, hothers⟩ := List.forall_mem_cons.mp hitems
      obtain ⟨-, hothers'⟩ := List.forall_mem_cons.mp hitems'
      rw [ih hothers hothers' (fun c hc d hd =>
        hcut c (List.mem_cons_of_mem _ hc) d (List.mem_cons_of_mem _ hd)) hrest]

/-- Blocks of one length can be read back if each of them can. -/
theorem flatMap_inj_of_length {n : Nat} (hn : 0 < n) (hwrite : ∀ a b, write a = write b → a = b)
    (hitems : ∀ a ∈ items, (write a).length = n) (hitems' : ∀ a ∈ items', (write a).length = n)
    (h : items.flatMap write = items'.flatMap write) : items = items' := by
  have hne : ∀ a, (write a).length = n → write a ≠ [] := by
    rintro a ha hnil
    rw [hnil] at ha
    exact Nat.ne_of_lt hn ha
  refine flatMap_inj_of_cut (fun a ha => hne a (hitems a ha)) (fun b hb => hne b (hitems' b hb))
    (fun a ha b hb others others' hcut => ?_) h
  obtain ⟨hblock, hrest⟩ := List.append_inj hcut ((hitems a ha).trans (hitems' b hb).symm)
  exact ⟨hwrite a b hblock, hrest⟩

end Cut

/-! ## Of one kind -/

section Kind

variable {β : Type} {p : β → Bool} {u v rest rest' : List β}

/-- What is of one kind in front of something else. -/
theorem takeWhile_append_of_head (hu : ∀ c ∈ u, p c) (hrest : ∀ c ∈ rest.head?, ¬ p c) :
    (u ++ rest).takeWhile p = u := by
  have hnone : rest.takeWhile p = [] := by
    cases rest with
    | nil => rfl
    | cons c rest => exact List.takeWhile_cons_of_neg (hrest c rfl)
  rw [List.takeWhile_append_of_pos hu, hnone, List.append_nil]

/-- **A block of one kind ends where something else begins**, so what is written behind it is equal, and the
block is. -/
theorem append_inj_of_head (hu : ∀ c ∈ u, p c) (hv : ∀ c ∈ v, p c)
    (hrest : ∀ c ∈ rest.head?, ¬ p c) (hrest' : ∀ c ∈ rest'.head?, ¬ p c)
    (h : u ++ rest = v ++ rest') : u = v ∧ rest = rest' := by
  have huv : u = v := by
    rw [← takeWhile_append_of_head hu hrest, h, takeWhile_append_of_head hv hrest']
  exact ⟨huv, List.append_cancel_left (huv ▸ h)⟩

end Kind

end Chip8
