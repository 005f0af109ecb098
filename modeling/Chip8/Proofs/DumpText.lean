/-
  The memory dump is unambiguous.

  A dump leaves out the lines that are all zero, its addresses have three digits or more, the gap behind a
  byte depends on its column, and a short last line is not ended.  Still two memories of one length never
  have the same text.
  1. **The lines** (`mem_liveLines_iff`).  A line is printed exactly if one of its bytes is not zero.  It has
     the bytes of memory from its address on, sixteen of them or as many as there are left, and the
     addresses ascend (`liveLines_ascend`).
  2. **Back from the lines** (`ofLines_liveLines`).  A byte whose line is not printed is zero.  So the lines
     and the length tell what the memory is.
  3. **The crux** (`dumpLine_append_inj`).  An entry begins with an escape character, and has no other one
     behind its colon.  So its bytes end before the next entry, or with the text, whether a newline stands
     there or not; and its address ends where it is closed.  Two texts are equal only entry by entry.
-/
import Chip8.Memory.Dump
import Chip8.Proofs.Blocks
import Chip8.Proofs.Numeral

namespace Chip8

/-! ## The digits of a byte -/

namespace Hex

theorem length_byteDigits (b : UInt8) : (byteDigits b).length = 2 := by
  have hdigits : (digits b.toNat).length ≤ 2 :=
    (Nat.length_toDigits_le_iff (by decide) (by decide)).mpr b.toNat_lt
  rw [byteDigits, paddedDigits, List.length_append, List.length_replicate]
  omega

theorem byteDigits_inj {b b' : UInt8} (h : byteDigits b = byteDigits b') : b = b' :=
  UInt8.toNat_inj.mp (inj_of_readDigits (readDigits_paddedDigits 2) h)

/-- The digits of bytes tell the bytes. -/
theorem flatMap_byteDigits_inj {bytes bytes' : List UInt8}
    (h : bytes.flatMap byteDigits = bytes'.flatMap byteDigits) : bytes = bytes' :=
  flatMap_inj_of_length (by decide) (fun _ _ => byteDigits_inj) (fun b _ => length_byteDigits b)
    (fun b _ => length_byteDigits b) h

end Hex

namespace Memory

/-! ## The lines -/

/-- A line of sixteen bytes of a memory that holds something; the last line of the memory may be shorter. -/
structure LiveLine (m : Memory) (line : Nat × List UInt8) : Prop where
  aligned : 16 ∣ line.1
  inside : line.1 < m.length
  bytes : ∀ k, line.2[k]? = if k < 16 then m.bytes[line.1 + k]? else none
  live : ∃ b ∈ line.2, b ≠ 0

theorem getElem?_lineAt (m : Memory) (a k : Nat) :
    (m.bytes.extract a (a + 16)).toList[k]? = if k < 16 then m.bytes[a + k]? else none := by
  rw [Array.getElem?_toList, Array.getElem?_extract]
  by_cases hin : a + k < m.bytes.size
  · by_cases hk : k < 16
    · rw [if_pos (by omega), if_pos hk]
    · rw [if_neg (by omega), if_neg hk]
  · rw [Array.getElem?_eq_none (Nat.le_of_not_lt hin), if_neg (by omega), ite_self]

/-- A line has sixteen bytes, or as many as are left. -/
theorem LiveLine.length_eq {m : Memory} {line : Nat × List UInt8} (h : m.LiveLine line) :
    line.2.length = min 16 (m.length - line.1) := by
  have hbytes : line.2 = (m.bytes.extract line.1 (line.1 + 16)).toList :=
    List.ext_getElem? fun k => (h.bytes k).trans (m.getElem?_lineAt line.1 k).symm
  rw [hbytes, Array.length_toList, Array.size_extract]
  show min (line.1 + 16) m.length - line.1 = _
  omega

/-- **The lines that are printed are those that hold something.** -/
theorem mem_liveLines_iff {m : Memory} {line : Nat × List UInt8} :
    line ∈ m.liveLines ↔ m.LiveLine line := by
  rw [liveLines, List.mem_filter, lines, List.mem_map, List.any_eq_true]
  constructor
  · rintro ⟨⟨k, hk, rfl⟩, b, hb, hlive⟩
    have hlast := List.mem_range.mp hk
    exact ⟨Nat.dvd_mul_right 16 k, by show 16 * k < m.length; omega, m.getElem?_lineAt (16 * k),
      b, hb, bne_iff_ne.mp hlive⟩
  · rintro ⟨⟨k, hk⟩, hinside, hbytes, b, hb, hlive⟩
    refine ⟨⟨k, List.mem_range.mpr (by omega), Prod.ext hk.symm ?_⟩, b, hb, bne_iff_ne.mpr hlive⟩
    rw [← hk]
    exact List.ext_getElem? fun j => (m.getElem?_lineAt line.1 j).trans (hbytes j).symm

/-- Their addresses ascend. -/
theorem liveLines_ascend (m : Memory) : m.liveLines.Pairwise fun line line' => line.1 < line'.1 := by
  refine List.Pairwise.filter _ (List.pairwise_map.mpr (List.pairwise_lt_range.imp fun {k k'} hlt => ?_))
  show 16 * k < 16 * k'
  omega

/-! ## Back from the lines -/

/-- The byte that lines hold at an address — zero if none of them is there. -/
def byteIn (lines : List (Nat × List UInt8)) (a : Nat) : UInt8 :=
  match lines.find? fun line => line.1 == 16 * (a / 16) with
  | some line => line.2.getD (a % 16) 0
  | none => 0

/-- The memory of some length that has these lines, and zero in all others. -/
def ofLines (length : Nat) (lines : List (Nat × List UInt8)) : Memory :=
  ⟨Array.ofFn fun a : Fin length => byteIn lines a⟩

/-- A byte stands in its line, or is zero. -/
theorem byteIn_liveLines {m : Memory} {a : Nat} (ha : a < m.bytes.size) :
    byteIn m.liveLines a = m.bytes[a] := by
  have hplace : 16 * (a / 16) + a % 16 = a := Nat.div_add_mod a 16
  have hcolumn : a % 16 < 16 := Nat.mod_lt a (by decide)
  unfold byteIn
  split
  next line hfind =>
    have hline := mem_liveLines_iff.mp (List.mem_of_find?_eq_some hfind)
    have haddress : line.1 = 16 * (a / 16) := eq_of_beq (List.find?_some hfind :)
    rw [List.getD_eq_getElem?_getD, hline.bytes, if_pos hcolumn, haddress, hplace,
      Array.getElem?_eq_getElem ha, Option.getD_some]
  next hfind =>
    refine Decidable.byContradiction fun hlive => ?_
    let line : Nat × List UInt8 :=
      (16 * (a / 16), (m.bytes.extract (16 * (a / 16)) (16 * (a / 16) + 16)).toList)
    -- The line of a byte that is not zero is printed.
    have hbytes := m.getElem?_lineAt (16 * (a / 16))
    have hbyte : line.2[a % 16]? = some m.bytes[a] := by
      rw [hbytes, if_pos hcolumn, hplace, Array.getElem?_eq_getElem ha]
    have hline : line ∈ m.liveLines := by
      refine mem_liveLines_iff.mpr ⟨Nat.dvd_mul_right 16 _, ?_, hbytes, m.bytes[a],
        List.mem_of_getElem? hbyte, fun hzero => hlive hzero.symm⟩
      show 16 * (a / 16) < m.bytes.size
      omega
    exact List.find?_eq_none.mp hfind line hline (beq_self_eq_true _)

/-- **A memory is what its lines and its length say.** -/
theorem ofLines_liveLines (m : Memory) : ofLines m.length m.liveLines = m := by
  refine congrArg mk (Array.ext Array.size_ofFn fun a _ ha => ?_)
  rw [Array.getElem_ofFn]
  exact byteIn_liveLines ha

/-! ## The text of a line -/

theorem mem_gap {column : Nat} {c : Char} (h : c ∈ gap column) : c = '\n' ∨ c = ' ' := by
  unfold gap at h
  split at h
  · exact .inl (List.mem_singleton.mp h)
  · split at h
    · exact .inr (List.eq_of_mem_replicate (n := 2) h)
    · split at h
      · exact .inr (List.mem_singleton.mp h)
      · cases h

/-- Bytes with something between them that is no digit. -/
theorem filter_isDigit_flatten {between : Nat → List Char}
    (h : ∀ column, ∀ c ∈ between column, ¬ Hex.isDigit c) (bytes : List UInt8) :
    (bytes.mapIdx fun column b => Hex.byteDigits b ++ between column).flatten.filter Hex.isDigit
      = bytes.flatMap Hex.byteDigits := by
  induction bytes generalizing between with
  | nil => rfl
  | cons b bytes ih =>
    have hdigits : (Hex.byteDigits b).filter Hex.isDigit = Hex.byteDigits b :=
      List.filter_eq_self.mpr fun c hc => Hex.isDigit_of_mem_paddedDigits hc
    have hnone : (between 0).filter Hex.isDigit = [] := List.filter_eq_nil_iff.mpr (h 0)
    rw [List.mapIdx_cons, List.flatten_cons, List.filter_append, List.filter_append, hdigits, hnone,
      List.append_nil, List.flatMap_cons, ih fun column => h (column + 1)]

/-- The digits in a line are those of its bytes. -/
theorem filter_isDigit_lineBytes (bytes : List UInt8) :
    (lineBytes bytes).filter Hex.isDigit = bytes.flatMap Hex.byteDigits := by
  refine filter_isDigit_flatten (fun column c hc => ?_) bytes
  rcases mem_gap hc with rfl | rfl <;> decide

theorem lineBytes_inj {bytes bytes' : List UInt8} (h : lineBytes bytes = lineBytes bytes') :
    bytes = bytes' := by
  have hdigits := congrArg (List.filter Hex.isDigit) h
  rw [filter_isDigit_lineBytes, filter_isDigit_lineBytes] at hdigits
  exact Hex.flatMap_byteDigits_inj hdigits

/-- Behind the colon of a line stand digits, blanks and newlines. -/
theorem mem_lineBytes {bytes : List UInt8} {c : Char} (h : c ∈ lineBytes bytes) :
    Hex.isDigit c ∨ c = '\n' ∨ c = ' ' := by
  obtain ⟨piece, hpiece, hc⟩ := List.mem_flatten.mp h
  obtain ⟨column, _, rfl⟩ := List.mem_mapIdx.mp hpiece
  rcases List.mem_append.mp hc with hdigit | hgap
  · exact .inl (Hex.isDigit_of_mem_paddedDigits hdigit)
  · exact .inr (mem_gap hgap)

theorem ne_escape_of_mem_lineBytes {bytes : List UInt8} {c : Char} (h : c ∈ lineBytes bytes) :
    (c != '\x1b') = true := by
  rw [bne_iff_ne]
  rintro rfl
  rcases mem_lineBytes h with hdigit | heq | heq
  · revert hdigit
    decide
  · revert heq
    decide
  · revert heq
    decide

/-- What stands between the address of a line and its bytes. -/
def colon : String := Style.boldGreen.closing ++ Style.boldGreen.paint ":" ++ " "

theorem toList_dumpLine (line : Nat × List UInt8) : (dumpLine line).toList
    = Style.boldGreen.opening.toList
      ++ (Hex.paddedDigits 3 line.1 ++ (colon.toList ++ lineBytes line.2)) := by
  simp only [dumpLine, colon, Style.paint, String.toList_append, Hex.toList_padded,
    String.toList_ofList, List.append_assoc]

/-! ## Entry by entry -/

/-- The text of some lines. -/
def entries (lines : List (Nat × List UInt8)) : List Char :=
  lines.flatMap fun line => (dumpLine line).toList

theorem toList_dump (m : Memory) : m.dump.toList = entries m.liveLines := by
  rw [dump, String.toList_join, List.flatMap_map]
  rfl

/-- Every entry begins with an escape character. -/
theorem escape_of_head_entries {lines : List (Nat × List UInt8)} :
    ∀ c ∈ (entries lines).head?, ¬ (c != '\x1b') = true := by
  cases lines with
  | nil => exact fun c hc => nomatch hc
  | cons line lines =>
    intro c hc
    rw [entries, List.flatMap_cons, toList_dumpLine] at hc
    obtain rfl : '\x1b' = c := Option.some.inj hc
    decide

/-- **An entry ends before the next one, or with the text.** -/
theorem dumpLine_append_inj {line line' : Nat × List UInt8} {rest rest' : List Char}
    (hrest : ∀ c ∈ rest.head?, ¬ (c != '\x1b') = true)
    (hrest' : ∀ c ∈ rest'.head?, ¬ (c != '\x1b') = true)
    (h : (dumpLine line).toList ++ rest = (dumpLine line').toList ++ rest') :
    line = line' ∧ rest = rest' := by
  rw [toList_dumpLine, toList_dumpLine] at h
  simp only [List.append_assoc] at h
  have hcolon : ∀ {others : List Char}, ∀ c ∈ (colon.toList ++ others).head?, ¬ Hex.isDigit c := by
    intro others c hc
    obtain rfl : '\x1b' = c := Option.some.inj hc
    decide
  obtain ⟨haddress, hbehind⟩ := Hex.append_inj_of_digits
    (fun _ => Hex.isDigit_of_mem_paddedDigits) (fun _ => Hex.isDigit_of_mem_paddedDigits)
    hcolon hcolon (List.append_cancel_left h)
  obtain ⟨hbytes, hothers⟩ := append_inj_of_head (fun _ => ne_escape_of_mem_lineBytes)
    (fun _ => ne_escape_of_mem_lineBytes) hrest hrest' (List.append_cancel_left hbehind)
  exact ⟨Prod.ext (Hex.inj_of_readDigits (Hex.readDigits_paddedDigits 3) haddress)
    (lineBytes_inj hbytes), hothers⟩

/-- So a text tells its lines. -/
theorem entries_inj {lines lines' : List (Nat × List UInt8)} (h : entries lines = entries lines') :
    lines = lines' := by
  have hne : ∀ line, (dumpLine line).toList ≠ [] := by
    intro line hnil
    rw [toList_dumpLine] at hnil
    cases hnil
  exact flatMap_inj_of_cut (fun line _ => hne line) (fun line _ => hne line)
    (fun _ _ _ _ _ _ => dumpLine_append_inj escape_of_head_entries escape_of_head_entries) h

/-- **The memory dump is unambiguous.**  Take any memory, of whatever length.
  * Its dump has one entry for each line of sixteen bytes, or fewer if it is the last, in which some byte is
    not zero, and no other.  The entries stand in the order of their addresses.
  * An entry gives the address of its line in bold green, in three digits at least, a colon, and then the
    two digits of each of its bytes in order, with nothing between them but blanks and a newline.
  * The lines that are printed and the length tell the memory.
  * So another memory of the same length has the same text only if it is the same memory. -/
theorem dump_unambiguous (m : Memory) :
    m.dump = String.join (m.liveLines.map dumpLine)
    ∧ (∀ line, line ∈ m.liveLines ↔ m.LiveLine line)
    ∧ m.liveLines.Pairwise (fun line line' => line.1 < line'.1)
    ∧ (∀ line ∈ m.liveLines, line.2.length = min 16 (m.length - line.1)
      ∧ dumpLine line = "\x1b[32;1m" ++ Hex.padded 3 line.1 ++ "\x1b[0m" ++ "\x1b[32;1m:\x1b[0m" ++ " "
        ++ String.ofList (lineBytes line.2)
      ∧ (lineBytes line.2).filter Hex.isDigit = line.2.flatMap Hex.byteDigits
      ∧ ∀ c ∈ lineBytes line.2, Hex.isDigit c ∨ c = '\n' ∨ c = ' ')
    ∧ ofLines m.length m.liveLines = m
    ∧ ∀ n : Memory, n.length = m.length → (n.dump = m.dump ↔ n = m) := by
  refine ⟨rfl, fun line => mem_liveLines_iff, m.liveLines_ascend, fun line hline => ?_,
    m.ofLines_liveLines, fun n hlength => ⟨fun htext => ?_, congrArg dump⟩⟩
  · have hcolon : Style.boldGreen.paint ":" = "\x1b[32;1m:\x1b[0m" := by decide
    refine ⟨(mem_liveLines_iff.mp hline).length_eq, ?_, filter_isDigit_lineBytes line.2,
      fun c hc => mem_lineBytes hc⟩
    rw [dumpLine, hcolon]
    rfl
  · have hentries := congrArg String.toList htext
    rw [toList_dump, toList_dump] at hentries
    rw [← n.ofLines_liveLines, ← m.ofLines_liveLines, hlength, entries_inj hentries]

/-- Seventeen bytes, of which only the last is not zero: the first line is not printed, the second is not
ended.  Another last byte has another text, but the length cannot be told from the text. -/
theorem dump_unambiguous_short_line :
    let m : Memory := ⟨#[0, 0, 0, 0, 0, 0, 0, 0, 0, 0, 0, 0, 0, 0, 0, 0, 7]⟩
    let n : Memory := ⟨#[0, 0, 0, 0, 0, 0, 0, 0, 0, 0, 0, 0, 0, 0, 0, 0, 8]⟩
    m.liveLines = [(0x010, [7])] ∧ m.dump = "\x1b[32;1m010\x1b[0m\x1b[32;1m:\x1b[0m 07"
    ∧ n.length = m.length ∧ n.dump ≠ m.dump
    ∧ (⟨#[0, 0]⟩ : Memory).dump = (⟨#[0]⟩ : Memory).dump := by
  intro m n
  have hlength : n.length = m.length := rfl
  have hother : n ≠ m := by decide
  obtain ⟨-, -, -, -, -, hsame⟩ := dump_unambiguous m
  exact ⟨by decide, by decide, hlength, fun htext => hother ((hsame n hlength).mp htext), by decide⟩

end Memory

end Chip8
