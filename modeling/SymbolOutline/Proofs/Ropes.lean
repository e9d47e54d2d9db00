import SymbolOutline.Proofs.Lines
import SymbolOutline.Text.Buffer

/-
What is known of ropes (`LawfulRope`). A rope holds a text, takes characters out of it and puts others in.
The text ends in a line wherever Unicode knows a break, so there is one way to cut it into lines
(`Cut.eq_splitBreaks`), and a rope counts the pieces of that cut, finds each by its number and lists them.
From these laws an edit replaces what stands between its offsets, as far as there is anything
(`toList_text_replace`), and the lines are the pieces without their ends (`has_textLines`). Lists of
characters keep the laws.
-/

namespace SymbolOutline

namespace Text

/-! ## Texts cut behind every break -/

/-- No character of a text is a break of its own. -/
def Unbroken (isBreak : List Char → Prop) (cs : List Char) : Prop := ∀ c ∈ cs, ¬ isBreak [c]

/-- A text cut into pieces behind every break, and not within one. The last piece is what follows the last
break. -/
inductive Cut (isBreak : List Char → Prop) : List Char → List (List Char) → Prop
  | last {body : List Char} (hbody : Unbroken isBreak body) : Cut isBreak body [body]
  | piece {body brk rest : List Char} {pieces : List (List Char)} (hbody : Unbroken isBreak body)
    (hbrk : isBreak brk) (hwhole : ∀ c, rest.head? = some c → ¬ isBreak (brk ++ [c]))
    (hrest : Cut isBreak rest pieces) : Cut isBreak (body ++ (brk ++ rest)) ((body ++ brk) :: pieces)

/-- The breaks that Unicode knows. A carriage return and a line feed behind it are one break. -/
def IsUnicodeBreak (brk : List Char) : Prop :=
  brk = ['\r', '\n'] ∨ ∃ c, brk = [c] ∧ isLineBreak c = true

variable {isBreak : List Char → Prop} {c : Char} {cs body piece : List Char} {pieces : List (List Char)}

theorem Unbroken.nil : Unbroken isBreak [] := fun _ h => by cases h

theorem unbroken_cons : Unbroken isBreak (c :: cs) ↔ ¬ isBreak [c] ∧ Unbroken isBreak cs :=
  List.forall_mem_cons

/-- A break at the start of a text is a piece. -/
theorem Cut.break_append {brk : List Char} (h : Cut isBreak cs pieces) (hbrk : isBreak brk)
    (hwhole : ∀ c, cs.head? = some c → ¬ isBreak (brk ++ [c])) :
    Cut isBreak (brk ++ cs) (brk :: pieces) :=
  .piece .nil hbrk hwhole h

/-- A character that is no break becomes the first one of the first piece. -/
theorem Cut.cons (hc : ¬ isBreak [c]) (h : Cut isBreak cs (piece :: pieces)) :
    Cut isBreak (c :: cs) ((c :: piece) :: pieces) := by
  cases h with
  | last hbody => exact .last (unbroken_cons.2 ⟨hc, hbody⟩)
  | piece hbody hbrk hwhole hrest => exact .piece (unbroken_cons.2 ⟨hc, hbody⟩) hbrk hwhole hrest

theorem isUnicodeBreak_singleton : IsUnicodeBreak [c] ↔ isLineBreak c = true := by
  simp [IsUnicodeBreak]

theorem isUnicodeBreak_pair {d : Char} : IsUnicodeBreak [c, d] ↔ c = '\r' ∧ d = '\n' := by
  simp [IsUnicodeBreak]

/-- A text is cut behind every break. -/
theorem cut_splitBreaks (cs : List Char) : Cut IsUnicodeBreak cs (splitBreaks cs) := by
  fun_induction splitBreaks cs with
  | case1 => exact .last .nil
  | case2 cs ih => exact ih.break_append (.inl rfl) fun c _ => by simp [IsUnicodeBreak]
  | case3 c cs hpair hbreak ih =>
    refine ih.break_append (isUnicodeBreak_singleton.2 hbreak) fun d hd hcut => ?_
    obtain ⟨hc, rfl⟩ := isUnicodeBreak_pair.1 hcut
    obtain ⟨cs', rfl⟩ := List.head?_eq_some_iff.1 hd
    exact hpair cs' hc rfl
  | case4 c cs hpair hbreak hnil ih =>
    rw [hnil] at ih
    cases ih
  | case5 c cs hpair hbreak piece pieces hpieces ih =>
    rw [hpieces] at ih
    exact ih.cons fun h => hbreak (isUnicodeBreak_singleton.1 h)

theorem splitBreaks_cons (hc : isLineBreak c = false) (h : splitBreaks cs = piece :: pieces) :
    splitBreaks (c :: cs) = (c :: piece) :: pieces := by
  rw [splitBreaks, hc, h]
  · rfl
  · rintro cs' rfl
    cases hc

theorem splitBreaks_break (hc : isLineBreak c = true) (hwhole : c = '\r' → cs.head? ≠ some '\n') :
    splitBreaks (c :: cs) = [c] :: splitBreaks cs := by
  rw [splitBreaks, hc]
  · rfl
  · rintro cs' rfl rfl
    exact hwhole rfl rfl

/-- What is not broken becomes the start of the first piece. -/
theorem splitBreaks_append (hbody : Unbroken IsUnicodeBreak body) (h : splitBreaks cs = piece :: pieces) :
    splitBreaks (body ++ cs) = (body ++ piece) :: pieces := by
  induction body with
  | nil => exact h
  | cons c body ih =>
    obtain ⟨hc, hbody⟩ := unbroken_cons.1 hbody
    refine splitBreaks_cons ?_ (ih hbody)
    simpa [isUnicodeBreak_singleton] using hc

/-- There is no other way to cut a text. -/
theorem Cut.eq_splitBreaks (h : Cut IsUnicodeBreak cs pieces) : pieces = splitBreaks cs := by
  induction h with
  | @last body hbody =>
    have := splitBreaks_append hbody (show splitBreaks [] = [[]] from rfl)
    rw [List.append_nil] at this
    exact this.symm
  | @piece body brk rest pieces hbody hbrk hwhole hrest ih =>
    rw [ih]
    refine (splitBreaks_append hbody ?_).symm
    rcases hbrk with rfl | ⟨c, rfl, hc⟩
    · rfl
    · exact splitBreaks_break hc fun hr hn => hwhole '\n' hn (isUnicodeBreak_pair.2 ⟨hr, rfl⟩)

/-- A piece of a text, without the line feed and then the carriage return at its end. -/
def lineOf (piece : List Char) : String := String.ofList (dropEnd '\r' (dropEnd '\n' piece))

/-- Another text in place of the characters from `start` to `stop`. Offsets beyond the end mean the end,
and a `stop` before `start` means `start`. -/
def splice (cs : List Char) (start stop : Nat) (new : List Char) : List Char :=
  cs.take start ++ (new ++ cs.drop (max start stop))

end Text

open Text

/-! ## The laws of ropes -/

/-- What holds of a rope: characters are taken out and put in where the offsets say, and the lines are the
pieces that the text is cut into. -/
class LawfulRope (R : Type) [Rope R] : Prop where
  text_ofString (s : String) : Rope.text (Rope.ofString s : R) = s
  length_eq (r : R) : Rope.length r = (Rope.text r).toList.length
  text_remove (r : R) {start stop : Nat} (hle : start ≤ stop) (hstop : stop ≤ Rope.length r) :
    (Rope.text (Rope.remove r start stop)).toList =
      (Rope.text r).toList.take start ++ (Rope.text r).toList.drop stop
  text_insert (r : R) {offset : Nat} (hoffset : offset ≤ Rope.length r) (new : String) :
    (Rope.text (Rope.insert r offset new)).toList =
      (Rope.text r).toList.take offset ++ (new.toList ++ (Rope.text r).toList.drop offset)
  lineCount_eq (r : R) {pieces : List (List Char)} (h : Cut IsUnicodeBreak (Rope.text r).toList pieces) :
    Rope.lineCount r = pieces.length
  line_eq (r : R) {pieces : List (List Char)} (h : Cut IsUnicodeBreak (Rope.text r).toList pieces)
    {n : Nat} {piece : List Char} (hpiece : pieces[n]? = some piece) :
    Rope.line r n = String.ofList piece
  lines_eq (r : R) {pieces : List (List Char)} (h : Cut IsUnicodeBreak (Rope.text r).toList pieces) :
    Rope.lines r = pieces.map String.ofList

namespace Rope

variable {R : Type} [Rope R] [LawfulRope R]

/-- Characters are taken out, if there are any between the offsets. -/
theorem toList_text_remove (r : R) {start stop : Nat} (hle : start ≤ stop) (hstop : stop ≤ length r) :
    (text (if start < stop then remove r start stop else r)).toList =
      (text r).toList.take start ++ (text r).toList.drop stop := by
  split
  · exact LawfulRope.text_remove r hle hstop
  · next h => rw [Nat.le_antisymm hle (Nat.le_of_not_lt h), List.take_append_drop]

/-- A text is put in, if it says anything. -/
theorem toList_text_insert (r : R) {offset : Nat} (hoffset : offset ≤ length r) (new : String) :
    (text (if new = "" then r else insert r offset new)).toList =
      (text r).toList.take offset ++ (new.toList ++ (text r).toList.drop offset) := by
  split
  · next h =>
    subst h
    exact (List.take_append_drop offset _).symm
  · exact LawfulRope.text_insert r hoffset new

/-- An edit replaces what stands between its offsets. -/
theorem toList_text_replace (r : R) (start stop : Nat) (new : String) :
    (text (replace r start stop new)).toList = splice (text r).toList start stop new.toList := by
  unfold replace splice
  simp only
  -- the offsets, as far as there are characters
  generalize hfirst : min start (length r) = first
  generalize hlast : max first (min stop (length r)) = last
  have hle : first ≤ last ∧ last ≤ length r := by omega
  have hlength := LawfulRope.length_eq r
  have hfront : (text r).toList.take start = (text r).toList.take first :=
    List.take_eq_take_iff.2 (by omega)
  have hback : (text r).toList.drop (max start stop) = (text r).toList.drop last :=
    List.drop_eq_drop_iff.2 (by omega)
  have hrest := toList_text_remove r hle.1 hle.2
  rw [hfront, hback]
  generalize (if first < last then remove r first last else r) = rest at *
  have hcut : ((text r).toList.take first).length = first := by
    rw [List.length_take]
    omega
  have hroom : first ≤ length rest := by
    rw [LawfulRope.length_eq, hrest, List.length_append]
    omega
  rw [toList_text_insert rest hroom, hrest, List.take_left' hcut, List.drop_left' hcut]

/-- Edits are carried out one after the other. -/
theorem toList_text_foldl (r : R) (edits : List (Nat × Nat × String)) :
    (text (edits.foldl (fun r e => replace r e.1 e.2.1 e.2.2) r)).toList =
      edits.foldl (fun cs e => splice cs e.1 e.2.1 e.2.2.toList) (text r).toList := by
  induction edits generalizing r with
  | nil => rfl
  | cons e edits ih =>
    rw [List.foldl_cons, List.foldl_cons, ih, toList_text_replace]

/-- The lines of a rope are the pieces of its text, without their ends. -/
theorem has_textLines (r : R) {pieces : List (List Char)}
    (h : Cut IsUnicodeBreak (text r).toList pieces) : (textLines r).Has (pieces.map lineOf) where
  count := (LawfulRope.lineCount_eq r h).trans (List.length_map _).symm
  line? n := by
    show (if lineCount r ≤ n then none else _) = _
    rw [LawfulRope.lineCount_eq r h, List.getElem?_map]
    split
    · next hn => rw [List.getElem?_eq_none hn]; rfl
    · next hn =>
      have hpiece := List.getElem?_eq_getElem (Nat.lt_of_not_le hn)
      rw [hpiece, LawfulRope.line_eq r h hpiece, String.toList_ofList]
      rfl
  visits := by
    show (numbered (lines r)).map _ = _
    rw [LawfulRope.lines_eq r h, numbered_map, numbered_map, List.map_map]
    refine List.map_congr_left fun v _ => ?_
    simp only [Function.comp, String.toList_ofList, getD_stripEnd?, lineOf]

end Rope

instance : LawfulRope Buffer where
  text_ofString _ := String.ofList_toList
  length_eq b := by simp [Rope.length, Rope.text, Buffer.length, Buffer.text]
  text_remove b _ _ _ _ := by simp [Rope.remove, Rope.text, Buffer.text]
  text_insert b _ _ new := by simp [Rope.insert, Rope.text, Buffer.text]
  lineCount_eq b pieces h := by
    rw [h.eq_splitBreaks]
    simp [Rope.lineCount, Rope.text, Buffer.text]
  line_eq b pieces h n piece hpiece := by
    rw [h.eq_splitBreaks] at hpiece
    have : (splitBreaks b.chars)[n]? = some piece := by simpa [Rope.text, Buffer.text] using hpiece
    simp [Rope.line, this]
  lines_eq b pieces h := by
    rw [h.eq_splitBreaks]
    simp [Rope.lines, Rope.text, Buffer.text]

end SymbolOutline
