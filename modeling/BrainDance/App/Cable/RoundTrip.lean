import BrainDance.App.Cable.Document

/-!
Owns when a document survives saving and loading. The file holds the rows that
are not empty, and loading stacks them from the top; they are the document's
rows exactly when no empty row has text below it.
-/

namespace BrainDance.App.Cable

open BrainDance.Foundation
open BrainDance.Libc

/-! ### The property and the condition -/

/-- 24 rows of at most 79 characters without a newline, and zero bytes behind. -/
def IsDocument (buffer : Image) : Prop :=
  ∀ y < editorRows, ∃ row : CString, strlen row ≤ 79 ∧ lineFeed ∉ row.bytes ∧
    ∀ col < editorCols, buffer (y * editorCols + col) = row.image col

/-- The loop of `editor_init` makes the document of the bytes that
`editor_save_file` assembles. -/
def RoundTrips (stack buffer : Image) : Prop :=
  ∃ saved, assembleFile stack buffer = some saved ∧ ∀ offset < editorRows * editorCols,
    (loadFile (slice saved.bytes 0 saved.len) ⟨fun _ => 0, 0, 0⟩).buffer offset = buffer offset

/-- No empty row has text below it. -/
def NoGap (buffer : Image) : Prop :=
  ∀ y z, y < z → z < editorRows → buffer (z * editorCols) ≠ 0 → buffer (y * editorCols) ≠ 0

/-! ### The rows of a document -/

section Rows

variable {buffer : Image}

theorem IsDocument.rowString (document : IsDocument buffer) {y : Nat} (inDocument : y < editorRows) :
    rowString buffer y = some (rowOf buffer y) ∧ strlen (rowOf buffer y) ≤ 79 ∧
      lineFeed ∉ (rowOf buffer y).bytes ∧
        ∀ col < editorCols, buffer (y * editorCols + col) = (rowOf buffer y).image col := by
  obtain ⟨row, short, noFeed, shows⟩ := document y inDocument
  have width : editorCols = 80 := rfl
  have rows : editorRows = 24 := rfl
  have found : Cable.rowString buffer y = some row := by
    refine scanString_of_shown (fun offset inString => ?_) ?_
    · rw [strlen] at short
      exact shows offset (by omega)
    · rw [strlen] at short
      rw [width, rows]
      omega
  rw [rowOf_of_some found]
  exact ⟨found, short, noFeed, shows⟩

theorem IsDocument.rowsTerminated (document : IsDocument buffer) : RowsTerminated buffer :=
  fun _ inDocument => ⟨_, (document.rowString inDocument).1, (document.rowString inDocument).2.1⟩

theorem IsDocument.row_eq_nil_iff (document : IsDocument buffer) {y : Nat}
    (inDocument : y < editorRows) :
    (rowOf buffer y).bytes = [] ↔ buffer (y * editorCols) = 0 := by
  have first := (document.rowString inDocument).2.2.2 0 (by decide)
  rw [Nat.add_zero] at first
  rw [first]
  constructor
  · intro empty
    rw [CString.image, empty]
    rfl
  · intro zero
    by_contra nonempty
    exact (rowOf buffer y).image_ne_zero (List.length_pos_iff.mpr nonempty) zero

/-! ### The rows of the file -/

/-- The rows among the first `count` that are not empty. -/
def textRows (buffer : Image) : Nat → List CString
  | 0 => []
  | count + 1 =>
      if (rowOf buffer count).bytes = [] then textRows buffer count
      else textRows buffer count ++ [rowOf buffer count]

theorem textRows_length (buffer : Image) (count : Nat) :
    (textRows buffer count).length ≤ count := by
  induction count with
  | zero => exact Nat.le_refl 0
  | succ count inductionHypothesis =>
      rw [textRows]
      split
      · omega
      · rw [List.length_append, List.length_singleton]
        omega

theorem textRows_nonempty (buffer : Image) (count : Nat) :
    ∀ row ∈ textRows buffer count, row.bytes ≠ [] := by
  induction count with
  | zero => exact fun _ none => absurd none List.not_mem_nil
  | succ count inductionHypothesis =>
      rw [textRows]
      split
      · exact inductionHypothesis
      · rename_i nonempty
        intro row member
        rcases List.mem_append.mp member with earlier | last
        · exact inductionHypothesis row earlier
        · rw [List.mem_singleton.mp last]
          exact nonempty

theorem loadFile_row (document : IsDocument buffer) {y : Nat} (inDocument : y < editorRows)
    {rows : List CString} (above : rows.length < editorRows) :
    loadFile (rowOf buffer y).bytes ⟨layout rows, rows.length, 0⟩ =
      ⟨layout (rows ++ [rowOf buffer y]), rows.length, strlen (rowOf buffer y)⟩ :=
  loadFile_line (document.rowString inDocument).2.1 (document.rowString inDocument).2.2.1 above

/-- Loading the first rows of the file stacks those that are not empty. -/
theorem loadFile_fileBytes (document : IsDocument buffer) {count : Nat}
    (inner : count ≤ editorRows - 1) :
    loadFile (fileBytes buffer count) ⟨fun _ => 0, 0, 0⟩ =
      ⟨layout (textRows buffer count), (textRows buffer count).length, 0⟩ := by
  have rows : editorRows = 24 := rfl
  induction count with
  | zero => rfl
  | succ count inductionHypothesis =>
      have below := textRows_length buffer count
      have above : (textRows buffer count).length < editorRows := by omega
      rw [fileBytes, loadFile_append, inductionHypothesis (by omega), rowBytes, textRows]
      split
      · rfl
      · rw [if_pos (by omega), loadFile_append, loadFile_row document (by omega) above,
          loadFile, if_pos above, loadByte, if_pos rfl, loadFile, List.length_append]
        rfl

theorem loaded_layout (document : IsDocument buffer) :
    (loadFile (fileBytes buffer editorRows) ⟨fun _ => 0, 0, 0⟩).buffer =
      layout (textRows buffer editorRows) := by
  have rows : editorRows = 23 + 1 := rfl
  have below := textRows_length buffer 23
  have above : (textRows buffer 23).length < editorRows := by omega
  have inner := loadFile_fileBytes document (show 23 ≤ editorRows - 1 by decide)
  have last : textRows buffer (23 + 1) =
      if (rowOf buffer 23).bytes = [] then textRows buffer 23
      else textRows buffer 23 ++ [rowOf buffer 23] := rfl
  rw [rows, fileBytes, loadFile_append, inner, rowBytes, last]
  split
  · rfl
  · rw [if_neg (by decide), loadFile_row document (show 23 < editorRows by decide) above]

/-! ### Where the rows end up -/

/-- The file's rows under the numbers they have in the document. -/
def InPlace (buffer : Image) : Prop :=
  ∀ y < editorRows, (textRows buffer editorRows).getD y CString.nil = rowOf buffer y

theorem roundTrips_iff_inPlace (document : IsDocument buffer) (stack : Image) :
    RoundTrips stack buffer ↔ InPlace buffer := by
  have width : editorCols = 80 := rfl
  obtain ⟨saved, assembled, len, shows⟩ := saveRows_has stack document.rowsTerminated.rowsEnd
    (document.rowsTerminated.fileBytes_length le_rfl)
  have loaded : (loadFile (slice saved.bytes 0 saved.len) ⟨fun _ => 0, 0, 0⟩).buffer =
      layout (textRows buffer editorRows) := by
    rw [len, shows, loaded_layout document]
  constructor
  · rintro ⟨other, otherAssembled, same⟩ y inDocument
    obtain rfl := Option.some.inj (assembled.symm.trans otherAssembled)
    obtain ⟨_, short, _, shown⟩ := document.rowString inDocument
    rw [strlen] at short
    refine Holds.unique (CString.holds_image _) fun col inString => ?_
    have inRow : col < editorCols := by omega
    have inBuffer : y * editorCols + col < editorRows * editorCols := by
      rw [width] at inRow ⊢
      omega
    have here := same _ inBuffer
    rw [loaded, shown col inRow, layout_at _ inRow] at here
    exact here
  · intro inPlace
    refine ⟨saved, assembled, fun offset inBuffer => ?_⟩
    have inDocument : offset / editorCols < editorRows := by
      rw [width] at inBuffer ⊢
      omega
    have inRow : offset % editorCols < editorCols := Nat.mod_lt _ (by decide)
    have place : offset / editorCols * editorCols + offset % editorCols = offset := by
      rw [width]
      omega
    obtain ⟨_, _, _, shown⟩ := document.rowString inDocument
    have here := shown _ inRow
    rw [place] at here
    rw [loaded, layout, inPlace _ inDocument, here]

/-- Without gaps the file's rows are the document's first ones. -/
theorem NoGap.textRows_getD (noGap : NoGap buffer) (document : IsDocument buffer) {count : Nat}
    (within : count ≤ editorRows) :
    ∀ y < count, (textRows buffer count).getD y CString.nil = rowOf buffer y := by
  suffices stacked : ((textRows buffer count).length = count ∨
      ∃ y < count, (rowOf buffer y).bytes = []) ∧
        ∀ y < count, (textRows buffer count).getD y CString.nil = rowOf buffer y from stacked.2
  induction count with
  | zero => exact ⟨Or.inl rfl, fun _ none => absurd none (Nat.not_lt_zero _)⟩
  | succ count inductionHypothesis =>
      obtain ⟨full, inPlace⟩ := inductionHypothesis (Nat.le_of_succ_le within)
      have below := textRows_length buffer count
      rw [textRows]
      by_cases empty : (rowOf buffer count).bytes = []
      · rw [if_pos empty]
        refine ⟨Or.inr ⟨count, Nat.lt_succ_self _, empty⟩, fun y inRange => ?_⟩
        by_cases last : y = count
        · rw [last, List.getD_eq_default _ _ below]
          exact (CString.ext empty).symm
        · exact inPlace y (by omega)
      · rw [if_neg empty]
        have allText : (textRows buffer count).length = count := by
          refine full.resolve_right ?_
          rintro ⟨y, inRange, gap⟩
          have text := mt (document.row_eq_nil_iff within).mpr empty
          exact noGap y count inRange within text
            ((document.row_eq_nil_iff (Nat.lt_trans inRange within)).mp gap)
        refine ⟨Or.inl (by rw [List.length_append, List.length_singleton, allText]),
          fun y inRange => ?_⟩
        by_cases last : y = count
        · rw [last, List.getD_append_right _ _ _ _ (by omega), allText, Nat.sub_self]
          rfl
        · rw [List.getD_append _ _ _ _ (by omega)]
          exact inPlace y (by omega)

/-- A gap closes in the file. -/
theorem InPlace.noGap (inPlace : InPlace buffer) (document : IsDocument buffer) : NoGap buffer := by
  intro y z above inDocument text zero
  have empty := (document.row_eq_nil_iff (Nat.lt_trans above inDocument)).mpr zero
  have nonempty := mt (document.row_eq_nil_iff inDocument).mp text
  have inFile : z < (textRows buffer editorRows).length := by
    by_contra outside
    have missing := inPlace z inDocument
    rw [List.getD_eq_default _ _ (Nat.le_of_not_lt outside)] at missing
    exact nonempty (by rw [← missing]; rfl)
  have row := inPlace y (Nat.lt_trans above inDocument)
  rw [List.getD_eq_getElem _ _ (Nat.lt_trans above inFile)] at row
  exact textRows_nonempty buffer editorRows _ (List.getElem_mem _) (row ▸ empty)

theorem NoGap.inPlace (noGap : NoGap buffer) (document : IsDocument buffer) : InPlace buffer :=
  noGap.textRows_getD document le_rfl

/-- A document comes back exactly when no empty row has text below it. -/
theorem roundTrips_iff_noGap (document : IsDocument buffer) (stack : Image) :
    RoundTrips stack buffer ↔ NoGap buffer := by
  rw [roundTrips_iff_inPlace document stack]
  exact ⟨fun inPlace => inPlace.noGap document, fun noGap => noGap.inPlace document⟩

end Rows

/-! ### An empty row between two others -/

/-- `a` in the first row and `b` in row `second`. -/
def twoRows (second : Nat) : Image :=
  Function.update (Function.update (fun _ => 0) 0 0x61) (second * editorCols) 0x62

theorem twoRows_document {second : Nat} (below : 0 < second) : IsDocument (twoRows second) := by
  have width : editorCols = 80 := rfl
  intro y inDocument
  by_cases first : y = 0
  · subst first
    refine ⟨literal ['a'], by decide, by decide, fun col inRow => ?_⟩
    rw [Nat.zero_mul, Nat.zero_add, twoRows, Function.update_of_ne (by rw [width] at *; omega)]
    by_cases start : col = 0
    · rw [start, Function.update_self]
      rfl
    · rw [Function.update_of_ne start, CString.image, List.getD_eq_default]
      exact Nat.one_le_iff_ne_zero.mpr start
  · by_cases text : y = second
    · subst text
      refine ⟨literal ['b'], by decide, by decide, fun col inRow => ?_⟩
      by_cases start : col = 0
      · rw [start, Nat.add_zero, twoRows, Function.update_self]
        rfl
      · rw [twoRows, Function.update_of_ne (by omega),
          Function.update_of_ne (by rw [width] at *; omega), CString.image, List.getD_eq_default]
        exact Nat.one_le_iff_ne_zero.mpr start
    · refine ⟨CString.nil, by decide, by decide, fun col inRow => ?_⟩
      rw [twoRows, Function.update_of_ne (by rw [width] at *; omega),
        Function.update_of_ne (by rw [width] at *; omega)]
      rfl

theorem roundTrips_iff_noGap_adjacent : RoundTrips (fun _ => 0) (twoRows 1) := by
  refine (roundTrips_iff_noGap (twoRows_document Nat.one_pos) _).mpr ?_
  intro y z above _ text
  have second : z = 1 := by
    by_contra other
    have width : editorCols = 80 := rfl
    refine text ?_
    rw [twoRows, Function.update_of_ne (by rw [width]; omega),
      Function.update_of_ne (by rw [width]; omega)]
  obtain rfl : y = 0 := by omega
  decide

/-- With an empty row between them the second row comes back one row higher. -/
theorem roundTrips_fails :
    ¬ ∀ stack buffer : Image, IsDocument buffer → RoundTrips stack buffer := by
  intro always
  have document := twoRows_document (show 0 < 2 by decide)
  have noGap := ((roundTrips_iff_inPlace document _).mp (always (fun _ => 0) _ document)).noGap
    document
  exact noGap 1 2 (by decide) (by decide) (by decide) (by decide)

end BrainDance.App.Cable
