import Mathlib.Data.List.Count
import BrainDance.App.Cable.Keypress
import BrainDance.App.Cable.Save

/-!
Owns the row of the cursor. The loop of `editor_init` stops behind the last row of
the document, and Enter goes down from any row, also from the last. Where neither
happens `cy` stays a row of the document.
-/

namespace BrainDance.App.Cable

open BrainDance.Foundation
open BrainDance.Libc
open BrainDance.Exec
open BrainDance.Fs.Bdfs
open BrainDance.Drivers

/-! ### The property and the condition -/

/-- `editor.buffer[editor.cy]` is a row of the document. -/
def RowInDocument (editor : EditorState) : Prop := 0 ≤ editor.cy ∧ editor.cy < editorRows

instance (editor : EditorState) : Decidable (RowInDocument editor) :=
  inferInstanceAs (Decidable (_ ∧ _))

/-- The file, if there is one, has fewer newlines than the document has rows. -/
def OpensInDocument (filename : CString) (fs : FileSystem) : Prop :=
  ∀ bytesRead content, bdfsReadFile fs filename = some (.ok (bytesRead, content)) →
    content.count lineFeed < editorRows

/-- Enter is pressed above the last row. -/
def EnterAbove (state : EditorState × Kernel) (event : KeyEvent) : Prop :=
  event.char = lineFeed → state.1.cy < editorRows - 1

/-! ### Opening -/

section Opening

variable {buffer : Image}

theorem loadFile_concat (content : List Byte) (byte : Byte) (state : LoadState) :
    loadFile (content ++ [byte]) state =
      if (loadFile content state).row < editorRows then loadByte (loadFile content state) byte
      else loadFile content state := by
  rw [loadFile_append, loadFile]
  rfl

theorem count_singleton_of_ne {byte : Byte} (noFeed : byte ≠ lineFeed) :
    [byte].count lineFeed = 0 :=
  List.count_eq_zero.mpr fun member => noFeed (List.mem_singleton.mp member).symm

/-- Every newline is a row further down, up to the end of the document. -/
theorem loadFile_row_eq (content : List Byte) :
    (loadFile content ⟨buffer, 0, 0⟩).row = min editorRows (content.count lineFeed) := by
  have rows : editorRows = 24 := rfl
  induction content using List.reverseRecOn with
  | nil => rfl
  | append_singleton content byte inductionHypothesis =>
      rw [loadFile_concat, List.count_append]
      by_cases feed : byte = lineFeed
      · rw [feed, List.count_singleton_self, loadByte, if_pos rfl]
        split
        · dsimp only
          omega
        · omega
      · rw [count_singleton_of_ne feed, Nat.add_zero, loadByte, if_neg feed,
          ← inductionHypothesis]
        split
        · split <;> rfl
        · rfl

/-- A file that opens is empty for want of one, or loaded from the first byte. -/
theorem editorInit_cases {filename : CString} {fs : FileSystem} {previous editor : EditorState}
    (opened : editorInit filename fs previous = some editor) :
    (∃ code, bdfsReadFile fs filename = some (.error code) ∧ editor.cx = 0 ∧ editor.cy = 0) ∨
      ∃ bytesRead content start,
        bdfsReadFile fs filename = some (.ok (bytesRead, content)) ∧
          editor.cx = (loadFile content ⟨start, 0, 0⟩).col ∧
          editor.cy = (loadFile content ⟨start, 0, 0⟩).row ∧
          editor.buffer = (loadFile content ⟨start, 0, 0⟩).buffer := by
  unfold editorInit at opened
  dsimp only at opened
  split at opened
  · contradiction
  · rename_i code read
    obtain rfl := Option.some.inj opened
    exact .inl ⟨code, read, rfl, rfl⟩
  · rename_i bytesRead content read
    split at opened
    · obtain rfl := Option.some.inj opened
      exact .inr ⟨bytesRead, content, _, read, rfl, rfl, rfl⟩
    · contradiction

theorem editorInit_row_iff {filename : CString} {fs : FileSystem} {previous editor : EditorState}
    (opened : editorInit filename fs previous = some editor) :
    RowInDocument editor ↔ OpensInDocument filename fs := by
  have rows : editorRows = 24 := rfl
  unfold RowInDocument OpensInDocument
  rcases editorInit_cases opened with
    ⟨code, read, _, top⟩ | ⟨bytesRead, content, start, read, _, row, _⟩
  · rw [read, top]
    refine ⟨fun _ _ _ same => ?_, fun _ => by omega⟩
    exact absurd (Option.some.inj same) (by simp)
  · rw [read, row, loadFile_row_eq]
    constructor
    · intro inside _ _ same
      obtain ⟨_, rfl⟩ := Prod.mk.inj (Except.ok.inj (Option.some.inj same))
      omega
    · intro short
      have := short bytesRead content rfl
      omega

end Opening

/-! ### Keys -/

section Keys

variable {event : KeyEvent} {before after : EditorState × Kernel}

/-- No key that `editor_process_keypress` looks for by its scancode types a newline. -/
theorem scancode_ne_of_enter (key : event.char = lineFeed) :
    ∀ code ∈ [0, 0x1F, 0x10] ++ [0x48, 0x50, 0x4B, 0x4D], event.scancode ≠ (code : Byte) := by
  have others : ∀ code ∈ [0, 0x1F, 0x10] ++ [0x48, 0x50, 0x4B, 0x4D],
      (code : Byte).toNat < kbdUs.length ∧ kbdUs.getD code.toNat 0 ≠ lineFeed := by
    decide +kernel
  intro code member same
  obtain ⟨inTable, other⟩ := others code member
  rw [← same] at inTable other
  exact other ((KeyEvent.char_of_inTable inTable).symm.trans key)

theorem editorProcessKeypress_enter (key : event.char = lineFeed) (fuel : Nat)
    (saveStack bytecodeStack : Image) (editor : EditorState) (kernel : Kernel) :
    editorProcessKeypress fuel saveStack bytecodeStack event editor kernel =
      some (1, { editor with cy := editor.cy + 1, cx := 0 }, kernel) := by
  have other := scancode_ne_of_enter key
  have typed : editorKey event editor = some { editor with cy := editor.cy + 1, cx := 0 } := by
    simp only [List.cons_append, List.nil_append, List.forall_mem_cons] at other
    obtain ⟨_, _, _, up, down, left, right, _⟩ := other
    rw [editorKey, if_neg up, if_neg down, if_neg left, if_neg right, editorTypeChar,
      if_neg (by rw [key]; decide), if_pos key]
  rw [editorProcessKeypress_of_key fun code member => other code (List.mem_append_left _ member),
    typed]
  rfl

/-- One key keeps the row in the document exactly when it is not Enter in the last
row. -/
theorem editing_row_iff {Opens : CString → FileSystem → Prop}
    (step : (editing Opens).Step before event after) (inside : RowInDocument before.1) :
    RowInDocument after.1 ↔ EnterAbove before event := by
  have rows : editorRows = 24 := rfl
  obtain ⟨top, bottom⟩ := inside
  by_cases key : event.char = lineFeed
  · obtain ⟨fuel, saveStack, bytecodeStack, pressed⟩ := step
    rw [editorProcessKeypress_enter key] at pressed
    obtain rfl := (Prod.mk.inj (Option.some.inj pressed)).2
    unfold RowInDocument EnterAbove
    dsimp only
    constructor
    · intro inside _
      omega
    · intro above
      have := above key
      omega
  · refine ⟨fun _ enter => absurd enter key, fun _ => ?_⟩
    unfold RowInDocument
    cases editing_effect step with
    | still _ row _ => rw [row]; exact ⟨top, bottom⟩
    | up _ below moved => rw [moved]; dsimp only; omega
    | down _ above moved => rw [moved]; dsimp only; omega
    | left _ moved => rw [moved]; exact ⟨top, bottom⟩
    | right _ _ _ moved => rw [moved]; exact ⟨top, bottom⟩
    | enter enter _ => exact absurd enter key
    | insert c _ done =>
        rcases editorInsertChar_cases done with same | ⟨_, _, _, _, _, same⟩ <;>
          rw [same] <;> exact ⟨top, bottom⟩
    | delete done =>
        rcases editorDeleteChar_cases done with
          same | ⟨_, _, _, _, _, same⟩ | ⟨_, _, _, _, below, _, _, _, _, same⟩
        · rw [same]; exact ⟨top, bottom⟩
        · rw [same]; exact ⟨top, bottom⟩
        · rw [same]; dsimp only; omega

end Keys

/-- The cursor is in the document in every state of a session on a file with fewer
newlines than rows in which Enter is pressed above the last row only. Any other file
opens outside, and any other Enter leads there. -/
theorem cursorRow_inDocument {state : EditorState × Kernel}
    (reachable : ((editing OpensInDocument).guard EnterAbove).Reachable state) :
    RowInDocument state.1 ∧
    (∀ event after, (editing OpensInDocument).Step state event after →
      (RowInDocument after.1 ↔ EnterAbove state event)) ∧
    ∀ filename fs previous editor, editorInit filename fs previous = some editor →
      (RowInDocument editor ↔ OpensInDocument filename fs) := by
  have inside : RowInDocument state.1 := by
    refine reachable.invariant (fun state => RowInDocument state.1) ?_ ?_
    · rintro state ⟨filename, previous, opens, opened⟩
      exact (editorInit_row_iff opened).mpr opens
    · rintro before event after _ inside ⟨above, step⟩
      exact (editing_row_iff step inside).mpr above
  exact ⟨inside, fun _ _ step => editing_row_iff step inside,
    fun _ _ _ _ => editorInit_row_iff⟩

/-! ### Enter in the last row -/

/-- The Enter key. -/
def enterKey : KeyEvent := ⟨0x1C, false, 0⟩

/-- The A key. -/
def letterKey : KeyEvent := ⟨0x1E, false, 0⟩

/-- The document of a name that no file has. -/
def newDocument : EditorState where
  cx := 0
  cy := 0
  buffer := fun _ => 0
  filename := strncpy (fun _ => 0) (literal ['n', 'e', 'w']) (filenameSize - 1)
  dirty := 0

theorem newDocument_read :
    bdfsReadFile newKernel.fileSystem (literal ['n', 'e', 'w']) = some (.error (-1)) := by
  have noFile : findEntryInDir freshFileSystem.fileTable (literal ['n', 'e', 'w'])
      freshFileSystem.currentDirInode = none := by
    decide +kernel
  rw [bdfsReadFile, newKernel, noFile]

theorem newDocument_opens :
    editorInit (literal ['n', 'e', 'w']) newKernel.fileSystem ⟨0, 0, fun _ => 0, fun _ => 0, 0⟩ =
      some newDocument := by
  unfold editorInit
  dsimp only
  rw [newDocument_read, memset_eq_fill]
  have blank : fill (fun _ => 0) 0 (editorRows * editorCols) 0 = fun _ => (0 : Byte) := by
    funext offset
    unfold fill
    split <;> rfl
  rw [blank]
  rfl

/-- A session that starts on it, whatever the keys may be. -/
theorem newDocument_reachable {Opens : CString → FileSystem → Prop}
    {Allowed : EditorState × Kernel → KeyEvent → Prop}
    (opens : Opens (literal ['n', 'e', 'w']) newKernel.fileSystem) :
    ((editing Opens).guard Allowed).Reachable (newDocument, newKernel) :=
  .init ⟨_, _, opens, newDocument_opens⟩

theorem newDocument_unread (bytesRead : Word) (content : List Byte) :
    bdfsReadFile newKernel.fileSystem (literal ['n', 'e', 'w']) ≠
      some (.ok (bytesRead, content)) := by
  rw [newDocument_read]
  exact fun same => absurd (Option.some.inj same) (by simp)

theorem newDocument_opensInDocument :
    OpensInDocument (literal ['n', 'e', 'w']) newKernel.fileSystem :=
  fun bytesRead content read => absurd read (newDocument_unread bytesRead content)

theorem enterKey_pressed (Opens : CString → FileSystem → Prop) (count : Nat) :
    (editing Opens).Step ({ newDocument with cy := count }, newKernel) enterKey
      ({ newDocument with cy := (count + 1 : Nat) }, newKernel) := by
  refine ⟨0, fun _ => 0, fun _ => 0, ?_⟩
  rw [@editorProcessKeypress_enter enterKey rfl]
  rfl

/-- After Enter has been pressed `count` times. -/
theorem enter_reachable (count : Nat) :
    (editing fun _ _ => True).Reachable ({ newDocument with cy := count }, newKernel) := by
  induction count with
  | zero => exact .init ⟨_, _, trivial, newDocument_opens⟩
  | succ count inductionHypothesis => exact .step inductionHypothesis (enterKey_pressed _ count)

/-- The second row after Enter. -/
theorem cursorRow_inDocument_second :
    RowInDocument { newDocument with cy := (1 : Nat) } ∧
    (∀ event after,
      (editing OpensInDocument).Step ({ newDocument with cy := (1 : Nat) }, newKernel) event after →
        (RowInDocument after.1 ↔
          EnterAbove ({ newDocument with cy := (1 : Nat) }, newKernel) event)) ∧
    ∀ filename fs previous editor, editorInit filename fs previous = some editor →
      (RowInDocument editor ↔ OpensInDocument filename fs) :=
  cursorRow_inDocument ((newDocument_reachable newDocument_opensInDocument).step
    ⟨fun _ => show newDocument.cy < editorRows - 1 by decide, enterKey_pressed _ 0⟩)

/-- After Enter has been pressed 24 times a letter is put behind the document. -/
theorem cursorRow_leaves :
    (∃ state, (editing fun _ _ => True).Reachable state ∧ state.1.cy = 24 ∧
      ∀ fuel saveStack bytecodeStack, editorProcessKeypress fuel saveStack bytecodeStack letterKey
        state.1 state.2 = none) ∧
    ¬ ∀ state, (editing fun _ _ => True).Reachable state → RowInDocument state.1 := by
  refine ⟨⟨_, enter_reachable 24, rfl, fun _ _ _ => rfl⟩, fun always => ?_⟩
  have inside := always _ (enter_reachable 24)
  exact absurd inside.2 (by decide)

end BrainDance.App.Cable
