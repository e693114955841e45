import Mathlib.Data.List.TakeWhile

/-!
Owns the runs of a text between separators: what a maximal run is, the list of all
of them from left to right, and the step from one run to the rest of the text.
-/

namespace BrainDance.Foundation

universe u

section Splitting

variable {α : Type u} (separates : α → Bool)

/-! ### Maximal runs -/

/-- A separator stands at `index`, or the text has ended there. -/
def Barrier (text : List α) (index : Nat) : Prop := text[index]?.all separates = true

/-- No separator stands between `first` and `last`. -/
def Free (text : List α) (first last : Nat) : Prop :=
  ∀ index, first ≤ index → index < last → ¬ Barrier separates text index

/-- A nonempty range without separators that lies in no larger one. -/
structure MaximalRun (text : List α) (first last : Nat) : Prop where
  nonempty : first < last
  free : Free separates text first last
  maximal : ∀ {before after : Nat}, before ≤ first → last ≤ after →
    Free separates text before after → before = first ∧ after = last

/-- The first run of the text, with the text behind the separator that ends it. -/
def nextRun (text : List α) : Option (List α × List α) :=
  match text.dropWhile separates with
  | [] => none
  | char :: rest =>
      some (char :: rest.takeWhile (!separates ·), (rest.dropWhile (!separates ·)).tail)

/-- The characters of a range. -/
def between (text : List α) (range : Nat × Nat) : List α :=
  (text.drop range.1).take (range.2 - range.1)

/-- How many separators stand in front of the first run. -/
def gap (text : List α) : Nat := (text.takeWhile separates).length

variable {separates} {text token rest : List α} {first last : Nat}

theorem nextRun_eq_none : nextRun separates text = none ↔ ∀ char ∈ text, separates char = true := by
  unfold nextRun
  rw [← List.dropWhile_eq_nil_iff]
  split <;> simp_all

/-- The first run between what is in front of it and what follows. -/
theorem nextRun_eq_some (found : nextRun separates text = some (token, rest)) :
    ∃ after, text = text.takeWhile separates ++ token ++ after ∧ rest = after.tail ∧
      token ≠ [] ∧ (∀ char ∈ token, separates char = false) ∧
        ∀ char ∈ after.head?, separates char = true := by
  unfold nextRun at found
  split at found
  · contradiction
  · rename_i char behind dropped
    obtain ⟨rfl, rfl⟩ := Prod.mk.inj (Option.some.inj found)
    have headFree : separates char = false := by
      have stopped := List.head?_dropWhile_not separates text
      rw [dropped] at stopped
      simpa using stopped
    refine ⟨behind.dropWhile (!separates ·), ?_, rfl, List.cons_ne_nil _ _, ?_, ?_⟩
    · rw [List.append_assoc, List.cons_append, List.takeWhile_append_dropWhile, ← dropped,
        List.takeWhile_append_dropWhile]
    · intro other member
      rcases List.mem_cons.mp member with rfl | inside
      · exact headFree
      · simpa using List.mem_takeWhile_imp inside
    · intro other atHead
      have stopped := List.head?_dropWhile_not (!separates ·) behind
      rw [Option.mem_def.mp atHead] at stopped
      simpa using stopped

/-- A text that begins with a run and a separator. -/
theorem nextRun_append {separator : α} (nonempty : token ≠ [])
    (free : ∀ char ∈ token, separates char = false) (barrier : separates separator = true) :
    nextRun separates (token ++ separator :: rest) = some (token, rest) := by
  obtain ⟨first, others, rfl⟩ := List.exists_cons_of_ne_nil nonempty
  obtain ⟨firstFree, othersFree⟩ := List.forall_mem_cons.mp free
  have run : ∀ char ∈ others, (!separates char) = true := by simpa using othersFree
  simp [nextRun, firstFree, barrier, List.takeWhile_append_of_pos run,
    List.dropWhile_append_of_pos run]

/-- A text that is a run. -/
theorem nextRun_self (nonempty : token ≠ []) (free : ∀ char ∈ token, separates char = false) :
    nextRun separates token = some (token, []) := by
  obtain ⟨first, others, rfl⟩ := List.exists_cons_of_ne_nil nonempty
  obtain ⟨firstFree, othersFree⟩ := List.forall_mem_cons.mp free
  have run : ∀ char ∈ others, (!separates char) = true := by simpa using othersFree
  simp [nextRun, firstFree, List.takeWhile_eq_self_iff.mpr run,
    List.dropWhile_eq_nil_iff.mpr run]

theorem nextRun_rest_length (found : nextRun separates text = some (token, rest)) :
    rest.length < text.length := by
  obtain ⟨after, split, rfl, nonempty, _⟩ := nextRun_eq_some found
  have tokenPos := List.length_pos_iff.mpr nonempty
  have lengths := congrArg List.length split
  rw [List.length_append, List.length_append] at lengths
  rw [List.length_tail]
  omega

theorem mem_of_mem_nextRun (found : nextRun separates text = some (token, rest)) {char : α}
    (member : char ∈ token ∨ char ∈ rest) : char ∈ text := by
  obtain ⟨after, split, rfl, _⟩ := nextRun_eq_some found
  rw [split, List.append_assoc]
  refine List.mem_append_right _ (List.mem_append.mpr ?_)
  exact member.imp id List.mem_of_mem_tail

variable (separates) in
/-- All runs from left to right, where the text starts at `start`. -/
def runs (start : Nat) (text : List α) : List (Nat × Nat) :=
  match _found : nextRun separates text with
  | none => []
  | some (token, rest) =>
      (start + gap separates text, start + gap separates text + token.length) ::
        runs (start + gap separates text + token.length + 1) rest
termination_by text.length
decreasing_by exact nextRun_rest_length _found

theorem runs_of_none (start : Nat) (none : nextRun separates text = none) :
    runs separates start text = [] := by
  rw [runs]
  split <;> simp_all

theorem runs_of_some (start : Nat) (found : nextRun separates text = some (token, rest)) :
    runs separates start text =
      (start + gap separates text, start + gap separates text + token.length) ::
        runs separates (start + gap separates text + token.length + 1) rest := by
  rw [runs]
  split <;> simp_all

@[simp] theorem runs_nil (start : Nat) : runs separates start [] = [] := runs_of_none start rfl

/-! ### The list is that of the maximal runs -/

/-- A range is maximal exactly when barriers enclose it. -/
theorem maximalRun_iff_enclosed : MaximalRun separates text first last ↔
    first < last ∧ Free separates text first last ∧
      (first = 0 ∨ Barrier separates text (first - 1)) ∧ Barrier separates text last := by
  constructor
  · intro run
    refine ⟨run.nonempty, run.free, ?_, ?_⟩
    · by_contra open_
      rw [not_or] at open_
      have wider : Free separates text (first - 1) last := by
        intro index above below
        by_cases inside : first ≤ index
        · exact run.free index inside below
        · rw [show index = first - 1 by omega]
          exact open_.2
      have same := (run.maximal (Nat.sub_le _ _) (Nat.le_refl _) wider).1
      omega
    · by_contra open_
      have wider : Free separates text first (last + 1) := by
        intro index above below
        by_cases inside : index < last
        · exact run.free index above inside
        · rw [show index = last by omega]
          exact open_
      have same := (run.maximal (Nat.le_refl _) (Nat.le_succ _) wider).2
      omega
  · rintro ⟨nonempty, free, opened, closed⟩
    refine ⟨nonempty, free, ?_⟩
    intro before after below above wider
    constructor
    · by_contra different
      rcases opened with atStart | barrier
      · omega
      · exact wider (first - 1) (by omega) (by omega) barrier
    · by_contra different
      exact wider last (by omega) (by omega) closed

/-- The text behind the separator is the text from its place on. -/
theorem nextRun_rest_eq_drop (found : nextRun separates text = some (token, rest)) :
    rest = text.drop (gap separates text + token.length + 1) := by
  obtain ⟨after, split, rfl, _⟩ := nextRun_eq_some found
  have front : (text.takeWhile separates ++ token).length = gap separates text + token.length :=
    List.length_append
  have dropped : text.drop (gap separates text + token.length) = after := by
    rw [← front]
    exact (congrArg (List.drop _) split).trans List.drop_left
  rw [← List.drop_drop, dropped, List.drop_one]

theorem nextRun_eq_take (found : nextRun separates text = some (token, rest)) :
    token = (text.drop (gap separates text)).take token.length := by
  obtain ⟨after, split, _⟩ := nextRun_eq_some found
  have dropped : text.drop (gap separates text) = token ++ after := by
    rw [List.append_assoc] at split
    exact (congrArg (List.drop _) split).trans List.drop_left
  rw [dropped, List.take_left]

theorem barrier_drop (count index : Nat) :
    Barrier separates (text.drop count) index ↔ Barrier separates text (count + index) := by
  unfold Barrier
  rw [List.getElem?_drop]

section Step

variable (found : nextRun separates text = some (token, rest))

include found

theorem barrier_in_gap {index : Nat} (inGap : index < gap separates text) :
    Barrier separates text index := by
  obtain ⟨after, split, _⟩ := nextRun_eq_some found
  have here : text[index]? = (text.takeWhile separates)[index]? := by
    rw [← List.getElem?_append_left inGap, ← List.append_assoc]
    exact congrArg (·[index]?) split
  unfold Barrier
  rw [here, List.getElem?_eq_getElem inGap, Option.all_some]
  exact List.mem_takeWhile_imp (List.getElem_mem inGap)

theorem free_in_token :
    Free separates text (gap separates text) (gap separates text + token.length) := by
  obtain ⟨after, split, _, _, free, _⟩ := nextRun_eq_some found
  intro index above below
  have inToken : index - gap separates text < token.length := by omega
  have here : text[index]? = token[index - gap separates text]? := by
    rw [← List.getElem?_append_left inToken, gap, ← List.getElem?_append_right above,
      ← List.append_assoc]
    exact congrArg (·[index]?) split
  unfold Barrier
  rw [here, List.getElem?_eq_getElem inToken, Option.all_some]
  simpa using free _ (List.getElem_mem inToken)

theorem barrier_behind_token :
    Barrier separates text (gap separates text + token.length) := by
  obtain ⟨after, split, _, _, _, closed⟩ := nextRun_eq_some found
  have front : (text.takeWhile separates ++ token).length = gap separates text + token.length :=
    List.length_append
  have here : text[gap separates text + token.length]? = after.head? := by
    rw [List.head?_eq_getElem?, ← front,
      ← Nat.sub_self (text.takeWhile separates ++ token).length,
      ← List.getElem?_append_right (Nat.le_refl _)]
    exact congrArg (·[_]?) split
  unfold Barrier
  rw [here]
  cases atHead : after.head? with
  | none => rfl
  | some char => exact closed char atHead

/-- The maximal runs are the first one and those behind its separator. -/
theorem maximalRun_step : MaximalRun separates text first last ↔
    (first = gap separates text ∧ last = gap separates text + token.length) ∨
      ∃ restFirst restLast, MaximalRun separates rest restFirst restLast ∧
        first = gap separates text + token.length + 1 + restFirst ∧
          last = gap separates text + token.length + 1 + restLast := by
  have inGap := fun index => @barrier_in_gap _ _ _ _ _ found index
  have inToken := free_in_token found
  have behind := barrier_behind_token found
  have restBarrier : ∀ index, Barrier separates rest index ↔
      Barrier separates text (gap separates text + token.length + 1 + index) := by
    intro index
    rw [nextRun_rest_eq_drop found, barrier_drop]
  have tokenPos : 0 < token.length := by
    obtain ⟨_, _, _, nonempty, _⟩ := nextRun_eq_some found
    exact List.length_pos_iff.mpr nonempty
  generalize gap separates text = start at *
  generalize token.length = count at *
  simp only [maximalRun_iff_enclosed, Free, restBarrier]
  constructor
  · rintro ⟨nonempty, free, opened, closed⟩
    have firstFree : ¬ Barrier separates text first := free first (Nat.le_refl _) nonempty
    have pastGap : start ≤ first := by
      by_contra early
      exact firstFree (inGap first (by omega))
    by_cases isFirst : first < start + count
    · left
      have atStart : first = start := by
        by_contra late
        rcases opened with zero | barrier
        · omega
        · exact inToken (first - 1) (by omega) (by omega) barrier
      refine ⟨atStart, Nat.le_antisymm ?_ ?_⟩
      · by_contra long
        exact free (start + count) (by omega) (by omega) behind
      · by_contra short
        exact inToken last (by omega) (by omega) closed
    · right
      have notBehind : first ≠ start + count := by
        rintro rfl
        exact firstFree behind
      refine ⟨first - (start + count + 1), last - (start + count + 1),
        ⟨by omega, ?_, ?_, ?_⟩, by omega, by omega⟩
      · intro index above below
        exact free _ (by omega) (by omega)
      · rcases opened with zero | barrier
        · omega
        · by_cases atRest : first = start + count + 1
          · exact .inl (by omega)
          · right
            rw [show start + count + 1 + (first - (start + count + 1) - 1) = first - 1 by omega]
            exact barrier
      · rw [show start + count + 1 + (last - (start + count + 1)) = last by omega]
        exact closed
  · rintro (⟨rfl, rfl⟩ | ⟨restFirst, restLast, ⟨nonempty, free, opened, closed⟩, rfl, rfl⟩)
    · refine ⟨by omega, inToken, ?_, behind⟩
      by_cases zero : first = 0
      · exact .inl zero
      · exact .inr (inGap _ (by omega))
    · refine ⟨by omega, ?_, ?_, closed⟩
      · intro index above below
        have inRest := free (index - (start + count + 1)) (by omega) (by omega)
        rwa [show start + count + 1 + (index - (start + count + 1)) = index by omega] at inRest
      · right
        rcases opened with rfl | barrier
        · exact behind
        · by_cases zero : restFirst = 0
          · subst zero
            exact behind
          · rwa [show start + count + 1 + restFirst - 1 =
              start + count + 1 + (restFirst - 1) by omega]

end Step

theorem mem_runs_iff (start : Nat) (text : List α) {first last : Nat} :
    (first, last) ∈ runs separates start text ↔
      ∃ textFirst textLast, MaximalRun separates text textFirst textLast ∧
        first = start + textFirst ∧ last = start + textLast := by
  induction start, text using runs.induct separates generalizing first last with
  | case1 start text none =>
      rw [runs_of_none start none]
      constructor
      · intro member
        exact absurd member List.not_mem_nil
      · rintro ⟨textFirst, textLast, run, _⟩
        refine absurd ?_ (run.free textFirst (Nat.le_refl _) run.nonempty)
        unfold Barrier
        rw [Option.all_eq_true_iff_get]
        exact fun inText => nextRun_eq_none.mp none _ (List.mem_of_getElem? (Option.some_get _).symm)
  | case2 start text token rest found inductionHypothesis =>
      rw [runs_of_some start found, List.mem_cons, inductionHypothesis, Prod.mk.injEq]
      simp only [maximalRun_step found]
      constructor
      · rintro (⟨rfl, rfl⟩ | ⟨restFirst, restLast, run, rfl, rfl⟩)
        · exact ⟨_, _, .inl ⟨rfl, rfl⟩, rfl, by omega⟩
        · exact ⟨_, _, .inr ⟨restFirst, restLast, run, rfl, rfl⟩, by omega, by omega⟩
      · rintro ⟨_, _, ⟨rfl, rfl⟩ | ⟨restFirst, restLast, run, rfl, rfl⟩, rfl, rfl⟩
        · exact .inl ⟨rfl, by omega⟩
        · exact .inr ⟨restFirst, restLast, run, by omega, by omega⟩

/-- They stand from left to right with a separator between them. -/
theorem runs_pairwise (start : Nat) (text : List α) :
    (runs separates start text).Pairwise fun left right => left.2 < right.1 := by
  induction start, text using runs.induct separates with
  | case1 start text none => simp [runs_of_none start none]
  | case2 start text token rest found inductionHypothesis =>
      rw [runs_of_some start found, List.pairwise_cons]
      refine ⟨?_, inductionHypothesis⟩
      rintro ⟨first, last⟩ member
      obtain ⟨_, _, _, rfl, _⟩ := (mem_runs_iff _ _).mp member
      dsimp only
      omega

end Splitting

end BrainDance.Foundation
