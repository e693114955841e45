import Mathlib.Data.Fintype.Card
import Mathlib.Data.List.FinRange
import Mathlib.Data.Set.Card

/-!
Owns tables of `n` slots, each free or holding a key and a value, and the
finite map they represent: a key goes to the slot that holds it and the value
there. While no key stands in two slots (`Unique`), filling a free slot,
freeing a slot, replacing a value and replacing a key act on the map as insert,
remove, update and move.
-/

namespace BrainDance.Foundation

universe u v

abbrev Slots (n : Nat) (Key : Type u) (Value : Type v) := Fin n → Option (Key × Value)

namespace Slots

variable {n : Nat} {Key : Type u} {Value : Type v} {slots : Slots n Key Value}

/-- No key stands in two slots. -/
def Unique (slots : Slots n Key Value) : Prop :=
  ∀ ⦃i j key left right⦄, slots i = some (key, left) → slots j = some (key, right) → i = j

variable [DecidableEq Key]

/-- The slot that holds `key`, with its value. -/
def lookup (slots : Slots n Key Value) (key : Key) : Option (Fin n × Value) :=
  (List.finRange n).findSome? fun i =>
    (slots i).bind fun entry => if entry.1 = key then some (i, entry.2) else none

theorem eq_some_of_lookup {key : Key} {i : Fin n} {value : Value}
    (found : slots.lookup key = some (i, value)) : slots i = some (key, value) := by
  obtain ⟨j, _, picked⟩ := List.exists_of_findSome?_eq_some found
  obtain ⟨⟨key', value'⟩, held, chosen⟩ := Option.bind_eq_some_iff.mp picked
  split at chosen
  · rename_i same
    simp only [Option.some.injEq, Prod.mk.injEq] at chosen
    obtain ⟨rfl, rfl⟩ := chosen
    simpa [← same] using held
  · contradiction

theorem lookup_eq_none_iff {key : Key} :
    slots.lookup key = none ↔ ∀ i value, slots i ≠ some (key, value) := by
  unfold lookup
  rw [List.findSome?_eq_none_iff]
  constructor
  · intro missing i value held
    have := missing i (List.mem_finRange i)
    simp [held] at this
  · intro missing i _
    cases held : slots i with
    | none => rfl
    | some entry =>
        obtain ⟨key', value⟩ := entry
        simp only [Option.bind_some]
        split
        · rename_i same
          exact absurd (same ▸ held) (missing i value)
        · rfl

/-- A unique table's map holds exactly the entries of its slots. -/
theorem lookup_eq_some_iff (unique : slots.Unique) {key : Key} {i : Fin n} {value : Value} :
    slots.lookup key = some (i, value) ↔ slots i = some (key, value) := by
  constructor
  · exact eq_some_of_lookup
  · intro held
    cases found : slots.lookup key with
    | none => exact absurd held (lookup_eq_none_iff.mp found i value)
    | some entry =>
        obtain ⟨j, other⟩ := entry
        have heldThere := eq_some_of_lookup found
        have sameSlot := unique held heldThere
        subst sameSlot
        rw [heldThere] at held
        simp only [Option.some.injEq, Prod.mk.injEq, true_and] at held
        rw [held]

/-- Two maps with the same entries are equal. -/
private theorem lookup_ext {map : Key → Option (Fin n × Value)}
    (unique : slots.Unique)
    (same : ∀ key i value, slots i = some (key, value) ↔ map key = some (i, value)) :
    slots.lookup = map := by
  funext key
  apply Option.ext
  rintro ⟨i, value⟩
  rw [lookup_eq_some_iff unique, same]

section Edits

variable {i : Fin n} {key newKey : Key} {value : Value}

/-- Filling a free slot with an absent key inserts the key. -/
theorem lookup_fill (unique : slots.Unique) (free : slots i = none)
    (absent : slots.lookup key = none) (value : Value) :
    Unique (Function.update slots i (some (key, value))) ∧
      lookup (Function.update slots i (some (key, value))) =
        Function.update slots.lookup key (some (i, value)) := by
  have notHeld := lookup_eq_none_iff.mp absent
  have unique' : Unique (Function.update slots i (some (key, value))) := by
    intro a b k left right heldA heldB
    by_cases atA : a = i <;> by_cases atB : b = i
    · rw [atA, atB]
    · subst atA
      simp only [Function.update_self, Function.update_of_ne atB, Option.some.injEq,
        Prod.mk.injEq] at heldA heldB
      rw [← heldA.1] at heldB
      exact absurd heldB (notHeld b right)
    · subst atB
      simp only [Function.update_self, Function.update_of_ne atA, Option.some.injEq,
        Prod.mk.injEq] at heldA heldB
      rw [← heldB.1] at heldA
      exact absurd heldA (notHeld a left)
    · rw [Function.update_of_ne atA] at heldA
      rw [Function.update_of_ne atB] at heldB
      exact unique heldA heldB
  refine ⟨unique', lookup_ext unique' ?_⟩
  intro k a v
  by_cases atSlot : a = i <;> by_cases atKey : k = key
  · subst atSlot atKey
    simp
  · subst atSlot
    rw [Function.update_self, Function.update_of_ne atKey, lookup_eq_some_iff unique, free]
    simp [Ne.symm atKey]
  · subst atKey
    rw [Function.update_of_ne atSlot, Function.update_self]
    simp [notHeld a v, Ne.symm atSlot]
  · rw [Function.update_of_ne atSlot, Function.update_of_ne atKey, lookup_eq_some_iff unique]

/-- Freeing a slot removes its key. -/
theorem lookup_free (unique : slots.Unique) (held : slots i = some (key, value)) :
    Unique (Function.update slots i none) ∧
      lookup (Function.update slots i none) = Function.update slots.lookup key none := by
  have unique' : Unique (Function.update slots i none) := by
    intro a b k left right heldA heldB
    by_cases atA : a = i
    · simp [atA] at heldA
    · by_cases atB : b = i
      · simp [atB] at heldB
      · rw [Function.update_of_ne atA] at heldA
        rw [Function.update_of_ne atB] at heldB
        exact unique heldA heldB
  refine ⟨unique', lookup_ext unique' ?_⟩
  intro k a v
  by_cases atKey : k = key
  · subst atKey
    rw [Function.update_self]
    by_cases atSlot : a = i
    · simp [atSlot]
    · rw [Function.update_of_ne atSlot]
      simp only [reduceCtorEq, iff_false]
      exact fun other => atSlot (unique other held)
  · rw [Function.update_of_ne atKey, lookup_eq_some_iff unique]
    by_cases atSlot : a = i
    · subst atSlot
      simp [held, Ne.symm atKey]
    · rw [Function.update_of_ne atSlot]

/-- Moving a slot to an absent key removes the old key and inserts the new one. -/
theorem lookup_move (unique : slots.Unique) (held : slots i = some (key, value))
    (absent : slots.lookup newKey = none) (newValue : Value) :
    Unique (Function.update slots i (some (newKey, newValue))) ∧
      lookup (Function.update slots i (some (newKey, newValue))) =
        Function.update (Function.update slots.lookup key none) newKey (some (i, newValue)) := by
  obtain ⟨freedUnique, freedLookup⟩ := lookup_free unique held
  have different : newKey ≠ key := by
    rintro rfl
    exact lookup_eq_none_iff.mp absent i value held
  have stillAbsent : lookup (Function.update slots i none) newKey = none := by
    rw [freedLookup, Function.update_of_ne different, absent]
  have filled := lookup_fill freedUnique (Function.update_self i none slots) stillAbsent newValue
  rw [Function.update_idem, freedLookup] at filled
  exact filled

/-- Replacing a slot's value replaces the value of its key. -/
theorem lookup_replace (unique : slots.Unique) (held : slots i = some (key, value))
    (newValue : Value) :
    Unique (Function.update slots i (some (key, newValue))) ∧
      lookup (Function.update slots i (some (key, newValue))) =
        Function.update slots.lookup key (some (i, newValue)) := by
  obtain ⟨freedUnique, freedLookup⟩ := lookup_free unique held
  have nowAbsent : lookup (Function.update slots i none) key = none := by
    rw [freedLookup, Function.update_self]
  have filled := lookup_fill freedUnique (Function.update_self i none slots) nowAbsent newValue
  rw [Function.update_idem, freedLookup, Function.update_idem] at filled
  exact filled

end Edits

/-- A unique table has as many keys as slots in use. -/
theorem ncard_keys (unique : slots.Unique) :
    Set.ncard {key | slots.lookup key ≠ none} =
      (Finset.univ.filter fun i => slots i ≠ none).card := by
  rw [← Set.ncard_coe_finset]
  symm
  apply Set.ncard_congr fun i member =>
    ((slots i).get (Option.isSome_iff_ne_none.mpr (by simpa using member))).1
  · intro i member
    obtain ⟨⟨key, value⟩, held⟩ := Option.ne_none_iff_exists'.mp
      (show slots i ≠ none by simpa using member)
    have found := (lookup_eq_some_iff unique).mpr held
    simp [held, found]
  · intro i j memberI memberJ same
    obtain ⟨⟨keyI, valueI⟩, heldI⟩ := Option.ne_none_iff_exists'.mp
      (show slots i ≠ none by simpa using memberI)
    obtain ⟨⟨keyJ, valueJ⟩, heldJ⟩ := Option.ne_none_iff_exists'.mp
      (show slots j ≠ none by simpa using memberJ)
    simp only [heldI, heldJ, Option.get_some] at same
    subst same
    exact unique heldI heldJ
  · intro key present
    obtain ⟨⟨i, value⟩, found⟩ := Option.ne_none_iff_exists'.mp present
    have held := eq_some_of_lookup found
    exact ⟨i, by simp [held], by simp [held]⟩

end Slots

end BrainDance.Foundation
