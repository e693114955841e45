import Mathlib.Data.Finset.Card
import Mathlib.Data.Finset.Range
import Mathlib.Data.List.Find
import BrainDance.Foundation.Bytes

/-!
Owns bitmaps kept in memory as 32-bit words: reading, setting and clearing one
bit, counting set bits, and the two-level search for the first clear bit, word
by word and then bit by bit. The search is the plain search over all bits of
the scanned words.

It does not own what a bit stands for.
-/

namespace BrainDance.Foundation

namespace Bitmap

variable (image : Image)

/-- The word of the bitmap that holds the bit. -/
def word (index : Nat) : Word := wordAt image (4 * (index / 32))

/-- The bit's mask inside its word. -/
def mask (index : Nat) : Word := 1#32 <<< (index % 32)

def bit (index : Nat) : Bool := (word image index).getLsbD (index % 32)

def setBit (index : Nat) : Image :=
  storeWord image (4 * (index / 32)) (word image index ||| mask index)

def clearBit (index : Nat) : Image :=
  storeWord image (4 * (index / 32)) (word image index &&& ~~~(mask index))

/-- The number of set bits among the first `bound`. -/
def count (bound : Nat) : Nat := ((Finset.range bound).filter fun index => bit image index).card

/-- The first clear bit of the first `words` words: each word is compared with
the full one, and only the others are searched. -/
def findClear (words : Nat) : Option Nat :=
  (List.range words).findSome? fun i =>
    if wordAt image (4 * i) ≠ 0xFFFFFFFF then
      ((List.range 32).find? fun j => wordAt image (4 * i) &&& (1#32 <<< j) = 0).map (32 * i + ·)
    else none

/-! ### Single bits -/

section Bits

variable {image} {index other : Nat}

theorem getLsbD_mask (index bit : Nat) :
    (mask index).getLsbD bit = decide (index % 32 = bit) := by
  rw [mask, ← BitVec.twoPow_eq, BitVec.getLsbD_twoPow]
  simp [Nat.mod_lt index (show 0 < 32 by decide)]

/-- The bit is clear exactly when its mask meets the word in zero. -/
theorem and_mask_eq_zero_iff (word : Word) {bit : Nat} (below : bit < 32) :
    word &&& (1#32 <<< bit) = 0 ↔ word.getLsbD bit = false := by
  rw [← BitVec.twoPow_eq, BitVec.and_twoPow]
  constructor
  · intro zero
    by_contra set
    rw [Bool.not_eq_false] at set
    rw [if_pos set] at zero
    have lit := congrArg (fun value : Word => value.getLsbD bit) zero
    simp [below] at lit
  · intro clear
    rw [clear]
    rfl

theorem and_mask_ne_zero_iff : word image index &&& mask index ≠ 0 ↔ bit image index = true := by
  rw [mask, ne_eq, and_mask_eq_zero_iff _ (Nat.mod_lt _ (by decide)), Bool.not_eq_false]
  rfl

/-- A word stored at the place of `index` shows in the bits of that place only. -/
theorem bit_storeWord (stored : Word) :
    bit (storeWord image (4 * (index / 32)) stored) other =
      if other / 32 = index / 32 then stored.getLsbD (other % 32) else bit image other := by
  unfold bit word
  split
  · rename_i same
    rw [same, wordAt_storeWord_self]
  · rename_i different
    rw [wordAt_storeWord_of_apart _ _ (by omega)]

theorem bit_setBit :
    bit (setBit image index) other = (decide (other = index) || bit image other) := by
  rw [setBit, bit_storeWord]
  split
  · rename_i same
    have position : index % 32 = other % 32 ↔ other = index := by omega
    rw [BitVec.getLsbD_or, getLsbD_mask, Bool.or_comm, bit, word, word, same]
    simp only [position]
  · rename_i different
    rw [decide_eq_false (by rintro rfl; exact different rfl), Bool.false_or]

theorem bit_clearBit :
    bit (clearBit image index) other = (!decide (other = index) && bit image other) := by
  rw [clearBit, bit_storeWord]
  split
  · rename_i same
    have position : index % 32 = other % 32 ↔ other = index := by omega
    rw [BitVec.getLsbD_and, BitVec.getLsbD_not, getLsbD_mask, Bool.and_comm, bit, word, word, same,
      decide_eq_true (Nat.mod_lt other (show 0 < 32 by decide))]
    simp only [position, Bool.true_and]
  · rename_i different
    rw [decide_eq_false (by rintro rfl; exact different rfl), Bool.not_false, Bool.true_and]

theorem bit_setBit_self : bit (setBit image index) index = true := by simp [bit_setBit]

theorem bit_setBit_of_ne (different : other ≠ index) :
    bit (setBit image index) other = bit image other := by simp [bit_setBit, different]

theorem bit_clearBit_self : bit (clearBit image index) index = false := by simp [bit_clearBit]

theorem bit_clearBit_of_ne (different : other ≠ index) :
    bit (clearBit image index) other = bit image other := by simp [bit_clearBit, different]

/-- A bit lies in the byte that its index divided by 8 gives. -/
theorem bit_eq_getLsbD : bit image index = (image (index / 8)).getLsbD (index % 8) := by
  rw [bit, word, getLsbD_wordAt _ _ (Nat.mod_lt _ (by decide)),
    show 4 * (index / 32) + index % 32 / 8 = index / 8 by omega,
    show index % 32 % 8 = index % 8 by omega]

end Bits

/-! ### Counting -/

section Counting

variable {image} {index bound : Nat}

theorem count_le (bound : Nat) : count image bound ≤ bound := by
  have filtered := Finset.card_filter_le (Finset.range bound) fun index => bit image index = true
  rwa [Finset.card_range] at filtered

theorem count_setBit (inside : index < bound) (clear : bit image index = false) :
    count (setBit image index) bound = count image bound + 1 := by
  unfold count
  rw [← Finset.card_insert_of_notMem (a := index) (by simp [clear])]
  congr 1
  ext other
  by_cases same : other = index
  · subst same
    simp [bit_setBit_self, inside]
  · simp [bit_setBit_of_ne same, same]

theorem count_clearBit (inside : index < bound) (set : bit image index = true) :
    count (clearBit image index) bound + 1 = count image bound := by
  unfold count
  rw [← Finset.card_insert_of_notMem (a := index) (by simp [bit_clearBit_self])]
  congr 1
  ext other
  by_cases same : other = index
  · subst same
    simp [set, inside]
  · simp [bit_clearBit_of_ne same, same]

end Counting

/-! ### The search -/

section Search

variable {image} {words index : Nat}

private theorem find_word (i : Nat) :
    (if wordAt image (4 * i) ≠ 0xFFFFFFFF then
        ((List.range 32).find? fun j => wordAt image (4 * i) &&& (1#32 <<< j) = 0).map (32 * i + ·)
      else none) =
      ((List.range 32).map (32 * i + ·)).find? fun index => !bit image index := by
  have clear : ∀ j < 32, (wordAt image (4 * i) &&& (1#32 <<< j) = 0 ↔
      bit image (32 * i + j) = false) := by
    intro j below
    rw [and_mask_eq_zero_iff _ below, bit, word, show (32 * i + j) / 32 = i by omega,
      show (32 * i + j) % 32 = j by omega]
  rw [List.find?_map]
  split
  · congr 1
    apply List.find?_congr
    intro j inWord
    rw [Function.comp_apply, Bool.eq_iff_iff, decide_eq_true_iff, Bool.not_eq_true']
    exact clear j (List.mem_range.mp inWord)
  · rename_i full
    rw [not_not] at full
    symm
    rw [Option.map_eq_none_iff, List.find?_range_eq_none]
    intro j below
    have set : ¬ bit image (32 * i + j) = false := by
      rw [← clear j below, full, and_mask_eq_zero_iff _ below,
        show (0xFFFFFFFF : Word) = BitVec.allOnes 32 from rfl, BitVec.getLsbD_allOnes]
      simp [below]
    simpa using set

/-- The two-level search is the search over all bits of the scanned words. -/
theorem findClear_eq_find (words : Nat) :
    findClear image words = (List.range (32 * words)).find? fun index => !bit image index := by
  unfold findClear
  simp only [find_word]
  induction words with
  | zero => rfl
  | succ words inductionHypothesis =>
      rw [@List.range_succ words, List.findSome?_append, inductionHypothesis, Nat.mul_succ,
        List.range_add, List.find?_append]
      simp only [List.findSome?_cons, List.findSome?_nil]
      cases ((List.range 32).map (32 * words + ·)).find? fun index => !bit image index <;> rfl

theorem findClear_eq_some_iff :
    findClear image words = some index ↔
      index < 32 * words ∧ bit image index = false ∧ ∀ earlier < index, bit image earlier = true := by
  rw [findClear_eq_find, List.find?_range_eq_some, List.mem_range]
  simp only [Bool.not_eq_true', Bool.not_not]
  exact and_left_comm

/-- The clear bits among the first `bound`, in order. -/
def clearBits (image : Image) (bound : Nat) : List Nat :=
  (List.range bound).filter fun index => !bit image index

theorem mem_clearBits {bound : Nat} :
    index ∈ clearBits image bound ↔ index < bound ∧ bit image index = false := by
  simp [clearBits]

theorem clearBits_succ (image : Image) (bound : Nat) :
    clearBits image (bound + 1) =
      clearBits image bound ++ if bit image bound = true then [] else [bound] := by
  rw [clearBits, clearBits, List.range_succ, List.filter_append, List.filter_singleton]
  cases bit image bound <;> rfl

/-- Every bit below the bound is set or clear. -/
theorem count_add_clearBits (image : Image) (bound : Nat) :
    count image bound + (clearBits image bound).length = bound := by
  induction bound with
  | zero => simp [count, clearBits]
  | succ bound inductionHypothesis =>
      rw [count, Finset.range_add_one, Finset.filter_insert, clearBits_succ]
      rw [count] at inductionHypothesis
      split
      · rw [Finset.card_insert_of_notMem (by simp), List.append_nil]
        omega
      · rw [List.length_append, List.length_singleton]
        omega

/-- Every bit below the bound is set exactly when as many are set. -/
theorem count_eq_iff {bound : Nat} :
    count image bound = bound ↔ ∀ index < bound, bit image index = true := by
  have split := count_add_clearBits image bound
  constructor
  · intro full index inside
    have none : clearBits image bound = [] := List.eq_nil_of_length_eq_zero (by omega)
    by_contra clear
    rw [Bool.not_eq_true] at clear
    have member := mem_clearBits.mpr ⟨inside, clear⟩
    rw [none] at member
    exact List.not_mem_nil member
  · intro full
    have none : clearBits image bound = [] := by
      rw [List.eq_nil_iff_forall_not_mem]
      intro index member
      obtain ⟨inside, clear⟩ := mem_clearBits.mp member
      rw [full index inside] at clear
      contradiction
    rw [none] at split
    exact split

/-- The elements below `low` and those from `low` up to `high`, counted together. -/
theorem length_filter_range_max (low high : Nat) (P : Nat → Prop) [DecidablePred P] :
    ((List.range low).filter fun index => P index).length +
        ((List.range high).filter fun index => low ≤ index ∧ P index).length =
      ((List.range (max low high)).filter fun index => P index).length := by
  induction high with
  | zero => simp
  | succ high inductionHypothesis =>
      rw [List.range_succ, List.filter_append, List.length_append, ← Nat.add_assoc,
        inductionHypothesis, List.filter_singleton]
      by_cases past : low ≤ high
      · rw [Nat.max_eq_right past, Nat.max_eq_right (by omega), List.range_succ,
          List.filter_append, List.length_append, List.filter_singleton]
        simp only [past, true_and]
      · rw [Nat.max_eq_left (by omega), Nat.max_eq_left (by omega)]
        simp [past]

/-- A number is among the first `count` hits below `bound` exactly when it is a hit and fewer
than `count` come before it. -/
theorem mem_take_filter_range {bound count x : Nat} (P : Nat → Prop) [DecidablePred P] :
    x ∈ ((List.range bound).filter fun index => P index).take count ↔
      x < bound ∧ P x ∧ ((List.range x).filter fun index => P index).length < count := by
  induction bound with
  | zero => simp
  | succ bound inductionHypothesis =>
      have last : x ∈ (if P bound then [bound] else []).take
          (count - ((List.range bound).filter fun index => P index).length) ↔
            x = bound ∧ P bound ∧
              ((List.range bound).filter fun index => P index).length < count := by
        by_cases hit : P bound
        · rw [if_pos hit]
          rcases Nat.eq_zero_or_pos
            (count - ((List.range bound).filter fun index => P index).length) with full | room
          · rw [full, List.take_zero]
            exact iff_of_false List.not_mem_nil fun any => by omega
          · rw [List.take_of_length_le (by rw [List.length_singleton]; omega), List.mem_singleton]
            exact (and_iff_left ⟨hit, by omega⟩).symm
        · rw [if_neg hit, List.take_nil]
          exact iff_of_false List.not_mem_nil fun any => hit any.2.1
      have split : (List.range (bound + 1)).filter (fun index => decide (P index)) =
          (List.range bound).filter (fun index => decide (P index)) ++
            if P bound then [bound] else [] := by
        rw [List.range_succ, List.filter_append, List.filter_singleton]
        by_cases hit : P bound <;> simp [hit]
      rw [split, List.take_append, List.mem_append, inductionHypothesis, last]
      constructor
      · rintro (⟨below, hit, few⟩ | ⟨rfl, hit, few⟩)
        · exact ⟨by omega, hit, few⟩
        · exact ⟨Nat.lt_succ_self x, hit, few⟩
      · rintro ⟨below, hit, few⟩
        rcases Nat.lt_or_eq_of_le (Nat.le_of_lt_succ below) with lower | rfl
        · exact .inl ⟨lower, hit, few⟩
        · exact .inr ⟨rfl, hit, few⟩

theorem findClear_eq_head? (words : Nat) :
    findClear image words = (clearBits image (32 * words)).head? := by
  rw [findClear_eq_find, clearBits, List.head?_filter]

/-- Setting the first clear bit leaves the others. -/
theorem clearBits_setBit {bound : Nat} {rest : List Nat}
    (first : clearBits image bound = index :: rest) :
    clearBits (setBit image index) bound = rest := by
  have distinct : (index :: rest).Nodup := by
    rw [← first]
    exact List.nodup_range.filter _
  calc clearBits (setBit image index) bound
      = (clearBits image bound).filter fun other => decide (other ≠ index) := by
        rw [clearBits, clearBits, List.filter_filter]
        apply List.filter_congr
        intro other _
        rw [bit_setBit, Bool.not_or, decide_not]
    _ = rest := by
        rw [first, List.filter_cons_of_neg (by simp)]
        apply List.filter_eq_self.mpr
        intro other member
        exact decide_eq_true (by rintro rfl; exact (List.nodup_cons.mp distinct).1 member)

theorem findClear_eq_none_iff :
    findClear image words = none ↔ ∀ index < 32 * words, bit image index = true := by
  rw [findClear_eq_find]
  simp

end Search

end Bitmap

end BrainDance.Foundation
